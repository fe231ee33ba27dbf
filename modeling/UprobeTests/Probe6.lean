/-
  UprobeTests.Probe6

  uprobes.existing/rprobe6.c and uprobes.existing/probe6.c: every function of a
  table gets a uprobe, and in rprobe6 a uretprobe where the architecture has
  them.  A failure at any entry, between its two registrations included, is
  rolled back: `init_module` is all or nothing, and the exit function gives
  back each probe once (`init_allOrNothing`).
-/

import UprobeTests.Lib.Ledger
import UprobeTests.Uinfo
import UprobeTests.Udbgfs

namespace UprobeTests

namespace Probe6

/-- The member of an entry of `probes[]` a call is about. -/
inductive Handle where
  | u (i : Nat)
  | rp (i : Nat)
deriving DecidableEq, Repr

/-- `struct probe_info`, without the counters of the handlers. -/
structure ProbeInfo (t : Target) where
  fname : String
  registered : Bool
  u : Uprobe t.ulongBits
  rp : Uprobe t.ulongBits

/-- One of the two modules. -/
structure Module where
  name : String
  /-- ARCH_SUPPORTS_URETPROBES, in the module that asks for it -/
  uretprobes : Bool
  /-- and UPROBES_INIT_URETPROBES within it -/
  initUretprobes : Bool

def rprobe6 (archSupportsUretprobes uprobesInitUretprobes : Bool) : Module :=
  ⟨"rprobe6", archSupportsUretprobes, archSupportsUretprobes && uprobesInitUretprobes⟩

def probe6 : Module := ⟨"probe6", false, false⟩

/-- The module parameter and the results of the calls, by table entry. -/
structure Scenario (t : Target) where
  pid : Int
  kern : Outcomes
  trampolineAddr : BitVec t.ulongBits
  initUretprobes : Int
  findVaddr : Nat → String → BitVec t.ulongBits
  registerUprobe : Nat → Int
  registerUretprobe : Nat → Int

/-- The kernel's side: debugfs, and who is registered. -/
structure Sys where
  kern : Kern
  ledger : Ledger Handle

def Sys.testPrintk (s : Sys) (text : String) : Sys := { s with kern := s.kern.testPrintk text }

/-- `register_uprobe` and `register_uretprobe`. -/
def Sys.register (s : Sys) (x : Handle) (ret : Int) : Sys :=
  { s with ledger := s.ledger.register x ret }

/-- `unregister_uprobe` and `unregister_uretprobe`. -/
def Sys.unregister (s : Sys) (x : Handle) : Sys := { s with ledger := s.ledger.unregister x }

structure State (t : Target) where
  sys : Sys
  probes : List (ProbeInfo t)

section Model

variable {t : Target} (m : Module) (sc : Scenario t)

/-- `register_probes`, on entry `i`. -/
def registerProbes (i : Nat) (pi : ProbeInfo t) (s : Sys) : Int × ProbeInfo t × Sys :=
  let vaddr := sc.findVaddr i pi.fname
  let pi := { pi with u := { pi.u with pid := sc.pid, vaddr := vaddr } }
  if vaddr = 0 then (-1, pi, s.testPrintk ("Unknown function " ++ pi.fname ++ "\n"))
  else
    let pi := { pi with u := { pi.u with handler := .uHandler } }
    let ret := sc.registerUprobe i
    let s := s.register (.u i) ret
    if ret ≠ 0 then
      (-1, pi, s.testPrintk
        ("register_uprobe for " ++ pi.fname ++ " returned " ++ toString ret ++ "\n"))
    else if m.uretprobes then
      let pi := { pi with rp := ⟨sc.pid, vaddr, .rpHandler⟩ }
      let ret := sc.registerUretprobe i
      let s := s.register (.rp i) ret
      if ret ≠ 0 then
        (-1, pi, (s.testPrintk
          ("register_uretprobe for " ++ pi.fname ++ " returned " ++ toString ret ++ "\n")).unregister
            (.u i))
      else (0, { pi with registered := true }, s)
    else (0, { pi with registered := true }, s)

/-- The loop of the init function over the entries from `i` on. -/
def registerFrom (i : Nat) : List (ProbeInfo t) → Sys → Bool × List (ProbeInfo t) × Sys
  | [], s => (true, [], s)
  | pi :: rest, s =>
      match registerProbes m sc i pi
          (s.testPrintk ("Registering probes for " ++ pi.fname ++ "\n")) with
      | (ret, pi, s) =>
          if ret ≠ 0 then (false, pi :: rest, s)
          else
            match registerFrom (i + 1) rest s with
            | (ok, rest, s) => (ok, pi :: rest, s)

/-- What of entry `i` is registered when its flag is set. -/
def handles (i : Nat) : List Handle := if m.uretprobes then [.u i, .rp i] else [.u i]

/-- The loop of `unregister_all` over the entries from `i` on. -/
def unregisterFrom (i : Nat) : List (ProbeInfo t) → Sys → Sys
  | [], s => s
  | pi :: rest, s =>
      let s :=
        if pi.registered then
          let s := s.unregister (.u i)
          if m.uretprobes then s.unregister (.rp i) else s
        else s
      unregisterFrom (i + 1) rest s

def unregisterAll (s : State t) : State t :=
  { s with sys := unregisterFrom m 0 s.probes s.sys }

def cleanup (s : State t) : State t :=
  { s with sys := { s.sys with kern := uDbfsCleanup s.sys.kern } }

/-- `rprobe6_init` and `probe6_init`. -/
def init (s : State t) : Int × State t :=
  match uDbfsInit sc.kern m.name s.sys.kern with
  | (ret, kern) =>
      let s := { s with sys := { s.sys with kern := kern } }
      if ret ≠ 0 then (-1, s)
      else if m.initUretprobes ∧ sc.trampolineAddr = 0 then (-1, cleanup s)
      else if m.initUretprobes ∧ sc.initUretprobes ≠ 0 then (-1, cleanup s)
      else
        let probes := s.probes.map fun pi => { pi with registered := false }
        match registerFrom m sc 0 probes s.sys with
        | (ok, probes, sys) =>
            if ok then (0, ⟨sys, probes⟩) else (-1, cleanup (unregisterAll m ⟨sys, probes⟩))

/-- `rprobe6_exit` and `probe6_exit`. -/
def exit (s : State t) : State t := cleanup (unregisterAll m s)

/-- Before the init function, for the table `fnames`. -/
def loaded (fnames : List String) : State t where
  sys := ⟨.init, .empty⟩
  probes := fnames.map fun fname => ⟨fname, false, .zero _, .zero _⟩

end Model

/-! ## One entry -/

variable {t : Target} {m : Module} {sc : Scenario t}

/-- What is registered for the entries from `i` on, by their flags. -/
def held (m : Module) (i : Nat) : List (ProbeInfo t) → List Handle
  | [] => []
  | pi :: rest => (if pi.registered then handles m i else []) ++ held m (i + 1) rest

/-- The entry of a handle. -/
def Handle.index : Handle → Nat
  | .u i => i
  | .rp i => i

/-- `register_probes` registers all of an entry, or leaves nothing of it. -/
theorem registerProbes_spec (m : Module) (sc : Scenario t) {i : Nat} {pi : ProbeInfo t} {s : Sys}
    (hs : s.ledger.Sound)
    (hfresh : ∀ x ∈ s.ledger.accepted, x.index < i) (hpi : pi.registered = false) :
    match registerProbes m sc i pi s with
    | (ret, pi', s') =>
        s'.ledger.Sound ∧ (∀ x ∈ s'.ledger.accepted, x.index < i + 1) ∧
        if ret = 0 then
          pi'.registered = true ∧ s'.ledger.registered = s.ledger.registered ++ handles m i ∧
            s'.ledger.accepted = s.ledger.accepted ++ handles m i
        else
          pi'.registered = false ∧ s'.ledger.registered = s.ledger.registered := by
  have hu : Handle.u i ∉ s.ledger.accepted := fun h => Nat.lt_irrefl i (hfresh _ h)
  have hrp : Handle.rp i ∉ s.ledger.accepted := fun h => Nat.lt_irrefl i (hfresh _ h)
  have hbelow : ∀ x ∈ s.ledger.accepted, x.index < i + 1 := fun x hx =>
    Nat.lt_succ_of_lt (hfresh x hx)
  have hbelow' : ∀ xs : List Handle, (∀ x ∈ xs, x.index = i) →
      ∀ x ∈ s.ledger.accepted ++ xs, x.index < i + 1 := by
    intro xs hxs x hx
    rcases List.mem_append.mp hx with hold | hnew
    · exact hbelow x hold
    · rw [hxs x hnew]
      exact Nat.lt_succ_self i
  by_cases hvaddr : sc.findVaddr i pi.fname = 0
  · simp only [registerProbes, hvaddr, if_pos]
    exact ⟨hs, hbelow, hpi, rfl⟩
  by_cases hret : sc.registerUprobe i = 0
  · have hs₁ := hs.register hu 0
    rw [Ledger.register_zero] at hs₁
    by_cases hm : m.uretprobes = true
    · have hrp₁ : Handle.rp i ∉ s.ledger.accepted ++ [.u i] := by simpa using hrp
      by_cases hret' : sc.registerUretprobe i = 0
      · have hs₂ := hs₁.register hrp₁ 0
        rw [Ledger.register_zero] at hs₂
        simp only [registerProbes, hvaddr, hret, hm, hret', handles, Sys.register,
          Ledger.register_zero, List.append_assoc, List.cons_append, List.nil_append,
          if_true, if_false, ne_eq, not_true_eq_false] at hs₂ ⊢
        exact ⟨hs₂, hbelow' _ (by simp [Handle.index]), trivial, trivial, trivial⟩
      · -- the rollback takes the uprobe of this entry back
        have hs₂ := hs₁.unregister (x := .u i) (by simp)
        simp only [registerProbes, hvaddr, hret, hm, hret', Sys.register, Sys.unregister,
          Sys.testPrintk, Ledger.register_zero, Ledger.register_of_ne_zero _ _ hret',
          if_true, if_false, ne_eq, not_true_eq_false, not_false_eq_true]
        refine ⟨hs₂, hbelow' _ (by simp [Handle.index]), ?_⟩
        rw [if_neg (by decide)]
        exact ⟨hpi, Ledger.registered_unregister_last (fun h => hu (hs.mem_accepted h)) rfl⟩
    · simp only [registerProbes, hvaddr, hret, hm, handles, Sys.register, Ledger.register_zero,
        if_true, if_false, ne_eq, not_true_eq_false, Bool.false_eq_true]
      exact ⟨hs₁, hbelow' _ (by simp [Handle.index]), trivial, trivial, trivial⟩
  · simp only [registerProbes, hvaddr, hret, Sys.testPrintk, Sys.register,
      Ledger.register_of_ne_zero _ _ hret, if_true, if_false, ne_eq, not_false_eq_true]
    exact ⟨hs, hbelow, hpi, trivial⟩

/-! ## The table -/

theorem held_of_unset {i : Nat} {probes : List (ProbeInfo t)}
    (h : ∀ pi ∈ probes, pi.registered = false) : held m i probes = [] := by
  induction probes generalizing i with
  | nil => rfl
  | cons pi rest ih =>
      rw [held, h pi List.mem_cons_self, ih fun pi' hpi' => h pi' (List.mem_cons_of_mem pi hpi')]
      rfl

/-- The loop registers what the flags it sets say; when no entry fails it sets
    them all. -/
theorem registerFrom_spec (m : Module) (sc : Scenario t) {i : Nat} {probes : List (ProbeInfo t)}
    {s : Sys}
    (hs : s.ledger.Sound) (hfresh : ∀ x ∈ s.ledger.accepted, x.index < i)
    (hprobes : ∀ pi ∈ probes, pi.registered = false) :
    match registerFrom m sc i probes s with
    | (ok, probes', s') =>
        s'.ledger.Sound ∧ probes'.length = probes.length ∧
        s'.ledger.registered = s.ledger.registered ++ held m i probes' ∧
        (ok = true → (∀ pi ∈ probes', pi.registered = true) ∧
          s'.ledger.accepted = s.ledger.accepted ++ held m i probes') := by
  induction probes generalizing i s with
  | nil => simp [registerFrom, held, hs]
  | cons pi rest ih =>
      have hone := registerProbes_spec m sc
        (s := s.testPrintk ("Registering probes for " ++ pi.fname ++ "\n")) hs hfresh
        (hprobes pi List.mem_cons_self)
      have hrest : ∀ pi' ∈ rest, pi'.registered = false := fun pi' hpi' =>
        hprobes pi' (List.mem_cons_of_mem pi hpi')
      rw [registerFrom]
      generalize registerProbes m sc i pi _ = r at hone ⊢
      obtain ⟨ret, pi₁, s₁⟩ := r
      dsimp only at hone ⊢
      obtain ⟨hs₁, hfresh₁, hcase⟩ := hone
      by_cases hret : ret = 0
      · -- the loop goes on behind what this entry has registered
        rw [if_neg (not_not.mpr hret)]
        rw [if_pos hret] at hcase
        obtain ⟨hflag, hreg, hacc⟩ := hcase
        have htail := ih hs₁ hfresh₁ hrest
        generalize registerFrom m sc (i + 1) rest s₁ = r at htail ⊢
        obtain ⟨ok, rest', s₂⟩ := r
        dsimp only at htail ⊢
        obtain ⟨hs₂, hlength, hreg₂, hok⟩ := htail
        refine ⟨hs₂, by simp [hlength], ?_, fun h => ⟨?_, ?_⟩⟩
        · rw [hreg₂, hreg, held, hflag, if_pos rfl, List.append_assoc]
          rfl
        · exact List.forall_mem_cons.mpr ⟨hflag, (hok h).1⟩
        · rw [(hok h).2, hacc, held, hflag, if_pos rfl, List.append_assoc]
          rfl
      · rw [if_pos hret]
        rw [if_neg hret] at hcase
        obtain ⟨hflag, hreg⟩ := hcase
        refine ⟨hs₁, rfl, ?_, fun h => Bool.noConfusion h⟩
        rw [hreg, held_of_unset (List.forall_mem_cons.mpr ⟨hflag, hrest⟩), List.append_nil]
        rfl

theorem unregisterFrom_ledger (i : Nat) (probes : List (ProbeInfo t)) (s : Sys) :
    (unregisterFrom m i probes s).ledger = s.ledger.unregisterEach (held m i probes) := by
  induction probes generalizing i s with
  | nil => rfl
  | cons pi rest ih =>
      rw [unregisterFrom, ih, held, Ledger.unregisterEach, Ledger.unregisterEach,
        List.foldl_append]
      congr 1
      cases hflag : pi.registered with
      | false => rfl
      | true =>
          rw [handles]
          cases m.uretprobes <;> rfl

/-- `unregister_all` gives back what the flags say is registered. -/
theorem unregisterAll_settled {s : State t} (hs : s.sys.ledger.Sound)
    (hreg : s.sys.ledger.registered = held m 0 s.probes) :
    (unregisterAll m s).sys.ledger.Settled := by
  rw [unregisterAll, unregisterFrom_ledger]
  have hreg' : s.sys.ledger.registered = held m 0 s.probes ++ [] := by
    rw [hreg, List.append_nil]
  have hall := hs.unregisterEach hreg'
  exact hall.1.settled hall.2

/-! ## The two modules -/

/-- What both probes of every entry of a table of length `n` are called. -/
def allHandles (m : Module) (n : Nat) : List Handle := (List.range n).flatMap (handles m)

theorem held_of_set {i : Nat} {probes : List (ProbeInfo t)}
    (h : ∀ pi ∈ probes, pi.registered = true) :
    held m i probes = (List.range' i probes.length).flatMap (handles m) := by
  induction probes generalizing i with
  | nil => rfl
  | cons pi rest ih =>
      rw [held, h pi List.mem_cons_self, ih fun pi' hpi' => h pi' (List.mem_cons_of_mem pi hpi')]
      rfl

/-- What an init function for a table of length `n` may leave: when it fails,
    each probe it had registered given back once and nothing else; when it
    succeeds, every probe registered and every entry marked, and all of them
    given back once and nothing else by the exit function. -/
structure AllOrNothing (m : Module) (n : Nat) (r : Int × State t) : Prop where
  failed : r.1 ≠ 0 → r.2.sys.ledger.Settled
  marked : r.1 = 0 → r.2.probes.length = n ∧ ∀ pi ∈ r.2.probes, pi.registered = true
  registered : r.1 = 0 → r.2.sys.ledger.registered = allHandles m n ∧
    r.2.sys.ledger.unregisterCalls = []
  exited : r.1 = 0 → (exit m r.2).sys.ledger.accepted = allHandles m n ∧
    (exit m r.2).sys.ledger.Settled

theorem allOrNothing_of_failed {n : Nat} {s : State t} (h : s.sys.ledger.Settled) :
    AllOrNothing m n (-1, s) where
  failed _ := h
  marked h := absurd (show (-1 : Int) = 0 from h) (by decide)
  registered h := absurd (show (-1 : Int) = 0 from h) (by decide)
  exited h := absurd (show (-1 : Int) = 0 from h) (by decide)

/-- The loop, the sweep after a failure, and the exit function after a success. -/
theorem registerFrom_allOrNothing (sc : Scenario t) {probes : List (ProbeInfo t)} (kern : Kern)
    (hprobes : ∀ pi ∈ probes, pi.registered = false) :
    AllOrNothing m probes.length
      (match registerFrom m sc 0 probes ⟨kern, .empty⟩ with
      | (ok, probes, sys) =>
          if ok then (0, ⟨sys, probes⟩) else (-1, cleanup (unregisterAll m ⟨sys, probes⟩))) := by
  have hloop := registerFrom_spec m sc (i := 0) (s := ⟨kern, .empty⟩)
    Ledger.sound_empty (fun x hx => absurd hx List.not_mem_nil) hprobes
  generalize registerFrom m sc 0 probes _ = r at hloop ⊢
  obtain ⟨ok, probes', sys⟩ := r
  dsimp only at hloop ⊢
  obtain ⟨hsound, hlength, hreg, hok⟩ := hloop
  have hsettled := unregisterAll_settled (s := ⟨sys, probes'⟩) hsound hreg
  cases ok with
  | false => exact allOrNothing_of_failed hsettled
  | true =>
      obtain ⟨hflags, hacc⟩ := hok rfl
      have hall : held m 0 probes' = allHandles m probes.length := by
        rw [held_of_set hflags, hlength, allHandles, List.range_eq_range']
      refine ⟨fun h => absurd rfl h, fun _ => ⟨hlength, hflags⟩, fun _ => ⟨?_, ?_⟩,
        fun _ => ⟨?_, hsettled⟩⟩
      · rw [← hall]
        exact hreg
      · -- everybody accepted is still registered
        have hcount := hsound.accounted.length_eq
        rw [hreg, hacc] at hcount
        simpa [Ledger.empty] using hcount
      · rw [← hall]
        refine Eq.trans ?_ hacc
        show (unregisterFrom m 0 probes' sys).ledger.accepted = _
        rw [unregisterFrom_ledger, Ledger.unregisterEach_accepted]

/-- rprobe6 and probe6, for a table of any length and all outcomes. -/
theorem init_allOrNothing (m : Module) (sc : Scenario t) (fnames : List String) :
    AllOrNothing m fnames.length (init m sc (loaded fnames)) := by
  have hempty : (Ledger.empty : Ledger Handle).Settled := Ledger.sound_empty.settled rfl
  rw [init]
  generalize uDbfsInit sc.kern m.name _ = r
  obtain ⟨ret, kern⟩ := r
  dsimp only
  -- before the loop nothing has been registered
  by_cases hdbfs : ret ≠ 0
  · rw [if_pos hdbfs]
    exact allOrNothing_of_failed hempty
  rw [if_neg hdbfs]
  by_cases hmain : m.initUretprobes ∧ sc.trampolineAddr = 0
  · rw [if_pos hmain]
    exact allOrNothing_of_failed hempty
  rw [if_neg hmain]
  by_cases htrampoline : m.initUretprobes ∧ sc.initUretprobes ≠ 0
  · rw [if_pos htrampoline]
    exact allOrNothing_of_failed hempty
  rw [if_neg htrampoline]
  have hlength : fnames.length = ((loaded (t := t) fnames).probes.map
      fun pi => { pi with registered := false }).length := by simp [loaded]
  rw [hlength]
  exact registerFrom_allOrNothing sc kern (by simp)

/-- The calls for entry `i`, of the function `fname`, all succeed. -/
def EntrySucceeds (m : Module) (sc : Scenario t) (i : Nat) (fname : String) : Prop :=
  sc.findVaddr i fname ≠ 0 ∧ sc.registerUprobe i = 0 ∧
    (m.uretprobes = true → sc.registerUretprobe i = 0)

theorem registerProbes_eq_zero_iff (m : Module) (sc : Scenario t) (i : Nat) (pi : ProbeInfo t)
    (s : Sys) : (registerProbes m sc i pi s).1 = 0 ↔ EntrySucceeds m sc i pi.fname := by
  have hfailed : (-1 : Int) ≠ 0 := by decide
  rw [registerProbes]
  dsimp only
  by_cases hvaddr : sc.findVaddr i pi.fname = 0
  · rw [if_pos hvaddr]
    exact iff_of_false hfailed fun h => h.1 hvaddr
  rw [if_neg hvaddr]
  by_cases hret : sc.registerUprobe i ≠ 0
  · rw [if_pos hret]
    exact iff_of_false hfailed fun h => hret h.2.1
  rw [if_neg hret]
  by_cases hm : m.uretprobes = true
  · rw [if_pos hm]
    by_cases hret' : sc.registerUretprobe i ≠ 0
    · rw [if_pos hret']
      exact iff_of_false hfailed fun h => hret' (h.2.2 hm)
    · rw [if_neg hret']
      exact iff_of_true rfl ⟨hvaddr, not_not.mp hret, fun _ => not_not.mp hret'⟩
  · rw [if_neg hm]
    exact iff_of_true rfl ⟨hvaddr, not_not.mp hret, fun h => absurd h hm⟩

/-- The loop gets to the end of the table when no entry fails. -/
theorem registerFrom_ok_iff (m : Module) (sc : Scenario t) (i : Nat) (probes : List (ProbeInfo t))
    (s : Sys) : (registerFrom m sc i probes s).1 = true ↔
      ∀ j pi, probes[j]? = some pi → EntrySucceeds m sc (i + j) pi.fname := by
  induction probes generalizing i s with
  | nil => simp [registerFrom]
  | cons pi rest ih =>
      have hone := registerProbes_eq_zero_iff m sc i pi
        (s.testPrintk ("Registering probes for " ++ pi.fname ++ "\n"))
      have hsplit : (∀ j pi', (pi :: rest)[j]? = some pi' → EntrySucceeds m sc (i + j) pi'.fname) ↔
          EntrySucceeds m sc i pi.fname ∧
            ∀ j pi', rest[j]? = some pi' → EntrySucceeds m sc (i + 1 + j) pi'.fname := by
        constructor
        · intro h
          refine ⟨h 0 pi rfl, fun j pi' hj => ?_⟩
          have hnext := h (j + 1) pi' hj
          rwa [show i + (j + 1) = i + 1 + j by omega] at hnext
        · rintro ⟨hfirst, hrest⟩ j pi' hj
          cases j with
          | zero =>
              obtain rfl := Option.some.inj hj
              exact hfirst
          | succ j =>
              rw [show i + (j + 1) = i + 1 + j by omega]
              exact hrest j pi' hj
      rw [hsplit, ← hone, registerFrom]
      generalize registerProbes m sc i pi _ = r
      obtain ⟨ret, pi₁, s₁⟩ := r
      dsimp only
      by_cases hret : ret = 0
      · rw [if_neg (not_not.mpr hret), and_iff_right hret]
        exact ih (i + 1) s₁
      · rw [if_pos hret]
        exact iff_of_false Bool.false_ne_true fun h => hret h.1

/-- The init functions succeed when everything they call does, and only then. -/
theorem init_eq_zero_iff (m : Module) (sc : Scenario t) (fnames : List String) :
    (init m sc (loaded fnames)).1 = 0 ↔
      (uDbfsInit sc.kern m.name .init).1 = 0 ∧
      (m.initUretprobes = true → sc.trampolineAddr ≠ 0 ∧ sc.initUretprobes = 0) ∧
      ∀ i fname, fnames[i]? = some fname → EntrySucceeds m sc i fname := by
  have hloop : ∀ s : Sys, (registerFrom m sc 0 ((loaded (t := t) fnames).probes.map
      fun pi => { pi with registered := false }) s).1 = true ↔
        ∀ i fname, fnames[i]? = some fname → EntrySucceeds m sc i fname := by
    intro s
    rw [registerFrom_ok_iff]
    simp [loaded]
  have hfailed : (-1 : Int) ≠ 0 := by decide
  have hdbfs : (loaded (t := t) fnames).sys.kern = .init := rfl
  rw [init, hdbfs]
  generalize uDbfsInit sc.kern m.name .init = r
  obtain ⟨ret, kern⟩ := r
  dsimp only
  by_cases hret : ret = 0
  · rw [if_neg (not_not.mpr hret)]
    by_cases hmain : m.initUretprobes = true ∧ sc.trampolineAddr = 0
    · rw [if_pos hmain]
      exact iff_of_false hfailed fun h => (h.2.1 hmain.1).1 hmain.2
    rw [if_neg hmain]
    by_cases htrampoline : m.initUretprobes = true ∧ sc.initUretprobes ≠ 0
    · rw [if_pos htrampoline]
      exact iff_of_false hfailed fun h => htrampoline.2 (h.2.1 htrampoline.1).2
    rw [if_neg htrampoline, and_iff_right hret, and_iff_right
      fun hinit => ⟨fun h => hmain ⟨hinit, h⟩, not_not.mp fun h => htrampoline ⟨hinit, h⟩⟩]
    generalize hrun : registerFrom m sc 0 _ _ = r
    obtain ⟨ok, probes, sys⟩ := r
    have hok : ok = true ↔ ∀ i fname, fnames[i]? = some fname → EntrySucceeds m sc i fname := by
      have hfirst := congrArg Prod.fst hrun
      dsimp only at hfirst
      rw [← hfirst]
      exact hloop ⟨kern, .empty⟩
    rw [← hok]
    cases ok with
    | false => exact iff_of_false hfailed Bool.false_ne_true
    | true => exact iff_of_true rfl rfl
  · rw [if_pos hret]
    exact iff_of_false hfailed fun h => hret h.1

end Probe6

end UprobeTests
