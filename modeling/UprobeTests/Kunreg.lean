/-
  UprobeTests.Kunreg

  uprobes.w/kunreg.c: `register_all` registers a consumer for each symbol that
  starts with "_probe" and notes it in `probes[]`; `unregister_all` goes over
  the array.  Both are called any number of times in any order.

  `unregister_all` goes up to and including index `num_reg_probes`, and
  `register_all` starts over at index 0 whether or not the array has been
  unregistered.  So the calls balance only in runs in which every
  `unregister_all` finds the counter at 0 and a single registration, the one in
  `probes[0]` (`balanced_iff`).
-/

import UprobeTests.ProbeModule

namespace UprobeTests

/-- MAX_PROBES. -/
def maxProbes : Nat := 100

/-- The module with its globals.  The last two fields are the history of
    `probes[]` and of the kernel's calls: the indices used so far, and the
    arguments of the calls of `uprobe_unregister`, each with whether it was
    registered at that moment. -/
structure Kunreg where
  kern : Kern
  numRegProbes : Nat
  probes : Nat → Registration
  accesses : List Nat
  unregisterCalls : List (Registration × Bool)

namespace Kunreg

section Code

variable (o : Outcomes) (syms : List Symbol)

/-- One turn of the loop of `register_all`. -/
def registerOne (found : String) (s : Kunreg) : Option Int × Kunreg :=
  match s.kern.kzalloc o with
  | (none, k) => (some 0, { s with kern := k.testPrintk "kzalloc() failed, returned NULL" })
  | (some usp, k) =>
      match findInode o found syms k with
      | (inode, k) =>
          let offset := findOffset found syms
          let k := (k.setHandler usp .probeHandler).testPrintk (registeringText inode offset found)
          match k.uprobeRegister o inode offset usp with
          | (ret, k) =>
              if ret ≠ 0 ∧ ret ≠ -einprogress then
                (some 0, { s with
                  kern := k.testPrintk ("register_uprobe() failed, returned " ++ toString ret ++ "\n") })
              else
                let n := s.numRegProbes
                (none, { s with
                  kern := (k.testPrintk "OK\n").testPrintk
                    ("Number of registerd probes = " ++ toString (n + 1) ++ " \n")
                  probes := Function.update s.probes n ⟨inode, offset, some usp⟩
                  accesses := s.accesses ++ [n]
                  numRegProbes := n + 1 })

/-- `register_all`. -/
def registerAll (s : Kunreg) : Int × Kunreg :=
  match forEachGlob syms "_probe" (fun _ => registerOne o syms) { s with numRegProbes := 0 } with
  | (some ret, s) => (ret, s)
  | (none, s) => (0, s)

/-- One turn of the loop of `unregister_all`. -/
def unregisterOne (s : Kunreg) (i : Nat) : Kunreg :=
  { s with
    kern := s.kern.uprobeUnregister (s.probes i)
    accesses := s.accesses ++ [i]
    unregisterCalls :=
      s.unregisterCalls ++ [(s.probes i, decide (s.probes i ∈ s.kern.registered))] }

/-- `unregister_all`: `for (i=0; i<=num_reg_probes; i++)`. -/
def unregisterAll (s : Kunreg) : Kunreg := (List.range (s.numRegProbes + 1)).foldl unregisterOne s

/-- The module as loaded: its globals are zero. -/
def loaded (k : Kern) : Kunreg where
  kern := k
  numRegProbes := 0
  probes _ := ⟨none, 0, none⟩
  accesses := []
  unregisterCalls := []

/-- `init_module`, without UPROBES_REG_CALLBACK. -/
def initModule (k : Kern) : Int × Kunreg :=
  if initUprobe o < 0 then (-1, loaded k)
  else
    match uDbfsInit o "kunreg" k with
    | (ret, k) =>
        if ret < 0 then (-1, loaded k)
        else (0, (registerAll o syms (loaded k)).2)

/-- `cleanup_module`. -/
def cleanupModule (s : Kunreg) : Kunreg :=
  let s := unregisterAll s
  { s with kern := uDbfsCleanup s.kern }

/-- What the handlers on `reg_all` and `unreg_all` call. -/
inductive Call where
  | registerAll
  | unregisterAll
deriving DecidableEq, Repr

def exec (s : Kunreg) : Call → Kunreg
  | .registerAll => (registerAll o syms s).2
  | .unregisterAll => unregisterAll s

def run (calls : List Call) (s : Kunreg) : Kunreg := calls.foldl (exec o syms) s

/-- `P` holds between the state before and the state after every
    `unregister_all` of a run. -/
def EachUnregister (P : Kunreg → Kunreg → Prop) : List Call → Kunreg → Prop
  | [], _ => True
  | .registerAll :: calls, s => EachUnregister P calls (registerAll o syms s).2
  | .unregisterAll :: calls, s =>
      P s (unregisterAll s) ∧ EachUnregister P calls (unregisterAll s)

/-- The states of a run of the loaded module: `calls` between `init_module` and
    `cleanup_module`. -/
def final (calls : List Call) : Kunreg :=
  cleanupModule (run o syms calls (initModule o syms .init).2)

/-- Registrations and unregistrations balance, `probes[]` stays in bounds. -/
structure Balanced (calls : List Call) : Prop where
  unregistersRegistered : ∀ c ∈ (final o syms calls).unregisterCalls, c.2 = true
  undoneOnce : ∀ r ∈ (final o syms calls).kern.accepted,
    ((final o syms calls).unregisterCalls.map Prod.fst).count r = 1
  noneLeft : EachUnregister o syms (fun _ s' => s'.kern.registered = [])
    (calls ++ [.unregisterAll]) (initModule o syms .init).2
  inBounds : ∀ i ∈ (final o syms calls).accesses, i < maxProbes

end Code

/-- The counter is 0 and the only registration is the one in `probes[0]`. -/
structure OneRegistered (s : Kunreg) : Prop where
  numRegProbes : s.numRegProbes = 0
  registered : s.kern.registered = [s.probes 0]

/-! ## What register_all does -/

/-- `register_all` has registered `new`, with fresh consumers, and noted it from
    index 0 on. -/
structure Registers (s s' : Kunreg) (new : List Registration) : Prop where
  registered : s'.kern.registered = s.kern.registered ++ new
  accepted : s'.kern.accepted = s.kern.accepted ++ new
  numRegProbes : s'.numRegProbes = new.length
  probes : ∀ i, s'.probes i = new[i]?.getD (s.probes i)
  accesses : s'.accesses = s.accesses ++ List.range new.length
  unregisterCalls : s'.unregisterCalls = s.unregisterCalls
  kzallocCalls : s.kern.kzallocCalls ≤ s'.kern.kzallocCalls
  fresh : ∀ r ∈ new, ∃ n, r.usp = some n ∧
    s.kern.kzallocCalls ≤ n ∧ n < s'.kern.kzallocCalls

variable {o : Outcomes} {syms : List Symbol}

theorem registers_start (s : Kunreg) : Registers s { s with numRegProbes := 0 } [] where
  registered := (List.append_nil _).symm
  accepted := (List.append_nil _).symm
  numRegProbes := rfl
  probes _ := rfl
  accesses := (List.append_nil _).symm
  unregisterCalls := rfl
  kzallocCalls := Nat.le_refl _
  fresh _ h := absurd h List.not_mem_nil

/-- A later state of the same calls, counter and array. -/
theorem Registers.step_none {s s' s'' : Kunreg} {new : List Registration} (h : Registers s s' new)
    (hregistered : s''.kern.registered = s'.kern.registered)
    (haccepted : s''.kern.accepted = s'.kern.accepted)
    (hkz : s'.kern.kzallocCalls ≤ s''.kern.kzallocCalls)
    (hself : s'' = { s' with kern := s''.kern }) : Registers s s'' new where
  registered := hregistered.trans h.registered
  accepted := haccepted.trans h.accepted
  numRegProbes := by rw [hself]; exact h.numRegProbes
  probes i := by rw [hself]; exact h.probes i
  accesses := by rw [hself]; exact h.accesses
  unregisterCalls := by rw [hself]; exact h.unregisterCalls
  kzallocCalls := Nat.le_trans h.kzallocCalls hkz
  fresh r hr := by
    obtain ⟨n, hn, hlo, hhi⟩ := h.fresh r hr
    exact ⟨n, hn, hlo, Nat.lt_of_lt_of_le hhi hkz⟩

/-- A turn that adds the registration `r`, of a new consumer. -/
theorem Registers.step_accepted {s s' s'' : Kunreg} {new : List Registration} {r : Registration}
    (h : Registers s s' new) (husp : r.usp = some s'.kern.kzallocCalls)
    (hregistered : s''.kern.registered = s'.kern.registered ++ [r])
    (haccepted : s''.kern.accepted = s'.kern.accepted ++ [r])
    (hkz : s'.kern.kzallocCalls + 1 ≤ s''.kern.kzallocCalls)
    (hself : s'' = { s' with
      kern := s''.kern
      probes := Function.update s'.probes s'.numRegProbes r
      accesses := s'.accesses ++ [s'.numRegProbes]
      numRegProbes := s'.numRegProbes + 1 }) : Registers s s'' (new ++ [r]) where
  registered := by rw [hregistered, h.registered, List.append_assoc]
  accepted := by rw [haccepted, h.accepted, List.append_assoc]
  numRegProbes := by
    rw [hself, List.length_append, List.length_singleton, ← h.numRegProbes]
  probes i := by
    rw [hself]
    show Function.update s'.probes s'.numRegProbes r i = _
    rw [h.numRegProbes]
    by_cases hi : i = new.length
    · subst hi
      simp
    · rw [Function.update_of_ne hi, h.probes i]
      rcases Nat.lt_or_gt_of_ne hi with hlt | hgt
      · rw [List.getElem?_append_left hlt]
      · rw [List.getElem?_append_right (Nat.le_of_lt hgt), List.getElem?_eq_none
          (Nat.le_of_lt hgt), List.getElem?_singleton, if_neg (by omega)]
  accesses := by
    rw [hself]
    show s'.accesses ++ [s'.numRegProbes] = _
    rw [h.accesses, h.numRegProbes, List.length_append, List.length_singleton, List.range_succ,
      List.append_assoc]
  unregisterCalls := by rw [hself]; exact h.unregisterCalls
  kzallocCalls := by
    have := h.kzallocCalls
    omega
  fresh r' hr' := by
    have hkzalloc := h.kzallocCalls
    rcases List.mem_append.mp hr' with hr' | hr'
    · obtain ⟨n, hn, hlo, hhi⟩ := h.fresh r' hr'
      exact ⟨n, hn, hlo, by omega⟩
    · rw [List.mem_singleton.mp hr']
      exact ⟨s'.kern.kzallocCalls, husp, hkzalloc, by omega⟩

/-- A turn that gives up registers nothing; any other turn adds one registration. -/
theorem registerOne_registers {s₀ s : Kunreg} {new : List Registration}
    (hs : Registers s₀ s new) (found : String) :
    ∃ new', Registers s₀ (registerOne o syms found s).2 new' := by
  rw [registerOne, Kern.kzalloc]
  by_cases hz : o.kzalloc s.kern.kzallocCalls = true
  · rw [if_pos hz]
    obtain ⟨_, _, _, hframe⟩ := findInode_frame o found syms s.kern.withConsumer
    dsimp only
    generalize findInode o found syms s.kern.withConsumer = r at hframe ⊢
    obtain ⟨inode, k⟩ := r
    dsimp only at hframe ⊢
    generalize hk' : (k.setHandler s.kern.kzallocCalls .probeHandler).testPrintk
      (registeringText inode (findOffset found syms) found) = k'
    have hregistered : k'.registered = s.kern.registered := by rw [← hk', hframe]; rfl
    have haccepted : k'.accepted = s.kern.accepted := by rw [← hk', hframe]; rfl
    have hkz : k'.kzallocCalls = s.kern.kzallocCalls + 1 := by rw [← hk', hframe]; rfl
    have hspec := Kern.uprobeRegister_spec o k' inode (findOffset found syms) s.kern.kzallocCalls
    generalize k'.uprobeRegister o inode (findOffset found syms) s.kern.kzallocCalls = r at hspec ⊢
    obtain ⟨ret, k''⟩ := r
    dsimp only at hspec ⊢
    rw [hregistered, haccepted, hkz] at hspec
    obtain ⟨hregistered', haccepted', hkz'⟩ := hspec
    by_cases hret : ret ≠ 0 ∧ ret ≠ -einprogress
    · -- refused: nothing is noted, and the consumer is lost
      have hrefused : ¬ registerAccepted ret := fun h => h.elim hret.1 hret.2
      rw [if_neg hrefused] at hregistered' haccepted'
      rw [if_pos hret]
      exact ⟨new, hs.step_none hregistered' haccepted'
        (by show _ ≤ k''.kzallocCalls; omega) rfl⟩
    · -- accepted: the registration is noted at the counter
      have haccept : registerAccepted ret := by
        rw [registerAccepted]
        by_cases h : ret = 0
        · exact Or.inl h
        · exact Or.inr (not_not.mp fun h' => hret ⟨h, h'⟩)
      rw [if_pos haccept] at hregistered' haccepted'
      rw [if_neg hret]
      exact ⟨_, hs.step_accepted rfl hregistered' haccepted'
        (by show _ ≤ k''.kzallocCalls; omega) rfl⟩
  · rw [if_neg hz]
    exact ⟨new, hs.step_none rfl rfl (Nat.le_succ _) rfl⟩

theorem registerAll_registers (o : Outcomes) (syms : List Symbol) (s : Kunreg) :
    ∃ new, Registers s (registerAll o syms s).2 new := by
  have hloop : ∃ new, Registers s (forEachGlob syms "_probe" (fun _ => registerOne o syms)
      { s with numRegProbes := 0 }).2 new := by
    rw [forEachGlob_eq]
    refine runEach_invariant (I := fun s' => ∃ new, Registers s s' new) ?_ _
      ⟨[], registers_start s⟩
    rintro - found s' ⟨new, h⟩
    exact registerOne_registers h found
  rw [registerAll]
  split
  · rename_i heq
    rwa [heq] at hloop
  · rename_i heq
    rwa [heq] at hloop

/-! ## What unregister_all does -/

theorem unregisterAll_of_zero {s : Kunreg} (h : s.numRegProbes = 0) :
    unregisterAll s = unregisterOne s 0 := by
  rw [unregisterAll, h]
  rfl

theorem foldl_unregisterOne_log (l : List Nat) (s : Kunreg) {c : Registration × Bool}
    (hc : c ∈ s.unregisterCalls) : c ∈ (l.foldl unregisterOne s).unregisterCalls := by
  induction l generalizing s with
  | nil => exact hc
  | cons i l ih => exact ih (unregisterOne s i) (List.mem_append_left _ hc)

/-- When every call finds its argument registered, each of them takes one
    registration away. -/
theorem foldl_unregisterOne_of_registered (l : List Nat) (s : Kunreg)
    (hall : ∀ c ∈ (l.foldl unregisterOne s).unregisterCalls, c.2 = true) :
    (l.foldl unregisterOne s).kern.registered.length + l.length = s.kern.registered.length ∧
      ∀ i ∈ l, s.probes i ∈ s.kern.registered := by
  induction l generalizing s with
  | nil => exact ⟨rfl, fun i hi => absurd hi List.not_mem_nil⟩
  | cons i l ih =>
      have hcall : (s.probes i, decide (s.probes i ∈ s.kern.registered)) ∈
          ((i :: l).foldl unregisterOne s).unregisterCalls :=
        foldl_unregisterOne_log l (unregisterOne s i)
          (List.mem_append_right _ (List.mem_singleton_self _))
      have hmem : s.probes i ∈ s.kern.registered := of_decide_eq_true (hall _ hcall)
      obtain ⟨hlen, hrest⟩ := ih (unregisterOne s i) hall
      -- a call that finds its argument takes exactly one registration away
      have herase : (unregisterOne s i).kern.registered.length + 1 = s.kern.registered.length := by
        show (s.kern.registered.erase (s.probes i)).length + 1 = _
        rw [List.length_erase_of_mem hmem]
        have := List.length_pos_of_mem hmem
        omega
      refine ⟨?_, fun j hj => ?_⟩
      · rw [List.foldl_cons, List.length_cons]
        omega
      · rcases List.mem_cons.mp hj with rfl | hj
        · exact hmem
        · exact List.mem_of_mem_erase (hrest j hj)

/-! ## Balanced runs unregister one probe at a time -/

/-- `m` is the longest stretch of `probes[]` noted since the registrations were
    last empty: nothing behind it is registered, and where a later, shorter
    `register_all` has overwritten its beginning, more than `m` probes are. -/
structure Stretch (s : Kunreg) (m : Nat) : Prop where
  counter : s.numRegProbes ≤ m
  beyond : ∀ i, m ≤ i → s.probes i ∉ s.kern.registered
  enough : m ≤ s.kern.registered.length
  overwritten : 0 < s.numRegProbes → s.numRegProbes < m → m < s.kern.registered.length
  fresh : ∀ i n, (s.probes i).usp = some n → n < s.kern.kzallocCalls

theorem Stretch.registerAll {s s' : Kunreg} {m : Nat} {new : List Registration}
    (hs : Stretch s m) (hnew : Registers s s' new) : Stretch s' (max m new.length) where
  counter := by
    rw [hnew.numRegProbes]
    exact Nat.le_max_right _ _
  beyond i hi := by
    rw [hnew.probes, List.getElem?_eq_none (by omega), Option.getD_none, hnew.registered]
    intro hmem
    rcases List.mem_append.mp hmem with hold | hnew'
    · exact hs.beyond i (by omega) hold
    · obtain ⟨n, hn, hlo, -⟩ := hnew.fresh _ hnew'
      have := hs.fresh i n hn
      omega
  enough := by
    rw [hnew.registered, List.length_append]
    have := hs.enough
    omega
  overwritten := by
    rw [hnew.numRegProbes, hnew.registered, List.length_append]
    have := hs.enough
    omega
  fresh i n hn := by
    rw [hnew.probes] at hn
    by_cases hi : i < new.length
    · rw [List.getElem?_eq_getElem hi, Option.getD_some] at hn
      obtain ⟨n', hn', -, hhi⟩ := hnew.fresh _ (List.getElem_mem hi)
      rw [hn, Option.some.injEq] at hn'
      omega
    · rw [List.getElem?_eq_none (by omega), Option.getD_none] at hn
      exact Nat.lt_of_lt_of_le (hs.fresh i n hn) hnew.kzallocCalls

theorem OneRegistered.stretch {s : Kunreg} {m : Nat} (hs : Stretch s m) (h : OneRegistered s) :
    Stretch (Kunreg.unregisterAll s) 0 := by
  have hempty : (unregisterOne s 0).kern.registered = [] := by
    show s.kern.registered.erase (s.probes 0) = []
    rw [h.registered, List.erase_cons_head]
  rw [unregisterAll_of_zero h.numRegProbes]
  refine ⟨Nat.le_of_eq h.numRegProbes, fun i _ => ?_, Nat.zero_le _, fun hpos => ?_, hs.fresh⟩
  · rw [hempty]
    exact List.not_mem_nil
  · exact absurd h.numRegProbes (Nat.ne_of_gt hpos)

/-- An `unregister_all` that finds all its probes registered and leaves none. -/
theorem Stretch.oneRegistered {s : Kunreg} {m : Nat} (hs : Stretch s m)
    (hall : ∀ c ∈ (Kunreg.unregisterAll s).unregisterCalls, c.2 = true)
    (hnone : (Kunreg.unregisterAll s).kern.registered = []) : OneRegistered s := by
  obtain ⟨hlen, hmem⟩ := foldl_unregisterOne_of_registered _ s hall
  rw [Kunreg.unregisterAll] at hnone
  rw [hnone, List.length_nil, List.length_range] at hlen
  -- the entry one too far was registered as well, so it lies in the stretch
  have hlast := hmem s.numRegProbes (List.mem_range.mpr (Nat.lt_succ_self _))
  have hbelow : s.numRegProbes < m := by
    by_contra hge
    exact hs.beyond _ (by omega) hlast
  -- otherwise more registrations than calls would have to be undone
  have hzero : s.numRegProbes = 0 := by
    by_contra hpos
    have := hs.overwritten (Nat.pos_of_ne_zero hpos) hbelow
    omega
  rw [hzero] at hlast hlen
  obtain ⟨r, hr⟩ := List.length_eq_one_iff.mp hlen.symm
  refine ⟨hzero, ?_⟩
  rw [hr, List.mem_singleton] at hlast
  rw [hr, hlast]

theorem run_log (calls : List Call) (s : Kunreg) {c : Registration × Bool}
    (hc : c ∈ s.unregisterCalls) : c ∈ (run o syms calls s).unregisterCalls := by
  induction calls generalizing s with
  | nil => exact hc
  | cons call calls ih =>
      apply ih (exec o syms s call)
      cases call with
      | registerAll =>
          obtain ⟨new, hnew⟩ := registerAll_registers o syms s
          show c ∈ (registerAll o syms s).2.unregisterCalls
          rw [hnew.unregisterCalls]
          exact hc
      | unregisterAll => exact foldl_unregisterOne_log _ s hc

theorem each_oneRegistered {calls : List Call} {s : Kunreg} {m : Nat} (hs : Stretch s m)
    (hall : ∀ c ∈ (run o syms calls s).unregisterCalls, c.2 = true)
    (hnone : EachUnregister o syms (fun _ s' => s'.kern.registered = []) calls s) :
    EachUnregister o syms (fun s _ => OneRegistered s) calls s := by
  induction calls generalizing s m with
  | nil => trivial
  | cons call calls ih =>
      cases call with
      | registerAll =>
          obtain ⟨new, hnew⟩ := registerAll_registers o syms s
          exact ih (hs.registerAll hnew) hall hnone
      | unregisterAll =>
          have hone := hs.oneRegistered (fun c hc => hall c (run_log calls _ hc)) hnone.1
          exact ⟨hone, ih (hone.stretch hs) hall hnone.2⟩

/-! ## Runs that unregister one probe at a time are balanced -/

/-- Every accepted registration is either still there and was never undone, or
    gone and was undone once; no call missed. -/
structure Settled (s : Kunreg) : Prop where
  unregistersRegistered : ∀ c ∈ s.unregisterCalls, c.2 = true
  pending : ∀ r ∈ s.kern.accepted, r ∈ s.kern.registered →
    (s.unregisterCalls.map Prod.fst).count r = 0
  undone : ∀ r ∈ s.kern.accepted, r ∉ s.kern.registered →
    (s.unregisterCalls.map Prod.fst).count r = 1
  registered : ∀ r ∈ s.kern.registered, r ∈ s.kern.accepted
  freshAccepted : ∀ r ∈ s.kern.accepted, ∀ n, r.usp = some n → n < s.kern.kzallocCalls
  freshUndone : ∀ c ∈ s.unregisterCalls, ∀ n, c.1.usp = some n → n < s.kern.kzallocCalls

theorem Settled.registerAll {s s' : Kunreg} {new : List Registration} (hs : Settled s)
    (hnew : Registers s s' new) : Settled s' := by
  -- a fresh consumer has not been handed to `uprobe_unregister` before
  have hnotUndone : ∀ r ∈ new, (s.unregisterCalls.map Prod.fst).count r = 0 := by
    intro r hr
    obtain ⟨n, hn, hlo, -⟩ := hnew.fresh r hr
    apply List.count_eq_zero.mpr
    intro hmem
    obtain ⟨c, hc, rfl⟩ := List.mem_map.mp hmem
    have := hs.freshUndone c hc n hn
    omega
  refine ⟨?_, fun r hr hreg => ?_, fun r hr hreg => ?_, fun r hr => ?_, fun r hr n hn => ?_,
    fun c hc n hn => ?_⟩
  · rw [hnew.unregisterCalls]
    exact hs.unregistersRegistered
  · rw [hnew.unregisterCalls]
    rw [hnew.accepted] at hr
    rw [hnew.registered] at hreg
    rcases List.mem_append.mp hreg with hold | hr'
    · exact hs.pending r (hs.registered r hold) hold
    · exact hnotUndone r hr'
  · rw [hnew.unregisterCalls]
    rw [hnew.registered, List.mem_append, not_or] at hreg
    rw [hnew.accepted] at hr
    exact hs.undone r ((List.mem_append.mp hr).resolve_right hreg.2) hreg.1
  · rw [hnew.registered] at hr
    rw [hnew.accepted]
    rcases List.mem_append.mp hr with hold | hr'
    · exact List.mem_append_left _ (hs.registered r hold)
    · exact List.mem_append_right _ hr'
  · rw [hnew.accepted] at hr
    rcases List.mem_append.mp hr with hold | hr'
    · exact Nat.lt_of_lt_of_le (hs.freshAccepted r hold n hn) hnew.kzallocCalls
    · obtain ⟨n', hn', -, hhi⟩ := hnew.fresh r hr'
      rw [hn, Option.some.injEq] at hn'
      omega
  · rw [hnew.unregisterCalls] at hc
    exact Nat.lt_of_lt_of_le (hs.freshUndone c hc n hn) hnew.kzallocCalls

theorem Settled.unregisterAll {s : Kunreg} (hs : Settled s) (h : OneRegistered s) :
    Settled (Kunreg.unregisterAll s) ∧ (Kunreg.unregisterAll s).kern.registered = [] := by
  have hmem : s.probes 0 ∈ s.kern.registered := by
    rw [h.registered]
    exact List.mem_singleton_self _
  have hempty : (unregisterOne s 0).kern.registered = [] := by
    show s.kern.registered.erase (s.probes 0) = []
    rw [h.registered, List.erase_cons_head]
  rw [unregisterAll_of_zero h.numRegProbes]
  refine ⟨⟨fun c hc => ?_, fun r _ hreg => ?_, fun r hr _ => ?_, fun r hr => ?_, hs.freshAccepted,
    fun c hc n hn => ?_⟩, hempty⟩
  · rcases List.mem_append.mp hc with hold | hc
    · exact hs.unregistersRegistered c hold
    · rw [List.mem_singleton.mp hc]
      exact decide_eq_true hmem
  · rw [hempty] at hreg
    cases hreg
  · show ((s.unregisterCalls ++ [(s.probes 0, _)]).map Prod.fst).count r = 1
    rw [List.map_append, List.count_append, List.map_singleton]
    -- the one call undoes `probes[0]` and counts for no other registration
    by_cases heq : r = s.probes 0
    · rw [heq, hs.pending _ (hs.registered _ hmem) hmem, List.count_singleton_self]
    · have hgone : r ∉ s.kern.registered := by
        rw [h.registered, List.mem_singleton]
        exact heq
      rw [hs.undone r hr hgone, List.count_singleton, if_neg (by simpa using Ne.symm heq)]
  · rw [hempty] at hr
    cases hr
  · rcases List.mem_append.mp hc with hold | hc
    · exact hs.freshUndone c hold n hn
    · rw [List.mem_singleton.mp hc] at hn
      exact hs.freshAccepted _ (hs.registered _ hmem) n hn

theorem Settled.run {calls : List Call} {s : Kunreg} (hs : Settled s)
    (hone : EachUnregister o syms (fun s _ => OneRegistered s) calls s) :
    Settled (Kunreg.run o syms calls s) ∧
      EachUnregister o syms (fun _ s' => s'.kern.registered = []) calls s := by
  induction calls generalizing s with
  | nil => exact ⟨hs, trivial⟩
  | cons call calls ih =>
      cases call with
      | registerAll =>
          obtain ⟨new, hnew⟩ := registerAll_registers o syms s
          exact ih (hs.registerAll hnew) hone
      | unregisterAll =>
          obtain ⟨hsettled, hempty⟩ := hs.unregisterAll hone.1
          obtain ⟨hrun, hnone⟩ := ih hsettled hone.2
          exact ⟨hrun, hempty, hnone⟩

/-- Registrations only pile up until the next `unregister_all`, which finds one. -/
theorem registered_le_one {calls : List Call} {s : Kunreg}
    (hone : EachUnregister o syms (fun s _ => OneRegistered s) (calls ++ [.unregisterAll]) s) :
    s.kern.registered.length ≤ 1 := by
  induction calls generalizing s with
  | nil => exact Nat.le_of_eq (congrArg List.length hone.1.registered)
  | cons call calls ih =>
      cases call with
      | registerAll =>
          obtain ⟨new, hnew⟩ := registerAll_registers o syms s
          have hlater := ih hone
          rw [hnew.registered, List.length_append] at hlater
          omega
      | unregisterAll => exact Nat.le_of_eq (congrArg List.length hone.1.registered)

theorem run_inBounds {calls : List Call} {s : Kunreg}
    (hone : EachUnregister o syms (fun s _ => OneRegistered s) (calls ++ [.unregisterAll]) s)
    (hs : ∀ i ∈ s.accesses, i < maxProbes) :
    ∀ i ∈ (run o syms (calls ++ [.unregisterAll]) s).accesses, i < maxProbes := by
  have hzero : ∀ s : Kunreg, OneRegistered s → (∀ i ∈ s.accesses, i < maxProbes) →
      ∀ i ∈ (Kunreg.unregisterAll s).accesses, i < maxProbes := by
    intro s h hs i hi
    rw [unregisterAll_of_zero h.numRegProbes] at hi
    rcases List.mem_append.mp hi with hold | hi
    · exact hs i hold
    · rw [List.mem_singleton.mp hi]
      decide
  induction calls generalizing s with
  | nil => exact hzero s hone.1 hs
  | cons call calls ih =>
      cases call with
      | registerAll =>
          apply ih hone
          intro i hi
          obtain ⟨new, hnew⟩ := registerAll_registers o syms s
          -- at most one registration is noted before the next `unregister_all`
          have hlater : EachUnregister o syms (fun s _ => OneRegistered s)
              (calls ++ [.unregisterAll]) (registerAll o syms s).2 := hone
          have hfew := registered_le_one hlater
          rw [hnew.registered, List.length_append] at hfew
          change i ∈ (registerAll o syms s).2.accesses at hi
          rw [hnew.accesses] at hi
          rcases List.mem_append.mp hi with hold | hi
          · exact hs i hold
          · have := List.mem_range.mp hi
            exact Nat.lt_of_lt_of_le (show i < 1 by omega) (by decide)
      | unregisterAll => exact ih hone.2 (hzero s hone.1 hs)

/-- A run that ends with an `unregister_all` leaves what that call leaves. -/
theorem run_registered_nil {calls : List Call} {s : Kunreg}
    (hnone : EachUnregister o syms (fun _ s' => s'.kern.registered = [])
      (calls ++ [.unregisterAll]) s) :
    (run o syms (calls ++ [.unregisterAll]) s).kern.registered = [] := by
  induction calls generalizing s with
  | nil => exact hnone.1
  | cons call calls ih =>
      cases call with
      | registerAll => exact ih hnone
      | unregisterAll => exact ih hnone.2

/-! ## The life of the module -/

section Life

variable (o : Outcomes) (syms : List Symbol)

/-- An `init_module` that succeeds has run `register_all` on the module as loaded. -/
theorem initModule_eq (hinit : (initModule o syms .init).1 = 0) :
    (initModule o syms .init).2 =
      (registerAll o syms (loaded (.ready "kunreg" (o.debugfsCreate 2)))).2 := by
  rw [initModule] at hinit ⊢
  by_cases hlookup : initUprobe o < 0
  · rw [if_pos hlookup] at hinit
    cases hinit
  rw [if_neg hlookup] at hinit ⊢
  have hdbfs := uDbfsInit_spec o "kunreg"
  generalize uDbfsInit o "kunreg" .init = r at hinit hdbfs ⊢
  obtain ⟨ret, k⟩ := r
  dsimp only at hinit hdbfs ⊢
  by_cases hneg : ret < 0
  · rw [if_pos hneg] at hinit
    cases hinit
  rw [if_neg hneg]
  split at hdbfs
  · rw [hdbfs.1] at hneg
    exact absurd (by decide) hneg
  · split at hdbfs
    · rw [hdbfs.1] at hneg
      exact absurd (by decide) hneg
    · rw [(Prod.mk.injEq ..).mp hdbfs |>.2]

variable (dbgDirPath : String) (cleanup : Bool)

theorem stretch_loaded : Stretch (loaded (.ready dbgDirPath cleanup)) 0 where
  counter := Nat.le_refl 0
  beyond _ _ := List.not_mem_nil
  enough := Nat.le_refl 0
  overwritten h := absurd h (Nat.lt_irrefl 0)
  fresh _ _ h := absurd h.symm (Option.some_ne_none _)

theorem settled_loaded : Settled (loaded (.ready dbgDirPath cleanup)) where
  unregistersRegistered _ h := absurd h List.not_mem_nil
  pending _ h := absurd h List.not_mem_nil
  undone _ h := absurd h List.not_mem_nil
  registered _ h := absurd h List.not_mem_nil
  freshAccepted _ h := absurd h List.not_mem_nil
  freshUndone _ h := absurd h List.not_mem_nil

/-- `cleanup_module` is one more `unregister_all`, and debugfs. -/
theorem final_eq (calls : List Call) :
    (final o syms calls).unregisterCalls =
        (run o syms (calls ++ [.unregisterAll]) (initModule o syms .init).2).unregisterCalls ∧
      (final o syms calls).accesses =
        (run o syms (calls ++ [.unregisterAll]) (initModule o syms .init).2).accesses ∧
      (final o syms calls).kern.accepted =
        (run o syms (calls ++ [.unregisterAll]) (initModule o syms .init).2).kern.accepted := by
  have hrun : run o syms (calls ++ [.unregisterAll]) (initModule o syms .init).2 =
      unregisterAll (run o syms calls (initModule o syms .init).2) := by
    rw [run, run, List.foldl_append]
    rfl
  rw [hrun, final, cleanupModule]
  refine ⟨rfl, rfl, ?_⟩
  obtain ⟨_, _, hframe⟩ :=
    uDbfsCleanup_frame (unregisterAll (run o syms calls (initModule o syms .init).2)).kern
  show Kern.accepted (uDbfsCleanup _) = _
  rw [hframe]
  rfl

/-- The calls balance exactly in the runs in which every `unregister_all`, the
    one of `cleanup_module` included, finds the counter at 0 and one probe
    registered, the one in `probes[0]`. -/
theorem balanced_iff (hinit : (initModule o syms .init).1 = 0) (calls : List Call) :
    Balanced o syms calls ↔ EachUnregister o syms (fun s _ => OneRegistered s)
      (calls ++ [.unregisterAll]) (initModule o syms .init).2 := by
  obtain ⟨hlog, haccesses, haccepted⟩ := final_eq o syms calls
  have hstart := initModule_eq o syms hinit
  obtain ⟨new, hnew⟩ :=
    registerAll_registers o syms (loaded (.ready "kunreg" (o.debugfsCreate 2)))
  rw [← hstart] at hnew
  constructor
  · intro h
    have hall := h.unregistersRegistered
    rw [hlog] at hall
    exact each_oneRegistered ((stretch_loaded _ _).registerAll hnew) hall h.noneLeft
  · intro hone
    obtain ⟨hsettled, hnone⟩ := ((settled_loaded _ _).registerAll hnew).run hone
    refine ⟨?_, fun r hr => ?_, hnone, ?_⟩
    · rw [hlog]
      exact hsettled.unregistersRegistered
    · rw [hlog]
      rw [haccepted] at hr
      apply hsettled.undone r hr
      rw [run_registered_nil hnone]
      exact List.not_mem_nil
    · rw [haccesses]
      apply run_inBounds hone
      intro i hi
      have hfew := registered_le_one hone
      rw [hnew.registered, List.length_append] at hfew
      rw [hnew.accesses] at hi
      have := List.mem_range.mp ((List.mem_append.mp hi).resolve_left List.not_mem_nil)
      exact Nat.lt_of_lt_of_le (show i < 1 by omega) (by decide)

end Life

/-- One probe, whose second `kzalloc` fails: a second `register_all` resets the
    counter, so that `cleanup_module` undoes what `init_module` did. -/
theorem balanced_of_reset :
    Balanced { allSucceed with kzalloc := fun n => n == 0 } oneProbe [.registerAll] :=
  (balanced_iff _ _ (by decide) _).mpr ⟨⟨by decide, by decide⟩, trivial⟩

/-- One probe, loaded and unloaded: `cleanup_module` also unregisters the NULL
    entry behind it. -/
theorem not_balanced_oneProbe :
    (final allSucceed oneProbe []).unregisterCalls =
        [(⟨some 0xffff880012345678, 0x5a4, some 0⟩, true), (⟨none, 0, none⟩, false)] ∧
      ¬ Balanced allSucceed oneProbe [] := by
  refine ⟨by decide, fun h => ?_⟩
  have hall := h.unregistersRegistered
  revert hall
  decide

end Kunreg

end UprobeTests
