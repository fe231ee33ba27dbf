/-
  UprobeTests.Probe5ag

  uprobes.existing/probe5ag.c: `nprobes` uprobes on one address.  `shut_down`
  takes a probe for registered when its `vaddr` is not 0, a field that
  `init_module` fills from a module parameter before it registers the probe.
  So the probe whose registration fails is unregistered as well, and with
  `vaddr` 0 none is (`initModule_exact_iff`).
-/

import UprobeTests.Lib.Ledger
import UprobeTests.Uinfo
import UprobeTests.Udbgfs

namespace UprobeTests

namespace Probe5ag

/-- The module parameters and the results of the calls. -/
structure Scenario where
  pid : Int
  nprobes : Nat
  nprobes_lt : nprobes < 2 ^ 31
  vaddr : BitVec 32
  kern : Outcomes
  registerUprobe : Nat → Int

structure Sys where
  kern : Kern
  ledger : Ledger Nat

structure State (t : Target) where
  sys : Sys
  /-- the allocation `probes` points to, and its elements -/
  block : Nat
  probes : List (Uprobe t.ulongBits)

section Model

variable (t : Target) (sc : Scenario)

/-- `probes[i]` as `init_module` fills it; the `int` parameter is sign-extended. -/
def filled : Uprobe t.ulongBits := ⟨sc.pid, sc.vaddr.signExtend t.ulongBits, .addInst⟩

variable {t}

/-- The loop of `init_module` over the probes from `i` on. -/
def registerFrom (i : Nat) : List (Uprobe t.ulongBits) → Sys →
    Option Int × List (Uprobe t.ulongBits) × Sys
  | [], s => (none, [], s)
  | _ :: rest, s =>
      let ret := sc.registerUprobe i
      let s := { s with ledger := s.ledger.register i ret }
      if ret ≠ 0 then (some ret, filled t sc :: rest, s)
      else
        match registerFrom (i + 1) rest s with
        | (failed, rest, s) => (failed, filled t sc :: rest, s)

/-- The loop of `shut_down` over the probes from `i` on. -/
def unregisterFrom (i : Nat) : List (Uprobe t.ulongBits) → Sys → Sys
  | [], s => s
  | p :: rest, s =>
      unregisterFrom (i + 1) rest
        (if p.vaddr ≠ 0 then { s with ledger := s.ledger.unregister i } else s)

def shutDown (s : State t) : State t :=
  let sys := unregisterFrom 0 s.probes s.sys
  { s with sys := { sys with kern := sys.kern.kfree (.consumer s.block) } }

def dbfsCleanup (s : State t) : State t :=
  { s with sys := { s.sys with kern := uDbfsCleanup s.sys.kern } }

/-- `init_module`. -/
def initModule (s : State t) : Int × State t :=
  match uDbfsInit sc.kern "probe5ag" s.sys.kern with
  | (ret, kern) =>
      let s := { s with sys := { s.sys with kern := kern } }
      if ret ≠ 0 then (-1, s)
      else
        match s.sys.kern.kzalloc sc.kern with
        | (none, kern) => (-1, dbfsCleanup { s with sys := { s.sys with kern := kern } })
        | (some block, kern) =>
            let probes := List.replicate sc.nprobes (Uprobe.zero t.ulongBits)
            match registerFrom sc 0 probes { s.sys with kern := kern } with
            | (some ret, probes, sys) => (ret, dbfsCleanup (shutDown ⟨sys, block, probes⟩))
            | (none, probes, sys) => (0, ⟨sys, block, probes⟩)

/-- `cleanup_module`. -/
def cleanupModule (s : State t) : State t := dbfsCleanup (shutDown s)

variable (t)

/-- Before `init_module`. -/
def loaded : State t := ⟨⟨.init, .empty⟩, 0, []⟩

/-- When `init_module` fails it has unregistered exactly what it had
    registered, and when it succeeds `cleanup_module` does. -/
structure Exact : Prop where
  failed : (initModule (t := t) sc (loaded t)).1 ≠ 0 →
    (initModule (t := t) sc (loaded t)).2.sys.ledger.Settled
  loaded : (initModule (t := t) sc (loaded t)).1 = 0 →
    (cleanupModule (initModule (t := t) sc (loaded t)).2).sys.ledger.Settled

end Model

/-! ## The loops -/

variable {t : Target} {sc : Scenario}

/-- The probes from `i` on that `shut_down` takes for registered. -/
def taken (i : Nat) : List (Uprobe t.ulongBits) → List Nat
  | [] => []
  | p :: rest => (if p.vaddr ≠ 0 then [i] else []) ++ taken (i + 1) rest

theorem unregisterFrom_ledger (i : Nat) (probes : List (Uprobe t.ulongBits)) (s : Sys) :
    (unregisterFrom i probes s).ledger = s.ledger.unregisterEach (taken i probes) := by
  induction probes generalizing i s with
  | nil => rfl
  | cons p rest ih =>
      rw [unregisterFrom, ih, taken, Ledger.unregisterEach, Ledger.unregisterEach,
        List.foldl_append]
      congr 1
      by_cases hp : p.vaddr ≠ 0
      · rw [if_pos hp, if_pos hp]
        rfl
      · rw [if_neg hp, if_neg hp]
        rfl

/-- The sign extension does not make a zero. -/
theorem filled_vaddr_eq_zero_iff : (filled t sc).vaddr = 0 ↔ sc.vaddr = 0 := by
  show sc.vaddr.signExtend t.ulongBits = 0 ↔ _
  rw [← BitVec.toInt_inj, BitVec.toInt_signExtend_of_le t.le_ulongBits, ← BitVec.toInt_inj]
  exact Iff.of_eq (by simp)

theorem taken_filled (i : Nat) (rest : List (Uprobe t.ulongBits)) :
    taken i (filled t sc :: rest) =
      if sc.vaddr = 0 then taken (i + 1) rest else i :: taken (i + 1) rest := by
  rw [taken]
  by_cases hv : sc.vaddr = 0
  · rw [if_neg (not_not.mpr (filled_vaddr_eq_zero_iff.mpr hv)), if_pos hv, List.nil_append]
  · rw [if_pos (filled_vaddr_eq_zero_iff.not.mpr hv), if_neg hv, List.singleton_append]

theorem taken_zero (i n : Nat) :
    taken (t := t) i (List.replicate n (Uprobe.zero t.ulongBits)) = [] := by
  induction n generalizing i with
  | zero => rfl
  | succ n ih =>
      rw [List.replicate_succ, taken, ih]
      rfl

/-- The loop registers the probes before the first failure, and `shut_down`
    will take one more for registered, or with `vaddr` 0 none at all. -/
theorem registerFrom_spec (t : Target) (sc : Scenario) {i n : Nat} {s : Sys} (hs : s.ledger.Sound)
    (hfresh : ∀ x ∈ s.ledger.accepted, x < i) :
    match registerFrom sc i (List.replicate n (Uprobe.zero t.ulongBits)) s with
    | (failed, probes, s') => ∃ m,
        s'.ledger.Sound ∧
        s'.ledger.registered = s.ledger.registered ++ List.range' i m ∧
        s'.ledger.accepted = s.ledger.accepted ++ List.range' i m ∧
        (∀ j < m, sc.registerUprobe (i + j) = 0) ∧
        match failed with
        | none => m = n ∧ taken i probes = if sc.vaddr = 0 then [] else List.range' i m
        | some ret => m < n ∧ ret = sc.registerUprobe (i + m) ∧ ret ≠ 0 ∧
            taken i probes = if sc.vaddr = 0 then [] else List.range' i (m + 1) := by
  induction n generalizing i s with
  | zero =>
      exact ⟨0, hs, by simp, by simp, fun j hj => absurd hj (Nat.not_lt_zero j), rfl,
        by simp [taken]⟩
  | succ n ih =>
      rw [List.replicate_succ, registerFrom]
      by_cases hret : sc.registerUprobe i = 0
      · have hi : i ∉ s.ledger.accepted := fun h => Nat.lt_irrefl i (hfresh i h)
        have hs₁ := hs.register hi 0
        have hloop := ih (i := i + 1) (s := { s with ledger := s.ledger.register i 0 }) hs₁ (by
          intro x hx
          simp only [Ledger.register_zero, List.mem_append, List.mem_singleton] at hx
          rcases hx with hx | rfl
          · exact Nat.lt_succ_of_lt (hfresh x hx)
          · exact Nat.lt_succ_self x)
        simp only [hret, ne_eq, not_true_eq_false, if_false]
        generalize registerFrom sc (i + 1) _ _ = r at hloop ⊢
        obtain ⟨failed, rest, s₂⟩ := r
        dsimp only at hloop ⊢
        obtain ⟨m, hs₂, hreg, hacc, hzero, hfailed⟩ := hloop
        refine ⟨m + 1, hs₂, ?_, ?_, fun j hj => ?_, ?_⟩
        · rw [hreg, Ledger.register_zero, List.range'_succ, List.append_assoc]
          rfl
        · rw [hacc, Ledger.register_zero, List.range'_succ, List.append_assoc]
          rfl
        · cases j with
          | zero => exact hret
          | succ j =>
              have := hzero j (by omega)
              rwa [show i + (j + 1) = i + 1 + j by omega]
        · have htaken : ∀ k, taken (i + 1) rest = (if sc.vaddr = 0 then [] else
              List.range' (i + 1) k) → taken i (filled t sc :: rest) =
              if sc.vaddr = 0 then [] else List.range' i (k + 1) := by
            intro k hk
            rw [taken_filled, hk]
            split
            · rfl
            · rw [List.range'_succ]
          cases failed with
          | none => exact ⟨by rw [hfailed.1], htaken m hfailed.2⟩
          | some ret =>
              obtain ⟨hm, hret', hne, hrest⟩ := hfailed
              exact ⟨by omega, by rw [hret', show i + (m + 1) = i + 1 + m by omega], hne,
                htaken (m + 1) hrest⟩
      · -- the probe that fails has its `vaddr` already
        simp only [hret, ne_eq, not_false_eq_true, if_true, Ledger.register_of_ne_zero _ _ hret]
        refine ⟨0, hs, by simp, by simp, fun j hj => absurd hj (Nat.not_lt_zero j),
          Nat.succ_pos n, rfl, ?_⟩
        rw [taken_filled, taken_zero]
        exact ⟨trivial, rfl⟩

/-! ## The module -/

/-- Everybody who has been registered and nobody else is taken for registered. -/
theorem settled_unregisterEach_iff {L : Ledger Nat} {m k : Nat} (hs : L.Sound)
    (hreg : L.registered = List.range' 0 m) (hacc : L.accepted = List.range' 0 m) (hk : m ≤ k) :
    (L.unregisterEach (if sc.vaddr = 0 then [] else List.range' 0 k)).Settled ↔
      if sc.vaddr = 0 then m = 0 else k = m := by
  split
  · constructor
    · intro h
      have hnone : List.range' 0 m = [] := hreg ▸ h.nobodyLeft
      simpa using hnone
    · rintro rfl
      exact hs.settled hreg
  · constructor
    · intro h
      by_contra hne
      -- probe `m` is taken and has not been accepted
      exact Ledger.not_settled_of_not_accepted (x := m) (by simp; omega) (by rw [hacc]; simp) h
    · rintro rfl
      have hreg' : L.registered = List.range' 0 k ++ [] := by rw [hreg, List.append_nil]
      exact (hs.unregisterEach hreg').1.settled (hs.unregisterEach hreg').2

theorem exact_of_failed {s : State t} {ret : Int} (h : initModule sc (loaded t) = (ret, s))
    (hret : ret ≠ 0) : Exact t sc ↔ s.sys.ledger.Settled := by
  refine ⟨fun hexact => ?_, fun hs => ⟨fun _ => by rw [h]; exact hs, fun h0 => ?_⟩⟩
  · have := hexact.failed (by rw [h]; exact hret)
    rwa [h] at this
  · rw [h] at h0
    exact absurd h0 hret

theorem exact_of_loaded {s : State t} (h : initModule sc (loaded t) = (0, s)) :
    Exact t sc ↔ (cleanupModule s).sys.ledger.Settled := by
  refine ⟨fun hexact => ?_, fun hs => ⟨fun h0 => ?_, fun _ => by rw [h]; exact hs⟩⟩
  · have := hexact.loaded (by rw [h])
    rwa [h] at this
  · rw [h] at h0
    exact absurd rfl h0

theorem kzalloc_ready (o : Outcomes) (dbgDirPath : String) (cleanup : Bool) :
    ((Kern.ready dbgDirPath cleanup).kzalloc o).1 = if o.kzalloc 0 then some 0 else none := by
  rw [Kern.kzalloc, show (Kern.ready dbgDirPath cleanup).kzallocCalls = 0 from rfl]
  split
  · rfl
  · rfl

/-- Nothing has been registered when debugfs or the array cannot be had. -/
theorem initModule_early (h : (uDbfsInit sc.kern "probe5ag" .init).1 ≠ 0 ∨
      sc.kern.kzalloc 0 = false) :
    ∃ s : State t, initModule sc (loaded t) = (-1, s) ∧ s.sys.ledger = .empty := by
  rw [initModule, show (loaded t).sys.kern = .init from rfl]
  by_cases hdbfs : (uDbfsInit sc.kern "probe5ag" .init).1 = 0
  · have hnone := kzalloc_ready sc.kern "probe5ag" (sc.kern.debugfsCreate 2)
    rw [h.resolve_left (not_not.mpr hdbfs)] at hnone
    rw [uDbfsInit_of_zero hdbfs]
    dsimp only
    rw [if_neg (by decide)]
    generalize (Kern.ready "probe5ag" (sc.kern.debugfsCreate 2)).kzalloc sc.kern = r at hnone ⊢
    obtain ⟨block, kern⟩ := r
    cases hnone
    exact ⟨_, rfl, rfl⟩
  · generalize uDbfsInit sc.kern "probe5ag" .init = r at hdbfs ⊢
    obtain ⟨ret, kern⟩ := r
    dsimp only at hdbfs ⊢
    rw [if_pos hdbfs]
    exact ⟨_, rfl, rfl⟩

/-- Once debugfs is set up and the array allocated, the loop runs. -/
theorem initModule_ready (hdbfs : (uDbfsInit sc.kern "probe5ag" .init).1 = 0)
    (hkzalloc : sc.kern.kzalloc 0 = true) :
    ∃ kern block, initModule sc (loaded t) =
      match registerFrom sc 0 (List.replicate sc.nprobes (Uprobe.zero t.ulongBits))
          ⟨kern, .empty⟩ with
      | (some ret, probes, sys) => (ret, dbfsCleanup (shutDown ⟨sys, block, probes⟩))
      | (none, probes, sys) => (0, ⟨sys, block, probes⟩) := by
  have hsome := kzalloc_ready sc.kern "probe5ag" (sc.kern.debugfsCreate 2)
  rw [hkzalloc] at hsome
  rw [initModule, show (loaded t).sys.kern = .init from rfl, uDbfsInit_of_zero hdbfs]
  dsimp only
  rw [if_neg (by decide)]
  generalize (Kern.ready "probe5ag" (sc.kern.debugfsCreate 2)).kzalloc sc.kern = r at hsome ⊢
  obtain ⟨block, kern⟩ := r
  cases hsome
  exact ⟨kern, 0, rfl⟩

/-- probe5ag unregisters exactly what it registered if and only if it never
    gets to the registrations, or all of them succeed and `vaddr` is not 0 or
    there are none, or with `vaddr` 0 the very first fails. -/
theorem initModule_exact_iff (t : Target) (sc : Scenario) :
    Exact t sc ↔
      (uDbfsInit sc.kern "probe5ag" .init).1 ≠ 0 ∨ sc.kern.kzalloc 0 = false ∨
      ((∀ i < sc.nprobes, sc.registerUprobe i = 0) ∧ (sc.vaddr ≠ 0 ∨ sc.nprobes = 0)) ∨
      (sc.vaddr = 0 ∧ 0 < sc.nprobes ∧ sc.registerUprobe 0 ≠ 0) := by
  by_cases hearly : (uDbfsInit sc.kern "probe5ag" .init).1 ≠ 0 ∨ sc.kern.kzalloc 0 = false
  · obtain ⟨s, hinit, hledger⟩ := initModule_early (t := t) hearly
    have hexact : Exact t sc := by
      rw [exact_of_failed hinit (by decide), hledger]
      exact Ledger.sound_empty.settled rfl
    apply iff_of_true hexact
    rcases hearly with h | h
    · exact Or.inl h
    · exact Or.inr (Or.inl h)
  · obtain ⟨hdbfs, hkzalloc⟩ := not_or.mp hearly
    obtain ⟨kern, block, hinit⟩ := initModule_ready (t := t) (not_not.mp hdbfs)
      (Bool.eq_true_of_not_eq_false hkzalloc)
    have hloop := registerFrom_spec t sc (i := 0) (n := sc.nprobes) (s := ⟨kern, .empty⟩)
      Ledger.sound_empty (fun x hx => absurd hx List.not_mem_nil)
    generalize registerFrom sc 0 _ _ = r at hloop hinit
    obtain ⟨failed, probes, sys⟩ := r
    dsimp only at hloop hinit
    obtain ⟨m, hs, hreg, hacc, hzero, hfailed⟩ := hloop
    simp only [Nat.zero_add] at hzero hfailed
    have hledger : (shutDown ⟨sys, block, probes⟩).sys.ledger =
        sys.ledger.unregisterEach (taken 0 probes) := unregisterFrom_ledger 0 probes sys
    rw [← or_assoc, or_iff_right hearly]
    cases failed with
    | none =>
        obtain ⟨rfl, htaken⟩ := hfailed
        rw [exact_of_loaded hinit, show (cleanupModule ⟨sys, block, probes⟩).sys.ledger = _
          from hledger, htaken, settled_unregisterEach_iff hs hreg hacc (Nat.le_refl _)]
        by_cases hv : sc.vaddr = 0
        · rw [if_pos hv]
          refine ⟨fun hn => Or.inl ⟨hzero, Or.inr hn⟩, ?_⟩
          rintro (⟨-, hne | hn⟩ | ⟨-, hpos, hfail⟩)
          · exact absurd hv hne
          · exact hn
          · exact absurd (hzero 0 hpos) hfail
        · rw [if_neg hv]
          exact iff_of_true rfl (Or.inl ⟨hzero, Or.inl hv⟩)
    | some ret =>
        obtain ⟨hm, hret, hne, htaken⟩ := hfailed
        rw [hret] at hne
        rw [exact_of_failed hinit (hret ▸ hne), show (dbfsCleanup (shutDown
          ⟨sys, block, probes⟩)).sys.ledger = _ from hledger, htaken,
          settled_unregisterEach_iff hs hreg hacc (Nat.le_succ m)]
        have hnot : ¬ ∀ i < sc.nprobes, sc.registerUprobe i = 0 := fun h => hne (h m hm)
        by_cases hv : sc.vaddr = 0
        · rw [if_pos hv]
          constructor
          · rintro rfl
            exact Or.inr ⟨hv, hm, hne⟩
          · rintro (⟨hall, -⟩ | ⟨-, -, hfail⟩)
            · exact absurd hall hnot
            · -- the first failure is at probe `m`, so `m` is 0
              by_contra hpos
              exact hfail (hzero 0 (Nat.pos_of_ne_zero hpos))
        · rw [if_neg hv]
          apply iff_of_false (Nat.succ_ne_self m)
          rintro (⟨hall, -⟩ | ⟨hv', -⟩)
          · exact hnot hall
          · exact hv hv'

/-- Three probes at 0x80484a8, and the registration of the second fails. -/
def secondFails : Scenario where
  pid := 3243
  nprobes := 3
  nprobes_lt := by decide
  vaddr := 0x80484a8
  kern := ⟨fun _ => true, fun _ => true, fun _ => true, fun _ => true, fun _ _ => none, fun _ => 0⟩
  registerUprobe i := if i = 1 then -22 else 0

/-- The probe that was never registered is unregistered. -/
theorem secondFails_not_exact : ¬ Exact .i386 secondFails := by
  intro h
  have hsettled := h.failed (by decide)
  have hcalls : (initModule (t := .i386) secondFails
      (loaded .i386)).2.sys.ledger.unregisterCalls = [(0, true), (1, false)] := by decide
  have := hsettled.wasRegistered (1, false) (by rw [hcalls]; simp)
  exact Bool.noConfusion this

end Probe5ag

end UprobeTests
