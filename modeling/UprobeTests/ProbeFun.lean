/-
  UprobeTests.ProbeFun

  The user side of include/u_test_common.h: PROBE_FUN, BUILD_PROBE_TABLE and
  the report functions.

  The breakpoint sits on the entry of `_probe_k`, so the handler runs before
  the body; `fired` says how often it runs at one call.  Each handler run,
  each store and each load is one action of the thread.  Debug output is left
  out: every program that includes the header defines `debug` as 0.
-/

import UprobeTests.ProbeHandler
import UprobeTests.Lib.Pool

namespace UprobeTests

/-- NUM_PROBES is 10. -/
abbrev ProbeId := Fin 10

/-- MAX_THREADS. -/
def maxThreads : Nat := 1000

/-- The conversion of a `ulong` to the `int` a probe function returns. -/
def intOfUlong {w : Nat} (v : BitVec w) : Int := (v.setWidth 32).toInt

/-- Text and exit status of `report_pass`, `report_fail` and `report_test_fail`. -/
def report : Verdict String → String × Nat
  | .pass => ("***PASSED***\n\n", 0)
  | .fail => ("!!!FAILED!!!\n\n", 1)
  | .exited msg => ("!!!FAILED!!! - Internal test failure - " ++ msg ++ "\n\n", 1)

section ProbeFun

variable (t : Target)

/-- `_probe_k(ptr)` with `fired` handler runs at its entry; -1 says that the
    kernel is not counting, -2 that user and kernel disagree. -/
def probeBody (tid : BitVec 32) (fired : Nat) : Prog (Uinfo t.ulongBits) String Int := do
  Prog.times (Uinfo.hit t tid) fired
  Prog.modify fun slot => { slot with ucount := slot.ucount + 1 }
  let ucount := (← Prog.get).ucount
  let kcount := (← Prog.get).kcount
  if kcount = -1 ∨ kcount = ucount then return intOfUlong kcount
  return -2

/-- `probe_k(ptr)`: claim the slot for this thread, or check that it is ours. -/
def probe (tid : BitVec 32) (fired : Nat) : Prog (Uinfo t.ulongBits) String Int := do
  if (← Prog.get).utid ≠ 0 then
    if (← Prog.get).utid ≠ tid then
      Prog.exit "found wrong tid"
    else
      probeBody t tid fired
  else
    Prog.modify fun slot => { slot with utid := tid }
    probeBody t tid fired

/-- A thread's probe table. -/
abbrev ProbeTable := ProbeId → Uinfo t.ulongBits

/-- What `calloc` returns. -/
def callocTable : ProbeTable t := fun _ => ⟨0, 0, 0, 0, 0⟩

/-- The loop of BUILD_PROBE_TABLE over the slots `js`. -/
def initSlots : List ProbeId → Prog (ProbeTable t) String Unit
  | [] => return ()
  | j :: js => do
      Prog.modify fun tbl => Function.update tbl j
        { tbl j with kcount := -1, ucount := -1, utid := 0, ktid := 0 }
      initSlots js

def buildProbeTable : Prog (ProbeTable t) String Unit := initSlots t (List.finRange 10)

/-- Call the probe functions `ks` in order until one returns an error that
    `stop` accepts, and return that error. -/
def callProbes (tid : BitVec 32) (fires : ProbeId → Nat) (stop : Int → Bool) :
    List ProbeId → Prog (ProbeTable t) String (Option Int)
  | [] => return none
  | k :: ks => do
      let error ← (probe t tid (fires k)).focus k
      if stop error then return some error
      callProbes tid fires stop ks

/-! ## What a call does to its slot -/

variable {t}

/-- The slot after a call: claimed, hit `fired` times, and counted by the user. -/
def Uinfo.call (s : Uinfo t.ulongBits) (tid : BitVec 32) (fired : Nat) : Uinfo t.ulongBits :=
  let hits := (Uinfo.hit t tid)^[fired] { s with utid := tid }
  { hits with ucount := hits.ucount + 1 }

/-- What a call that leaves the slot in state `s` returns. -/
def Uinfo.returned {w : Nat} (s : Uinfo w) : Int :=
  if s.kcount = -1 ∨ s.kcount = s.ucount then intOfUlong s.kcount else -2

/-- The slot is unclaimed or belongs to thread `tid`. -/
def Uinfo.OwnedBy {w : Nat} (s : Uinfo w) (tid : BitVec 32) : Prop :=
  s.utid = 0 ∨ s.utid = tid

theorem run_probeBody (tid : BitVec 32) (fired : Nat) (s : Uinfo t.ulongBits)
    (hs : s.utid = tid) :
    (probeBody t tid fired).run s =
      (.ok (s.call tid fired).returned, s.call tid fired) := by
  have hcall : s.call tid fired =
      { (Uinfo.hit t tid)^[fired] s with
        ucount := ((Uinfo.hit t tid)^[fired] s).ucount + 1 } := by
    subst hs
    rfl
  rw [hcall, probeBody, Prog.run_bind_ok (Prog.run_times _ _ _),
    Prog.run_bind_ok (Prog.run_modify _ _), Prog.run_bind_ok (Prog.run_get _),
    Prog.run_bind_ok (Prog.run_get _)]
  simp only [Uinfo.returned]
  split <;> rfl

theorem run_probe {tid : BitVec 32} {fired : Nat} {s : Uinfo t.ulongBits}
    (hs : s.OwnedBy tid) :
    (probe t tid fired).run s = (.ok (s.call tid fired).returned, s.call tid fired) := by
  have hclaim : { s with utid := tid }.call tid fired = s.call tid fired := rfl
  rw [probe, Prog.run_bind_ok (Prog.run_get _)]
  -- a free slot is claimed, an owned one passes the check
  by_cases h0 : s.utid = 0
  · rw [if_neg (by simpa using h0), Prog.run_bind_ok (Prog.run_modify _ _),
      run_probeBody tid fired { s with utid := tid } rfl, hclaim]
  · have htid : s.utid = tid := hs.resolve_left h0
    rw [if_pos h0, Prog.run_bind_ok (Prog.run_get _), if_neg (by simpa using htid),
      run_probeBody tid fired s htid]

/-- A hit changes neither owner. -/
theorem iterate_hit_utid (tid : BitVec 32) (n : Nat) (s : Uinfo t.ulongBits) :
    ((Uinfo.hit t tid)^[n] s).utid = s.utid := by
  induction n generalizing s with
  | zero => rfl
  | succ n ih => exact ih (s.hit t tid)

theorem call_owned (tid : BitVec 32) (fired : Nat) (s : Uinfo t.ulongBits) :
    (s.call tid fired).OwnedBy tid :=
  Or.inr (iterate_hit_utid tid fired _)

/-! ## What a thread's calls do to its table -/

/-- A slot as BUILD_PROBE_TABLE leaves it. -/
def Uinfo.fresh (w : Nat) : Uinfo w := ⟨0, 0, -1, -1, 0⟩

theorem fresh_owned (w : Nat) (tid : BitVec 32) : (Uinfo.fresh w).OwnedBy tid := Or.inl rfl

theorem run_initSlots (js : List ProbeId) (tbl : ProbeTable t) :
    (initSlots t js).run tbl = (.ok (), fun k => if k ∈ js then
      { tbl k with kcount := -1, ucount := -1, utid := 0, ktid := 0 } else tbl k) := by
  induction js generalizing tbl with
  | nil => rfl
  | cons j js ih =>
      -- a slot is set up by its own turn and by no other
      rw [initSlots, Prog.run_bind_ok (Prog.run_modify _ _), ih]
      congr 1
      funext k
      by_cases hk : k = j
      · subst hk
        simp
      · simp [hk]

theorem run_buildProbeTable :
    (buildProbeTable t).run (callocTable t) = (.ok (), fun _ => Uinfo.fresh t.ulongBits) := by
  rw [buildProbeTable, run_initSlots]
  congr 1
  funext k
  simp [callocTable, Uinfo.fresh]

section CallProbes

variable {tid : BitVec 32} (fires : ProbeId → Nat) (stop : Int → Bool)

/-- A call on slot `k` of a table. -/
theorem run_focus_probe {k : ProbeId} {n : Nat} {tbl : ProbeTable t}
    (hk : (tbl k).OwnedBy tid) :
    ((probe t tid n).focus k).run tbl =
      (.ok ((tbl k).call tid n).returned, Function.update tbl k ((tbl k).call tid n)) := by
  rw [Prog.run_focus, run_probe hk]

/-- A call keeps every slot of the table with the thread. -/
theorem owned_update_call {tbl : ProbeTable t} (hown : ∀ k, (tbl k).OwnedBy tid)
    (k : ProbeId) (n : Nat) (j : ProbeId) :
    (Function.update tbl k ((tbl k).call tid n) j).OwnedBy tid := by
  by_cases hj : j = k
  · subst hj
    simpa using call_owned tid n (tbl j)
  · simpa [Function.update_of_ne hj] using hown j

/-- When no call returns an error `stop` accepts, every slot is called once. -/
theorem run_callProbes_none {ks : List ProbeId} {tbl : ProbeTable t} (hnodup : ks.Nodup)
    (hown : ∀ k, (tbl k).OwnedBy tid)
    (hgo : ∀ k ∈ ks, stop ((tbl k).call tid (fires k)).returned = false) :
    (callProbes t tid fires stop ks).run tbl =
      (.ok none, fun k => if k ∈ ks then (tbl k).call tid (fires k) else tbl k) := by
  induction ks generalizing tbl with
  | nil => rfl
  | cons k ks ih =>
      obtain ⟨hk, hks⟩ := List.nodup_cons.mp hnodup
      have hne : ∀ j ∈ ks, j ≠ k := fun j hj heq => hk (heq ▸ hj)
      -- the head call changes slot `k` only, so the hypotheses on the others persist
      have hgo_k := hgo k List.mem_cons_self
      rw [callProbes, Prog.run_bind_ok (run_focus_probe (hown k)), if_neg (by simp [hgo_k]), ih hks]
      · congr 1
        funext j
        by_cases hj : j = k
        · subst hj
          simp [hk]
        · simp [hj]
      · exact owned_update_call hown k (fires k)
      · intro j hj
        rw [Function.update_of_ne (hne j hj)]
        exact hgo j (List.mem_cons_of_mem k hj)

/-- When some call returns an error `stop` accepts, the first of them is returned. -/
theorem run_callProbes_some {ks : List ProbeId} {tbl : ProbeTable t} (hnodup : ks.Nodup)
    (hown : ∀ k, (tbl k).OwnedBy tid)
    (hstop : ∃ k ∈ ks, stop ((tbl k).call tid (fires k)).returned = true) :
    ∃ k ∈ ks, ∃ tbl', stop ((tbl k).call tid (fires k)).returned = true ∧
      (callProbes t tid fires stop ks).run tbl =
        (.ok (some ((tbl k).call tid (fires k)).returned), tbl') := by
  induction ks generalizing tbl with
  | nil => obtain ⟨k, hk, -⟩ := hstop; cases hk
  | cons k ks ih =>
      obtain ⟨hk, hks⟩ := List.nodup_cons.mp hnodup
      have hne : ∀ j ∈ ks, j ≠ k := fun j hj heq => hk (heq ▸ hj)
      -- either the head call stops the loop, or a later one does
      by_cases hstop_k : stop ((tbl k).call tid (fires k)).returned = true
      · refine ⟨k, List.mem_cons_self, Function.update tbl k ((tbl k).call tid (fires k)),
          hstop_k, ?_⟩
        rw [callProbes, Prog.run_bind_ok (run_focus_probe (hown k)), if_pos hstop_k]
        rfl
      · obtain ⟨j, hj, hstop_j⟩ := hstop
        have hj' : j ∈ ks := by
          rcases List.mem_cons.mp hj with rfl | hj'
          · exact absurd hstop_j hstop_k
          · exact hj'
        obtain ⟨i, hi, tbl', hstop_i, hrun⟩ := ih hks
          (owned_update_call hown k (fires k)) ⟨j, hj', by rw [Function.update_of_ne (hne j hj')]; exact hstop_j⟩
        rw [Function.update_of_ne (hne i hi)] at hstop_i hrun
        refine ⟨i, List.mem_cons_of_mem k hi, tbl', hstop_i, ?_⟩
        rw [callProbes, Prog.run_bind_ok (run_focus_probe (hown k)), if_neg hstop_k, hrun]

end CallProbes

end ProbeFun

end UprobeTests
