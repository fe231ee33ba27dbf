/-
  UprobeTests.Uthread

  uprobes.w/uthread.c: `num_threads` threads call the ten probe functions
  `niter` times each and compare the user's count with the kernel's at every
  call; main joins them and reports.  `thread_1` stops at the first negative
  return, so the program passes exactly when every call fired exactly once
  (`uthread_prints_iff`), whatever the interleaving.
-/

import UprobeTests.SlotCount
import UprobeTests.Lib.ProgPool

namespace UprobeTests

open Finset

/-- The arguments `main` accepts: positive `int`s, and no more threads than its
    `thread` array holds. -/
structure Args where
  numThreads : Nat
  niter : Nat
  numThreads_pos : 0 < numThreads
  numThreads_le : numThreads ≤ maxThreads
  niter_pos : 0 < niter
  niter_lt : niter < 2 ^ 31

/-- main's test of a joined result, `results != 0` negated. -/
def resultOk (results : BitVec 32) : Bool := results == 0

namespace Uthread

section Threads

variable (t : Target) (tid : BitVec 32) (fires : Nat → ProbeId → Nat)

/-- The loop of `thread_1` from iteration `i` on, with `r` iterations to go;
    `fires i k` is how often probe `k` fires in iteration `i`.  Returns the
    error the loop broke out with. -/
def thread1Loop : Nat → Nat → Prog (ProbeTable t) String (Option Int)
  | _, 0 => return none
  | i, r + 1 => do
      match ← callProbes t tid (fires i) (fun error => error < 0) (List.finRange 10) with
      | some error => return some error
      | none => thread1Loop (i + 1) r

/-- `thread_1`. -/
def thread1 (cnt : Nat) : Prog (ProbeTable t) String (BitVec 32) := do
  buildProbeTable t
  match ← thread1Loop t tid fires 0 cnt with
  | none => return 0
  | some error => if error ≥ 0 then return 0 else return BitVec.ofInt 32 error

end Threads

/-- `main`: one round of `thread_1` threads.  Thread `i` has thread id `tid i`
    and firing pattern `fires i`; `junk` is what `results` holds at first. -/
def main (t : Target) (a : Args) (junk : BitVec 32) (tid : Fin a.numThreads → BitVec 32)
    (fires : Fin a.numThreads → Nat → ProbeId → Nat) :
    ProgPool a.numThreads (ProbeTable t) String (BitVec 32) where
  rounds := 1
  prog _ i := thread1 t (tid i) (fires i) a.niter
  state _ _ := callocTable t
  junk := junk
  ok := resultOk

/-! ## One iteration on i386 -/

section Iteration

variable (tid : BitVec 32) {fires : ProbeId → Nat} {i : Nat} {tbl : ProbeTable .i386}

theorem returned_not_neg (htbl : ∀ k, Uinfo.Agreed (tbl k) i) (hi : i + 1 ≤ 2 ^ 31)
    {k : ProbeId} (hk : fires k = 1) :
    decide ((Uinfo.call (tbl k) tid (fires k)).returned < 0) = false := by
  rw [hk, returned_of_hit_once tid (htbl k) hi]
  simp

theorem returned_neg (htbl : ∀ k, Uinfo.Agreed (tbl k) i) {k : ProbeId}
    (hi : i + fires k ≤ 2 ^ 31) (hk : fires k ≠ 1) :
    (Uinfo.call (tbl k) tid (fires k)).returned = -1 ∨
      (Uinfo.call (tbl k) tid (fires k)).returned = -2 := by
  rw [returned_of_not_hit_once tid (htbl k) hi hk]
  split
  · exact Or.inl rfl
  · exact Or.inr rfl

/-- An iteration in which every probe fires once goes on with agreed counters. -/
theorem run_iteration_pass (htbl : ∀ k, Uinfo.Agreed (tbl k) i)
    (hown : ∀ k, (tbl k).OwnedBy tid) (hi : i + 1 ≤ 2 ^ 31) (honce : ∀ k, fires k = 1) :
    ∃ tbl' : ProbeTable .i386, (∀ k, Uinfo.Agreed (tbl' k) (i + 1)) ∧
      (∀ k, (tbl' k).OwnedBy tid) ∧
      (callProbes .i386 tid fires (fun error => error < 0) (List.finRange 10)).run tbl =
        (.ok none, tbl') := by
  refine ⟨_, ?_, ?_, run_callProbes_none fires (fun error => error < 0)
    (List.nodup_finRange 10) hown
    fun k _ => returned_not_neg tid htbl hi (honce k)⟩
  · intro k
    simp only [List.mem_finRange, if_true, honce k]
    exact call_agreed tid (htbl k) (Nat.le_trans hi (by decide))
  · intro k
    simp only [List.mem_finRange, if_true]
    exact call_owned tid (fires k) (tbl k)

/-- An iteration in which some probe does not fire once breaks out with a sentinel. -/
theorem run_iteration_fail (htbl : ∀ k, Uinfo.Agreed (tbl k) i)
    (hown : ∀ k, (tbl k).OwnedBy tid) (hi : ∀ k, i + fires k < 2 ^ 31)
    (hbad : ∃ k, fires k ≠ 1) :
    ∃ error tbl', (error = -1 ∨ error = -2) ∧
      (callProbes .i386 tid fires (fun error => error < 0) (List.finRange 10)).run tbl =
        (.ok (some error), tbl') := by
  obtain ⟨k, hk⟩ := hbad
  have hstop : decide ((Uinfo.call (tbl k) tid (fires k)).returned < 0) = true := by
    rcases returned_neg tid htbl (Nat.le_of_lt (hi k)) hk with h | h <;> simp [h]
  -- the probe the loop breaks at is one that did not fire once either
  obtain ⟨j, -, tbl', hneg, hrun⟩ := run_callProbes_some fires (fun error => error < 0)
    (List.nodup_finRange 10) hown ⟨k, List.mem_finRange k, hstop⟩
  refine ⟨_, tbl', ?_, hrun⟩
  by_cases hj : fires j = 1
  · have hnonneg := returned_not_neg tid htbl (by have := hi j; omega) hj
    rw [hneg] at hnonneg
    cases hnonneg
  · exact returned_neg tid htbl (Nat.le_of_lt (hi j)) hj

end Iteration

/-! ## A whole thread on i386 -/

section Thread

variable {tid : BitVec 32} {fires : Nat → ProbeId → Nat} {cnt : Nat}

/-- Every call of every probe fires exactly once. -/
def FiresOnce (fires : Nat → ProbeId → Nat) (cnt : Nat) : Prop :=
  ∀ i < cnt, ∀ k, fires i k = 1

/-- `i` calls that fired once, and the firings of the next, stay below 2^31. -/
theorem firings_lt (hfires : ∀ k, ∑ i ∈ range cnt, fires i k < 2 ^ 31) {i : Nat} (hi : i < cnt)
    (hprev : FiresOnce fires i) (k : ProbeId) : i + fires i k < 2 ^ 31 := by
  have hones : ∑ i' ∈ range i, fires i' k = i := by
    rw [Finset.sum_congr rfl fun i' hi' => hprev i' (mem_range.mp hi') k]
    simp
  have hle : ∑ i' ∈ range (i + 1), fires i' k ≤ ∑ i' ∈ range cnt, fires i' k :=
    sum_le_sum_of_subset (range_mono hi)
  rw [sum_range_succ, hones] at hle
  exact Nat.lt_of_le_of_lt hle (hfires k)

/-- The loop from iteration `i` on, all calls before it having fired once. -/
theorem run_thread1Loop (hfires : ∀ k, ∑ i ∈ range cnt, fires i k < 2 ^ 31) {i r : Nat}
    (hir : i + r = cnt) (hcnt : cnt < 2 ^ 31) (hprev : FiresOnce fires i)
    {tbl : ProbeTable .i386} (htbl : ∀ k, Uinfo.Agreed (tbl k) i)
    (hown : ∀ k, (tbl k).OwnedBy tid) :
    ∃ res tbl', (thread1Loop .i386 tid fires i r).run tbl = (.ok res, tbl') ∧
      (FiresOnce fires cnt → res = none) ∧
      (¬ FiresOnce fires cnt → res = some (-1) ∨ res = some (-2)) := by
  induction r generalizing i tbl with
  | zero =>
      have : i = cnt := by omega
      subst this
      exact ⟨none, tbl, rfl, fun _ => rfl, fun h => absurd hprev h⟩
  | succ r ih =>
      -- no counter wraps as long as all calls before fired once
      have hlt := firings_lt hfires (by omega : i < cnt) hprev
      by_cases honce : ∀ k, fires i k = 1
      · obtain ⟨tbl', htbl', hown', hrun⟩ := run_iteration_pass tid htbl hown (by omega) honce
        have hprev' : FiresOnce fires (i + 1) := by
          intro i' hi' k
          rcases Nat.lt_succ_iff_lt_or_eq.mp hi' with h | rfl
          · exact hprev i' h k
          · exact honce k
        obtain ⟨res, tbl'', hloop, hres⟩ := ih (by omega) hprev' htbl' hown'
        exact ⟨res, tbl'', by rw [thread1Loop, Prog.run_bind_ok hrun, hloop], hres⟩
      · obtain ⟨error, tbl', herror, hrun⟩ :=
          run_iteration_fail tid htbl hown hlt (not_forall.mp honce)
        refine ⟨some error, tbl', by rw [thread1Loop, Prog.run_bind_ok hrun]; rfl,
          fun h => absurd (h i (by omega)) honce, fun _ => ?_⟩
        rcases herror with rfl | rfl
        · exact Or.inl rfl
        · exact Or.inr rfl

/-- `thread_1` run alone: 0 exactly when every call fired once, and it always returns. -/
theorem run_thread1 (hfires : ∀ k, ∑ i ∈ range cnt, fires i k < 2 ^ 31) (hcnt : cnt < 2 ^ 31) :
    ∃ v, ((thread1 .i386 tid fires cnt).run (callocTable .i386)).1 = .ok v ∧
      (resultOk v = true ↔ FiresOnce fires cnt) := by
  obtain ⟨res, tbl', hrun, hpass, hfail⟩ := run_thread1Loop hfires (Nat.zero_add cnt) hcnt
    (fun i hi => absurd hi (Nat.not_lt_zero i)) (fun _ => fresh_agreed)
    (fun _ => fresh_owned 32 tid)
  rw [thread1, Prog.run_bind_ok run_buildProbeTable, Prog.run_bind_ok hrun]
  by_cases honce : FiresOnce fires cnt
  · rw [hpass honce]
    exact ⟨0, rfl, by simpa [resultOk] using honce⟩
  · rcases hfail honce with hres | hres
    · rw [hres]
      exact ⟨BitVec.ofInt 32 (-1), rfl, iff_of_false (by decide) honce⟩
    · rw [hres]
      exact ⟨BitVec.ofInt 32 (-2), rfl, iff_of_false (by decide) honce⟩

end Thread

/-! ## The verdict of `main` -/

/-- Every interleaving of `main` ends; it reports a pass exactly when every call
    of every probe of every thread fired exactly once, and a plain failure, never
    "found wrong tid", otherwise. -/
theorem uthread_prints_iff (a : Args) (junk : BitVec 32) (tid : Fin a.numThreads → BitVec 32)
    (fires : Fin a.numThreads → Nat → ProbeId → Nat)
    (hfires : ∀ i k, ∑ j ∈ range a.niter, fires i j k < 2 ^ 31) :
    ((main .i386 a junk tid fires).toPool.Prints .pass ↔
      ∀ i, ∀ j < a.niter, ∀ k, fires i j k = 1) ∧
    ((main .i386 a junk tid fires).toPool.Prints .fail ↔
      ¬ ∀ i, ∀ j < a.niter, ∀ k, fires i j k = 1) := by
  have hsolo : ∀ r < 1, ∀ i, ∃ v, (main .i386 a junk tid fires).solo r i = .ok v ∧
      (resultOk v = true ↔ FiresOnce (fires i) a.niter) :=
    fun _ _ i => run_thread1 (hfires i) a.niter_lt
  obtain ⟨hpass, hfail⟩ := (main .i386 a junk tid fires).prints_iff_of_solo a.numThreads_pos
    Nat.zero_lt_one hsolo
  -- there is a single round
  have hround : (∀ r < 1, ∀ i, FiresOnce (fires i) a.niter) ↔
      ∀ i, ∀ j < a.niter, ∀ k, fires i j k = 1 :=
    ⟨fun h => h 0 Nat.zero_lt_one, fun h _ _ => h⟩
  exact ⟨hpass.trans hround, hfail.trans (not_congr hround)⟩

/-- Two threads, three iterations, every call firing once. -/
theorem uthread_prints_pass_of_once :
    (main .i386 ⟨2, 3, by decide, by decide, by decide, by decide⟩ 0
      (fun i => BitVec.ofNat 32 (100 + i)) fun _ _ _ => 1).toPool.Prints .pass :=
  (uthread_prints_iff _ 0 _ _ (by decide)).1.mpr fun _ _ _ _ => rfl

end Uthread

end UprobeTests
