/-
  UprobeTests.Unreg

  uprobes.w/unreg.c: in each of `niter` iterations main registers the probes
  and runs a group of `thread_1`s, which expect every probe to fire, then
  unregisters them and runs a group of `thread_2`s, which expect none to.

  `thread_2` returns the first probe result that is not -1.  On a fresh slot
  a probe that fires returns the count 0, and 0 is also what main takes for
  success, so a probe that still fires after `unreg_all` goes unnoticed
  (`unreg_verdict_iff`).
-/

import UprobeTests.SlotCount
import UprobeTests.Uthread

namespace UprobeTests

namespace Unreg

/-- Which probe calls fire, by iteration, thread and probe: of the `thread_1`s
    that run after `reg_all` and of the `thread_2`s that run after `unreg_all`. -/
structure Firing (n : Nat) where
  registered : Nat → Fin n → ProbeId → Bool
  unregistered : Nat → Fin n → ProbeId → Bool

section Threads

variable (t : Target) (tid : BitVec 32) (fires : ProbeId → Bool)

/-- What the two thread functions share: ten calls, and the first result that
    `stop` accepts is returned. -/
def thread (stop : Int → Bool) : Prog (ProbeTable t) String (BitVec 32) := do
  buildProbeTable t
  match ← callProbes t tid (fun k => (fires k).toNat) stop (List.finRange 10) with
  | some error => return BitVec.ofInt 32 error
  | none => return 0

/-- `thread_1`. -/
def thread1 : Prog (ProbeTable t) String (BitVec 32) := thread t tid fires fun error => error < 0

/-- `thread_2`. -/
def thread2 : Prog (ProbeTable t) String (BitVec 32) := thread t tid fires fun error => error ≠ -1

end Threads

/-- `main`: iteration `j` is round `2 * j` of `thread_1`s and round `2 * j + 1`
    of `thread_2`s.  `reg_all` and `unreg_all` do nothing the process can see. -/
def main (t : Target) (a : Args) (junk : BitVec 32) (tid : Nat → Fin a.numThreads → BitVec 32)
    (f : Firing a.numThreads) : ProgPool a.numThreads (ProbeTable t) String (BitVec 32) where
  rounds := 2 * a.niter
  prog r i :=
    if r % 2 = 0 then thread1 t (tid r i) (f.registered (r / 2) i)
    else thread2 t (tid r i) (f.unregistered (r / 2) i)
  state _ _ := callocTable t
  junk := junk
  ok := resultOk

/-- What the program is there to find out: with the probes registered every
    call fires, with the probes unregistered none does. -/
def Firing.AsRegistered {n : Nat} (f : Firing n) (niter : Nat) : Prop :=
  ∀ j < niter, ∀ i k, f.registered j i k = true ∧ f.unregistered j i k = false

/-! ## One thread -/

section Thread

variable (t : Target) (tid : BitVec 32) (fires : ProbeId → Bool)

/-- A call on a fresh slot returns 0 if the probe fires and -1 if it does not: the first
    hit resets `ucount` behind the store to `ktid`, however wide that is. -/
theorem returned_fresh (fired : Bool) :
    ((Uinfo.fresh t.ulongBits).call tid fired.toNat).returned = if fired then 0 else -1 := by
  have hzero : (-1 : BitVec t.ulongBits) + 1 = 0 := BitVec.add_left_neg 1
  cases fired with
  | true =>
      have hk : ((Uinfo.fresh t.ulongBits).call tid 1).kcount = 0 := hzero
      have hu : ((Uinfo.fresh t.ulongBits).call tid 1).ucount = 0 := by
        show (if (-1 : BitVec t.ulongBits) = -1 then -1 else _) + 1 = 0
        rw [if_pos rfl, hzero]
      show ((Uinfo.fresh t.ulongBits).call tid 1).returned = 0
      rw [Uinfo.returned, if_pos (Or.inr (hk.trans hu.symm)), hk]
      cases t <;> rfl
  | false =>
      have hk : ((Uinfo.fresh t.ulongBits).call tid 0).kcount = -1 := rfl
      show ((Uinfo.fresh t.ulongBits).call tid 0).returned = -1
      rw [Uinfo.returned, if_pos (Or.inl hk), hk]
      cases t <;> rfl

/-- A thread stops at the first result `stop` accepts, if there is one. -/
theorem run_thread (stop : Int → Bool) :
    ((∀ k, stop (if fires k then 0 else -1) = false) →
      ((thread t tid fires stop).run (callocTable t)).1 = .ok 0) ∧
    ((∃ k, stop (if fires k then 0 else -1) = true) →
      ∃ k, stop (if fires k then 0 else -1) = true ∧
        ((thread t tid fires stop).run (callocTable t)).1 =
          .ok (BitVec.ofInt 32 (if fires k then 0 else -1))) := by
  have hown : ∀ _k : ProbeId, (Uinfo.fresh t.ulongBits).OwnedBy tid :=
    fun _ => fresh_owned _ tid
  constructor
  · intro hgo
    have hgo' : ∀ k ∈ List.finRange 10, stop ((Uinfo.fresh t.ulongBits).call tid
        (fires k).toNat).returned = false := by
      intro k _
      rw [returned_fresh]
      exact hgo k
    rw [thread, Prog.run_bind_ok run_buildProbeTable,
      Prog.run_bind_ok (run_callProbes_none _ stop (List.nodup_finRange 10) hown hgo')]
    rfl
  · rintro ⟨k, hk⟩
    have hstop : ∃ k ∈ List.finRange 10, stop ((Uinfo.fresh t.ulongBits).call tid
        (fires k).toNat).returned = true := by
      refine ⟨k, List.mem_finRange k, ?_⟩
      rw [returned_fresh]
      exact hk
    obtain ⟨j, -, tbl', hj, hrun⟩ := run_callProbes_some _ stop (List.nodup_finRange 10) hown hstop
    rw [returned_fresh] at hj hrun
    refine ⟨j, hj, ?_⟩
    rw [thread, Prog.run_bind_ok run_buildProbeTable, Prog.run_bind_ok hrun]
    rfl

/-- `thread_1` succeeds exactly when all its calls fire. -/
theorem run_thread1 : ∃ v, ((thread1 t tid fires).run (callocTable t)).1 = .ok v ∧
    (resultOk v = true ↔ ∀ k, fires k = true) := by
  obtain ⟨hpass, hfail⟩ := run_thread t tid fires fun error => error < 0
  by_cases hall : ∀ k, fires k = true
  · refine ⟨0, hpass fun k => by simp [hall k], ?_⟩
    exact iff_of_true rfl hall
  · obtain ⟨k, hk⟩ := not_forall.mp hall
    obtain ⟨j, hj, hrun⟩ := hfail ⟨k, by simp [hk]⟩
    -- only a call that did not fire returns a negative value
    have hj' : fires j = false := by
      by_contra hne
      rw [Bool.not_eq_false] at hne
      simp [hne] at hj
    rw [hj'] at hrun
    exact ⟨_, hrun, iff_of_false (by decide) hall⟩

/-- `thread_2` succeeds whatever fires: the result it stops at is 0. -/
theorem run_thread2 : ((thread2 t tid fires).run (callocTable t)).1 = .ok 0 := by
  obtain ⟨hpass, hfail⟩ := run_thread t tid fires fun error => error ≠ -1
  by_cases hnone : ∀ k, fires k = false
  · exact hpass fun k => by simp [hnone k]
  · obtain ⟨k, hk⟩ := not_forall.mp hnone
    obtain ⟨j, hj, hrun⟩ := hfail ⟨k, by simp [Bool.not_eq_false _ |>.mp hk]⟩
    -- only a call that fired returns anything but -1, and it returns 0
    have hj' : fires j = true := by
      by_contra hne
      rw [Bool.not_eq_true] at hne
      simp [hne] at hj
    rw [hj'] at hrun
    exact hrun

end Thread

/-! ## The verdict of `main` -/

section Verdict

variable (t : Target) (a : Args) (junk : BitVec 32) (tid : Nat → Fin a.numThreads → BitVec 32)
  (f : Firing a.numThreads)

/-- Only the `thread_1`s decide. -/
theorem main_prints_iff :
    ((main t a junk tid f).toPool.Prints .pass ↔
      ∀ j < a.niter, ∀ i k, f.registered j i k = true) ∧
    ((main t a junk tid f).toPool.Prints .fail ↔
      ¬ ∀ j < a.niter, ∀ i k, f.registered j i k = true) := by
  have hrounds : 0 < 2 * a.niter := Nat.mul_pos Nat.two_pos a.niter_pos
  have hsolo : ∀ r < 2 * a.niter, ∀ i, ∃ v, (main t a junk tid f).solo r i = .ok v ∧
      (resultOk v = true ↔ (r % 2 = 0 → ∀ k, f.registered (r / 2) i k = true)) := by
    intro r _ i
    by_cases heven : r % 2 = 0
    · obtain ⟨v, hv, hok⟩ := run_thread1 t (tid r i) (f.registered (r / 2) i)
      refine ⟨v, ?_, hok.trans ⟨fun h _ => h, fun h => h heven⟩⟩
      show (Prog.run (if r % 2 = 0 then _ else _) _).1 = _
      rw [if_pos heven]
      exact hv
    · refine ⟨0, ?_, iff_of_true rfl fun h => absurd h heven⟩
      show (Prog.run (if r % 2 = 0 then _ else _) _).1 = _
      rw [if_neg heven]
      exact run_thread2 t (tid r i) (f.unregistered (r / 2) i)
  obtain ⟨hpass, hfail⟩ :=
    (main t a junk tid f).prints_iff_of_solo a.numThreads_pos hrounds hsolo
  -- the even rounds are those of the `thread_1`s
  have hrounds_iff : (∀ r < 2 * a.niter, ∀ i, r % 2 = 0 →
      ∀ k, f.registered (r / 2) i k = true) ↔ ∀ j < a.niter, ∀ i k, f.registered j i k = true := by
    constructor
    · intro h j hj i
      have hround := h (2 * j) (by omega) i (Nat.mul_mod_right 2 j)
      rwa [Nat.mul_div_cancel_left j Nat.two_pos] at hround
    · exact fun h r hr i _ => h (r / 2) (by omega) i
  exact ⟨hpass.trans hrounds_iff, hfail.trans (not_congr hrounds_iff)⟩

/-- The verdict tells whether the probes fired as registered exactly when some
    call of a `thread_1` did not fire or no call of a `thread_2` did: `main`
    passes every run in which all probes fire all the time. -/
theorem unreg_verdict_iff :
    ((main .i386 a junk tid f).toPool.Prints .pass ↔ f.AsRegistered a.niter) ∧
      ((main .i386 a junk tid f).toPool.Prints .fail ↔ ¬ f.AsRegistered a.niter) ↔
    (∃ j < a.niter, ∃ i k, f.registered j i k = false) ∨
      ∀ j < a.niter, ∀ i k, f.unregistered j i k = false := by
  obtain ⟨hpass, hfail⟩ := main_prints_iff .i386 a junk tid f
  have hmissed : (∃ j < a.niter, ∃ i k, f.registered j i k = false) ↔
      ¬ ∀ j < a.niter, ∀ i k, f.registered j i k = true := by
    simp only [not_forall, Bool.not_eq_true, exists_prop]
  have hspec : f.AsRegistered a.niter ↔ (∀ j < a.niter, ∀ i k, f.registered j i k = true) ∧
      ∀ j < a.niter, ∀ i k, f.unregistered j i k = false :=
    ⟨fun h => ⟨fun j hj i k => (h j hj i k).1, fun j hj i k => (h j hj i k).2⟩,
      fun h j hj i k => ⟨h.1 j hj i k, h.2 j hj i k⟩⟩
  rw [hpass, hfail, hspec, hmissed]
  tauto

/-- One thread, one iteration, and every probe still firing after `unreg_all`:
    the program passes. -/
theorem unreg_passes_unregistered :
    (main .i386 ⟨1, 1, by decide, by decide, by decide, by decide⟩ 0 (fun _ _ => 100)
      ⟨fun _ _ _ => true, fun _ _ _ => true⟩).toPool.Prints .pass ∧
    ¬ Firing.AsRegistered (n := 1) ⟨fun _ _ _ => true, fun _ _ _ => true⟩ 1 := by
  refine ⟨(main_prints_iff .i386 _ 0 _ _).1.mpr fun _ _ _ _ => rfl, fun h => ?_⟩
  have hfired : true = false := (h 0 Nat.zero_lt_one 0 0).2
  cases hfired

end Verdict

end Unreg

end UprobeTests
