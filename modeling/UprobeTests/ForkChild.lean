/-
  UprobeTests.ForkChild

  The child that fork_thread.c and fork_and_defunc.c fork, and the verdict of
  fork_thread.c when its children run their own code to the end.

  `fork` is meant to take the breakpoints out of the child's memory, so the
  child expects the kernel not to count: it exits with status 0 exactly when no
  call of `probe_0` fires in it (`run_forkChild`).  With that every interleaving
  of fork_thread.c ends, and ends in the same verdict (`forkThread_prints_iff`).
-/

import UprobeTests.CallLoop
import UprobeTests.Lib.PoolRank
import UprobeTests.ForkThreadLimits

namespace UprobeTests

namespace ForkThread

open Finset

/-- The child's side of `fork_thread`: any result but -1 is status 1, as is the
    `exit` of `report_test_fail`.  It starts on a copy of the table just built. -/
def forkChild (t : Target) (tid : BitVec 32) (fires : Nat → ProbeId → Nat) (cnt : Nat) :
    Prog (ProbeTable t) (BitVec 8) Empty := do
  match ← (callLoop t tid [probeZero] fires (fun error => error ≠ -1) 0 cnt).mapExit fun _ => 1 with
  | some _ => Prog.exit 1
  | none => Prog.exit 0

/-! ## The child run alone on i386 -/

section Child

variable (tid : BitVec 32) {fires : Nat → ProbeId → Nat} {cnt : Nat}

/-- A call on a slot never hit returns -1 exactly when it does not fire. -/
theorem returned_unhit {s : Uinfo 32} (hs : s.kcount = -1) {fired : Nat} (hfired : fired < 2 ^ 32) :
    ((Uinfo.call (t := .i386) s tid fired).returned = -1 ↔ fired = 0) ∧
      (fired = 0 → (Uinfo.call (t := .i386) s tid fired).kcount = -1) := by
  have hzero : s.kcount = BitVec.ofNat 32 0 - 1 := by rw [hs]; rfl
  obtain ⟨hk, hu⟩ := call_kcount_ucount tid hzero (Nat.zero_add fired ▸ Nat.le_of_lt hfired)
  rw [Nat.zero_add] at hk
  by_cases hnone : fired = 0
  · subst hnone
    have hminus : (Uinfo.call (t := .i386) s tid 0).kcount = -1 := by rw [hk]; rfl
    refine ⟨iff_of_true ?_ rfl, fun _ => hminus⟩
    rw [Uinfo.returned, if_pos (Or.inl hminus), hminus]
    decide
  · refine ⟨iff_of_false ?_ hnone, fun h => absurd h hnone⟩
    -- the first hit has reset the user's count, which the call has raised to 0
    rw [if_pos ⟨rfl, Nat.pos_of_ne_zero hnone⟩] at hu
    have hone : (Uinfo.call (t := .i386) s tid fired).ucount = BitVec.ofNat 32 1 - 1 := by
      rw [hu]
      rfl
    rw [returned_of_counts hk hone (Nat.pos_of_ne_zero hnone) hfired (by decide)]
    by_cases h1 : fired = 1
    · rw [if_pos h1, h1]
      decide
    · rw [if_neg h1]
      decide

/-- A single call of a loop body. -/
theorem run_callProbes_one (fire : ProbeId → Nat) (stop : Int → Bool) {k : ProbeId}
    {tbl : ProbeTable .i386} (hown : (tbl k).OwnedBy tid) :
    (callProbes .i386 tid fire stop [k]).run tbl =
      (.ok (if stop ((tbl k).call tid (fire k)).returned then
        some ((tbl k).call tid (fire k)).returned else none),
        Function.update tbl k ((tbl k).call tid (fire k))) := by
  rw [callProbes, Prog.run_bind_ok (run_focus_probe hown)]
  split <;> rfl

/-- The child's loop from iteration `i` on, no call before having fired. -/
theorem run_childLoop {k : ProbeId} (hfires : ∀ j < cnt, fires j k < 2 ^ 32) {i r : Nat}
    (hir : i + r = cnt) (tbl : ProbeTable .i386) (htbl : (tbl k).kcount = -1)
    (hown : (tbl k).OwnedBy tid) :
    ∃ res tbl', (callLoop .i386 tid [k] fires (fun error => error ≠ -1) i r).run tbl =
        (.ok res, tbl') ∧ (res = none ↔ ∀ j, i ≤ j → j < cnt → fires j k = 0) := by
  induction r generalizing i tbl with
  | zero =>
      refine ⟨none, tbl, rfl, iff_of_true rfl fun j hj hlt => ?_⟩
      omega
  | succ r ih =>
      obtain ⟨hreturned, hkcount⟩ := returned_unhit tid htbl (hfires i (by omega))
      have hcall := run_callProbes_one tid (fires i) (fun error => error ≠ -1) hown
      by_cases hnone : fires i k = 0
      · rw [if_neg (by simpa using hreturned.mpr hnone)] at hcall
        have htbl' : (Function.update tbl k ((tbl k).call tid (fires i k)) k).kcount = -1 := by
          rw [Function.update_self]
          exact hkcount hnone
        have hown' : (Function.update tbl k ((tbl k).call tid (fires i k)) k).OwnedBy tid := by
          rw [Function.update_self]
          exact call_owned tid _ _
        obtain ⟨res, tbl', hrun, hres⟩ := ih (by omega : i + 1 + r = cnt) _ htbl' hown'
        refine ⟨res, tbl', by rw [callLoop, Prog.run_bind_ok hcall, hrun], hres.trans ?_⟩
        -- no call before `i + 1` fires either
        refine ⟨fun h j hj hlt => ?_, fun h j hj hlt => h j (by omega) hlt⟩
        rcases Nat.eq_or_lt_of_le hj with rfl | hj'
        · exact hnone
        · exact h j hj' hlt
      · rw [if_pos (by simpa using hreturned.not.mpr hnone)] at hcall
        exact ⟨_, _, by rw [callLoop, Prog.run_bind_ok hcall]; rfl,
          iff_of_false (Option.some_ne_none _) fun h => hnone (h i (Nat.le_refl i) (by omega))⟩

/-- The exit status of a child that runs to its end. -/
theorem run_forkChild (hfires : ∀ j < cnt, fires j probeZero < 2 ^ 32) :
    ((forkChild .i386 tid fires cnt).run fun _ => Uinfo.fresh 32).1 =
      .error (if ∀ j < cnt, fires j probeZero = 0 then 0 else 1) := by
  obtain ⟨res, tbl', hrun, hres⟩ := run_childLoop tid hfires (Nat.zero_add cnt)
    (fun _ => Uinfo.fresh 32) rfl (fresh_owned 32 tid)
  have hall : (∀ j, 0 ≤ j → j < cnt → fires j probeZero = 0) ↔ ∀ j < cnt, fires j probeZero = 0 :=
    ⟨fun h j => h j (Nat.zero_le j), fun h j _ => h j⟩
  rw [forkChild, Prog.run_bind_ok (Prog.run_mapExit_ok _ hrun)]
  by_cases hnone : ∀ j < cnt, fires j probeZero = 0
  · obtain rfl := hres.mpr (hall.mpr hnone)
    rw [if_pos hnone]
    rfl
  · obtain ⟨error, rfl⟩ := Option.ne_none_iff_exists'.mp
      (mt hres.mp (mt hall.mp hnone))
    rw [if_neg hnone]
    rfl

end Child

/-! ## Every interleaving of fork_thread.c ends -/

section Ends

variable {n : Nat}

/-- How many children run. -/
def runningCount (k : Children n) : Nat := ∑ c, if k.child c = .running then 1 else 0

theorem runningCount_update (k : Children n) (c : Fin n) (x : Child)
    (waits : Fin n → Option (Option (Fin n))) :
    runningCount ⟨Function.update k.child c x, waits⟩ + (if k.child c = .running then 1 else 0) =
      runningCount k + if x = .running then 1 else 0 :=
  Pool.sum_apply_update (fun x : Child => if x = .running then 1 else 0) k.child c x

theorem step_running {t : Target} {cnt : Nat} {sc : Scenario n} {i : Fin n} {k k' : Children n}
    {x x' : Thread t} (h : Step cnt sc i (k, x) (k', x')) :
    runningCount k' ≤ runningCount k + 1 := by
  cases h with
  | fork hpc hfork =>
      have hcount := runningCount_update k i .running k.waits
      simp only [if_true] at hcount
      show runningCount ⟨Function.update k.child i .running, k.waits⟩ ≤ _
      omega
  | @reap _ _ c hpc hc =>
      have hcount := runningCount_update k c .reaped (Function.update k.waits i (some (some c)))
      simp only [reduceCtorEq, if_false] at hcount
      show runningCount ⟨Function.update k.child c .reaped, _⟩ ≤ _
      omega
  | noChild hpc hnone => exact Nat.le_succ _
  | forkFails hpc hfork | pre hpc hj | preDone hpc hj | post hpc hj | postDone hpc hj =>
      exact Nat.le_succ _

/-- A fork brings one more child to wait for, and costs the parent two. -/
def ranked (t : Target) (a : Args) (junk : BitVec 32) (sc : Scenario a.numThreads) :
    (main t a junk sc).Ranked where
  thread x := 2 * x.pc.remaining a.niter
  shared := runningCount
  fresh := 4 * a.niter + 8
  start_le _ _ := by
    show 2 * (2 * a.niter + 4) ≤ _
    omega
  step_lt h := by
    have hremaining := step_remaining h
    have hrunning := step_running h
    omega
  env_lt := by
    rintro k k' ⟨c, hc, rfl⟩
    have hcount := runningCount_update k c .zombie k.waits
    simp only [hc, reduceCtorEq, if_true, if_false] at hcount
    show runningCount ⟨Function.update k.child c .zombie, k.waits⟩ < _
    omega

theorem terminates (t : Target) (a : Args) (junk : BitVec 32) (sc : Scenario a.numThreads) :
    (main t a junk sc).Terminates := by
  refine Pool.terminates_of_ranked (ranked t a junk sc) (fun i k x hx => ?_) a.numThreads_pos
    Nat.zero_lt_one
  have hstep : (∃ k' x', Step a.niter sc i (k, x) (k', x')) ∨ ∃ c, k.child c = .running ∧
      ∃ k' x', Step a.niter sc i (k.ends c, x) (k', x') := exists_step k hx
  exact hstep.imp_right fun ⟨c, hc, _⟩ => ⟨k.ends c, c, hc, rfl⟩

end Ends

/-! ## The verdict when the children run their own code -/

/-- How the threads of a run fire, and the children they fork; the children have
    thread ids and firings of their own. -/
structure Family (n : Nat) where
  tid : Fin n → BitVec 32
  fires : Fin n → Nat → Nat
  childTid : Fin n → BitVec 32
  childFires : Fin n → Nat → ProbeId → Nat
  junk : Fin n → BitVec 32

/-- How the child of thread `i` ends; it has no way to return. -/
def Family.childEnd {n : Nat} (f : Family n) (cnt : Nat) (i : Fin n) : ChildEnd :=
  match ((forkChild .i386 (f.childTid i) (f.childFires i) cnt).run fun _ => Uinfo.fresh 32).1 with
  | .error code => .exited code
  | .ok e => e.elim

/-- Every `fork` succeeds, and no child is killed. -/
def Family.scenario {n : Nat} (f : Family n) (cnt : Nat) : Scenario n where
  tid := f.tid
  forks _ := true
  ends := f.childEnd cnt
  fires := f.fires
  junk := f.junk

/-- Every call of a parent fires once, and no call of a child fires. -/
structure Family.AsMeant {n : Nat} (f : Family n) (cnt : Nat) : Prop where
  parents : ∀ i, ∀ j < 2 * cnt, f.fires i j = 1
  children : ∀ i, ∀ j < cnt, f.childFires i j probeZero = 0

section Verdict

variable {a : Args} {junk : BitVec 32} {f : Family a.numThreads}

/-- Calls that fired once, and the firings of the next, are among all firings. -/
theorem calls_le {fires : Nat → Nat} {j m : Nat} (hj : j < m) (hprev : ∀ j' < j, fires j' = 1) :
    j + fires j ≤ ∑ j ∈ range m, fires j := by
  have hones : ∑ j' ∈ range j, fires j' = j := by
    rw [Finset.sum_congr rfl fun j' hj' => hprev j' (mem_range.mp hj')]
    simp
  have hle : ∑ j' ∈ range (j + 1), fires j' ≤ ∑ j' ∈ range m, fires j' :=
    sum_le_sum_of_subset (range_mono hj)
  rwa [sum_range_succ, hones] at hle

/-- A parent returns a negative result exactly when some call does not fire once. -/
theorem parentNegative_iff (hfires : ∀ i, ∑ j ∈ range (2 * a.niter), f.fires i j ≤ 2 ^ 31) :
    ParentNegative .i386 a.niter (f.scenario a.niter) ↔
      ¬ ∀ i, ∀ j < 2 * a.niter, f.fires i j = 1 := by
  constructor
  · rintro ⟨i, j, hj, hneg⟩ honce
    have hle := calls_le hj fun j' hj' => honce i j' (by omega)
    rw [honce i j hj] at hle
    have hfew := hfires i
    have hcount : parentResult .i386 (f.scenario a.niter) i j = j :=
      parentResult_of_once (by omega) fun j' hj' => honce i j' (by omega)
    rw [hcount] at hneg
    omega
  · intro hnot
    obtain ⟨i, hnot⟩ := not_forall.mp hnot
    have hbad : ∃ j, j < 2 * a.niter ∧ f.fires i j ≠ 1 := by
      simpa only [not_forall, exists_prop] using hnot
    -- the first of the calls that do not fire once
    classical
    obtain ⟨hj, hfired⟩ := Nat.find_spec hbad
    have hprev : ∀ j' < Nat.find hbad, f.fires i j' = 1 := by
      intro j' hj'
      have hmin := Nat.find_min hbad hj'
      by_contra hne
      exact hmin ⟨by omega, hne⟩
    have hle := (calls_le hj hprev).trans (hfires i)
    have hagreed : Uinfo.Agreed (slotAfter .i386 (f.scenario a.niter) i (Nat.find hbad))
        (Nat.find hbad) := slotAfter_agreed (by omega) hprev
    refine ⟨i, Nat.find hbad, hj, ?_⟩
    rw [parentResult, slotAfter]
    have hreturned := returned_of_not_hit_once ((f.scenario a.niter).tid i) hagreed hle hfired
    rw [show (f.scenario a.niter).fires = f.fires from rfl, hreturned]
    split <;> decide

theorem childEnd_eq (hchild : ∀ i, ∀ j < a.niter, f.childFires i j probeZero < 2 ^ 32)
    (i : Fin a.numThreads) :
    f.childEnd a.niter i =
      .exited (if ∀ j < a.niter, f.childFires i j probeZero = 0 then 0 else 1) := by
  rw [Family.childEnd, run_forkChild _ (hchild i)]

theorem tells_of_done (hfires : ∀ i, ∑ j ∈ range (2 * a.niter), f.fires i j ≤ 2 ^ 31)
    (hchild : ∀ i, ∀ j < a.niter, f.childFires i j probeZero < 2 ^ 32)
    (s : Pool.State a.numThreads (Children a.numThreads) (Thread .i386) String (BitVec 32))
    (v : Verdict String) (h : (main .i386 a junk (f.scenario a.niter)).Reachable s)
    (hv : s.main = .done v) : Pool.Tells (f.AsMeant a.niter) v := by
  have hs := inv h
  have hknows := hs.mainInv.2
  have hnoEchild := hs.children.noEchild fun _ => rfl
  simp only [Pool.MainKnows, hv] at hknows
  cases v with
  | pass =>
      have hthread : ∀ i, (∀ j < 2 * a.niter, 0 ≤ parentResult .i386 (f.scenario a.niter) i j) ∧
          ∃ w, s.shared.waits i = some w ∧
            wexitstatus (statusSeen (f.scenario a.niter) i w) = 0 :=
        fun i => hs.returned (hknows.2 i)
      constructor
      · by_contra hnot
        obtain ⟨i, j, hj, hneg⟩ := (parentNegative_iff hfires).mpr hnot
        exact absurd ((hthread i).1 j hj) (Int.not_le.mpr hneg)
      · intro c
        have hreaped : ∀ i, ∃ c, s.shared.waits i = some (some c) := by
          intro i
          obtain ⟨w, hw, -⟩ := (hthread i).2
          cases w with
          | none => exact absurd hw (hnoEchild i)
          | some c => exact ⟨c, hw⟩
        -- some thread has seen the exit status of this child
        obtain ⟨i, hi⟩ := hs.children.consistent.exists_wait hreaped c
        obtain ⟨w, hw, hcode⟩ := (hthread i).2
        rw [hi, Option.some.injEq] at hw
        subst hw
        have hends : (f.scenario a.niter).ends c = _ := childEnd_eq hchild c
        rw [statusSeen, hends] at hcode
        have hzero := wexitstatus_exited_eq_zero _ hcode
        by_contra hnot
        rw [if_neg hnot] at hzero
        exact absurd hzero (by decide)
  | fail =>
      obtain ⟨i, hi⟩ := hknows
      rintro ⟨hparents, hchildren⟩
      have hreturned : ParentNegative .i386 a.niter (f.scenario a.niter) ∨
          SawExitCode (f.scenario a.niter) s.shared := hs.returned hi
      rcases hreturned with hneg | ⟨i, w, hw, hcode⟩
      · exact (parentNegative_iff hfires).mp hneg hparents
      · cases w with
        | none => exact hnoEchild i hw
        | some c =>
            have hends : (f.scenario a.niter).ends c = _ := childEnd_eq hchild c
            rw [statusSeen, hends, if_pos (hchildren c)] at hcode
            exact hcode (by decide)
  | exited msg =>
      -- no thread ever leaves with "found wrong tid"
      obtain ⟨i, x, hx, hresult⟩ := hknows
      have hinv := hs.thread i x hx
      have hpc : x.pc = .done (.error msg) := pc_of_result hresult
      simp only [ThreadInv, hpc] at hinv

/-- Every interleaving of fork_thread.c and its children ends; it reports a pass
    exactly when every call of every parent fires once and no call of any child
    fires, whichever thread reaps which child, and a failure otherwise. -/
theorem forkThread_prints_iff (a : Args) (junk : BitVec 32) (f : Family a.numThreads)
    (hfires : ∀ i, ∑ j ∈ range (2 * a.niter), f.fires i j ≤ 2 ^ 31)
    (hchild : ∀ i, ∀ j < a.niter, f.childFires i j probeZero < 2 ^ 32) :
    ((main .i386 a junk (f.scenario a.niter)).Prints .pass ↔ f.AsMeant a.niter) ∧
    ((main .i386 a junk (f.scenario a.niter)).Prints .fail ↔ ¬ f.AsMeant a.niter) :=
  (terminates .i386 a junk (f.scenario a.niter)).prints_iff (tells_of_done hfires hchild)

/-- The threads fire once and their children do not. -/
def asMeant : Family 2 where
  tid i := BitVec.ofNat 32 (100 + i)
  fires _ _ := 1
  childTid i := BitVec.ofNat 32 (200 + i)
  childFires _ _ _ := 0
  junk _ := 0

/-- Two threads and their children, three iterations. -/
theorem forkThread_prints_pass_of_two :
    (main .i386 ⟨2, 3, by decide, by decide, by decide, by decide⟩ 0
      (asMeant.scenario 3)).Prints .pass :=
  (forkThread_prints_iff ⟨2, 3, by decide, by decide, by decide, by decide⟩ 0 asMeant
    (by decide) fun _ _ _ => Nat.two_pow_pos 32).1.mpr
      ⟨fun _ _ _ => rfl, fun _ _ _ => rfl⟩

end Verdict

end ForkThread

end UprobeTests
