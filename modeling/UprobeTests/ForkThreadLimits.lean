/-
  UprobeTests.ForkThreadLimits

  uprobes.w/fork_thread.c on i386 when every call of `probe_0` in a parent
  fires once and every child exits with 0.  The slot is hit twice `niter`
  times and the count is returned as an `int`, so the run is a success up to
  `niter` = 2^30 and a reported failure above, where call 2^31 returns -2^31.
-/

import UprobeTests.ForkThread

namespace UprobeTests

namespace ForkThread

/-! ## fork_thread returns -/

section Returns

variable {t : Target} {n : Nat} {cnt : Nat} {sc : Scenario n} {i : Fin n}

/-- The steps left to a thread. -/
def Pc.remaining (cnt : Nat) : Pc → Nat
  | .fork => 2 * cnt + 4
  | .pre j => (cnt - j) + cnt + 3
  | .wait => cnt + 2
  | .post j _ => (cnt - j) + 1
  | .done _ => 0

theorem probe0_pc (sc : Scenario n) (i : Fin n) (j : Nat) (next : Pc) (x : Thread t) :
    (probe0 sc i j next x).pc = next ∨ ∃ r, (probe0 sc i j next x).pc = .done r := by
  rw [probe0]
  split
  · dsimp only
    split
    · exact Or.inr ⟨_, rfl⟩
    · exact Or.inl rfl
  · exact Or.inr ⟨_, rfl⟩

theorem step_remaining {k k' : Children n} {x x' : Thread t}
    (h : Step cnt sc i (k, x) (k', x')) : x'.pc.remaining cnt < x.pc.remaining cnt := by
  cases h with
  | fork hpc hfork => simp only [hpc, Pc.remaining]; omega
  | forkFails hpc hfork => simp only [hpc, Pc.remaining]; omega
  | @pre _ _ j hpc hj =>
      rcases probe0_pc sc i j (.pre (j + 1)) x with h | ⟨r, h⟩
      · simp only [h, hpc, Pc.remaining]; omega
      · simp only [h, hpc, Pc.remaining]; omega
  | preDone hpc hj => simp only [hpc, Pc.remaining]; omega
  | reap hpc hc => simp only [hpc, Pc.remaining]; omega
  | noChild hpc hnone => simp only [hpc, Pc.remaining]; omega
  | @post _ _ j status hpc hj =>
      rcases probe0_pc sc i (cnt + j) (.post (j + 1) status) x with h | ⟨r, h⟩
      · simp only [h, hpc, Pc.remaining]; omega
      · simp only [h, hpc, Pc.remaining]; omega
  | postDone hpc hj => simp only [hpc, Pc.remaining]; omega

/-- A thread that has not returned can take a step, at the latest when a child
    that is still running has ended. -/
theorem exists_step (k : Children n) {x : Thread t} (hx : x.result = none) :
    (∃ k' x', Step cnt sc i (k, x) (k', x')) ∨
      ∃ c, k.child c = .running ∧ ∃ k' x', Step cnt sc i (k.ends c, x) (k', x') := by
  match hpc : x.pc with
  | .fork =>
      by_cases hfork : sc.forks i = true
      · exact Or.inl ⟨_, _, .fork hpc hfork⟩
      · exact Or.inl ⟨_, _, .forkFails hpc (Bool.eq_false_iff.mpr hfork)⟩
  | .pre j =>
      by_cases hj : j < cnt
      · exact Or.inl ⟨_, _, .pre hpc hj⟩
      · exact Or.inl ⟨_, _, .preDone hpc hj⟩
  | .wait =>
      -- `wait` blocks only while some child runs
      by_cases hwaitable : k.Waitable
      · obtain ⟨c, hrunning | hzombie⟩ := hwaitable
        · exact Or.inr ⟨c, hrunning, _, _, .reap (c := c) hpc (Function.update_self _ _ _)⟩
        · exact Or.inl ⟨_, _, .reap hpc hzombie⟩
      · exact Or.inl ⟨_, _, .noChild hpc hwaitable⟩
  | .post j status =>
      by_cases hj : j < cnt
      · exact Or.inl ⟨_, _, .post hpc hj⟩
      · exact Or.inl ⟨_, _, .postDone hpc hj⟩
  | .done r =>
      rw [Thread.result, hpc] at hx
      cases hx

variable {a : Args} {junk : BitVec 32} {sc : Scenario a.numThreads}

/-- Unless the process ends first, a thread can be run until it has returned. -/
theorem exists_returned {i : Fin a.numThreads}
    {s : Pool.State a.numThreads (Children a.numThreads) (Thread t) String (BitVec 32)}
    (hrun : s.running) {x : Thread t} (hx : s.threads i = some x) :
    ∃ s' x', Relation.ReflTransGen (main t a junk sc).Step s s' ∧ s'.threads i = some x' ∧
      x'.result ≠ none := by
  induction hm : x.pc.remaining a.niter using Nat.strong_induction_on generalizing s x with
  | _ m ih =>
      by_cases hresult : x.result = none
      · have hafter : ∀ k k' x', Step a.niter sc i (k, x) (k', x') →
            ∃ s' x', Relation.ReflTransGen (main t a junk sc).Step { s with shared := k } s' ∧
              s'.threads i = some x' ∧ x'.result ≠ none := by
          intro k k' x' hstep
          obtain ⟨s', y, hs', hy⟩ := ih _ (hm ▸ step_remaining hstep)
            (s := { s with shared := k', threads := Function.update s.threads i (some x') })
            hrun (Function.update_self _ _ _) rfl
          have hthread : (main t a junk sc).Step { s with shared := k } _ :=
            .thread (t := i) hrun hx hresult hstep
          exact ⟨s', y, hs'.head hthread, hy⟩
        rcases exists_step s.shared hresult with ⟨k', x', hstep⟩ | ⟨c, hc, k', x', hstep⟩
        · exact hafter s.shared k' x' hstep
        · obtain ⟨s', y, hs', hy⟩ := hafter (s.shared.ends c) k' x' hstep
          exact ⟨s', y, hs'.head (.env hrun ⟨c, hc, rfl⟩), hy⟩
      · exact ⟨s, x, .refl, hx, hresult⟩

/-- Some run has its first thread return. -/
theorem exists_first_returned (t : Target) (a : Args) (junk : BitVec 32)
    (sc : Scenario a.numThreads) :
    ∃ s x r, (main t a junk sc).Reachable s ∧ s.threads ⟨0, a.numThreads_pos⟩ = some x ∧
      x.result = some r := by
  obtain ⟨s₁, hcreate, hrun, hx₁⟩ : ∃ s₁, (main t a junk sc).Step (main t a junk sc).init s₁ ∧
      s₁.running ∧ s₁.threads ⟨0, a.numThreads_pos⟩ = some (Thread.start t) :=
    ⟨_, .create a.numThreads_pos rfl, fun _ h => (nomatch h), by
      dsimp only
      rw [Function.update_self]
      rfl⟩
  obtain ⟨s, x, hs, hx, hresult⟩ := exists_returned hrun hx₁
  obtain ⟨r, hr⟩ := Option.ne_none_iff_exists'.mp hresult
  exact ⟨s, x, r, hs.head hcreate, hx, hr⟩

end Returns

/-! ## What fork_thread returns -/

section Result

variable {t : Target} {a : Args} {junk : BitVec 32} {sc : Scenario a.numThreads}
  {s : Pool.State a.numThreads (Children a.numThreads) (Thread t) String (BitVec 32)}

/-- A value other than 0 comes from a call or from the `wait` of the thread itself. -/
def OwnCause {n : Nat} (cnt : Nat) (sc : Scenario n) (i : Fin n) (k : Children n)
    (x : Thread t) : Prop :=
  ∀ v, x.pc = .done (.ok v) → v ≠ 0 →
    (∃ j < 2 * cnt, parentResult t sc i j < 0) ∨
      ∃ w, k.waits i = some w ∧ wexitstatus (statusSeen sc i w) ≠ 0

theorem ownCause_of_pc {n cnt : Nat} {sc : Scenario n} {i : Fin n} {k : Children n}
    {x : Thread t} (hpc : ∀ r, x.pc ≠ .done r) : OwnCause cnt sc i k x :=
  fun _ hdone => absurd hdone (hpc _)

theorem ownCause_probe0 {n cnt : Nat} {sc : Scenario n} {i : Fin n} {k : Children n}
    {x : Thread t} {j : Nat} {next : Pc} (h : Counted sc i j x.table) (hj : j < 2 * cnt)
    (hnext : ∀ r, next ≠ .done r) : OwnCause cnt sc i k (probe0 sc i j next x) := by
  rcases probe0_spec next h with ⟨hneg, -⟩ | ⟨hpc, -⟩
  · exact fun _ _ _ => Or.inl ⟨j, hj, hneg⟩
  · exact ownCause_of_pc (by rw [hpc]; exact hnext)

theorem ownCause_step {n cnt : Nat} {sc : Scenario n} {i : Fin n} {k k' : Children n}
    {x x' : Thread t} (hx : ThreadInv cnt sc i k x) (h : Step cnt sc i (k, x) (k', x')) :
    OwnCause cnt sc i k' x' := by
  cases h with
  | fork hpc hfork => exact ownCause_of_pc fun _ => Pc.noConfusion
  | forkFails hpc hfork => exact ownCause_of_pc fun _ => Pc.noConfusion
  | preDone hpc hj => exact ownCause_of_pc fun _ => Pc.noConfusion
  | reap hpc hc => exact ownCause_of_pc fun _ => Pc.noConfusion
  | noChild hpc hnone => exact ownCause_of_pc fun _ => Pc.noConfusion
  | pre hpc hj =>
      simp only [ThreadInv, hpc] at hx
      exact ownCause_probe0 hx.2.1 (by omega) fun _ => Pc.noConfusion
  | post hpc hj =>
      simp only [ThreadInv, hpc] at hx
      exact ownCause_probe0 hx.2.1 (by omega) fun _ => Pc.noConfusion
  | postDone hpc hj =>
      simp only [ThreadInv, hpc] at hx
      obtain ⟨-, -, w, hw, hstatus⟩ := hx
      intro v hv hne
      refine Or.inr ⟨w, hw, ?_⟩
      rw [← hstatus]
      intro hzero
      -- the exit byte is what the thread returns
      simp only [hzero, Pc.done.injEq, Except.ok.injEq] at hv
      exact hne hv.symm

theorem ownCause (h : (main t a junk sc).Reachable s) :
    ∀ i x, s.threads i = some x → OwnCause a.niter sc i s.shared x := by
  refine h.eachThread (J := OwnCause a.niter sc)
    (fun _ _ _ => ownCause_of_pc fun _ => Pc.noConfusion) ?_ ?_ ?_
  · intro s i x k' x' hs hx hstep _
    exact ownCause_step ((inv hs).thread i x hx) hstep
  · intro s i j x k' x' y hs hx hstep hji hy
    have hwaits := ((step_frame ((inv hs).thread i x hx) hstep).2 j hji).1
    intro v hv hne
    rw [hwaits]
    exact hy v hv hne
  · rintro i k k' x ⟨c, -, rfl⟩ hx
    exact hx

end Result

/-- Call 2^31 of a slot that has been hit once a call returns the least `int`. -/
theorem parentResult_wraps {n : Nat} {sc : Scenario n} {i : Fin n}
    (honce : ∀ j ≤ 2 ^ 31, sc.fires i j = 1) : parentResult .i386 sc i (2 ^ 31) = -2 ^ 31 := by
  rw [parentResult_eq (by decide) honce]
  decide

section Limits

variable {a : Args} {junk : BitVec 32} {sc : Scenario a.numThreads}
  {s : Pool.State a.numThreads (Children a.numThreads) (Thread .i386) String (BitVec 32)}

theorem parentResult_nonneg_iff {i : Fin a.numThreads}
    (honce : ∀ j < 2 * a.niter, sc.fires i j = 1) :
    (∀ j < 2 * a.niter, 0 ≤ parentResult .i386 sc i j) ↔ a.niter ≤ 2 ^ 30 := by
  constructor
  · intro hnonneg
    by_contra hlarge
    have hwraps : parentResult .i386 sc i (2 ^ 31) = -2 ^ 31 :=
      parentResult_wraps fun j hj => honce j (by omega)
    have := hnonneg (2 ^ 31) (by omega)
    omega
  · intro hsmall j hj
    rw [parentResult_of_once (by omega) fun j' hj' => honce j' (by omega)]
    exact Int.natCast_nonneg j

/-- Where every call fires once and every child exits with 0, every thread can
    be run until it returns, and it has counted without a negative result and
    returns 0 if and only if `niter` is at most 2^30, and no `wait` that found
    no child left it a status word with another exit byte. -/
theorem forkThread_zero_iff (honce : ∀ i, ∀ j < 2 * a.niter, sc.fires i j = 1)
    (hends : ∀ i, sc.ends i = .exited 0) (hs : (main .i386 a junk sc).Reachable s)
    {i : Fin a.numThreads} {x : Thread .i386} (hx : s.threads i = some x) :
    (s.running → ∃ s' x', Relation.ReflTransGen (main .i386 a junk sc).Step s s' ∧
      s'.threads i = some x' ∧ x'.result ≠ none) ∧
    ∀ r, x.result = some r →
      ((∀ j < 2 * a.niter, 0 ≤ parentResult .i386 sc i j) ∧ r = .ok 0 ↔
        a.niter ≤ 2 ^ 30 ∧
          (s.shared.waits i = some none → wexitstatus (sc.junk i) = 0)) := by
  refine ⟨fun hrun => exists_returned hrun hx, fun r hr => ?_⟩
  have hpc := pc_of_result hr
  have hinv := (inv hs).thread i x hx
  rw [parentResult_nonneg_iff (honce i)]
  constructor
  · rintro ⟨hsmall, rfl⟩
    simp only [ThreadInv, hpc] at hinv
    obtain ⟨-, -, w, hw, hcode⟩ := hinv.resolve_right fun h => h.1 rfl
    refine ⟨hsmall, fun hnone => ?_⟩
    rw [hw, Option.some.injEq] at hnone
    rw [hnone] at hcode
    exact hcode
  · rintro ⟨hsmall, hjunk⟩
    refine ⟨hsmall, ?_⟩
    cases r with
    | error msg => simp only [ThreadInv, hpc] at hinv
    | ok v =>
        by_contra hne
        have hv : v ≠ 0 := fun h => hne (by rw [h])
        rcases ownCause hs i x hx v hpc hv with ⟨j, hj, hneg⟩ | ⟨w, hw, hcode⟩
        · have := (parentResult_nonneg_iff (honce i)).mpr hsmall j hj
          omega
        · -- no exit byte is left that is not 0
          cases w with
          | none => exact hcode (hjunk hw)
          | some c =>
              apply hcode
              rw [statusSeen, hends]
              decide

end Limits

/-- One thread and one iteration: fork_thread returns 0. -/
theorem forkThread_zero_one :
    ∃ s x, (main .i386 one 0 (oneChild (.exited 0))).Reachable s ∧ s.threads 0 = some x ∧
      x.result = some (.ok 0) := by
  obtain ⟨s, x, r, hs, hx, hr⟩ := exists_first_returned .i386 one 0 (oneChild (.exited 0))
  have hzero := ((forkThread_zero_iff (fun _ _ _ => rfl) (fun _ => rfl) hs hx).2 r hr).mpr
    ⟨by decide, fun _ => by decide⟩
  exact ⟨s, x, hs, hx, by rw [hr, hzero.2]⟩

/-- One thread and one iteration too many. -/
abbrev aboveLimit : Args :=
  ⟨1, 2 ^ 30 + 1, one.numThreads_pos, one.numThreads_le, by decide, by decide⟩

/-- With `niter` = 2^30 + 1 a run in which all is well counts below 0. -/
theorem forkThread_zero_fails :
    ∃ s x, (main .i386 aboveLimit 0 (oneChild (.exited 0))).Reachable s ∧
      s.threads 0 = some x ∧ (∃ r, x.result = some r ∧ r ≠ .ok 0) ∧
      parentResult .i386 (oneChild (.exited 0)) 0 (2 ^ 31) < 0 := by
  obtain ⟨s, x, r, hs, hx, hr⟩ := exists_first_returned .i386 aboveLimit 0 (oneChild (.exited 0))
  have hneg : parentResult .i386 (oneChild (.exited 0)) 0 (2 ^ 31) < 0 := by
    rw [parentResult_wraps fun _ _ => rfl]
    decide
  refine ⟨s, x, hs, hx, ⟨r, hr, fun hzero => ?_⟩, hneg⟩
  have hpc := pc_of_result hr
  rw [hzero] at hpc
  have hinv := (inv hs).thread 0 x hx
  simp only [ThreadInv, hpc] at hinv
  obtain ⟨-, hnonneg, -⟩ := hinv.resolve_right fun h => h.1 rfl
  exact absurd (hnonneg (2 ^ 31) (by decide)) (Int.not_le.mpr hneg)

end ForkThread

end UprobeTests
