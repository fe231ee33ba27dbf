/-
  UprobeTests.Lib.PoolVerdicts

  The verdicts a pool of private programs can come to, for each scheduling of its
  threads.  A thread that leaves the process may do so before main has joined the
  others, or after main has given up, so the verdict need not be determined; which
  ones are possible is, by the solo results (`canEnd_pass_iff`, `canEnd_fail_iff`,
  `canEnd_exited_iff`).
-/

import UprobeTests.Lib.ProgPool

namespace UprobeTests

variable {n : Nat} {σ ε ρ α : Type}

namespace Prog

/-- Where a program ends that nobody else disturbs. -/
def final : Prog σ ε α → σ → Prog σ ε α × σ
  | ret a, s => (ret a, s)
  | exit e, s => (exit e, s)
  | act f next, s => (next (f s)).final (f s)

theorem outcome_final (p : Prog σ ε α) (s : σ) : (p.final s).1.outcome = some (p.run s).1 := by
  induction p generalizing s with
  | ret a => rfl
  | exit e => rfl
  | act f next ih => exact ih (f s) (f s)

end Prog

namespace ProgPool

variable {P : ProgPool n σ ε ρ}

abbrev State (_ : ProgPool n σ ε ρ) : Type := Pool.State n Unit (Prog σ ε ρ × σ) ε ρ

/-- The pool gets from the one state to the other. -/
abbrev Goes (P : ProgPool n σ ε ρ) (s s' : P.State) : Prop :=
  Relation.ReflTransGen P.toPool.Step s s'

/-- Some interleaving ends with this verdict. -/
def CanEnd (P : ProgPool n σ ε ρ) (v : Verdict ε) : Prop :=
  ∃ s, P.toPool.Reachable s ∧ s.main = .done v

/-- Run alone, all threads of the round return what main accepts. -/
def RoundGood (P : ProgPool n σ ε ρ) (r : Nat) : Prop := ∀ t, P.SoloReturns true r t

/-- When `Q` says whether main accepts what the thread returns, `Q` decides how it returns. -/
theorem soloReturns_iff {r : Nat} {t : Fin n} {Q : Prop}
    (h : ∃ v, P.solo r t = .ok v ∧ (P.ok v = true ↔ Q)) :
    (P.SoloReturns true r t ↔ Q) ∧ (P.SoloReturns false r t ↔ ¬ Q) := by
  obtain ⟨v, hv, hok⟩ := h
  have hreturns : ∀ good, P.SoloReturns good r t ↔ P.ok v = good := by
    intro good
    constructor
    · rintro ⟨v', hv', hgood⟩
      rw [hv, Except.ok.injEq] at hv'
      rwa [hv']
    · exact fun hgood => ⟨v, hv, hgood⟩
  refine ⟨(hreturns true).trans hok, (hreturns false).trans ?_⟩
  rw [← hok, Bool.not_eq_true]

/-! ## Threads that run to their end -/

theorem goes_thread {s : P.State} (hrun : s.running) {t : Fin n} {x : Prog σ ε ρ × σ}
    (ht : s.threads t = some x) :
    P.Goes s { s with threads := Function.update s.threads t (some (x.1.final x.2)) } := by
  obtain ⟨p, st⟩ := x
  induction p generalizing s st with
  | ret a | exit e =>
      show P.Goes s { s with threads := Function.update s.threads t (some (_, st)) }
      rw [← ht, Function.update_eq_self]
  | act f next ih =>
      have hstep : P.toPool.Step s
          { s with threads := Function.update s.threads t (some (next (f st), f st)) } :=
        .thread hrun ht rfl rfl
      have hrest := ih (f st) (s := { s with
        threads := Function.update s.threads t (some (next (f st), f st)) }) hrun (f st)
        (Function.update_self t _ s.threads)
      rw [Function.update_idem] at hrest
      exact .head hstep hrest

/-- The threads below `k` have run to their end. -/
def ended (s : P.State) (k : Nat) : P.State :=
  { s with threads := fun t =>
      if t.val < k then (s.threads t).map fun x => x.1.final x.2 else s.threads t }

theorem goes_ended {s : P.State} (hrun : s.running) (hall : ∀ t, (s.threads t).isSome) {k : Nat}
    (hk : k ≤ n) : P.Goes s (ended s k) := by
  induction k with
  | zero =>
      have hnone : ended s 0 = s := by
        simp [ended]
      rw [hnone]
  | succ k ih =>
      obtain ⟨x, hx⟩ := Option.isSome_iff_exists.mp (hall ⟨k, hk⟩)
      -- thread `k` has not moved yet
      have hthread := goes_thread (s := ended s k) hrun (t := ⟨k, hk⟩) (x := x) (by
        simp [ended, hx])
      refine (ih (Nat.le_of_succ_le hk)).trans ?_
      have hnext : ended s (k + 1) = { ended s k with
          threads := Function.update (ended s k).threads ⟨k, hk⟩ (some (x.1.final x.2)) } := by
        simp only [ended]
        congr 1
        funext t
        by_cases heq : t = ⟨k, hk⟩
        · subst heq
          simp [hx]
        · have hne : t.val ≠ k := fun h => heq (Fin.ext h)
          have hlt : t.val < k + 1 ↔ t.val < k := by omega
          simp [Function.update_of_ne heq, hlt]
      rw [hnext]
      exact hthread

/-! ## Main, when the threads have run -/

/-- Main in front of the joins of the round, with no thread that has begun. -/
def spawned (P : ProgPool n σ ε ρ) (r : Nat) (res : ρ) : P.State where
  round := r
  shared := ()
  threads t := some (P.prog r t, P.state r t)
  main := .join 0 res

theorem outcome_ended (r : Nat) (res : ρ) (t : Fin n) :
    ∃ x, (ended (P.spawned r res) n).threads t = some x ∧ x.1.outcome = some (P.solo r t) := by
  refine ⟨_, by simp only [ended, t.isLt, if_true]; rfl, ?_⟩
  exact Prog.outcome_final _ _

/-- Main when it has created `k` threads. -/
def creating (P : ProgPool n σ ε ρ) (r : Nat) (res : ρ) (k : Nat) : P.State where
  round := r
  shared := ()
  threads t := if t.val < k then some (P.prog r t, P.state r t) else none
  main := .create k res

theorem creating_step (r : Nat) (res : ρ) {k : Nat} (hk : k < n) :
    P.toPool.Step (P.creating r res k) (P.creating r res (k + 1)) := by
  have hstep := Pool.Step.create (P := P.toPool) (s := P.creating r res k) hk rfl
  have hthreads : (P.creating r res (k + 1)).threads = Function.update (P.creating r res k).threads
      ⟨k, hk⟩ (some (P.prog r ⟨k, hk⟩, P.state r ⟨k, hk⟩)) := by
    funext t
    by_cases heq : t = ⟨k, hk⟩
    · subst heq
      simp [creating]
    · have hne : t.val ≠ k := fun h => heq (Fin.ext h)
      have hlt : t.val < k + 1 ↔ t.val < k := by omega
      rw [Function.update_of_ne heq]
      exact if_congr hlt rfl rfl
  rw [show P.creating r res (k + 1) =
    ⟨r, (), (P.creating r res (k + 1)).threads, .create (k + 1) res⟩ from rfl, hthreads]
  exact hstep

/-- The threads are created one after the other. -/
theorem goes_spawned (r : Nat) (res : ρ) :
    P.Goes ⟨r, (), fun _ => none, .create 0 res⟩ (P.spawned r res) := by
  have hcreate : ∀ k ≤ n, P.Goes (P.creating r res 0) (P.creating r res k) := by
    intro k hk
    induction k with
    | zero => exact .refl
    | succ k ih => exact (ih (Nat.le_of_succ_le hk)).tail (creating_step r res hk)
  have hnone : P.creating r res 0 = ⟨r, (), fun _ => none, .create 0 res⟩ := by
    simp [creating]
  have hspawned : P.spawned r res = { P.creating r res n with main := .join 0 res } := by
    simp [creating, spawned]
  rw [← hnone, hspawned]
  exact (hcreate n (Nat.le_refl n)).tail (.created (s := P.creating r res n) rfl)

/-- The threads below `k` are joined, when main accepts what they return. -/
theorem goes_joined {r : Nat} (res : ρ) {k : Nat} (hk : k ≤ n)
    (hgood : ∀ t : Fin n, t.val < k → P.SoloReturns true r t) :
    ∃ res', (0 < k → P.ok res' = true) ∧ P.Goes (ended (P.spawned r res) n)
      { ended (P.spawned r res) n with main := .join k res' } := by
  induction k with
  | zero => exact ⟨res, fun h => absurd h (Nat.lt_irrefl 0), .refl⟩
  | succ k ih =>
      obtain ⟨res', -, hrun⟩ := ih (Nat.le_of_succ_le hk) fun t ht => hgood t (by omega)
      obtain ⟨x, hx, hout⟩ := outcome_ended r res ⟨k, hk⟩
      obtain ⟨v, hv, hok⟩ := hgood ⟨k, hk⟩ (Nat.lt_succ_self k)
      rw [hv] at hout
      refine ⟨v, fun _ => hok, hrun.tail ?_⟩
      exact .joinNext (s := { ended (P.spawned r res) n with main := .join k res' }) hk rfl hx
        hout hok

theorem running_spawned (P : ProgPool n σ ε ρ) (r : Nat) (res : ρ) : (P.spawned r res).running :=
  fun _ h => by cases h

/-- A round is reached when all before it are good. -/
theorem reachable_spawned (hn : 0 < n) {r : Nat} (hr : r < P.rounds)
    (hgood : ∀ r' < r, P.RoundGood r') : ∃ res, P.toPool.Reachable (P.spawned r res) := by
  induction r with
  | zero => exact ⟨P.junk, goes_spawned 0 P.junk⟩
  | succ r ih =>
      obtain ⟨res, hreach⟩ := ih (Nat.lt_of_succ_lt hr) fun r' h => hgood r' (Nat.lt_succ_of_lt h)
      have hall : ∀ t, ((P.spawned r res).threads t).isSome := fun _ => rfl
      obtain ⟨res', hok, hjoined⟩ := goes_joined res (Nat.le_refl n)
        fun t _ => hgood r (Nat.lt_succ_self r) t
      have hnext : P.toPool.Step { ended (P.spawned r res) n with main := .join n res' }
          ⟨r + 1, (), fun _ => none, .create 0 res'⟩ :=
        .nextRound (s := { ended (P.spawned r res) n with main := .join n res' }) rfl (hok hn) hr
      exact ⟨res', (hreach.trans (goes_ended (P.running_spawned r res) hall (Nat.le_refl n))).trans
        (hjoined.trans (.head hnext (goes_spawned (r + 1) res')))⟩

/-! ## The possible verdicts -/

theorem canEnd_pass_iff (hn : 0 < n) (hrounds : 0 < P.rounds) :
    P.CanEnd .pass ↔ ∀ r < P.rounds, P.RoundGood r := by
  constructor
  · rintro ⟨s, hs, hv⟩
    exact verdict_of_done hn hrounds hs hv
  · intro hgood
    obtain ⟨s, v, hs, hv⟩ := (P.terminates hn hrounds).exists_done
    have hpass := ((P.prints_pass_iff hn hrounds).mpr hgood).2 s hs v hv
    rw [hpass] at hv
    exact ⟨s, hs, hv⟩

/-- Main rejects a thread when it has accepted all those before it. -/
def FirstBad (P : ProgPool n σ ε ρ) (r : Nat) (t : Fin n) : Prop :=
  P.SoloReturns false r t ∧ ∀ t' < t, P.SoloReturns true r t'

/-- A bad thread that only threads which return come before gives a first one. -/
theorem exists_firstBad {r : Nat} {t : Fin n} (hbad : P.SoloReturns false r t)
    (hreturns : ∀ t' < t, ∃ v, P.solo r t' = .ok v) : ∃ t, P.FirstBad r t := by
  induction t using WellFoundedLT.induction with
  | ind t ih =>
      by_cases hfirst : ∀ t' < t, P.SoloReturns true r t'
      · exact ⟨t, hbad, hfirst⟩
      · obtain ⟨t', hnot⟩ := not_forall.mp hfirst
        obtain ⟨hlt, hnot⟩ := Classical.not_imp.mp hnot
        obtain ⟨v, hv⟩ := hreturns t' hlt
        have hbad' : P.SoloReturns false r t' := ⟨v, hv, by
          by_contra hok
          exact hnot ⟨v, hv, by simpa using hok⟩⟩
        exact ih t' hlt hbad' fun t'' ht'' => hreturns t'' (lt_trans ht'' hlt)

theorem firstBad_of_step (hn : 0 < n) {s s' : P.State} (hinv : P.SoloInv s)
    (hnot : s.main ≠ .done .fail) (hs : P.toPool.Step s s') (hfail : s'.main = .done .fail) :
    ∃ t, P.FirstBad s'.round t := by
  obtain ⟨⟨-, hknows⟩, -⟩ := id hinv
  cases hs with
  | @joinBreak i r x v hi hm ht hx hv =>
      simp only [Pool.MainKnows, hm] at hknows
      exact ⟨⟨i, hi⟩, hinv.returned ⟨x, v, ht, hx, hv⟩,
        fun t' ht' => hinv.returned (hknows.2.2.1 t' ht')⟩
  | joinedBad hm hr =>
      simp only [Pool.MainKnows, hm] at hknows
      rw [hknows.2.2.2 hn] at hr
      cases hr
  | thread | env => exact absurd hfail hnot
  | create | created | joinNext | nextRound | finish | exit => cases hfail

theorem canEnd_fail_iff (hn : 0 < n) (hrounds : 0 < P.rounds) :
    P.CanEnd .fail ↔
      ∃ r < P.rounds, (∀ r' < r, P.RoundGood r') ∧ ∃ t, P.FirstBad r t := by
  constructor
  · rintro ⟨s, hs, hfail⟩
    have hinv := soloInv hn hrounds hs
    refine ⟨s.round, hinv.1.1, hinv.2.2, ?_⟩
    induction hs with
    | refl => cases hfail
    | @tail s s' hs hstep ih =>
        by_cases hnot : s.main = .done .fail
        · -- nothing happens after the verdict
          cases hstep with
          | thread hrun | env hrun => exact absurd hnot (hrun _)
          | create _ hm | created hm | joinNext _ hm | joinBreak _ hm | joinedBad hm
          | nextRound hm | finish hm =>
              rw [hm] at hnot
              cases hnot
          | exit hrun => exact absurd hnot (hrun _)
        · exact firstBad_of_step hn (soloInv hn hrounds hs) hnot hstep hfail
  · rintro ⟨r, hr, hgood, t, ⟨v, hv, hbad⟩, hbefore⟩
    obtain ⟨res, hreach⟩ := reachable_spawned hn hr hgood
    have hall : ∀ t, ((P.spawned r res).threads t).isSome := fun _ => rfl
    obtain ⟨res', -, hjoined⟩ := goes_joined res (Nat.le_of_lt t.isLt) hbefore
    obtain ⟨x, hx, hout⟩ := outcome_ended r res t
    rw [hv] at hout
    have hbreak := Pool.Step.joinBreak (P := P.toPool)
      (s := { ended (P.spawned r res) n with main := .join t.val res' }) t.isLt rfl hx hout hbad
    exact ⟨_, (hreach.trans ((goes_ended (P.running_spawned r res) hall (Nat.le_refl n)).trans
      hjoined)).tail hbreak, rfl⟩

theorem canEnd_exited_iff (hn : 0 < n) (hrounds : 0 < P.rounds) (e : ε) :
    P.CanEnd (.exited e) ↔
      ∃ r < P.rounds, (∀ r' < r, P.RoundGood r') ∧ ∃ t, P.solo r t = .error e := by
  constructor
  · rintro ⟨s, hs, hexited⟩
    have hinv := soloInv hn hrounds hs
    obtain ⟨⟨hround, hknows⟩, hsolo, hpast⟩ := hinv
    simp only [Pool.MainKnows, hexited] at hknows
    obtain ⟨t, x, hx, hout⟩ := hknows
    refine ⟨s.round, hround, hpast, t, ?_⟩
    rw [← hsolo t x hx]
    exact Prog.run_of_outcome hout
  · rintro ⟨r, hr, hgood, t, ht⟩
    obtain ⟨res, hreach⟩ := reachable_spawned hn hr hgood
    have hall : ∀ t, ((P.spawned r res).threads t).isSome := fun _ => rfl
    obtain ⟨x, hx, hout⟩ := outcome_ended r res t
    rw [ht] at hout
    -- main is still joining when thread `t` leaves the process
    have hexit := Pool.Step.exit (P := P.toPool) (s := ended (P.spawned r res) n)
      (P.running_spawned r res) hx hout
    exact ⟨_, (hreach.trans (goes_ended (P.running_spawned r res) hall (Nat.le_refl n))).tail hexit,
      rfl⟩

/-! ## A single round -/

theorem canEnd_of_one_round (P : ProgPool n σ ε ρ) (hn : 0 < n) (hrounds : P.rounds = 1) :
    (P.CanEnd .pass ↔ P.RoundGood 0) ∧ (P.CanEnd .fail ↔ ∃ t, P.FirstBad 0 t) ∧
      ∀ e, P.CanEnd (.exited e) ↔ ∃ t, P.solo 0 t = .error e := by
  have hpos : 0 < P.rounds := by omega
  have hbefore : ∀ r < 0, P.RoundGood r := fun r hr => absurd hr (Nat.not_lt_zero r)
  refine ⟨?_, ?_, fun e => ?_⟩
  · rw [canEnd_pass_iff hn hpos, hrounds]
    exact ⟨fun h => h 0 Nat.zero_lt_one, fun h r hr => by rwa [Nat.lt_one_iff.mp hr]⟩
  · rw [canEnd_fail_iff hn hpos, hrounds]
    constructor
    · rintro ⟨r, hr, -, ht⟩
      rwa [Nat.lt_one_iff.mp hr] at ht
    · exact fun ht => ⟨0, Nat.zero_lt_one, hbefore, ht⟩
  · rw [canEnd_exited_iff hn hpos, hrounds]
    constructor
    · rintro ⟨r, hr, -, ht⟩
      rwa [Nat.lt_one_iff.mp hr] at ht
    · exact fun ht => ⟨0, Nat.zero_lt_one, hbefore, ht⟩

end ProgPool

end UprobeTests
