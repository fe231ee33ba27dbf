/-
  UprobeTests.Lib.PoolRank

  When every interleaving of a pool with shared state ends.  A rank of the
  threads and of the shared state that each step of a thread and of the
  environment lowers bounds the whole run (`Ranked.wellFounded`), and a pool
  whose threads can always go on gets to a verdict (`terminates_of_ranked`).
-/

import Mathlib.Algebra.Order.BigOperators.Group.Finset
import UprobeTests.Lib.Pool

namespace UprobeTests

namespace Pool

variable {n : Nat} {τ σ ε ρ : Type}

/-- A sum over all threads when one of them changes. -/
theorem sum_apply_update {β : Type} (g : β → Nat) (f : Fin n → β) (t : Fin n) (y : β) :
    (∑ t', g (Function.update f t y t')) + g (f t) = (∑ t', g (f t')) + g y := by
  have hold := Finset.add_sum_erase Finset.univ (fun t' => g (f t')) (Finset.mem_univ t)
  have hnew := Finset.sum_update_of_mem (Finset.mem_univ t) (fun t' => g (f t')) (g y)
  rw [Finset.sdiff_singleton_eq_erase] at hnew
  simp only [Function.apply_update fun _ => g]
  omega

/-- Ranks that the steps of a thread lower in sum, those of the environment too. -/
structure Ranked (P : Pool n τ σ ε ρ) where
  thread : σ → Nat
  shared : τ → Nat
  /-- rank of a thread that starts -/
  fresh : Nat
  start_le : ∀ r t, thread (P.start r t) ≤ fresh
  step_lt : ∀ {t u x u' x'}, P.step t (u, x) (u', x') →
    thread x' + shared u' < thread x + shared u
  env_lt : ∀ {u u'}, P.env u u' → shared u' < shared u

namespace Ranked

variable {P : Pool n τ σ ε ρ} (R : P.Ranked)

def threadWork : Option σ → Nat
  | none => 0
  | some x => R.thread x

/-- Work left in the current round; creating a thread is paid from a budget. -/
def work (s : State n τ σ ε ρ) : Nat :=
  (∑ t, R.threadWork (s.threads t)) + R.shared s.shared +
    match s.main with
    | .create i _ => (n - i) * (R.fresh + 1) + n + 3
    | .join i _ => (n - i) + 2
    | .done _ => 0

/-- A step either opens a later round or does some of the work of this one. -/
theorem work_decreases {s s' : State n τ σ ε ρ} (h : P.Step s s') :
    Prod.Lex (· < ·) (· < ·) (P.rounds - s'.round, R.work s') (P.rounds - s.round, R.work s) := by
  cases h with
  | nextRound hm hr h =>
      left
      show P.rounds - (s.round + 1) < P.rounds - s.round
      omega
  | @create i r h hm =>
      right
      have hsum := sum_apply_update R.threadWork s.threads ⟨i, h⟩ (some (P.start s.round ⟨i, h⟩))
      have hle : R.threadWork (some (P.start s.round ⟨i, h⟩)) ≤ R.fresh := R.start_le _ _
      -- the thread created is paid for by the one less to create
      have hmul : (n - i) * (R.fresh + 1) = (n - (i + 1)) * (R.fresh + 1) + (R.fresh + 1) := by
        rw [← Nat.succ_mul]
        congr 1
        omega
      simp only [work, hm]
      omega
  | @thread t x u' x' hrun ht hx hst =>
      right
      have hsum := sum_apply_update R.threadWork s.threads t (some x')
      have hlt := R.step_lt hst
      rw [ht] at hsum
      simp only [threadWork] at hsum
      simp only [work, threadWork]
      omega
  | env hrun h =>
      right
      have hlt := R.env_lt h
      simp only [work]
      omega
  | exit hrun ht hx =>
      right
      simp only [work]
      cases hm : s.main with
      | done v => exact absurd hm (hrun v)
      | create i r => simp only; omega
      | join i r => simp only; omega
  | created hm | joinNext h hm ht hx hv | joinBreak h hm ht hx hv | joinedBad hm hr
  | finish hm hr h =>
      right
      simp only [work, hm]
      omega

theorem wellFounded (R : P.Ranked) : WellFounded fun s' s => P.Step s s' := by
  -- rounds to go first, then the work left in this one
  have hwf : WellFounded (Prod.Lex (· < · : Nat → Nat → Prop) (· < · : Nat → Nat → Prop)) :=
    WellFounded.prod_lex Nat.lt_wfRel.wf Nat.lt_wfRel.wf
  exact (InvImage.wf (fun s => (P.rounds - State.round s, R.work s)) hwf).mono
    fun _ _ h => R.work_decreases h

end Ranked

/-- A thread that has no result can go on, if need be after the environment. -/
def Live (P : Pool n τ σ ε ρ) : Prop :=
  ∀ t u x, P.result x = none → (∃ u' x', P.step t (u, x) (u', x')) ∨ ∃ u', P.env u u'

theorem progress_of_live {P : Pool n τ σ ε ρ} (hlive : P.Live) (hn : 0 < n)
    (hrounds : 0 < P.rounds) {s : State n τ σ ε ρ} (h : P.Reachable s) :
    (∃ s', P.Step s s') ∨ ∃ v, s.main = .done v := by
  obtain ⟨-, hknows⟩ := h.mainInv hn hrounds
  cases hm : s.main with
  | done v => exact Or.inr ⟨v, rfl⟩
  | create i r =>
      left
      simp only [MainKnows, hm] at hknows
      rcases Nat.lt_or_eq_of_le hknows.1 with hi | rfl
      · exact ⟨_, .create hi hm⟩
      · exact ⟨_, .created hm⟩
  | join i r =>
      left
      simp only [MainKnows, hm] at hknows
      have hrun : s.running := fun v hv => by rw [hm] at hv; cases hv
      rcases Nat.lt_or_eq_of_le hknows.1 with hi | rfl
      · -- the thread to be joined exists: it goes on or has an outcome
        obtain ⟨x, hx⟩ := Option.isSome_iff_exists.mp (hknows.2.1 ⟨i, hi⟩)
        cases ho : P.result x with
        | none =>
            rcases hlive ⟨i, hi⟩ s.shared x ho with ⟨u', x', hstep⟩ | ⟨u', henv⟩
            · exact ⟨_, .thread hrun hx ho hstep⟩
            · exact ⟨_, .env hrun henv⟩
        | some res =>
            cases res with
            | error e => exact ⟨_, .exit hrun hx ho⟩
            | ok v =>
                cases hv : P.ok v with
                | true => exact ⟨_, .joinNext hi hm hx ho hv⟩
                | false => exact ⟨_, .joinBreak hi hm hx ho hv⟩
      · cases hr : P.ok r with
        | false => exact ⟨_, .joinedBad hm hr⟩
        | true =>
            by_cases hnext : s.round + 1 < P.rounds
            · exact ⟨_, .nextRound hm hr hnext⟩
            · exact ⟨_, .finish hm hr hnext⟩

theorem terminates_of_ranked {P : Pool n τ σ ε ρ} (R : P.Ranked) (hlive : P.Live) (hn : 0 < n)
    (hrounds : 0 < P.rounds) : P.Terminates :=
  ⟨fun _ hs => progress_of_live hlive hn hrounds hs, R.wellFounded⟩

/-- A verdict that says whether `Q` holds. -/
def Tells (Q : Prop) : Verdict ε → Prop
  | .pass => Q
  | .fail => ¬ Q
  | .exited _ => False

theorem Tells.eq {Q : Prop} {v v' : Verdict ε} (hv : Tells Q v) (hv' : Tells Q v') : v = v' := by
  cases v with
  | exited e => exact hv.elim
  | pass =>
      cases v' with
      | pass => rfl
      | fail => exact absurd hv hv'
      | exited e => exact hv'.elim
  | fail =>
      cases v' with
      | pass => exact absurd hv' hv
      | fail => rfl
      | exited e => exact hv'.elim

/-- When every verdict that is reached tells whether `Q` holds, `Q` decides. -/
theorem Terminates.prints_iff {P : Pool n τ σ ε ρ} (hterm : P.Terminates) {Q : Prop}
    (htells : ∀ s v, P.Reachable s → s.main = .done v → Tells Q v) :
    (P.Prints .pass ↔ Q) ∧ (P.Prints .fail ↔ ¬ Q) := by
  have hprints : ∀ v, P.Prints v ↔ Tells Q v := by
    intro v
    constructor
    · rintro ⟨-, hall⟩
      obtain ⟨s, v', hs, hv⟩ := hterm.exists_done
      obtain rfl := hall s hs v' hv
      exact htells s v' hs hv
    · exact fun h => ⟨hterm, fun s hs v' hv => (htells s v' hs hv).eq h⟩
  exact ⟨hprints .pass, hprints .fail⟩

end Pool

end UprobeTests
