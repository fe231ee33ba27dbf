/-
  UprobeTests.Lib.ProgPool

  Pools whose threads are programs on private state.  Nothing one thread does
  is visible to another, so a thread returns in every interleaving what its
  program returns when run alone, every interleaving ends, and the verdict is
  determined by the solo results (`prints_pass_iff`, `prints_fail_iff`).
-/

import Mathlib.Algebra.Order.BigOperators.Group.Finset
import UprobeTests.Lib.Pool

namespace UprobeTests

variable {n : Nat} {σ ε ρ α : Type}

namespace Prog

/-- One action of a program that has not finished. -/
def advance : Prog σ ε α × σ → Option (Prog σ ε α × σ)
  | (act f next, s) => some (next (f s), f s)
  | _ => none

/-- The outcome of a finished program. -/
def outcome : Prog σ ε α → Option (Except ε α)
  | ret a => some (.ok a)
  | exit e => some (.error e)
  | act _ _ => none

/-- Only an action is something to go on with. -/
theorem exists_act_of_advance {c c' : Prog σ ε α × σ} (h : advance c = some c') :
    ∃ f next, c.1 = act f next ∧ c' = (next (f c.2), f c.2) := by
  obtain ⟨p, s⟩ := c
  cases p with
  | ret a => cases h
  | exit e => cases h
  | act f next => exact ⟨f, next, rfl, (Option.some.inj h).symm⟩

theorem run_advance {c c' : Prog σ ε α × σ} (h : advance c = some c') :
    c'.1.run c'.2 = c.1.run c.2 := by
  obtain ⟨f, next, hact, rfl⟩ := exists_act_of_advance h
  rw [hact]
  rfl

theorem steps_advance {c c' : Prog σ ε α × σ} (h : advance c = some c') :
    c'.1.steps c'.2 < c.1.steps c.2 := by
  obtain ⟨f, next, hact, rfl⟩ := exists_act_of_advance h
  rw [hact]
  exact Nat.lt_succ_self _

theorem run_of_outcome {p : Prog σ ε α} {s : σ} {r : Except ε α} (h : p.outcome = some r) :
    (p.run s).1 = r := by
  cases p with
  | ret a => simpa [outcome] using h
  | exit e => simpa [outcome] using h
  | act f next => cases h

theorem advance_of_outcome {c : Prog σ ε α × σ} (h : c.1.outcome = none) :
    ∃ c', advance c = some c' := by
  obtain ⟨p, s⟩ := c
  cases p with
  | ret a => cases h
  | exit e => cases h
  | act f next => exact ⟨_, rfl⟩

end Prog

/-- A spawn/join program whose threads run private programs. -/
structure ProgPool (n : Nat) (σ ε ρ : Type) where
  rounds : Nat
  prog : Nat → Fin n → Prog σ ε ρ
  state : Nat → Fin n → σ
  junk : ρ
  ok : ρ → Bool

namespace ProgPool

def toPool (P : ProgPool n σ ε ρ) : Pool n Unit (Prog σ ε ρ × σ) ε ρ where
  rounds := P.rounds
  start r t := (P.prog r t, P.state r t)
  shared := ()
  junk := P.junk
  ok := P.ok
  step _ c c' := Prog.advance c.2 = some c'.2
  env _ _ := False
  result x := x.1.outcome

/-- What thread `t` of round `r` returns when run alone. -/
def solo (P : ProgPool n σ ε ρ) (r : Nat) (t : Fin n) : Except ε ρ :=
  ((P.prog r t).run (P.state r t)).1

/-- Run alone, thread `t` of round `r` returns a result main accepts, or rejects. -/
def SoloReturns (P : ProgPool n σ ε ρ) (good : Bool) (r : Nat) (t : Fin n) : Prop :=
  ∃ v, P.solo r t = .ok v ∧ P.ok v = good

/-! ## Every interleaving computes the solo results -/

/-- Live threads are on their way to their solo result, and the rounds behind
    were good. -/
def SoloInv (P : ProgPool n σ ε ρ) (s : Pool.State n Unit (Prog σ ε ρ × σ) ε ρ) : Prop :=
  P.toPool.MainInv s ∧
    (∀ t x, s.threads t = some x → (x.1.run x.2).1 = P.solo s.round t) ∧
    ∀ r < s.round, ∀ t, P.SoloReturns true r t

theorem SoloInv.returned {P : ProgPool n σ ε ρ} {s : Pool.State n Unit (Prog σ ε ρ × σ) ε ρ}
    (h : P.SoloInv s) {good : Bool} {t : Fin n} (ht : P.toPool.Returned s good t) :
    P.SoloReturns good s.round t := by
  obtain ⟨x, v, hx, hv, hok⟩ := ht
  refine ⟨v, ?_, hok⟩
  rw [← h.2.1 t x hx]
  exact Prog.run_of_outcome hv

theorem soloInv_step {P : ProgPool n σ ε ρ} (hn : 0 < n)
    {s s' : Pool.State n Unit (Prog σ ε ρ × σ) ε ρ} (hinv : P.SoloInv s)
    (hstep : P.toPool.Step s s') : P.SoloInv s' := by
  have hmain := Pool.mainInv_step hn hinv.1 hstep
  have hreturned : ∀ t, P.toPool.Returned s true t → P.SoloReturns true s.round t :=
    fun t ht => hinv.returned ht
  obtain ⟨⟨-, hknows⟩, hsolo, hpast⟩ := hinv
  refine ⟨hmain, ?_⟩
  cases hstep with
  | @create i r h hm =>
      refine ⟨fun t x hx => ?_, hpast⟩
      by_cases heq : t = ⟨i, h⟩
      · subst heq
        simp only [Function.update_self, Option.some.injEq] at hx
        subst hx
        rfl
      · simp only [Function.update_of_ne heq] at hx
        exact hsolo t x hx
  | nextRound hm hr h =>
      simp only [Pool.MainKnows, hm] at hknows
      -- no thread is alive; the round just joined was good
      refine ⟨fun t x hx => absurd hx.symm (Option.some_ne_none x), fun r' hr' t => ?_⟩
      by_cases heq : r' = s.round
      · rw [heq]
        exact hreturned t (hknows.2.2.1 t t.isLt)
      · have hlt : r' < s.round + 1 := hr'
        exact hpast r' (by omega) t
  | @thread t x u' x' hrun ht hx hst =>
      refine ⟨fun t' y hy => ?_, hpast⟩
      by_cases heq : t' = t
      · subst heq
        simp only [Function.update_self, Option.some.injEq] at hy
        subst hy
        -- an action changes what is left of the run, not its result
        rw [Prog.run_advance hst]
        exact hsolo t' x ht
      · simp only [Function.update_of_ne heq] at hy
        exact hsolo t' y hy
  | created hm => exact ⟨hsolo, hpast⟩
  | joinNext h hm ht hx hv => exact ⟨hsolo, hpast⟩
  | joinBreak h hm ht hx hv => exact ⟨hsolo, hpast⟩
  | joinedBad hm hr => exact ⟨hsolo, hpast⟩
  | finish hm hr h => exact ⟨hsolo, hpast⟩
  | exit hrun ht hx => exact ⟨hsolo, hpast⟩
  | env hrun h => exact h.elim

theorem soloInv {P : ProgPool n σ ε ρ} (hn : 0 < n) (hrounds : 0 < P.rounds)
    {s : Pool.State n Unit (Prog σ ε ρ × σ) ε ρ} (h : P.toPool.Reachable s) : P.SoloInv s :=
  h.invariant ⟨Pool.mainInv_init hrounds, fun _ x hx => absurd hx.symm (Option.some_ne_none x),
    fun r hr => absurd hr (Nat.not_lt_zero r)⟩ fun _ _ => soloInv_step hn

/-- The verdict of an interleaving, read off the solo results. -/
theorem verdict_of_done {P : ProgPool n σ ε ρ} (hn : 0 < n) (hrounds : 0 < P.rounds)
    {s : Pool.State n Unit (Prog σ ε ρ × σ) ε ρ} (h : P.toPool.Reachable s) {v : Verdict ε}
    (hv : s.main = .done v) :
    match v with
    | .pass => ∀ r < P.rounds, ∀ t, P.SoloReturns true r t
    | .fail => ∃ r < P.rounds, ∃ t, P.SoloReturns false r t
    | .exited e => ∃ r < P.rounds, ∃ t, P.solo r t = .error e := by
  have hinv := soloInv hn hrounds h
  obtain ⟨hround, hknows⟩ := hinv.1
  simp only [Pool.MainKnows, hv] at hknows
  cases v with
  | pass =>
      intro r hr t
      have hrounds' : s.round + 1 = P.rounds := hknows.1
      by_cases heq : r = s.round
      · rw [heq]
        exact hinv.returned (hknows.2 t)
      · exact hinv.2.2 r (by omega) t
  | fail =>
      obtain ⟨t, ht⟩ := hknows
      exact ⟨s.round, hround, t, hinv.returned ht⟩
  | exited e =>
      obtain ⟨t, x, hx, he⟩ := hknows
      refine ⟨s.round, hround, t, ?_⟩
      rw [← hinv.2.1 t x hx]
      exact Prog.run_of_outcome he

/-! ## Every interleaving ends -/

theorem progress {P : ProgPool n σ ε ρ} (hn : 0 < n) (hrounds : 0 < P.rounds)
    {s : Pool.State n Unit (Prog σ ε ρ × σ) ε ρ} (h : P.toPool.Reachable s) :
    (∃ s', P.toPool.Step s s') ∨ ∃ v, s.main = .done v := by
  obtain ⟨-, hknows⟩ := h.mainInv hn hrounds
  cases hm : s.main with
  | done v => exact Or.inr ⟨v, rfl⟩
  | create i r =>
      left
      simp only [Pool.MainKnows, hm] at hknows
      rcases Nat.lt_or_eq_of_le hknows.1 with hi | hi
      · exact ⟨_, .create hi hm⟩
      · subst hi
        exact ⟨_, .created hm⟩
  | join i r =>
      left
      simp only [Pool.MainKnows, hm] at hknows
      have hrun : s.running := fun v hv => by rw [hm] at hv; cases hv
      rcases Nat.lt_or_eq_of_le hknows.1 with hi | hi
      · -- the thread to be joined exists: it either moves or has an outcome
        obtain ⟨x, hx⟩ := Option.isSome_iff_exists.mp (hknows.2.1 ⟨i, hi⟩)
        cases ho : x.1.outcome with
        | none =>
            obtain ⟨x', hx'⟩ := Prog.advance_of_outcome ho
            have hstep : P.toPool.step ⟨i, hi⟩ (s.shared, x) ((), x') := hx'
            exact ⟨_, .thread hrun hx ho hstep⟩
        | some res =>
            cases res with
            | error e => exact ⟨_, .exit hrun hx ho⟩
            | ok v =>
                cases hv : P.ok v with
                | true => exact ⟨_, .joinNext hi hm hx ho hv⟩
                | false => exact ⟨_, .joinBreak hi hm hx ho hv⟩
      · subst hi
        cases hr : P.ok r with
        | false => exact ⟨_, .joinedBad hm hr⟩
        | true =>
            by_cases hnext : s.round + 1 < P.rounds
            · exact ⟨_, .nextRound hm hr hnext⟩
            · exact ⟨_, .finish hm hr hnext⟩

/-- Actions a created thread still has to perform. -/
def threadWork : Option (Prog σ ε ρ × σ) → Nat
  | none => 0
  | some x => x.1.steps x.2

@[simp] theorem threadWork_some (x : Prog σ ε ρ × σ) : threadWork (some x) = x.1.steps x.2 := rfl

/-- An upper bound on the work one new thread of round `r` brings in. -/
def roundWork (P : ProgPool n σ ε ρ) (r : Nat) : Nat :=
  ∑ t, (P.prog r t).steps (P.state r t)

/-- Work left in the current round. -/
def work (P : ProgPool n σ ε ρ) (s : Pool.State n Unit (Prog σ ε ρ × σ) ε ρ) : Nat :=
  (∑ t, threadWork (s.threads t)) +
    match s.main with
    | .create i _ => (n - i) * (P.roundWork s.round + 1) + n + 3
    | .join i _ => (n - i) + 2
    | .done _ => 0

theorem sum_threadWork_update (f : Fin n → Option (Prog σ ε ρ × σ)) (t : Fin n)
    (y : Option (Prog σ ε ρ × σ)) :
    (∑ t', threadWork (Function.update f t y t')) + threadWork (f t) =
      (∑ t', threadWork (f t')) + threadWork y := by
  have hold := Finset.add_sum_erase Finset.univ (fun t' => threadWork (f t'))
    (Finset.mem_univ t)
  have hnew := Finset.add_sum_erase Finset.univ
    (fun t' => threadWork (Function.update f t y t')) (Finset.mem_univ t)
  have hrest : ∑ t' ∈ Finset.univ.erase t, threadWork (Function.update f t y t') =
      ∑ t' ∈ Finset.univ.erase t, threadWork (f t') := by
    apply Finset.sum_congr rfl
    intro t' ht'
    rw [Function.update_of_ne (Finset.ne_of_mem_erase ht')]
  simp only [Function.update_self] at hnew
  omega

theorem steps_le_roundWork (P : ProgPool n σ ε ρ) (r : Nat) (t : Fin n) :
    (P.prog r t).steps (P.state r t) ≤ P.roundWork r :=
  Finset.single_le_sum (f := fun t => (P.prog r t).steps (P.state r t))
    (fun _ _ => Nat.zero_le _) (Finset.mem_univ t)

/-- A step either opens a later round or does some of the work of this one. -/
theorem work_decreases {P : ProgPool n σ ε ρ}
    {s s' : Pool.State n Unit (Prog σ ε ρ × σ) ε ρ} (h : P.toPool.Step s s') :
    Prod.Lex (· < ·) (· < ·) (P.rounds - s'.round, P.work s') (P.rounds - s.round, P.work s) := by
  cases h with
  | nextRound hm hr h =>
      left
      have : s.round + 1 < P.rounds := h
      show P.rounds - (s.round + 1) < P.rounds - s.round
      omega
  | @create i r h hm =>
      right
      have hsum : _ + _ = _ + (P.prog s.round ⟨i, h⟩).steps (P.state s.round ⟨i, h⟩) :=
        sum_threadWork_update s.threads ⟨i, h⟩
          (some (P.prog s.round ⟨i, h⟩, P.state s.round ⟨i, h⟩))
      have hle := P.steps_le_roundWork s.round ⟨i, h⟩
      -- creating a thread is paid from the budget of one round's work
      have hmul : (n - i) * (P.roundWork s.round + 1) =
          (n - (i + 1)) * (P.roundWork s.round + 1) + (P.roundWork s.round + 1) := by
        rw [← Nat.succ_mul]
        congr 1
        omega
      simp only [work, hm, toPool]
      omega
  | created hm =>
      right
      simp only [work, hm, Nat.sub_self, Nat.sub_zero]
      omega
  | joinNext h hm ht hx hv =>
      right
      simp only [work, hm]
      omega
  | joinBreak h hm ht hx hv =>
      right
      simp only [work, hm]
      omega
  | joinedBad hm hr =>
      right
      simp only [work, hm]
      omega
  | finish hm hr h =>
      right
      simp only [work, hm]
      omega
  | @thread t x u' x' hrun ht hx hst =>
      right
      have hsum := sum_threadWork_update s.threads t (some x')
      have hlt := Prog.steps_advance hst
      rw [ht, threadWork_some, threadWork_some] at hsum
      have hlt' : x'.1.steps x'.2 < x.1.steps x.2 := hlt
      simp only [work]
      omega
  | exit hrun ht hx =>
      right
      simp only [work]
      cases hm : s.main with
      | done v => exact absurd hm (hrun v)
      | create i r => simp only; omega
      | join i r => simp only; omega
  | env hrun h => exact h.elim

theorem terminates (P : ProgPool n σ ε ρ) (hn : 0 < n) (hrounds : 0 < P.rounds) :
    P.toPool.Terminates := by
  refine ⟨fun s hs => progress hn hrounds hs, ?_⟩
  -- rounds to go first, then the work left in this one
  have hwf : WellFounded (Prod.Lex (· < · : Nat → Nat → Prop) (· < · : Nat → Nat → Prop)) :=
    WellFounded.prod_lex Nat.lt_wfRel.wf Nat.lt_wfRel.wf
  exact (InvImage.wf (fun s => (P.rounds - Pool.State.round s, P.work s)) hwf).mono
    fun _ _ h => work_decreases h

/-! ## The verdict -/

theorem prints_pass_iff (P : ProgPool n σ ε ρ) (hn : 0 < n) (hrounds : 0 < P.rounds) :
    P.toPool.Prints .pass ↔ ∀ r < P.rounds, ∀ t, P.SoloReturns true r t := by
  constructor
  · rintro ⟨hterm, hall⟩
    obtain ⟨s, v, hs, hv⟩ := hterm.exists_done
    have := hall s hs v hv
    subst this
    exact verdict_of_done hn hrounds hs hv
  · intro hgood
    refine ⟨P.terminates hn hrounds, fun s hs v hv => ?_⟩
    have hverdict := verdict_of_done hn hrounds hs hv
    cases v with
    | pass => rfl
    | fail =>
        obtain ⟨r, hr, t, v, hv, hbad⟩ := hverdict
        obtain ⟨v', hv', hok⟩ := hgood r hr t
        rw [hv] at hv'
        cases hv'
        rw [hok] at hbad
        cases hbad
    | exited e =>
        obtain ⟨r, hr, t, he⟩ := hverdict
        obtain ⟨v', hv', -⟩ := hgood r hr t
        rw [he] at hv'
        cases hv'

/-- When every thread returns, a run that does not pass fails. -/
theorem prints_fail_iff (P : ProgPool n σ ε ρ) (hn : 0 < n) (hrounds : 0 < P.rounds)
    (hreturns : ∀ r < P.rounds, ∀ t, ∃ v, P.solo r t = .ok v) :
    P.toPool.Prints .fail ↔ ¬ ∀ r < P.rounds, ∀ t, P.SoloReturns true r t := by
  constructor
  · rintro ⟨hterm, hall⟩ hgood
    obtain ⟨s, v, hs, hv⟩ := hterm.exists_done
    have hfail := hall s hs v hv
    have hpass := ((P.prints_pass_iff hn hrounds).mpr hgood).2 s hs v hv
    rw [hfail] at hpass
    cases hpass
  · intro hbad
    refine ⟨P.terminates hn hrounds, fun s hs v hv => ?_⟩
    have hverdict := verdict_of_done hn hrounds hs hv
    cases v with
    | pass => exact absurd hverdict hbad
    | fail => rfl
    | exited e =>
        obtain ⟨r, hr, t, he⟩ := hverdict
        obtain ⟨v, hv⟩ := hreturns r hr t
        rw [he] at hv
        cases hv

/-- When `Q` says which threads return what main accepts, `Q` decides the verdict. -/
theorem prints_iff_of_solo (P : ProgPool n σ ε ρ) (hn : 0 < n) (hrounds : 0 < P.rounds)
    {Q : Nat → Fin n → Prop}
    (hsolo : ∀ r < P.rounds, ∀ t, ∃ v, P.solo r t = .ok v ∧ (P.ok v = true ↔ Q r t)) :
    (P.toPool.Prints .pass ↔ ∀ r < P.rounds, ∀ t, Q r t) ∧
      (P.toPool.Prints .fail ↔ ¬ ∀ r < P.rounds, ∀ t, Q r t) := by
  have hgood : (∀ r < P.rounds, ∀ t, P.SoloReturns true r t) ↔ ∀ r < P.rounds, ∀ t, Q r t := by
    apply forall₃_congr
    intro r hr t
    obtain ⟨v, hv, hok⟩ := hsolo r hr t
    constructor
    · rintro ⟨v', hv', hok'⟩
      rw [hv] at hv'
      cases hv'
      exact hok.mp hok'
    · exact fun hQ => ⟨v, hv, hok.mpr hQ⟩
  refine ⟨(P.prints_pass_iff hn hrounds).trans hgood, ?_⟩
  rw [← hgood]
  apply P.prints_fail_iff hn hrounds
  intro r hr t
  obtain ⟨v, hv, -⟩ := hsolo r hr t
  exact ⟨v, hv⟩

end ProgPool

end UprobeTests
