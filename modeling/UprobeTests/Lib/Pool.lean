/-
  UprobeTests.Lib.Pool

  A main thread that starts `n` threads, joins them in order, stops at the
  first bad result, and may do so for several rounds.  Thread steps, steps of
  the environment and steps of main interleave freely; a thread that leaves
  the process ends everything.

  `Pool.Step` is the system for threads with shared state.  The last sections
  specialise it to threads that are `Prog`s on private state: there every
  interleaving ends, and the verdict is the one the solo runs determine.
-/

import Mathlib.Logic.Relation
import Mathlib.Order.WellFounded
import Mathlib.Algebra.BigOperators.Group.Finset.Basic
import Mathlib.Data.Fintype.BigOperators
import UprobeTests.Lib.Prog

namespace UprobeTests

/-- How the process ends: main's own verdict, or a thread that left with `e`. -/
inductive Verdict (ε : Type) where
  | pass
  | fail
  | exited (e : ε)
deriving DecidableEq, Repr

/-- A spawn/join program: `n` threads in each of `rounds` rounds. -/
structure Pool (n : Nat) (τ σ ε ρ : Type) where
  rounds : Nat
  /-- state of a thread when it is created -/
  start : Nat → Fin n → σ
  shared : τ
  /-- content of main's result variable before the first join -/
  junk : ρ
  /-- main's test of a joined result -/
  ok : ρ → Bool
  step : Fin n → τ × σ → τ × σ → Prop
  env : τ → τ → Prop
  result : σ → Option (Except ε ρ)

namespace Pool

/-- Where main stands; `results` is the variable the joins write to. -/
inductive Main (ε ρ : Type) where
  | create (i : Nat) (results : ρ)
  | join (i : Nat) (results : ρ)
  | done (v : Verdict ε)

structure State (n : Nat) (τ σ ε ρ : Type) where
  round : Nat
  shared : τ
  threads : Fin n → Option σ
  main : Main ε ρ

variable {n : Nat} {τ σ ε ρ : Type}

/-- The process has not ended. -/
def State.running (s : State n τ σ ε ρ) : Prop := ∀ v, s.main ≠ .done v

/-- One step of main, of a thread or of the environment. -/
inductive Step (P : Pool n τ σ ε ρ) : State n τ σ ε ρ → State n τ σ ε ρ → Prop where
  | create {s i r} (h : i < n) (hm : s.main = .create i r) :
      Step P s { s with
        threads := Function.update s.threads ⟨i, h⟩ (some (P.start s.round ⟨i, h⟩))
        main := .create (i + 1) r }
  | created {s r} (hm : s.main = .create n r) : Step P s { s with main := .join 0 r }
  | joinNext {s i r x v} (h : i < n) (hm : s.main = .join i r)
      (ht : s.threads ⟨i, h⟩ = some x) (hx : P.result x = some (.ok v)) (hv : P.ok v = true) :
      Step P s { s with main := .join (i + 1) v }
  | joinBreak {s i r x v} (h : i < n) (hm : s.main = .join i r)
      (ht : s.threads ⟨i, h⟩ = some x) (hx : P.result x = some (.ok v)) (hv : P.ok v = false) :
      Step P s { s with main := .done .fail }
  | joinedBad {s r} (hm : s.main = .join n r) (hr : P.ok r = false) :
      Step P s { s with main := .done .fail }
  | nextRound {s r} (hm : s.main = .join n r) (hr : P.ok r = true)
      (h : s.round + 1 < P.rounds) :
      Step P s { s with
        round := s.round + 1
        threads := fun _ => none
        main := .create 0 r }
  | finish {s r} (hm : s.main = .join n r) (hr : P.ok r = true)
      (h : ¬ s.round + 1 < P.rounds) : Step P s { s with main := .done .pass }
  | thread {s t x u' x'} (hrun : s.running) (ht : s.threads t = some x)
      (hx : P.result x = none) (hstep : P.step t (s.shared, x) (u', x')) :
      Step P s { s with shared := u', threads := Function.update s.threads t (some x') }
  | exit {s t x e} (hrun : s.running) (ht : s.threads t = some x)
      (hx : P.result x = some (.error e)) : Step P s { s with main := .done (.exited e) }
  | env {s u'} (hrun : s.running) (h : P.env s.shared u') : Step P s { s with shared := u' }

def init (P : Pool n τ σ ε ρ) : State n τ σ ε ρ where
  round := 0
  shared := P.shared
  threads := fun _ => none
  main := .create 0 P.junk

/-- `s` occurs in some interleaving. -/
def Reachable (P : Pool n τ σ ε ρ) (s : State n τ σ ε ρ) : Prop :=
  Relation.ReflTransGen P.Step P.init s

/-- An invariant of the initial state and of every step holds in every state
    of every interleaving. -/
theorem Reachable.invariant {P : Pool n τ σ ε ρ} {I : State n τ σ ε ρ → Prop}
    (hinit : I P.init) (hstep : ∀ s s', I s → P.Step s s' → I s')
    {s : State n τ σ ε ρ} (h : P.Reachable s) : I s := by
  induction h with
  | refl => exact hinit
  | tail _ hs ih => exact hstep _ _ ih hs

/-- What the steps of a thread establish about it and the shared state, and
    the steps of the others do not destroy, holds in every interleaving. -/
theorem Reachable.eachThread {P : Pool n τ σ ε ρ} {J : Fin n → τ → σ → Prop}
    (hstart : ∀ r i u, J i u (P.start r i))
    (hown : ∀ s i x u' x', P.Reachable s → s.threads i = some x →
      P.step i (s.shared, x) (u', x') → J i s.shared x → J i u' x')
    (hother : ∀ s i j x u' x' y, P.Reachable s → s.threads i = some x →
      P.step i (s.shared, x) (u', x') → j ≠ i → J j s.shared y → J j u' y)
    (henv : ∀ i u u' x, P.env u u' → J i u x → J i u' x)
    {s : State n τ σ ε ρ} (h : P.Reachable s) :
    ∀ i x, s.threads i = some x → J i s.shared x := by
  induction h with
  | refl => exact fun i x hx => absurd hx.symm (Option.some_ne_none x)
  | @tail s _ hs hstep ih =>
      intro j y hy
      cases hstep with
      | @create i r hi hm =>
          by_cases hji : j = ⟨i, hi⟩
          · subst hji
            simp only [Function.update_self, Option.some.injEq] at hy
            subst hy
            exact hstart _ _ _
          · exact ih j y (by simpa [Function.update_of_ne hji] using hy)
      -- all threads of the last round are gone
      | nextRound hm hr hround => exact absurd hy.symm (Option.some_ne_none y)
      | @thread i x u' x' hrun hi hx hst =>
          by_cases hji : j = i
          · subst hji
            simp only [Function.update_self, Option.some.injEq] at hy
            subst hy
            exact hown s j x u' x' hs hi hst (ih j x hi)
          · exact hother s i j x u' x' y hs hi hst hji
              (ih j y (by simpa [Function.update_of_ne hji] using hy))
      | env hrun hu => exact henv j _ _ y hu (ih j y hy)
      | created hm => exact ih j y hy
      | joinNext hi hm ht hx hv => exact ih j y hy
      | joinBreak hi hm ht hx hv => exact ih j y hy
      | joinedBad hm hr => exact ih j y hy
      | finish hm hr hround => exact ih j y hy
      | exit hrun ht hx => exact ih j y hy

/-- Every interleaving ends, and none of them gets stuck before. -/
def Terminates (P : Pool n τ σ ε ρ) : Prop :=
  (∀ s, P.Reachable s → (∃ s', P.Step s s') ∨ ∃ v, s.main = .done v) ∧
    WellFounded fun s' s => P.Step s s'

/-- Every interleaving ends, and ends with verdict `v`. -/
def Prints (P : Pool n τ σ ε ρ) (v : Verdict ε) : Prop :=
  P.Terminates ∧ ∀ s, P.Reachable s → ∀ v', s.main = .done v' → v' = v

theorem Terminates.exists_done {P : Pool n τ σ ε ρ} (h : P.Terminates) :
    ∃ s v, P.Reachable s ∧ s.main = .done v := by
  have hfrom : ∀ s, P.Reachable s → ∃ s' v, P.Reachable s' ∧ s'.main = .done v := by
    intro s
    induction s using h.2.induction with
    | _ s ih =>
        intro hs
        rcases h.1 s hs with ⟨s', hstep⟩ | ⟨v, hv⟩
        · exact ih s' hstep (hs.tail hstep)
        · exact ⟨s, v, hs, hv⟩
  exact hfrom P.init .refl

/-! ## What main knows of the current round -/

/-- Thread `t` has returned a result that main's test accepts, or rejects. -/
def Returned (P : Pool n τ σ ε ρ) (s : State n τ σ ε ρ) (good : Bool) (t : Fin n) : Prop :=
  ∃ x v, s.threads t = some x ∧ P.result x = some (.ok v) ∧ P.ok v = good

/-- What the position of main says about the threads of its round. -/
def MainKnows (P : Pool n τ σ ε ρ) (s : State n τ σ ε ρ) : Prop :=
  match s.main with
  | .create i _ => i ≤ n ∧ ∀ t : Fin n, (s.threads t).isSome ↔ t.val < i
  | .join i r => i ≤ n ∧ (∀ t, (s.threads t).isSome) ∧
      (∀ t : Fin n, t.val < i → P.Returned s true t) ∧ (0 < i → P.ok r = true)
  | .done .pass => s.round + 1 = P.rounds ∧ ∀ t, P.Returned s true t
  | .done .fail => ∃ t, P.Returned s false t
  | .done (.exited e) => ∃ t x, s.threads t = some x ∧ P.result x = some (.error e)

/-- A result once returned stays, whatever the other threads do. -/
theorem Returned.update {P : Pool n τ σ ε ρ} {s : State n τ σ ε ρ} {good : Bool} {t t' : Fin n}
    {x x' : σ} {u' : τ} (h : P.Returned s good t) (ht : s.threads t' = some x)
    (hx : P.result x = none) :
    P.Returned { s with shared := u', threads := Function.update s.threads t' (some x') }
      good t := by
  obtain ⟨y, v, hy, hv, hok⟩ := h
  have hne : t ≠ t' := by
    rintro rfl
    rw [ht, Option.some.injEq] at hy
    subst hy
    rw [hx] at hv
    cases hv
  exact ⟨y, v, by simp [Function.update_of_ne hne, hy], hv, hok⟩

theorem isSome_update {f : Fin n → Option σ} {t' : Fin n} {x : σ} (h : f t' = some x)
    (t : Fin n) {x' : σ} : (Function.update f t' (some x') t).isSome = (f t).isSome := by
  by_cases htt : t = t'
  · subst htt
    rw [Function.update_self, h]
    rfl
  · rw [Function.update_of_ne htt]

/-- The invariant of main's control flow. -/
def MainInv (P : Pool n τ σ ε ρ) (s : State n τ σ ε ρ) : Prop :=
  s.round < P.rounds ∧ P.MainKnows s

theorem mainInv_init {P : Pool n τ σ ε ρ} (hrounds : 0 < P.rounds) : P.MainInv P.init :=
  ⟨hrounds, Nat.zero_le n, fun _ => iff_of_false Bool.noConfusion (Nat.not_lt_zero _)⟩

theorem mainInv_step {P : Pool n τ σ ε ρ} (hn : 0 < n) {s s' : State n τ σ ε ρ}
    (hinv : P.MainInv s) (hstep : P.Step s s') : P.MainInv s' := by
  obtain ⟨hround, hknows⟩ := hinv
  cases hstep with
  | @create i r h hm =>
      simp only [MainKnows, hm] at hknows
      -- thread `i` exists now, the others as before
      refine ⟨hround, h, fun t => ?_⟩
      by_cases heq : t.val = i
      · obtain rfl : t = ⟨i, h⟩ := Fin.ext heq
        simp
      · have hne : t ≠ ⟨i, h⟩ := fun h' => heq (congrArg Fin.val h')
        simp only [Function.update_of_ne hne]
        exact (hknows.2 t).trans (by omega)
  | created hm =>
      simp only [MainKnows, hm] at hknows
      exact ⟨hround, Nat.zero_le n, fun t => (hknows.2 t).mpr t.isLt,
        fun t ht => absurd ht (Nat.not_lt_zero _), fun h => absurd h (Nat.lt_irrefl 0)⟩
  | @joinNext i r x v h hm ht hx hv =>
      simp only [MainKnows, hm] at hknows
      obtain ⟨-, hall, hprev, -⟩ := hknows
      refine ⟨hround, h, hall, fun t hlt => ?_, fun _ => hv⟩
      by_cases heq : t.val = i
      · obtain rfl : t = ⟨i, h⟩ := Fin.ext heq
        exact ⟨x, v, ht, hx, hv⟩
      · exact hprev t (by omega)
  | joinBreak h hm ht hx hv => exact ⟨hround, ⟨_, h⟩, _, _, ht, hx, hv⟩
  | joinedBad hm hr =>
      simp only [MainKnows, hm] at hknows
      -- the last result joined was accepted, and it is the one tested
      rw [hknows.2.2.2 hn] at hr
      cases hr
  | nextRound hm hr h =>
      exact ⟨h, Nat.zero_le n, fun _ => iff_of_false Bool.noConfusion (Nat.not_lt_zero _)⟩
  | finish hm hr h =>
      simp only [MainKnows, hm] at hknows
      exact ⟨hround, Nat.le_antisymm hround (Nat.le_of_not_lt h),
        fun t => hknows.2.2.1 t t.isLt⟩
  | @thread t x u' x' hrun ht hx hst =>
      -- a thread takes no result back, and main has not ended
      refine ⟨hround, ?_⟩
      simp only [MainKnows] at hknows ⊢
      split at hknows
      · exact ⟨hknows.1, fun t' => by rw [isSome_update ht]; exact hknows.2 t'⟩
      · exact ⟨hknows.1, fun t' => by rw [isSome_update ht]; exact hknows.2.1 t',
          fun t' h' => (hknows.2.2.1 t' h').update ht hx, hknows.2.2.2⟩
      · exact absurd ‹_› (hrun _)
      · exact absurd ‹_› (hrun _)
      · exact absurd ‹_› (hrun _)
  | exit hrun ht hx => exact ⟨hround, _, _, ht, hx⟩
  | env hrun h => exact ⟨hround, hknows⟩

theorem Reachable.mainInv {P : Pool n τ σ ε ρ} (hn : 0 < n) (hrounds : 0 < P.rounds)
    {s : State n τ σ ε ρ} (h : P.Reachable s) : P.MainInv s :=
  h.invariant (mainInv_init hrounds) fun _ _ => mainInv_step hn

end Pool

end UprobeTests
