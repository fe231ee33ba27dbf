/-
  UprobeTests.Lib.Activations

  Pieces of straight-line code running concurrently on shared state.  An
  activation is the position of one such piece; a step takes any one of them,
  which performs its next action on the shared state and leaves any number of
  activations in its place: it goes on, ends, or has handed something over to
  another context.  Whatever is not an activation takes steps of its own.

  A `Guard` restricts the steps, for results about the runs whose steps all
  meet a condition.  Runs on concrete states are computed by `exec`.  Every run
  is finite when each activation comes to an end by itself, whatever the order.
-/

import Mathlib.Logic.Relation
import Mathlib.Logic.Hydra
import Mathlib.Algebra.BigOperators.Group.List.Basic
import Mathlib.Algebra.Ring.Int.Defs
import Mathlib.Tactic.Abel

namespace UprobeTests

/-- The shared state and the activations in progress, in no particular order. -/
structure Activations (σ α : Type) where
  shared : σ
  acts : List α

namespace Activations

variable {σ α ω μ : Type}

/-- What an activation does next, for an outcome `ω`, and the other steps. -/
structure System (σ α ω μ : Type) where
  act : σ → α → ω → Option (σ × List α)
  main : Activations σ α → μ → Option (Activations σ α)

/-- The steps that are allowed: of an activation beside the others, and of the rest. -/
structure Guard (σ α ω μ : Type) where
  act : σ → List α → α → ω → Bool
  main : Activations σ α → μ → Bool

/-- No restriction. -/
def Guard.all : Guard σ α ω μ := ⟨fun _ _ _ _ => true, fun _ _ => true⟩

/-- Only the activations take steps. -/
def Guard.actsOnly : Guard σ α ω μ := ⟨fun _ _ _ _ => true, fun _ _ => false⟩

/-- The steps that `G` does not allow. -/
def Guard.compl (G : Guard σ α ω μ) : Guard σ α ω μ :=
  ⟨fun u others a o => !G.act u others a o, fun s m => !G.main s m⟩

/-- One step. -/
inductive Step (S : System σ α ω μ) (G : Guard σ α ω μ) :
    Activations σ α → Activations σ α → Prop where
  | act {u before a after o u' new} (h : S.act u a o = some (u', new))
      (hg : G.act u (before ++ after) a o = true) :
      Step S G ⟨u, before ++ a :: after⟩ ⟨u', before ++ new ++ after⟩
  | main {s m s'} (h : S.main s m = some s') (hg : G.main s m = true) : Step S G s s'

/-- `s` occurs in a run from `init` whose steps are all allowed. -/
def Reachable (S : System σ α ω μ) (G : Guard σ α ω μ) (init s : Activations σ α) : Prop :=
  Relation.ReflTransGen (Step S G) init s

section Rules

variable {S : System σ α ω μ} {G : Guard σ α ω μ} {init s s' : Activations σ α}

/-- What holds at first and is kept by every step holds always. -/
theorem Reachable.invariant {I : Activations σ α → Prop} (h : Reachable S G init s)
    (hinit : I init) (hstep : ∀ s s', I s → Step S G s s' → I s') : I s := by
  induction h with
  | refl => exact hinit
  | tail _ hs ih => exact hstep _ _ ih hs

/-- What a step does when there is one activation. -/
theorem Step.alone {u : σ} {a : α} (h : Step S G ⟨u, [a]⟩ s') :
    (∃ o u' new, S.act u a o = some (u', new) ∧ s' = ⟨u', new⟩) ∨
      ∃ m, S.main ⟨u, [a]⟩ m = some s' := by
  generalize hs : (⟨u, [a]⟩ : Activations σ α) = s at h
  cases h with
  | @act u₁ before a₁ after o u' new h _ =>
      obtain ⟨rfl, hacts⟩ := Activations.mk.inj hs
      obtain ⟨rfl, rfl, rfl⟩ : before = [] ∧ a₁ = a ∧ after = [] := by
        cases before with
        | nil =>
            rw [List.nil_append, List.cons.injEq] at hacts
            exact ⟨rfl, hacts.1.symm, hacts.2.symm⟩
        | cons b before => simp at hacts
      refine Or.inl ⟨o, u', new, h, ?_⟩
      rw [List.nil_append, List.append_nil]
  | @main _ m _ h _ =>
      subst hs
      exact Or.inr ⟨m, h⟩

/-- An activation that is alone takes its step. -/
theorem Step.single {u u' : σ} {a : α} {o : ω} {new : List α}
    (h : S.act u a o = some (u', new)) (hg : G.act u [] a o = true) :
    Step S G ⟨u, [a]⟩ ⟨u', new⟩ := by
  have hstep : Step S G ⟨u, [] ++ a :: []⟩ ⟨u', [] ++ new ++ []⟩ := .act h hg
  rwa [List.append_nil, List.nil_append] at hstep

theorem reachable_alone {u u' : σ} {a : α} {o : ω} {new : List α}
    (h : S.act u a o = some (u', new)) : Reachable S .actsOnly ⟨u, [a]⟩ ⟨u', new⟩ :=
  .single (.single h rfl)

/-- An activation takes its step among the others and goes on as one. -/
theorem reachable_moves {u u' : σ} {a b : α} {o : ω} (before after : List α)
    (h : S.act u a o = some (u', [b])) :
    Reachable S .all ⟨u, before ++ a :: after⟩ ⟨u', before ++ b :: after⟩ := by
  have hstep : Step S .all ⟨u, before ++ a :: after⟩ ⟨u', before ++ [b] ++ after⟩ := .act h rfl
  rw [List.append_assoc, List.singleton_append] at hstep
  exact .single hstep

theorem mem_acts_iff {before after : List α} {a b : α} :
    b ∈ before ++ a :: after ↔ b = a ∨ b ∈ before ++ after := by
  simp only [List.mem_append, List.mem_cons]
  tauto

theorem mem_new_iff {before after new : List α} {b : α} :
    b ∈ before ++ new ++ after ↔ b ∈ new ∨ b ∈ before ++ after := by
  simp only [List.mem_append]
  tauto

/-- What holds of every activation goes over to the next state, when the step
    makes it hold of what comes in the place of `a` and keeps it of the others. -/
theorem forall_acts_step {Q Q' : α → Prop} {before after new : List α} {a : α}
    (hall : ∀ b ∈ before ++ a :: after, Q b) (hnew : Q a → ∀ b ∈ new, Q' b)
    (hothers : ∀ b ∈ before ++ after, Q b → Q' b) : ∀ b ∈ before ++ new ++ after, Q' b := by
  intro b hb
  rcases mem_new_iff.mp hb with hb | hb
  · exact hnew (hall a (mem_acts_iff.mpr (Or.inl rfl))) b hb
  · exact hothers b hb (hall b (mem_acts_iff.mpr (Or.inr hb)))

/-- The sum of a weight over the activations changes by what the step puts in
    the place of the activation that takes it. -/
theorem sum_step (w : α → Int) (before after new : List α) (a : α) :
    ((before ++ new ++ after).map w).sum =
      ((before ++ a :: after).map w).sum - w a + (new.map w).sum := by
  simp only [List.map_append, List.sum_append, List.map_cons, List.sum_cons]
  omega

/-! ## One activation apart -/

variable {p : α → Bool} {before after new : List α} {a : α}

/-- When `p` picks out one activation at most, a step is one of the others, or
    that one's and then it picks none of the others. -/
theorem picked_cases {l : List α} (h : (before ++ a :: after).filter p = l) (hl : l.length ≤ 1) :
    (p a = false ∧ (before ++ after).filter p = l) ∨
      (p a = true ∧ l = [a] ∧ (before ++ after).filter p = []) := by
  rw [List.filter_append, List.filter_cons] at h
  cases hp : p a with
  | false =>
      rw [hp] at h
      exact Or.inl ⟨rfl, by rw [List.filter_append]; exact h⟩
  | true =>
      rw [hp, if_pos rfl] at h
      subst h
      rw [List.length_append, List.length_cons] at hl
      have hbefore : before.filter p = [] := List.eq_nil_of_length_eq_zero (by omega)
      have hafter : after.filter p = [] := List.eq_nil_of_length_eq_zero (by omega)
      rw [List.filter_append, hbefore, hafter]
      exact Or.inr ⟨rfl, rfl, rfl⟩

/-- What comes in the place of an activation is not picked. -/
theorem picked_new_of_others {l : List α} (h : (before ++ after).filter p = l)
    (hnew : new.filter p = []) : (before ++ new ++ after).filter p = l := by
  rw [List.filter_append] at h
  rw [List.filter_append, List.filter_append, hnew, List.append_nil, h]

/-- None of the others is picked. -/
theorem picked_new_of_alone (h : (before ++ after).filter p = []) :
    (before ++ new ++ after).filter p = new.filter p := by
  rw [List.filter_append, List.append_eq_nil_iff] at h
  rw [List.filter_append, List.filter_append, h.1, h.2, List.nil_append, List.append_nil]

/-! ## Finite runs -/

/-- No run from `init` goes on for ever. -/
def Terminates (S : System σ α ω μ) (G : Guard σ α ω μ) (init : Activations σ α) : Prop :=
  Acc (fun s' s => Step S G s s') init

/-- No step is possible. -/
def Over (S : System σ α ω μ) (G : Guard σ α ω μ) (s : Activations σ α) : Prop :=
  ∀ s', ¬ Step S G s s'

theorem Terminates.of_reachable (h : Terminates S G init) (hrun : Reachable S G init s) :
    Terminates S G s := by
  induction hrun with
  | refl => exact h
  | tail _ hs ih => exact ih.inv hs

theorem Terminates.exists_over (h : Terminates S G init) :
    ∃ s, Reachable S G init s ∧ Over S G s := by
  induction h with
  | intro s _ ih =>
      by_cases hover : Over S G s
      · exact ⟨s, .refl, hover⟩
      · obtain ⟨s', hs⟩ := not_forall_not.mp hover
        obtain ⟨s'', hrun, hover'⟩ := ih s' hs
        exact ⟨s'', .head hs hrun, hover'⟩

/-- Without activations nothing happens, when they are all that takes steps. -/
theorem over_nil {u : σ} (hmain : ∀ s m, S.main s m = none) : Over S G ⟨u, []⟩ := by
  intro s' hs
  generalize hinit : (⟨u, []⟩ : Activations σ α) = s at hs
  cases hs with
  | act => simp at hinit
  | main h _ => rw [hmain] at h; cases h

/-- A property under which there is always a step that keeps it. -/
theorem not_terminates_of_progress {I : Activations σ α → Prop} (hinit : I init)
    (hstep : ∀ s, I s → ∃ s', Step S G s s' ∧ I s') : ¬ Terminates S G init := by
  intro h
  induction h with
  | intro s _ ih =>
      obtain ⟨s', hs, hI⟩ := hstep s hinit
      exact ih s' hs hI

/-- A step of `a` can leave `b` in its place. -/
def System.Follows (S : System σ α ω μ) (b a : α) : Prop :=
  ∃ u o u' new, S.act u a o = some (u', new) ∧ b ∈ new

theorem System.acc_follows {a : α}
    (h : ∀ u o u' new, S.act u a o = some (u', new) → ∀ b ∈ new, Acc S.Follows b) :
    Acc S.Follows a := by
  refine .intro a fun b hb => ?_
  obtain ⟨u, o, u', new, hact, hmem⟩ := hb
  exact h u o u' new hact b hmem

/-- When each activation comes to an end by itself, all of them do, in any order. -/
theorem terminates_of_acc {u : σ} {acts : List α} (hmain : ∀ s m, S.main s m = none)
    (hacc : ∀ a ∈ acts, Acc S.Follows a) : Terminates S G ⟨u, acts⟩ := by
  -- what follows an activation that comes to an end is well-founded
  let r : α → α → Prop := fun b a => S.Follows b a ∧ Acc S.Follows a
  have hsub : Subrelation r S.Follows := fun h => h.1
  have hwf : WellFounded r := ⟨fun a => .intro a fun b hb => hsub.accessible (hb.2.inv hb.1)⟩
  have hcut : Acc (Relation.CutExpand r) (acts : Multiset α) := hwf.cutExpand.apply acts
  generalize hM : (acts : Multiset α) = M at hcut
  induction hcut generalizing u acts with
  | intro M _ ih =>
      subst hM
      refine .intro _ fun s' hs => ?_
      cases hs with
      | @act _ before a after o u' new h _ =>
          have ha : Acc S.Follows a := hacc a (mem_acts_iff.mpr (Or.inl rfl))
          have hnew : ∀ b ∈ new, S.Follows b a := fun b hb => ⟨u, o, u', new, h, hb⟩
          refine ih _ ⟨new, a, fun b hb => ⟨hnew b (Multiset.mem_coe.mp hb), ha⟩, ?_⟩
            (forall_acts_step hacc (fun ha b hb => ha.inv (hnew b hb)) fun _ _ hb => hb) rfl
          -- both are `before`, `a`, `after` and `new` in some order
          simp only [← Multiset.coe_add, ← Multiset.cons_coe, ← Multiset.singleton_add]
          abel
      | main h _ => rw [hmain] at h; cases h

end Rules

/-! ## Computing runs -/

/-- Which step comes next: of the `i`-th activation, or another. -/
inductive Choice (ω μ : Type) where
  | act (i : Nat) (o : ω)
  | main (m : μ)

section Exec

variable (S : System σ α ω μ) (G : Guard σ α ω μ)

def exec (s : Activations σ α) : Choice ω μ → Option (Activations σ α)
  | .act i o =>
      match s.acts[i]? with
      | none => none
      | some a =>
          if G.act s.shared (s.acts.take i ++ s.acts.drop (i + 1)) a o then
            (S.act s.shared a o).map fun r => ⟨r.1, s.acts.take i ++ r.2 ++ s.acts.drop (i + 1)⟩
          else none
  | .main m => if G.main s m then S.main s m else none

def execAll (s : Activations σ α) : List (Choice ω μ) → Option (Activations σ α)
  | [] => some s
  | c :: cs => (exec S G s c).bind fun s => execAll s cs

variable {S G} {s s' : Activations σ α}

theorem step_of_exec {c : Choice ω μ} (h : exec S G s c = some s') : Step S G s s' := by
  cases c with
  | act i o =>
      obtain ⟨u, acts⟩ := s
      simp only [exec] at h
      split at h
      · cases h
      · rename_i a ha
        split at h
        · rename_i hg
          obtain ⟨⟨u', new⟩, hact, rfl⟩ := Option.map_eq_some_iff.mp h
          -- the list is what stands before `i`, the activation, and the rest
          obtain ⟨hi, rfl⟩ := List.getElem?_eq_some_iff.mp ha
          have hsplit : acts = acts.take i ++ acts[i] :: acts.drop (i + 1) := by simp
          have hstep : Step S G ⟨u, acts.take i ++ acts[i] :: acts.drop (i + 1)⟩ _ :=
            .act hact hg
          rwa [← hsplit] at hstep
        · cases h
  | main m =>
      simp only [exec] at h
      split at h
      · rename_i hg
        exact .main h hg
      · cases h

theorem reachable_of_execAll {cs : List (Choice ω μ)} (h : execAll S G s cs = some s') :
    Reachable S G s s' := by
  induction cs generalizing s with
  | nil =>
      obtain rfl : s = s' := Option.some.inj h
      exact .refl
  | cons c cs ih =>
      obtain ⟨s₁, hstep, hrest⟩ := Option.bind_eq_some_iff.mp h
      exact .head (step_of_exec hstep) (ih hrest)

/-- A run with a property in its last state, by computing both. -/
theorem exists_reachable_of_execAll (cs : List (Choice ω μ)) (p : Activations σ α → Bool)
    (h : (execAll S G s cs).map p = some true) : ∃ s', Reachable S G s s' ∧ p s' = true := by
  obtain ⟨s', hrun, hp⟩ := Option.map_eq_some_iff.mp h
  exact ⟨s', reachable_of_execAll hrun, hp⟩

end Exec

end Activations

end UprobeTests
