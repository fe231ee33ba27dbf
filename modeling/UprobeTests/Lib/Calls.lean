/-
  UprobeTests.Lib.Calls

  Nested calls of functions, as one thread makes them.  Every call is entered;
  it is left unless the process ends within it.  At any point of a run the
  calls entered and not left are the frames on the stack (`balance`), and a run
  that ends the process leaves just those it ends in.
-/

import Mathlib.Data.List.Basic

namespace UprobeTests

variable {φ ν : Type}

/-- A piece of a program, as the calls it makes: `f` with what it does inside and
    what it returns, and what comes after it. -/
inductive Code (φ ν : Type) where
  | done
  /-- the process ends here -/
  | exit
  | call (f : φ) (inside : Code φ ν) (v : ν) (after : Code φ ν)

/-- What is seen of a call. -/
inductive CallEvent (φ ν : Type) where
  | enter (f : φ)
  | leave (f : φ) (v : ν)
deriving DecidableEq

namespace Code

def exits : Code φ ν → Bool
  | done => false
  | exit => true
  | call _ inside _ after => inside.exits || after.exits

def events : Code φ ν → List (CallEvent φ ν)
  | done => []
  | exit => []
  | call f inside v after =>
      .enter f :: (inside.events ++ if inside.exits then [] else .leave f v :: after.events)

/-- The frames of a run that have not been left when it is over, innermost first. -/
def openFrames : Code φ ν → List φ
  | done => []
  | exit => []
  | call f inside _ after => if inside.exits then inside.openFrames ++ [f] else after.openFrames

theorem openFrames_of_not_exits {c : Code φ ν} (h : c.exits = false) : c.openFrames = [] := by
  induction c with
  | done => rfl
  | exit => rfl
  | call f inside v after _ ih =>
      rw [exits, Bool.or_eq_false_iff] at h
      rw [openFrames, h.1]
      exact ih h.2

/-! ## The stack -/

/-- The events take the stack from the one list of frames to the other: a call is
    left only from the top. -/
inductive Path : List φ → List (CallEvent φ ν) → List φ → Prop where
  | nil {s} : Path s [] s
  | enter {f s es s'} (h : Path (f :: s) es s') : Path s (.enter f :: es) s'
  | leave {f v s es s'} (h : Path s es s') : Path (f :: s) (.leave f v :: es) s'

theorem Path.append {s m s' : List φ} {es es' : List (CallEvent φ ν)} (h : Path s es m)
    (h' : Path m es' s') : Path s (es ++ es') s' := by
  induction h with
  | nil => exact h'
  | enter _ ih => exact .enter (ih h')
  | leave _ ih => exact .leave (ih h')

theorem Path.split {s s' : List φ} {es es' : List (CallEvent φ ν)}
    (h : Path s (es ++ es') s') : ∃ m, Path s es m ∧ Path m es' s' := by
  induction es generalizing s with
  | nil => exact ⟨s, .nil, h⟩
  | cons e es ih =>
      cases h with
      | enter h =>
          obtain ⟨m, hm, hm'⟩ := ih h
          exact ⟨m, .enter hm, hm'⟩
      | leave h =>
          obtain ⟨m, hm, hm'⟩ := ih h
          exact ⟨m, .leave hm, hm'⟩

/-- A run leaves the frames it found, below those it ends in. -/
theorem path_events (c : Code φ ν) (s : List φ) : Path s c.events (c.openFrames ++ s) := by
  induction c generalizing s with
  | done => exact .nil
  | exit => exact .nil
  | call f inside v after ihInside ihAfter =>
      rw [events, openFrames]
      refine .enter ((ihInside (f :: s)).append ?_)
      cases hexits : inside.exits with
      | true =>
          rw [if_pos rfl, if_pos rfl, List.append_assoc]
          exact .nil
      | false =>
          rw [openFrames_of_not_exits hexits]
          exact .leave (ihAfter s)

/-! ## Counting -/

section Counting

variable [DecidableEq φ]

/-- How often `f` has been entered. -/
def entered (f : φ) : List (CallEvent φ ν) → Nat
  | [] => 0
  | .enter g :: es => entered f es + if g = f then 1 else 0
  | .leave _ _ :: es => entered f es

/-- How often `f` has been left. -/
def returned (f : φ) : List (CallEvent φ ν) → Nat
  | [] => 0
  | .enter _ :: es => returned f es
  | .leave g _ :: es => returned f es + if g = f then 1 else 0

theorem Path.count {s s' : List φ} {es : List (CallEvent φ ν)} (h : Path s es s') (f : φ) :
    entered f es + s.count f = returned f es + s'.count f := by
  induction h with
  | nil => rfl
  | enter _ ih | leave _ ih =>
      simp only [entered, returned, List.count_cons, beq_iff_eq] at ih ⊢
      omega

/-- At any point of a run the calls entered are those left and those on the stack. -/
theorem balance {c : Code φ ν} {es : List (CallEvent φ ν)} (h : es <+: c.events) :
    ∃ stack, Path [] es stack ∧ ∀ f, entered f es = returned f es + stack.count f := by
  obtain ⟨rest, hrest⟩ := h
  have hpath := path_events c []
  rw [← hrest] at hpath
  obtain ⟨stack, hstack, -⟩ := hpath.split
  exact ⟨stack, hstack, hstack.count⟩

end Counting

end Code

end UprobeTests
