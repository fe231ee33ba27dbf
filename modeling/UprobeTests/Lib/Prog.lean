/-
  UprobeTests.Lib.Prog

  Sequential programs as trees of atomic actions on a private state.  A
  program is either finished with a value, has left the whole process with
  `exit`, or performs one atomic update and goes on with what the updated
  state says.  `Prog.run` is its big-step meaning; a scheduler may instead
  take the actions one at a time (`UprobeTests.Lib.Pool`).
-/

import Mathlib.Logic.Function.Iterate

namespace UprobeTests

variable {σ τ ε α β ι : Type}

/-- A program over private state `σ` that returns an `α` or leaves the process
    with an `ε`. -/
inductive Prog (σ ε α : Type) where
  | ret (a : α)
  | exit (e : ε)
  | act (f : σ → σ) (next : σ → Prog σ ε α)

namespace Prog

def bind : Prog σ ε α → (α → Prog σ ε β) → Prog σ ε β
  | ret a, k => k a
  | exit e, _ => exit e
  | act f next, k => act f fun s => (next s).bind k

instance : Monad (Prog σ ε) where
  pure := ret
  bind := bind

/-- Run the remaining actions with nobody else in between. -/
def run : Prog σ ε α → σ → Except ε α × σ
  | ret a, s => (.ok a, s)
  | exit e, s => (.error e, s)
  | act f next, s => (next (f s)).run (f s)

/-- How many actions a run from `s` performs. -/
def steps : Prog σ ε α → σ → Nat
  | ret _, _ => 0
  | exit _, _ => 0
  | act f next, s => (next (f s)).steps (f s) + 1

/-- One atomic update. -/
def modify (f : σ → σ) : Prog σ ε Unit := act f fun _ => ret ()

/-- One atomic read. -/
def get : Prog σ ε σ := act id ret

/-- The same update `n` times, one action each. -/
def times (f : σ → σ) : Nat → Prog σ ε Unit
  | 0 => ret ()
  | n + 1 => act f fun _ => times f n

/-- The same program where what it leaves the process with is read as `g` says. -/
def mapExit (g : ε → τ) : Prog σ ε α → Prog σ τ α
  | ret a => ret a
  | exit e => exit (g e)
  | act f next => act f fun s => (next s).mapExit g

/-- A program on one component of an indexed family of states. -/
def focus [DecidableEq ι] (i : ι) : Prog σ ε α → Prog (ι → σ) ε α
  | ret a => ret a
  | exit e => exit e
  | act f next => act (fun s => Function.update s i (f (s i))) fun s => (next (s i)).focus i

/-! ## Running -/

@[simp] theorem run_ret (a : α) (s : σ) : (ret a : Prog σ ε α).run s = (.ok a, s) := rfl

@[simp] theorem run_pure (a : α) (s : σ) : (pure a : Prog σ ε α).run s = (.ok a, s) := rfl

@[simp] theorem run_exit (e : ε) (s : σ) : (exit e : Prog σ ε α).run s = (.error e, s) := rfl

@[simp] theorem run_act (f : σ → σ) (next : σ → Prog σ ε α) (s : σ) :
    (act f next).run s = (next (f s)).run (f s) := rfl

@[simp] theorem run_modify (f : σ → σ) (s : σ) :
    (modify f : Prog σ ε Unit).run s = (.ok (), f s) := rfl

@[simp] theorem run_get (s : σ) : (get : Prog σ ε σ).run s = (.ok s, s) := rfl

theorem run_bind (p : Prog σ ε α) (k : α → Prog σ ε β) (s : σ) :
    (p >>= k).run s =
      match p.run s with
      | (.ok a, s') => (k a).run s'
      | (.error e, s') => (.error e, s') := by
  show (p.bind k).run s = _
  induction p generalizing s with
  | ret a => rfl
  | exit e => rfl
  | act f next ih => exact ih (f s) (f s)

/-- A first part that returns hands its value and state to the second part. -/
theorem run_bind_ok {p : Prog σ ε α} {k : α → Prog σ ε β} {s s' : σ} {a : α}
    (h : p.run s = (.ok a, s')) : (p >>= k).run s = (k a).run s' := by
  rw [run_bind, h]

@[simp] theorem run_times (f : σ → σ) (n : Nat) (s : σ) :
    (times f n : Prog σ ε Unit).run s = (.ok (), f^[n] s) := by
  induction n generalizing s with
  | zero => rfl
  | succ n ih => exact ih (f s)

theorem run_mapExit (g : ε → τ) (p : Prog σ ε α) (s : σ) :
    (p.mapExit g).run s = ((p.run s).1.mapError g, (p.run s).2) := by
  induction p generalizing s with
  | ret a => rfl
  | exit e => rfl
  | act f next ih => exact ih (f s) (f s)

/-- A run that returns does not depend on how leaving is read. -/
theorem run_mapExit_ok {p : Prog σ ε α} {s s' : σ} {a : α} (g : ε → τ)
    (h : p.run s = (.ok a, s')) : (p.mapExit g).run s = (.ok a, s') := by
  rw [run_mapExit, h]
  rfl

/-- Running on one component leaves the others alone. -/
theorem run_focus [DecidableEq ι] (i : ι) (p : Prog σ ε α) (s : ι → σ) :
    (p.focus i).run s = ((p.run (s i)).1, Function.update s i (p.run (s i)).2) := by
  induction p generalizing s with
  | ret a => simp [focus]
  | exit e => simp [focus]
  | act f next ih =>
      -- the first action and the rest write the same component
      simp only [focus, run_act, ih, Function.update_self, Function.update_idem]

end Prog

end UprobeTests
