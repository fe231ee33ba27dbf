/-
  UprobeTests.Lib.Children

  The children of a multi-threaded process: each of `n` threads may fork one
  child, any thread's `wait` may reap any child that has ended, and a `wait`
  with no child left to wait for fails (ECHILD).

  Two facts carry the users of this module: a thread that has a child and has
  not waited always finds one to wait for (`Consistent.exists_waitable`), and
  when all `n` waits have returned a child, every child has been returned
  (`Consistent.exists_wait`).
-/

import Mathlib.Data.Fintype.Card
import Mathlib.Data.Fintype.EquivFin

namespace UprobeTests

/-- The state of the child that thread `i` forks. -/
inductive Child where
  | none
  | running
  | zombie
  | reaped
deriving DecidableEq, Repr

/-- `child i` is the child forked by thread `i`; `waits i` is what the `wait`
    of thread `i` has returned: the child of some thread, or no child at all. -/
structure Children (n : Nat) where
  child : Fin n → Child
  waits : Fin n → Option (Option (Fin n))

namespace Children

variable {n : Nat}

def init (n : Nat) : Children n := ⟨fun _ => .none, fun _ => none⟩

def fork (k : Children n) (i : Fin n) : Children n :=
  { k with child := Function.update k.child i .running }

/-- The child of thread `c` ends. -/
def ends (k : Children n) (c : Fin n) : Children n :=
  { k with child := Function.update k.child c .zombie }

/-- The `wait` of thread `i` reaps the child of thread `c`. -/
def reap (k : Children n) (i c : Fin n) : Children n where
  child := Function.update k.child c .reaped
  waits := Function.update k.waits i (some (some c))

/-- The `wait` of thread `i` finds no child. -/
def noChild (k : Children n) (i : Fin n) : Children n :=
  { k with waits := Function.update k.waits i (some none) }

/-- There is a child to wait for. -/
def Waitable (k : Children n) : Prop := ∃ c, k.child c = .running ∨ k.child c = .zombie

/-- A child counts as reaped when, and only when, one `wait` has returned it. -/
structure Consistent (k : Children n) : Prop where
  reaped_iff : ∀ c, k.child c = .reaped ↔ ∃ i, k.waits i = some (some c)
  once : ∀ i i' c, k.waits i = some (some c) → k.waits i' = some (some c) → i = i'

theorem consistent_init : (init n).Consistent where
  reaped_iff c := by simp [init]
  once i i' c h := absurd h.symm (Option.some_ne_none _)

variable {k : Children n} {i c : Fin n}

/-- A child that is not reaped may change to any other such state. -/
theorem Consistent.setChild (hk : k.Consistent) (hold : k.child c ≠ .reaped) {x : Child}
    (hnew : x ≠ .reaped) : Consistent { k with child := Function.update k.child c x } where
  reaped_iff c' := by
    show Function.update k.child c x c' = .reaped ↔ _
    by_cases hcc : c' = c
    · subst hcc
      rw [Function.update_self]
      exact iff_of_false hnew fun h => hold ((hk.reaped_iff c').mpr h)
    · rw [Function.update_of_ne hcc]
      exact hk.reaped_iff c'
  once := hk.once

theorem Consistent.fork (hk : k.Consistent) (hi : k.child i = .none) : (k.fork i).Consistent :=
  hk.setChild (by rw [hi]; exact Child.noConfusion) Child.noConfusion

theorem Consistent.ends (hk : k.Consistent) (hc : k.child c = .running) :
    (k.ends c).Consistent :=
  hk.setChild (by rw [hc]; exact Child.noConfusion) Child.noConfusion

theorem Consistent.reap (hk : k.Consistent) (hi : k.waits i = none) (hc : k.child c = .zombie) :
    (k.reap i c).Consistent := by
  -- a zombie has been returned by no `wait` yet
  have hfresh : ∀ i', k.waits i' ≠ some (some c) := by
    intro i' h
    have hreaped := (hk.reaped_iff c).mpr ⟨i', h⟩
    rw [hc] at hreaped
    cases hreaped
  have hwaits : ∀ i' c', (k.reap i c).waits i' = some (some c') ↔
      (i' = i ∧ c' = c) ∨ k.waits i' = some (some c') := by
    intro i' c'
    show Function.update k.waits i (some (some c)) i' = _ ↔ _
    by_cases hii : i' = i
    · subst hii
      rw [Function.update_self, hi]
      simp [eq_comm]
    · rw [Function.update_of_ne hii]
      simp [hii]
  refine ⟨fun c' => ?_, fun i₁ i₂ c' h₁ h₂ => ?_⟩
  · simp only [hwaits]
    show Function.update k.child c .reaped c' = .reaped ↔ _
    by_cases hcc : c' = c
    · subst hcc
      rw [Function.update_self]
      exact iff_of_true rfl ⟨i, Or.inl ⟨rfl, rfl⟩⟩
    · rw [Function.update_of_ne hcc, hk.reaped_iff c']
      simp [hcc]
  · rcases (hwaits i₁ c').mp h₁ with ⟨rfl, rfl⟩ | h₁'
    · rcases (hwaits i₂ c').mp h₂ with ⟨rfl, -⟩ | h₂'
      · rfl
      · exact absurd h₂' (hfresh i₂)
    · rcases (hwaits i₂ c').mp h₂ with ⟨-, rfl⟩ | h₂'
      · exact absurd h₁' (hfresh i₁)
      · exact hk.once i₁ i₂ c' h₁' h₂'

theorem Consistent.noChild (hk : k.Consistent) (hi : k.waits i = none) :
    (k.noChild i).Consistent := by
  have hwaits : ∀ i' c', (k.noChild i).waits i' = some (some c') ↔
      k.waits i' = some (some c') := by
    intro i' c'
    show Function.update k.waits i (some none) i' = _ ↔ _
    by_cases hii : i' = i
    · subst hii
      rw [Function.update_self, hi]
      simp
    · rw [Function.update_of_ne hii]
  refine ⟨fun c' => ?_, fun i₁ i₂ c' h₁ h₂ => ?_⟩
  · simp only [hwaits]
    exact hk.reaped_iff c'
  · exact hk.once i₁ i₂ c' ((hwaits i₁ c').mp h₁) ((hwaits i₂ c').mp h₂)

/-- When every thread that has waited also has a child, a thread with a child
    that has not waited finds a child to wait for: fewer waits have returned
    than children exist. -/
theorem Consistent.exists_waitable (hk : k.Consistent)
    (hforked : ∀ j, k.waits j ≠ none → k.child j ≠ .none) (hi : k.child i ≠ .none)
    (hwait : k.waits i = none) : k.Waitable := by
  by_contra hnone
  -- with nothing to wait for, every child has been reaped
  have hreaped : ∀ c, k.child c ≠ .none → ∃ j, k.waits j = some (some c) := by
    intro c hc
    apply (hk.reaped_iff c).mp
    cases hchild : k.child c with
    | none => exact absurd hchild hc
    | running => exact absurd ⟨c, Or.inl hchild⟩ hnone
    | zombie => exact absurd ⟨c, Or.inr hchild⟩ hnone
    | reaped => rfl
  choose! reaper hreaper using hreaped
  -- children are mapped to their reapers, and `i` is nobody's reaper
  let forked := Finset.univ.filter fun c => k.child c ≠ .none
  have hmaps : ∀ c ∈ forked, reaper c ∈ forked.erase i := by
    intro c hc
    have hw := hreaper c (Finset.mem_filter.mp hc).2
    refine Finset.mem_erase.mpr ⟨?_, Finset.mem_filter.mpr ⟨Finset.mem_univ _, ?_⟩⟩
    · intro heq
      rw [heq, hwait] at hw
      cases hw
    · exact hforked _ (by rw [hw]; exact Option.some_ne_none _)
  have hinj : Set.InjOn reaper forked := by
    intro c hc c' hc' heq
    have hw := hreaper c (Finset.mem_filter.mp hc).2
    have hw' := hreaper c' (Finset.mem_filter.mp hc').2
    rw [heq, hw'] at hw
    simpa using hw.symm
  have hle := Finset.card_le_card_of_injOn reaper hmaps hinj
  have hmem : i ∈ forked := Finset.mem_filter.mpr ⟨Finset.mem_univ i, hi⟩
  have hlt := Finset.card_erase_lt_of_mem hmem
  omega

/-- When every wait has returned a child, every child has been returned. -/
theorem Consistent.exists_wait (hk : k.Consistent)
    (hall : ∀ i, ∃ c, k.waits i = some (some c)) (c : Fin n) :
    ∃ i, k.waits i = some (some c) := by
  choose child hchild using hall
  -- no child is returned twice, so `n` waits return `n` children
  have hinj : Function.Injective child := by
    intro i i' heq
    apply hk.once i i' (child i) (hchild i)
    rw [heq]
    exact hchild i'
  obtain ⟨i, rfl⟩ := Finite.surjective_of_injective hinj c
  exact ⟨i, hchild i⟩

end Children

end UprobeTests
