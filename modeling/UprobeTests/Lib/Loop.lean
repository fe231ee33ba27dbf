/-
  UprobeTests.Lib.Loop

  Loops made of a test and a body.  A loop ends after a fixed number of rounds or
  its test never fails.

  A loop that counts a machine integer up to a bound makes as many rounds as the
  bound says, unless the bound is the greatest integer of the comparison: then
  the counter wraps round below it and the loop goes on for ever.  Which one is
  the greatest depends on the signedness of the comparison alone.
-/

import Mathlib.Order.Lattice.Nat
import Mathlib.Order.ConditionallyCompleteLattice.Basic

namespace UprobeTests

structure Loop (σ : Type) where
  test : σ → Bool
  body : σ → σ

namespace Loop

variable {σ : Type} {L : Loop σ} {s s' s'' : σ} {n m : Nat}

/-- From `s` the loop makes `n` rounds and is left in `s'`. -/
inductive Ends (L : Loop σ) : σ → Nat → σ → Prop
  | done {s : σ} (h : L.test s = false) : Ends L s 0 s
  | round {s : σ} {n : Nat} {s' : σ} (h : L.test s = true) (hrest : Ends L (L.body s) n s') :
      Ends L s (n + 1) s'

/-- The test never fails. -/
def Forever (L : Loop σ) (s : σ) : Prop := ∀ k, L.test (L.body^[k] s) = true

theorem Ends.unique (h : L.Ends s n s') (h' : L.Ends s m s'') : n = m ∧ s' = s'' := by
  induction h generalizing m with
  | done h =>
      cases h' with
      | done => exact ⟨rfl, rfl⟩
      | round ht => rw [h] at ht; cases ht
  | round h _ ih =>
      cases h' with
      | done ht => rw [h] at ht; cases ht
      | round _ hrest =>
          obtain ⟨rfl, rfl⟩ := ih hrest
          exact ⟨rfl, rfl⟩

theorem Forever.test (h : L.Forever s) : L.test s = true := h 0

theorem Forever.body (h : L.Forever s) : L.Forever (L.body s) := fun k => h (k + 1)

theorem Ends.not_forever (h : L.Ends s n s') : ¬ L.Forever s := by
  induction h with
  | done h =>
      intro hforever
      rw [hforever.test] at h
      cases h
  | round _ _ ih => exact fun hforever => ih hforever.body

/-! ## What is left -/

/-- How many rounds are left. -/
noncomputable def left (L : Loop σ) (s : σ) : Nat := sInf {n | ∃ s', L.Ends s n s'}

theorem Ends.left_eq (h : L.Ends s n s') : L.left s = n := by
  -- the number of rounds is unique
  have hset : {n | ∃ s', L.Ends s n s'} = {n} := by
    ext m
    constructor
    · rintro ⟨s'', h'⟩
      exact (h'.unique h).1
    · rintro rfl
      exact ⟨s', h⟩
  rw [left, hset, csInf_singleton]

theorem Ends.left_of_test (h : L.Ends s n s') (ht : L.test s = true) :
    L.left s = L.left (L.body s) + 1 ∧ L.Ends (L.body s) (L.left (L.body s)) s' := by
  cases h with
  | done h => rw [h] at ht; cases ht
  | round ht hrest =>
      rw [hrest.left_eq, (Ends.round ht hrest).left_eq]
      exact ⟨rfl, hrest⟩

theorem Ends.left_of_not_test (h : L.Ends s n s') (ht : L.test s = false) :
    L.left s = 0 ∧ s = s' := by
  cases h with
  | done => exact ⟨(Ends.done ht).left_eq, rfl⟩
  | round h => rw [h] at ht; cases ht

/-! ## Counting up to a bound -/

section Counter

variable {w : Nat} {i : σ → BitVec w} {key : BitVec w → Int} {bound : BitVec w}

/-- Every round adds one to `i`, as long as `i` is not above the bound in the
    order given by `key`. -/
structure Counts (L : Loop σ) (i : σ → BitVec w) (key : BitVec w → Int) (bound : BitVec w) :
    Prop where
  test : ∀ s, L.test s = true ↔ key (i s) ≤ key bound
  body : ∀ s, i (L.body s) = i s + 1

/-- From `k` there are as many rounds as it takes to get above the bound, when the
    order agrees with the integers up to there. -/
theorem Counts.ends (h : L.Counts i key bound)
    (hkey : ∀ k : Nat, (k : Int) ≤ key bound + 1 → key (BitVec.ofNat w k) = k) (k n : Nat)
    (hn : (k : Int) + n = key bound + 1) (hs : i s = BitVec.ofNat w k) : ∃ s', L.Ends s n s' := by
  induction n generalizing k s with
  | zero =>
      -- `k` is one above the bound
      refine ⟨s, .done ?_⟩
      rw [Bool.eq_false_iff, ne_eq, h.test, hs, hkey k (by omega)]
      omega
  | succ n ih =>
      have hbody : i (L.body s) = BitVec.ofNat w (k + 1) := by
        rw [h.body, hs, BitVec.ofNat_add]
        rfl
      have htest : L.test s = true := by
        rw [h.test, hs, hkey k (by omega)]
        omega
      obtain ⟨s', hends⟩ := ih (k + 1) (by omega) hbody
      exact ⟨s', .round htest hends⟩

/-- Nothing is above the greatest integer. -/
theorem Counts.forever (h : L.Counts i key bound) (hmax : ∀ x, key x ≤ key bound) :
    L.Forever s := by
  intro k
  rw [h.test]
  exact hmax _

/-- Counting in `int`s from one. -/
theorem Counts.ends_signed (h : L.Counts i BitVec.toInt bound) (h0 : 0 ≤ bound.toInt)
    (hmax : bound.toInt ≠ 2 ^ (w - 1) - 1) (hs : i s = 1) :
    ∃ s', L.Ends s bound.toInt.toNat s' := by
  have hlt := BitVec.toInt_lt (x := bound)
  have hkey : ∀ k : Nat, (k : Int) ≤ bound.toInt + 1 → (BitVec.ofNat w k).toInt = k := by
    intro k hk
    have hk' : (k : Int) < 2 ^ (w - 1) := by omega
    cases w with
    | zero => omega
    | succ w =>
        rw [Nat.add_sub_cancel] at hk'
        -- the powers of `bmod` in terms of `2 ^ w`
        have hpow : ((2 ^ (w + 1) : Nat) : Int) = 2 ^ w * 2 := by
          push_cast
          exact pow_succ 2 w
        rw [BitVec.toInt_ofNat']
        apply Int.bmod_eq_of_le
        · omega
        · omega
  exact h.ends hkey 1 bound.toInt.toNat (by omega) hs

theorem Counts.forever_signed (h : L.Counts i BitVec.toInt bound)
    (hmax : bound.toInt = 2 ^ (w - 1) - 1) : L.Forever s := by
  refine h.forever fun x => ?_
  have hlt := BitVec.toInt_lt (x := x)
  omega

/-- Counting in `unsigned int`s from one. -/
theorem Counts.ends_unsigned (h : L.Counts i (fun x => x.toNat) bound)
    (hmax : bound.toNat ≠ 2 ^ w - 1) (hs : i s = 1) : ∃ s', L.Ends s bound.toNat s' := by
  have hlt := bound.isLt
  have hkey : ∀ k : Nat, (k : Int) ≤ bound.toNat + 1 → ((BitVec.ofNat w k).toNat : Int) = k := by
    intro k hk
    -- nothing wraps round below the bound
    have hk' : k < 2 ^ w := by omega
    rw [BitVec.toNat_ofNat, Nat.mod_eq_of_lt hk']
  exact h.ends hkey 1 bound.toNat (by omega) hs

theorem Counts.forever_unsigned (h : L.Counts i (fun x => x.toNat) bound)
    (hmax : bound.toNat = 2 ^ w - 1) : L.Forever s := by
  refine h.forever fun x => ?_
  have hlt := x.isLt
  omega

end Counter

end Loop

end UprobeTests
