/-
  UprobeTests.Lib.Ledger

  What a registration service has been asked: who is registered, who was ever
  accepted, and every call to unregister with whether its target was
  registered at that moment.

  `Ledger.Sound` is kept by registering somebody new and by unregistering
  somebody who is registered; when nobody is left it says that everybody
  accepted has been unregistered exactly once (`Sound.settled`).
-/

import Mathlib.Data.List.Perm.Basic
import Mathlib.Data.List.Nodup

namespace UprobeTests

structure Ledger (ι : Type) where
  registered : List ι
  accepted : List ι
  unregisterCalls : List (ι × Bool)

namespace Ledger

variable {ι : Type}

def empty : Ledger ι := ⟨[], [], []⟩

/-- A call to register `x`; it takes effect when it returns 0. -/
def register (L : Ledger ι) (x : ι) (ret : Int) : Ledger ι :=
  if ret = 0 then { L with registered := L.registered ++ [x], accepted := L.accepted ++ [x] }
  else L

/-- Nobody has been accepted twice, everybody accepted is either registered or
    has been unregistered once, and nobody else has been unregistered. -/
structure Sound (L : Ledger ι) : Prop where
  nodup : L.accepted.Nodup
  accounted : L.accepted.Perm (L.registered ++ L.unregisterCalls.map Prod.fst)
  wasRegistered : ∀ c ∈ L.unregisterCalls, c.2 = true

theorem sound_empty : (empty : Ledger ι).Sound where
  nodup := List.nodup_nil
  accounted := List.Perm.refl _
  wasRegistered _ hc := absurd hc List.not_mem_nil

variable {L : Ledger ι}

theorem register_zero (L : Ledger ι) (x : ι) : L.register x 0 =
    { L with registered := L.registered ++ [x], accepted := L.accepted ++ [x] } := if_pos rfl

theorem register_of_ne_zero (L : Ledger ι) (x : ι) {ret : Int} (h : ret ≠ 0) :
    L.register x ret = L := if_neg h

theorem Sound.register (h : L.Sound) {x : ι} (hx : x ∉ L.accepted) (ret : Int) :
    (L.register x ret).Sound := by
  by_cases hret : ret = 0
  · subst hret
    rw [register_zero]
    refine ⟨?_, ?_, h.wasRegistered⟩
    · simpa [List.nodup_append] using ⟨h.nodup, fun y hy heq => hx (heq ▸ hy)⟩
    · -- the new one stands behind the registered, before the unregistered
      refine (h.accounted.append_right [x]).trans ?_
      simp only [List.append_assoc]
      exact List.perm_append_comm.append_left _
  · rw [register_of_ne_zero L x hret]
    exact h

theorem Sound.mem_accepted (h : L.Sound) {x : ι} (hx : x ∈ L.registered) : x ∈ L.accepted :=
  h.accounted.mem_iff.mpr (List.mem_append_left _ hx)

variable [DecidableEq ι]

/-- A call to unregister `x`. -/
def unregister (L : Ledger ι) (x : ι) : Ledger ι :=
  { L with
    registered := L.registered.erase x
    unregisterCalls := L.unregisterCalls ++ [(x, decide (x ∈ L.registered))] }

/-- Everybody accepted has been unregistered exactly once, nobody has been
    unregistered who was not registered, and nobody is left. -/
structure Settled (L : Ledger ι) : Prop where
  nobodyLeft : L.registered = []
  once : ∀ x ∈ L.accepted, (L.unregisterCalls.map Prod.fst).count x = 1
  onlyAccepted : ∀ c ∈ L.unregisterCalls, c.1 ∈ L.accepted
  wasRegistered : ∀ c ∈ L.unregisterCalls, c.2 = true

theorem Sound.unregister (h : L.Sound) {x : ι} (hx : x ∈ L.registered) :
    (L.unregister x).Sound := by
  refine ⟨h.nodup, ?_, ?_⟩
  · refine h.accounted.trans ?_
    simp only [Ledger.unregister, List.map_append, List.map_cons, List.map_nil]
    refine ((List.perm_cons_erase hx).append_right _).trans ?_
    rw [List.cons_append, ← List.append_assoc]
    exact (List.perm_append_singleton _ _).symm
  · intro c hc
    rcases List.mem_append.mp hc with hold | hnew
    · exact h.wasRegistered c hold
    · rw [List.mem_singleton.mp hnew]
      exact decide_eq_true hx

/-- Unregistering the one that stands first. -/
theorem registered_unregister_cons {x : ι} {rest : List ι} (h : L.registered = x :: rest) :
    (L.unregister x).registered = rest := by
  simp only [Ledger.unregister, h, List.erase_cons_head]

/-- Taking back the last registration. -/
theorem registered_unregister_last {x : ι} {rest : List ι}
    (hx : x ∉ rest) (hreg : L.registered = rest ++ [x]) : (L.unregister x).registered = rest := by
  simp only [Ledger.unregister, hreg]
  rw [List.erase_append_right _ hx, List.erase_cons_head, List.append_nil]

/-- A ledger in order, with nobody left, is settled. -/
theorem Sound.settled (h : L.Sound) (hnone : L.registered = []) : L.Settled := by
  have hperm : L.accepted.Perm (L.unregisterCalls.map Prod.fst) := by
    have haccounted := h.accounted
    rwa [hnone, List.nil_append] at haccounted
  refine ⟨hnone, fun x hx => ?_, fun c hc => ?_, h.wasRegistered⟩
  · rw [← hperm.count_eq]
    exact List.count_eq_one_of_mem h.nodup hx
  · exact hperm.mem_iff.mpr (List.mem_map_of_mem hc)

/-! ## Unregistering a list -/

/-- Unregister everybody of a list in turn. -/
def unregisterEach (L : Ledger ι) (xs : List ι) : Ledger ι := xs.foldl unregister L

theorem unregisterEach_accepted (xs : List ι) (L : Ledger ι) :
    (L.unregisterEach xs).accepted = L.accepted := by
  induction xs generalizing L with
  | nil => rfl
  | cons x xs ih => exact ih (L.unregister x)

/-- Unregistering those who stand first keeps the ledger in order. -/
theorem Sound.unregisterEach {xs rest : List ι} (h : L.Sound) (hreg : L.registered = xs ++ rest) :
    (L.unregisterEach xs).Sound ∧ (L.unregisterEach xs).registered = rest := by
  induction xs generalizing L with
  | nil => exact ⟨h, hreg⟩
  | cons x xs ih =>
      have hmem : x ∈ L.registered := by
        rw [hreg]
        exact List.mem_cons_self
      exact ih (h.unregister hmem) (registered_unregister_cons hreg)

theorem unregisterEach_calls (xs : List ι) (L : Ledger ι) :
    (L.unregisterEach xs).unregisterCalls.map Prod.fst =
      L.unregisterCalls.map Prod.fst ++ xs := by
  induction xs generalizing L with
  | nil => exact (List.append_nil _).symm
  | cons x xs ih =>
      rw [unregisterEach, List.foldl_cons, ← unregisterEach, ih, unregister, List.map_append,
        List.append_assoc]
      rfl

/-- A list with somebody in it who has not been accepted settles no ledger. -/
theorem not_settled_of_not_accepted {xs : List ι} {x : ι} (hx : x ∈ xs) (hacc : x ∉ L.accepted) :
    ¬ (L.unregisterEach xs).Settled := by
  intro h
  have hcall : x ∈ (L.unregisterEach xs).unregisterCalls.map Prod.fst := by
    rw [unregisterEach_calls]
    exact List.mem_append_right _ hx
  obtain ⟨c, hc, rfl⟩ := List.mem_map.mp hcall
  have := h.onlyAccepted c hc
  rw [unregisterEach_accepted] at this
  exact hacc this

end Ledger

end UprobeTests
