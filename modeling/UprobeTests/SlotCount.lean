/-
  UprobeTests.SlotCount

  The two counters of a slot on i386, where every user access of the handler
  covers one field; `SlotSpill` has those of x86_64, where one covers two.  After
  `j` calls that each fired once both counters are `j - 1`; one more call returns
  `j` if it fires once again and a sentinel (-1 or -2) if it fires any other
  number of times.
-/

import UprobeTests.ProbeFun

namespace UprobeTests

/-- Both counters of the slot stand at `j - 1`: `j` calls, `j` hits. -/
structure Uinfo.Agreed {w : Nat} (s : Uinfo w) (j : Nat) : Prop where
  kcount : s.kcount = BitVec.ofNat w j - 1
  ucount : s.ucount = BitVec.ofNat w j - 1

theorem fresh_agreed {w : Nat} : (Uinfo.fresh w).Agreed 0 :=
  ⟨(BitVec.zero_sub _).symm, (BitVec.zero_sub _).symm⟩

theorem ofNat_succ_sub_one {w : Nat} (a : Nat) :
    BitVec.ofNat w (a + 1) - 1 = BitVec.ofNat w a := by
  rw [BitVec.ofNat_add]
  exact BitVec.add_sub_cancel _ _

theorem ofNat_eq_ofNat_iff {w a b : Nat} (ha : a < 2 ^ w) (hb : b < 2 ^ w) :
    BitVec.ofNat w a = BitVec.ofNat w b ↔ a = b := by
  constructor
  · intro h
    have htoNat := congrArg BitVec.toNat h
    rwa [BitVec.toNat_ofNat, BitVec.toNat_ofNat, Nat.mod_eq_of_lt ha, Nat.mod_eq_of_lt hb]
      at htoNat
  · rintro rfl
    rfl

/-- No count that fits reads as the sentinel -1, but the one not started. -/
theorem ofNat_sub_one_eq_neg_one {w a : Nat} (ha : a < 2 ^ w) :
    BitVec.ofNat w a - 1 = -1 ↔ a = 0 := by
  rw [← ofNat_eq_ofNat_iff ha (Nat.two_pow_pos w)]
  constructor
  · intro h
    rw [← BitVec.sub_add_cancel (BitVec.ofNat w a) 1, h, BitVec.add_comm, BitVec.add_neg_eq_sub,
      BitVec.sub_self]
  · intro h
    rw [h]
    exact BitVec.zero_sub _

/-- `n` hits on a slot with `a` hits before them: `kcount` follows, and the
    very first hit resets `ucount`. -/
theorem iterate_hit_counts {s : Uinfo 32} {a n : Nat} (tid : BitVec 32)
    (hs : s.kcount = BitVec.ofNat 32 a - 1) (hbound : a + n ≤ 2 ^ 32) :
    ((Uinfo.hit .i386 tid)^[n] s).kcount = BitVec.ofNat 32 (a + n) - 1 ∧
      ((Uinfo.hit .i386 tid)^[n] s).ucount = if a = 0 ∧ 0 < n then -1 else s.ucount := by
  induction n with
  | zero => exact ⟨hs, (if_neg fun h => Nat.lt_irrefl 0 h.2).symm⟩
  | succ n ih =>
      obtain ⟨hk, hu⟩ := ih (by omega)
      rw [Function.iterate_succ_apply']
      simp only [Uinfo.hit, spillKtid, hk, hu]
      constructor
      · rw [← Nat.add_assoc, ofNat_succ_sub_one]
        exact BitVec.sub_add_cancel _ _
      · -- only the first of all hits finds the sentinel
        have hsentinel := ofNat_sub_one_eq_neg_one (show a + n < 2 ^ 32 by omega)
        by_cases hfirst : a + n = 0
        · rw [if_pos (hsentinel.mpr hfirst), if_pos ⟨by omega, Nat.succ_pos n⟩]
        · rw [if_neg (hsentinel.not.mpr hfirst)]
          by_cases ha : a = 0
          · rw [if_pos ⟨ha, by omega⟩, if_pos ⟨ha, Nat.succ_pos n⟩]
          · rw [if_neg fun h => ha h.1, if_neg fun h => ha h.1]

theorem intOfUlong_ofNat {j : Nat} (hj : j < 2 ^ 31) : intOfUlong (BitVec.ofNat 32 j) = j := by
  simp only [intOfUlong, BitVec.setWidth_eq]
  rw [BitVec.toInt_eq_toNat_of_lt (by rw [BitVec.toNat_ofNat]; omega), BitVec.toNat_ofNat,
    Nat.mod_eq_of_lt (by omega)]

section Call

variable {s : Uinfo 32} {a j fired : Nat} (tid : BitVec 32)

/-- The counters after a call on a slot with `a` hits before it. -/
theorem call_kcount_ucount (hs : s.kcount = BitVec.ofNat 32 a - 1) (hbound : a + fired ≤ 2 ^ 32) :
    (Uinfo.call (t := .i386) s tid fired).kcount = BitVec.ofNat 32 (a + fired) - 1 ∧
      (Uinfo.call (t := .i386) s tid fired).ucount =
        if a = 0 ∧ 0 < fired then 0 else s.ucount + 1 := by
  -- claiming the slot does not touch the counters
  have hclaimed : { s with utid := tid }.kcount = BitVec.ofNat 32 a - 1 := hs
  obtain ⟨hk, hu⟩ := iterate_hit_counts tid hclaimed hbound
  refine ⟨hk, ?_⟩
  simp only [Uinfo.call]
  rw [hu]
  split
  · decide
  · rfl

/-- What the two counters make a call return once counting has begun. -/
theorem returned_of_counts {m : Nat} (hk : s.kcount = BitVec.ofNat 32 a - 1)
    (hu : s.ucount = BitVec.ofNat 32 m - 1) (hpos : 0 < a) (ha : a < 2 ^ 32) (hm : m < 2 ^ 32) :
    s.returned = if a = m then intOfUlong (BitVec.ofNat 32 (a - 1)) else -2 := by
  have hsentinel : ¬ s.kcount = -1 := by
    rw [hk, ofNat_sub_one_eq_neg_one ha]
    omega
  have hequal : s.kcount = s.ucount ↔ a = m := by
    rw [hk, hu, ← ofNat_eq_ofNat_iff ha hm]
    refine ⟨fun h => ?_, fun h => by rw [h]⟩
    rw [← BitVec.sub_add_cancel (BitVec.ofNat 32 a) 1, h, BitVec.sub_add_cancel]
  rw [Uinfo.returned]
  by_cases heq : a = m
  · rw [if_pos (Or.inr (hequal.mpr heq)), if_pos heq, hk, ← ofNat_succ_sub_one (a - 1),
      Nat.sub_add_cancel hpos]
  · rw [if_neg (by rintro (h | h); exacts [hsentinel h, heq (hequal.mp h)]), if_neg heq]

/-- The counters after a call on an agreed slot. -/
theorem call_counts (hs : s.Agreed j) (hbound : j + fired ≤ 2 ^ 32) :
    (Uinfo.call (t := .i386) s tid fired).kcount = BitVec.ofNat 32 (j + fired) - 1 ∧
      (Uinfo.call (t := .i386) s tid fired).ucount = BitVec.ofNat 32 j := by
  obtain ⟨hk, hu⟩ := call_kcount_ucount tid hs.kcount hbound
  refine ⟨hk, ?_⟩
  rw [hu, hs.ucount, BitVec.sub_add_cancel]
  split
  · rename_i hfirst
    rw [hfirst.1]
    rfl
  · rfl

theorem call_agreed (hs : s.Agreed j) (hj : j + 1 ≤ 2 ^ 32) :
    (Uinfo.call (t := .i386) s tid 1).Agreed (j + 1) := by
  obtain ⟨hk, hu⟩ := call_counts tid hs hj
  exact ⟨hk, by rw [hu, ofNat_succ_sub_one]⟩

/-- One hit: the call returns the number of calls before it, as an `int`. -/
theorem returned_of_hit (hs : s.Agreed j) (hj : j + 1 < 2 ^ 32) :
    (Uinfo.call (t := .i386) s tid 1).returned = intOfUlong (BitVec.ofNat 32 j) := by
  have hagreed := call_agreed tid hs (Nat.le_of_lt hj)
  rw [returned_of_counts hagreed.kcount hagreed.ucount (Nat.succ_pos j) hj hj, if_pos rfl,
    Nat.add_sub_cancel]

theorem returned_of_hit_once (hs : s.Agreed j) (hj : j + 1 ≤ 2 ^ 31) :
    (Uinfo.call (t := .i386) s tid 1).returned = j := by
  rw [returned_of_hit tid hs (by omega), intOfUlong_ofNat hj]

/-- No hit or several: the call returns a sentinel. -/
theorem returned_of_not_hit_once (hs : s.Agreed j) (hbound : j + fired ≤ 2 ^ 31)
    (hfired : fired ≠ 1) :
    (Uinfo.call (t := .i386) s tid fired).returned =
      if j + fired = 0 then -1 else -2 := by
  obtain ⟨hk, hu⟩ := call_counts tid hs (Nat.le_trans hbound (by decide))
  by_cases hzero : j + fired = 0
  · rw [Uinfo.returned, hk, hu, hzero, if_pos (Or.inl (by decide)), if_pos rfl]
    decide
  · -- counting has begun, and the two counters differ
    rw [← ofNat_succ_sub_one] at hu
    rw [returned_of_counts hk hu (by omega) (by omega) (by omega), if_neg (by omega),
      if_neg hzero]

end Call

end UprobeTests
