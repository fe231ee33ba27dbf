/-
  UprobeTests.Uinfo

  The slot shared by a probed thread and the kernel: `struct uinfo` as
  include/u_mod_common.h and include/u_test_common.h declare it, its byte
  layout on the two targets whose `get_first_arg` is implemented, and the
  record of field values a slot in memory stands for.
-/

import UprobeTests.Lib.ByteMem

namespace UprobeTests

open ByteMem

/-- The targets of u_mod_common.h whose `get_first_arg` is not a place holder. -/
inductive Target where
  | i386
  | x86_64
deriving DecidableEq, Repr

namespace Target

/-- `sizeof(ulong)`. -/
def ulongBytes : Target → Nat
  | i386 => 4
  | x86_64 => 8

/-- Width of `ulong` (and of `size_t` and a pointer) in bits. -/
abbrev ulongBits : Target → Nat
  | i386 => 32
  | x86_64 => 64

theorem pow_ulongBytes (t : Target) : 256 ^ t.ulongBytes = 2 ^ t.ulongBits := by
  cases t <;> rfl

theorem le_ulongBits (t : Target) : 32 ≤ t.ulongBits := by
  cases t <;> decide

/-! ## Layout of `struct uinfo`

`pid_t utid,ktid; ulong ucount, kcount; int results;` -/

/-- `offsetof(struct uinfo, utid)`. -/
def utidOff (_ : Target) : Nat := 0

/-- `offsetof(struct uinfo, ktid)`. -/
def ktidOff (_ : Target) : Nat := 4

/-- `offsetof(struct uinfo, ucount)`. -/
def ucountOff (_ : Target) : Nat := 8

/-- `offsetof(struct uinfo, kcount)`. -/
def kcountOff (t : Target) : Nat := 8 + t.ulongBytes

/-- `offsetof(struct uinfo, results)`. -/
def resultsOff (t : Target) : Nat := 8 + 2 * t.ulongBytes

/-- `sizeof(struct uinfo)`: x86_64 pads the trailing `int` to eight bytes. -/
def sizeofUinfo : Target → Nat
  | i386 => 20
  | x86_64 => 32

theorem ucountOff_add (t : Target) : t.ucountOff + t.ulongBytes = t.kcountOff := by
  cases t <;> rfl

theorem kcountOff_add (t : Target) : t.kcountOff + t.ulongBytes = t.resultsOff := by
  cases t <;> rfl

/-- The store to `ktid` ends before `kcount`. -/
theorem ktidOff_add_le (t : Target) : t.ktidOff + t.ulongBytes ≤ t.kcountOff := by
  cases t <;> decide

end Target

/-- The field values of a slot, for `w`-bit `ulong` counters. -/
@[ext] structure Uinfo (w : Nat) where
  utid : BitVec 32
  ktid : BitVec 32
  ucount : BitVec w
  kcount : BitVec w
  results : BitVec 32
deriving DecidableEq, Repr

/-- The slot at address `slot`, field by field. -/
def Uinfo.read (t : Target) (m : Mem) (slot : Nat) : Uinfo t.ulongBits where
  utid := BitVec.ofNat 32 (load m (slot + t.utidOff) 4)
  ktid := BitVec.ofNat 32 (load m (slot + t.ktidOff) 4)
  ucount := BitVec.ofNat t.ulongBits (load m (slot + t.ucountOff) t.ulongBytes)
  kcount := BitVec.ofNat t.ulongBits (load m (slot + t.kcountOff) t.ulongBytes)
  results := BitVec.ofNat 32 (load m (slot + t.resultsOff) 4)

/-- A table of `size` slots at `base`, as BUILD_PROBE_TABLE allocates it: an
    object of the address space, so it does not run past its end. -/
structure Table (t : Target) where
  base : Nat
  size : Nat
  fits : base + size * t.sizeofUinfo ≤ 2 ^ t.ulongBits

/-- `&table[i]`. -/
def Table.slot {t : Target} (tbl : Table t) (i : Nat) : Nat :=
  tbl.base + i * t.sizeofUinfo

theorem Table.slot_fits {t : Target} (tbl : Table t) {i : Nat} (hi : i < tbl.size) :
    tbl.slot i + t.sizeofUinfo ≤ 2 ^ t.ulongBits := by
  have hmul : (i + 1) * t.sizeofUinfo ≤ tbl.size * t.sizeofUinfo :=
    Nat.mul_le_mul_right _ hi
  have hfits := tbl.fits
  rw [Nat.add_mul, Nat.one_mul] at hmul
  simp only [Table.slot]
  omega

/-- Distinct slots of a table share no byte. -/
theorem Table.slot_disjoint {t : Target} (tbl : Table t) {i j : Nat} (hij : i ≠ j) :
    tbl.slot i + t.sizeofUinfo ≤ tbl.slot j ∨ tbl.slot j + t.sizeofUinfo ≤ tbl.slot i := by
  simp only [Table.slot]
  -- the slot with the smaller index ends where its successor begins
  rcases Nat.lt_or_gt_of_ne hij with h | h
  · left
    have hmul : (i + 1) * t.sizeofUinfo ≤ j * t.sizeofUinfo := Nat.mul_le_mul_right _ h
    rw [Nat.add_mul, Nat.one_mul] at hmul
    omega
  · right
    have hmul : (j + 1) * t.sizeofUinfo ≤ i * t.sizeofUinfo := Nat.mul_le_mul_right _ h
    rw [Nat.add_mul, Nat.one_mul] at hmul
    omega

end UprobeTests
