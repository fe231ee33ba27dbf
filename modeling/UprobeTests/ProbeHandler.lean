/-
  UprobeTests.ProbeHandler

  `probe_handler` of include/u_mod_common.h over byte-level user memory.

  Every user access goes through a `(ulong __user *)` pointer, so it covers
  `sizeof(ulong)` bytes whatever the width of the field it is aimed at.  On
  i386 that is one field.  On x86_64 the store to the 32-bit `ktid` also
  overwrites the low half of `ucount`, and the load of `utid` also reads
  `ktid`.
-/

import UprobeTests.Uinfo

namespace UprobeTests

open ByteMem

/-- The registers `get_first_arg` looks at. -/
structure Regs where
  di : Nat
  sp : Nat
deriving DecidableEq, Repr

/-- `get_first_arg`: `%rdi` on x86_64, the word above the return address on i386. -/
def getFirstArg (t : Target) (regs : Regs) (m : Mem) : Nat :=
  match t with
  | .x86_64 => regs.di
  | .i386 => load m ((regs.sp + t.ulongBytes) % 2 ^ t.ulongBits) t.ulongBytes

/-- The user accesses of `probe_handler`, in program order. -/
inductive UserAccess where
  | putKtid
  | getUtid
  | getKcount
  | putUcount
  | putKcount
deriving DecidableEq, Repr

/-- What one run of the handler reads and changes: user memory, the texts
    handed to `test_printk`, and the global `num_probes`. -/
structure HandlerState (t : Target) where
  mem : Mem
  printed : List String
  numProbes : BitVec t.ulongBits

section Handler

variable {t : Target}

def HandlerState.testPrintk (k : HandlerState t) (text : String) : HandlerState t :=
  { k with printed := k.printed ++ [text] }

/-- `EA=offsetof(struct uinfo,field)+(ulong)slot`. -/
def effectiveAddr (t : Target) (off slot : Nat) : Nat := (off + slot) % 2 ^ t.ulongBits

/-- `if ( put_user(v,(ulong __user *)EA) != 0 ) test_printk(..)`. -/
def putUser (ok : Bool) (ea : Nat) (v : BitVec t.ulongBits) (k : HandlerState t) :
    HandlerState t :=
  if ok then { k with mem := store k.mem ea t.ulongBytes v.toNat }
  else k.testPrintk " put_user returned an error!\n"

/-- `if ( get_user(v,(ulong __user *)EA) != 0 ) test_printk(..)`; a failing
    `get_user` leaves zero in `v`. -/
def getUser (ok : Bool) (ea : Nat) (k : HandlerState t) :
    BitVec t.ulongBits × HandlerState t :=
  if ok then (BitVec.ofNat t.ulongBits (load k.mem ea t.ulongBytes), k)
  else (0, k.testPrintk " get_user returned an error!\n")

/-- The sanity check that `ktid == utid`. -/
def checkTids (ktid utid : BitVec 32) (k : HandlerState t) : HandlerState t :=
  if ktid ≠ utid then
    (k.testPrintk "kthread: ERROR ktid and utid don't match!! ").testPrintk
      ("kthread: utid=" ++ toString utid.toInt ++ " ktid=" ++ toString ktid.toInt ++ "\n")
  else k

/-- `probe_handler`, run for the thread `pid` (`current->pid`); `ok` says which
    of its user accesses succeed.  The handler returns 0. -/
def probeHandler (ok : UserAccess → Bool) (pid : BitVec 32) (regs : Regs)
    (k : HandlerState t) : HandlerState t × Int :=
  let slot := getFirstArg t regs k.mem
  -- save current->pid in slot->ktid: a pid_t widened to the ulong it is stored as
  let ktid := pid
  let k := putUser (ok .putKtid) (effectiveAddr t t.ktidOff slot)
    (ktid.signExtend t.ulongBits) k
  -- a ulong narrowed to the pid_t it is read into
  let (utidWord, k) := getUser (ok .getUtid) (effectiveAddr t t.utidOff slot) k
  let utid := utidWord.setWidth 32
  let k := checkTids ktid utid k
  let (kcount, k) := getUser (ok .getKcount) (effectiveAddr t t.kcountOff slot) k
  -- the first hit since the slot was set up restarts the user's count
  let k := if kcount = -1 then
      putUser (ok .putUcount) (effectiveAddr t t.ucountOff slot) kcount k
    else k
  let kcount := kcount + 1
  let k := putUser (ok .putKcount) (effectiveAddr t t.kcountOff slot) kcount k
  ({ k with numProbes := k.numProbes + 1 }, 0)

/-! ## User memory after a run in which every access succeeds -/

@[simp] theorem checkTids_mem (ktid utid : BitVec 32) (k : HandlerState t) :
    (checkTids ktid utid k).mem = k.mem := by
  simp only [checkTids]
  split <;> rfl

/-- Memory after the store to `ktid`. -/
def storeKtid (t : Target) (pid : BitVec 32) (slot : Nat) (m : Mem) : Mem :=
  store m (slot + t.ktidOff) t.ulongBytes (pid.signExtend t.ulongBits).toNat

/-- Memory after the store to `ktid` and the possible reset of `ucount`. -/
def storeKtidUcount (t : Target) (pid : BitVec 32) (slot : Nat) (m : Mem) : Mem :=
  let m' := storeKtid t pid slot m
  if (Uinfo.read t m slot).kcount = -1 then
    store m' (slot + t.ucountOff) t.ulongBytes (-1 : BitVec t.ulongBits).toNat
  else m'

/-- Memory after all stores of a run on the slot at `slot`. -/
def storeAll (t : Target) (pid : BitVec 32) (slot : Nat) (m : Mem) : Mem :=
  store (storeKtidUcount t pid slot m) (slot + t.kcountOff) t.ulongBytes
    ((Uinfo.read t m slot).kcount + 1).toNat

theorem effectiveAddr_eq {off slot : Nat} (h : slot + t.sizeofUinfo ≤ 2 ^ t.ulongBits)
    (hoff : off < t.sizeofUinfo) : effectiveAddr t off slot = slot + off := by
  rw [effectiveAddr, Nat.mod_eq_of_lt (by omega), Nat.add_comm]

/-- The store to `ktid` leaves `kcount` alone on both targets. -/
theorem kcount_storeKtid (pid : BitVec 32) (slot : Nat) (m : Mem) :
    BitVec.ofNat t.ulongBits (load (storeKtid t pid slot m) (slot + t.kcountOff) t.ulongBytes)
      = (Uinfo.read t m slot).kcount := by
  simp only [storeKtid, Uinfo.read]
  rw [load_store_disjoint]
  cases t <;> simp only [Target.ktidOff, Target.kcountOff, Target.ulongBytes] <;> omega

theorem probeHandler_mem {regs : Regs} {pid : BitVec 32} {slot : Nat} {k : HandlerState t}
    (harg : getFirstArg t regs k.mem = slot)
    (hfits : slot + t.sizeofUinfo ≤ 2 ^ t.ulongBits) :
    (probeHandler (fun _ => true) pid regs k).1.mem = storeAll t pid slot k.mem := by
  have hktid : effectiveAddr t t.ktidOff slot = slot + t.ktidOff :=
    effectiveAddr_eq hfits (by cases t <;> decide)
  have hucount : effectiveAddr t t.ucountOff slot = slot + t.ucountOff :=
    effectiveAddr_eq hfits (by cases t <;> decide)
  have hkcount : effectiveAddr t t.kcountOff slot = slot + t.kcountOff :=
    effectiveAddr_eq hfits (by cases t <;> decide)
  simp only [probeHandler, harg, putUser, getUser, if_true, checkTids_mem, hktid, hucount,
    hkcount]
  -- `kcount` is loaded after the store to `ktid`, which does not reach it
  have hk := kcount_storeKtid (t := t) pid slot k.mem
  simp only [storeKtid] at hk
  rw [hk]
  simp only [storeAll, storeKtidUcount, storeKtid]
  by_cases h : (Uinfo.read t k.mem slot).kcount = -1
  · rw [if_pos h, if_pos h, h]
  · rw [if_neg h, if_neg h, checkTids_mem]

end Handler

/-! ## The handler on field values -/

/-- What the store to `ktid` leaves in `ucount`: on x86_64 its upper four bytes
    land in the low half of `ucount`. -/
def spillKtid : (t : Target) → BitVec 32 → BitVec t.ulongBits → BitVec t.ulongBits
  | .i386, _, ucount => ucount
  | .x86_64, pid, ucount =>
      ucount.extractLsb' 32 32 ++ (pid.signExtend 64).extractLsb' 32 32

/-- One run of `probe_handler` on the field values of a slot. -/
def Uinfo.hit (t : Target) (pid : BitVec 32) (s : Uinfo t.ulongBits) : Uinfo t.ulongBits :=
  { s with
    ktid := pid
    ucount := if s.kcount = -1 then -1 else spillKtid t pid s.ucount
    kcount := s.kcount + 1 }

theorem signExtend_toNat_mod (pid : BitVec 32) (t : Target) :
    (pid.signExtend t.ulongBits).toNat % 2 ^ 32 = pid.toNat := by
  have hlt := pid.isLt
  cases t with
  | i386 => rw [BitVec.signExtend_eq, Nat.mod_eq_of_lt hlt]
  | x86_64 =>
      rw [BitVec.toNat_signExtend, BitVec.toNat_setWidth]
      simp only [Target.ulongBits]
      split <;> omega

/-- The low four bytes stored at `ktid` are the pid. -/
theorem load_storeKtid_ktid (t : Target) (pid : BitVec 32) (slot : Nat) (m : Mem) :
    load (storeKtid t pid slot m) (slot + t.ktidOff) 4 = pid.toNat := by
  have hwithin := load_store_within (m := m) (a := slot + t.ktidOff) (n := t.ulongBytes)
    (v := (pid.signExtend t.ulongBits).toNat) (j := 0) (k := 4) (by cases t <;> decide)
  simp only [Nat.add_zero, Nat.pow_zero, Nat.div_one] at hwithin
  rw [storeKtid, hwithin]
  exact signExtend_toNat_mod pid t

/-- `ucount` after the store to `ktid`. -/
theorem ucount_storeKtid (t : Target) (pid : BitVec 32) (slot : Nat) (m : Mem) :
    BitVec.ofNat t.ulongBits
        (load (storeKtid t pid slot m) (slot + t.ucountOff) t.ulongBytes) =
      spillKtid t pid (Uinfo.read t m slot).ucount := by
  cases t with
  | i386 =>
      simp only [storeKtid, spillKtid, Uinfo.read]
      rw [load_store_disjoint (by
        simp only [Target.ktidOff, Target.ucountOff, Target.ulongBytes]; omega)]
  | x86_64 =>
      -- the low half of `ucount` is the upper half of the stored pid
      have hlow : load (storeKtid .x86_64 pid slot m) (slot + 8) 4 =
          (pid.signExtend 64).toNat / 256 ^ 4 % 256 ^ 4 :=
        load_store_within (a := slot + 4) (n := 8) (j := 4) (k := 4) (by omega)
      -- its high half lies behind the store
      have hhigh : load (storeKtid .x86_64 pid slot m) (slot + 8 + 4) 4 =
          load m (slot + 8 + 4) 4 :=
        load_store_disjoint (by
          simp only [Target.ktidOff, Target.ulongBytes]; omega)
      have hold : load m (slot + 8) 8 =
          load m (slot + 8) 4 + 256 ^ 4 * load m (slot + 8 + 4) 4 := load_add m (slot + 8) 4 4
      have hnew : load (storeKtid .x86_64 pid slot m) (slot + 8) 8 =
          (pid.signExtend 64).toNat / 256 ^ 4 % 256 ^ 4 + 256 ^ 4 * load m (slot + 8 + 4) 4 := by
        rw [← hlow, ← hhigh]
        exact load_add _ (slot + 8) 4 4
      have hltLow := load_lt m (slot + 8) 4
      have hltHigh := load_lt m (slot + 8 + 4) 4
      apply BitVec.eq_of_toNat_eq
      simp only [spillKtid, Uinfo.read, Target.ucountOff, Target.ulongBytes,
        Target.ulongBits, BitVec.toNat_append, BitVec.extractLsb'_toNat, BitVec.toNat_ofNat,
        Nat.shiftRight_eq_div_pow, hold, hnew]
      rw [← Nat.shiftLeft_add_eq_or_of_lt (Nat.mod_lt _ (by decide)), Nat.shiftLeft_eq]
      omega

theorem ulong_ofNat_toNat (t : Target) (v : BitVec t.ulongBits) :
    BitVec.ofNat t.ulongBits (v.toNat % 256 ^ t.ulongBytes) = v := by
  rw [t.pow_ulongBytes, Nat.mod_eq_of_lt v.isLt, BitVec.ofNat_toNat, BitVec.setWidth_eq]

/-! ### The slot after each of the three stores -/

theorem Uinfo.read_storeKtid (t : Target) (pid : BitVec 32) (slot : Nat) (m : Mem) :
    Uinfo.read t (storeKtid t pid slot m) slot =
      { Uinfo.read t m slot with
        ktid := pid, ucount := spillKtid t pid (Uinfo.read t m slot).ucount } := by
  have hend := t.kcountOff_add
  have hspill := t.ktidOff_add_le
  have hutid : load (storeKtid t pid slot m) (slot + t.utidOff) 4 =
      load m (slot + t.utidOff) 4 := by
    rw [storeKtid, load_store_disjoint (by simp [Target.utidOff, Target.ktidOff])]
  have hresults : load (storeKtid t pid slot m) (slot + t.resultsOff) 4 =
      load m (slot + t.resultsOff) 4 := by
    rw [storeKtid, load_store_disjoint (by omega)]
  apply Uinfo.ext
  · simp only [Uinfo.read, hutid]
  · simp only [Uinfo.read, load_storeKtid_ktid, BitVec.ofNat_toNat, BitVec.setWidth_eq]
  · exact ucount_storeKtid t pid slot m
  · exact kcount_storeKtid pid slot m
  · simp only [Uinfo.read, hresults]

theorem Uinfo.read_storeUcount (t : Target) (v : BitVec t.ulongBits) (slot : Nat) (m : Mem) :
    Uinfo.read t (store m (slot + t.ucountOff) t.ulongBytes v.toNat) slot =
      { Uinfo.read t m slot with ucount := v } := by
  have hmid := t.ucountOff_add
  have hend := t.kcountOff_add
  have hother : ∀ off n, off + n ≤ t.ucountOff ∨ t.kcountOff ≤ off →
      load (store m (slot + t.ucountOff) t.ulongBytes v.toNat) (slot + off) n =
        load m (slot + off) n := by
    intro off n hoff
    exact load_store_disjoint (by omega)
  apply Uinfo.ext
  · simp only [Uinfo.read, hother t.utidOff 4 (by simp [Target.utidOff, Target.ucountOff])]
  · simp only [Uinfo.read, hother t.ktidOff 4 (by simp [Target.ktidOff, Target.ucountOff])]
  · simp only [Uinfo.read, load_store_same, ulong_ofNat_toNat]
  · simp only [Uinfo.read, hother t.kcountOff _ (Or.inr (Nat.le_refl _))]
  · simp only [Uinfo.read, hother t.resultsOff 4 (by omega)]

theorem Uinfo.read_storeKcount (t : Target) (v : BitVec t.ulongBits) (slot : Nat) (m : Mem) :
    Uinfo.read t (store m (slot + t.kcountOff) t.ulongBytes v.toNat) slot =
      { Uinfo.read t m slot with kcount := v } := by
  have hmid := t.ucountOff_add
  have hend := t.kcountOff_add
  have hother : ∀ off n, off + n ≤ t.kcountOff ∨ t.resultsOff ≤ off →
      load (store m (slot + t.kcountOff) t.ulongBytes v.toNat) (slot + off) n =
        load m (slot + off) n := by
    intro off n hoff
    exact load_store_disjoint (by omega)
  apply Uinfo.ext
  · simp only [Uinfo.read, hother t.utidOff 4 (by simp [Target.utidOff, Target.kcountOff]; omega)]
  · simp only [Uinfo.read, hother t.ktidOff 4 (by simp [Target.ktidOff, Target.kcountOff])]
  · simp only [Uinfo.read, hother t.ucountOff t.ulongBytes (by omega)]
  · simp only [Uinfo.read, load_store_same, ulong_ofNat_toNat]
  · simp only [Uinfo.read, hother t.resultsOff 4 (Or.inr (Nat.le_refl _))]

/-- The byte-level handler computes `Uinfo.hit` on the slot. -/
theorem read_storeAll (t : Target) (pid : BitVec 32) (slot : Nat) (m : Mem) :
    Uinfo.read t (storeAll t pid slot m) slot = (Uinfo.read t m slot).hit t pid := by
  rw [storeAll, Uinfo.read_storeKcount, storeKtidUcount]
  -- `ucount` is either reset or has taken the spill
  by_cases h : (Uinfo.read t m slot).kcount = -1
  · simp only [if_pos h, Uinfo.read_storeUcount, Uinfo.read_storeKtid, Uinfo.hit]
  · simp only [if_neg h, Uinfo.read_storeKtid, Uinfo.hit]

/-- No byte before `ktid` or behind `kcount` is written. -/
theorem storeAll_outside {t : Target} {pid : BitVec 32} {slot : Nat} {m : Mem} {b : Nat}
    (h : b < slot + t.ktidOff ∨ slot + t.resultsOff ≤ b) :
    storeAll t pid slot m b = m b := by
  have hmid := t.ucountOff_add
  have hend := t.kcountOff_add
  have hspill := t.ktidOff_add_le
  have hktid : t.ktidOff ≤ t.ucountOff := by simp [Target.ktidOff, Target.ucountOff]
  have hstep : ∀ m' off v, t.ktidOff ≤ off → off + t.ulongBytes ≤ t.resultsOff →
      store m' (slot + off) t.ulongBytes v b = m' b := by
    intro m' off v hlo hhi
    rcases h with h | h
    · exact store_apply_of_lt (by omega)
    · exact store_apply_of_ge (by omega)
  rw [storeAll, hstep _ _ _ (by omega) (by omega), storeKtidUcount]
  split
  · rw [hstep _ _ _ (by omega) (by omega), storeKtid, hstep _ _ _ (by omega) (by omega)]
  · rw [storeKtid, hstep _ _ _ (by omega) (by omega)]

/-! ## What one run may change -/

/-- The effect the comments of `probe_handler` promise for a run on slot `i` of
    `tbl` by thread `pid`, between user memory `m` and `m'`: `ktid` is the
    thread, `kcount` goes up by one, `ucount` restarts at -1 exactly when
    `kcount` was -1, and nothing else changes. -/
structure HandlerFrame (t : Target) (tbl : Table t) (i : Nat) (pid : BitVec 32)
    (m m' : Mem) : Prop where
  ktid : (Uinfo.read t m' (tbl.slot i)).ktid = pid
  kcount : (Uinfo.read t m' (tbl.slot i)).kcount = (Uinfo.read t m (tbl.slot i)).kcount + 1
  ucount : (Uinfo.read t m' (tbl.slot i)).ucount =
    if (Uinfo.read t m (tbl.slot i)).kcount = -1 then -1
    else (Uinfo.read t m (tbl.slot i)).ucount
  utid : (Uinfo.read t m' (tbl.slot i)).utid = (Uinfo.read t m (tbl.slot i)).utid
  results : (Uinfo.read t m' (tbl.slot i)).results = (Uinfo.read t m (tbl.slot i)).results
  otherSlots : ∀ j < tbl.size, j ≠ i → ∀ d < t.sizeofUinfo,
    m' (tbl.slot j + d) = m (tbl.slot j + d)
  outside : ∀ b, b < tbl.slot i + t.ktidOff ∨ tbl.slot i + t.resultsOff ≤ b → m' b = m b

/-- When the ulong-wide store to `ktid` does no damage: it fits the field, or
    `ucount` is about to be reset, or the low half of `ucount` already holds
    the sign extension of the pid. -/
def KtidStoreHarmless (t : Target) (pid : BitVec 32) (s : Uinfo t.ulongBits) : Prop :=
  t = .i386 ∨ s.kcount = -1 ∨ s.ucount.setWidth 32 = (pid.signExtend 64).extractLsb' 32 32

/-- Replacing the low half of a word changes nothing exactly when the half is
    the one already there. -/
theorem replaceLow_eq_iff (x : BitVec 64) (y : BitVec 32) :
    x.extractLsb' 32 32 ++ y = x ↔ x.setWidth 32 = y := by
  constructor
  · intro h
    calc x.setWidth 32 = (x.extractLsb' 32 32 ++ y).setWidth 32 := by rw [h]
      _ = y := BitVec.setWidth_append_eq_right
  · rintro rfl
    have hx := x.isLt
    apply BitVec.eq_of_toNat_eq
    rw [BitVec.toNat_append, ← Nat.shiftLeft_add_eq_or_of_lt (BitVec.isLt _),
      BitVec.extractLsb'_toNat, BitVec.toNat_setWidth, Nat.shiftLeft_eq,
      Nat.shiftRight_eq_div_pow]
    omega

theorem spillKtid_eq_iff (t : Target) (pid : BitVec 32) (ucount : BitVec t.ulongBits) :
    spillKtid t pid ucount = ucount ↔
      t = .i386 ∨ ucount.setWidth 32 = (pid.signExtend 64).extractLsb' 32 32 := by
  cases t with
  | i386 => simp [spillKtid]
  | x86_64 => simpa [spillKtid] using replaceLow_eq_iff ucount _

/-- The handler keeps to its frame on exactly the slots where the store to
    `ktid` is harmless. -/
theorem probeHandler_frame_iff {t : Target} (tbl : Table t) {i : Nat} (hi : i < tbl.size)
    (pid : BitVec 32) (regs : Regs) (k : HandlerState t)
    (harg : getFirstArg t regs k.mem = tbl.slot i) :
    HandlerFrame t tbl i pid k.mem (probeHandler (fun _ => true) pid regs k).1.mem ↔
      KtidStoreHarmless t pid (Uinfo.read t k.mem (tbl.slot i)) := by
  have hread := read_storeAll t pid (tbl.slot i) k.mem
  -- of all the frame only `ucount` can go wrong
  have hspill := spillKtid_eq_iff t pid (Uinfo.read t k.mem (tbl.slot i)).ucount
  rw [probeHandler_mem harg (tbl.slot_fits hi)]
  constructor
  · intro h
    have hucount := h.ucount
    rw [hread] at hucount
    by_cases hk : (Uinfo.read t k.mem (tbl.slot i)).kcount = -1
    · exact Or.inr (Or.inl hk)
    · simp only [Uinfo.hit, if_neg hk] at hucount
      rcases hspill.mp hucount with ht | hlow
      · exact Or.inl ht
      · exact Or.inr (Or.inr hlow)
  · intro h
    have hucount : (if (Uinfo.read t k.mem (tbl.slot i)).kcount = -1 then (-1)
          else spillKtid t pid (Uinfo.read t k.mem (tbl.slot i)).ucount) =
        if (Uinfo.read t k.mem (tbl.slot i)).kcount = -1 then (-1)
          else (Uinfo.read t k.mem (tbl.slot i)).ucount := by
      rcases h with ht | hk | hlow
      · rw [hspill.mpr (Or.inl ht)]
      · rw [if_pos hk, if_pos hk]
      · rw [hspill.mpr (Or.inr hlow)]
    have houtside : ∀ b, b < tbl.slot i + t.ktidOff ∨ tbl.slot i + t.resultsOff ≤ b →
        storeAll t pid (tbl.slot i) k.mem b = k.mem b := fun b hb => storeAll_outside hb
    exact {
      ktid := by rw [hread]; rfl
      kcount := by rw [hread]; rfl
      ucount := by rw [hread]; exact hucount
      utid := by rw [hread]; rfl
      results := by rw [hread]; rfl
      otherSlots := by
        intro j hj hji d hd
        have hres : t.resultsOff ≤ t.sizeofUinfo := by cases t <;> decide
        apply houtside
        rcases tbl.slot_disjoint hji with hlt | hlt
        · left; omega
        · right; omega
      outside := houtside }

/-- A first hit on x86_64: every byte of the slot is 0xff, so `kcount` is -1. -/
theorem probeHandler_frame_firstHit :
    getFirstArg .x86_64 ⟨4096, 0⟩ (fun _ => 0xff) = 4096 ∧
    HandlerFrame .x86_64 ⟨4096, 1, by decide⟩ 0 7 (fun _ => 0xff)
      (probeHandler (t := .x86_64) (fun _ => true) 7 ⟨4096, 0⟩ ⟨fun _ => 0xff, [], 0⟩).1.mem :=
  ⟨rfl, (probeHandler_frame_iff (t := .x86_64) ⟨4096, 1, by decide⟩ (by decide) 7 ⟨4096, 0⟩
    ⟨fun _ => 0xff, [], 0⟩ rfl).mpr (Or.inr (Or.inl (by decide)))⟩

/-- An x86_64 slot at address 4096 that thread 7 has hit twice: both counters are 1. -/
def hitTwice : Mem := fun b =>
  if b = 4096 ∨ b = 4096 + 4 then 7 else if b = 4096 + 8 ∨ b = 4096 + 16 then 1 else 0

/-- On x86_64 the third hit by thread 7 zeroes the user's counter. -/
theorem probeHandler_clobbers_ucount :
    getFirstArg .x86_64 ⟨4096, 0⟩ hitTwice = 4096 ∧
    ¬ HandlerFrame .x86_64 ⟨4096, 1, by decide⟩ 0 7 hitTwice
      (probeHandler (t := .x86_64) (fun _ => true) 7 ⟨4096, 0⟩ ⟨hitTwice, [], 0⟩).1.mem := by
  refine ⟨rfl, fun h => ?_⟩
  have hucount := h.ucount
  revert hucount
  decide

end UprobeTests
