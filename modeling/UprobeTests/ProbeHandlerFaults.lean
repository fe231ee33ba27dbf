/-
  UprobeTests.ProbeHandlerFaults

  `probe_handler` when user accesses fail.

  A failing access is reported and the handler goes on.  A failing `put_user`
  leaves the field as it was.  A failing `get_user` leaves zero in its local,
  and the handler increments that zero and stores it: the slot's count is
  replaced by 1.
-/

import UprobeTests.ProbeHandler

namespace UprobeTests

open ByteMem

section Faults

variable {t : Target}

/-! ## The handler on field values -/

/-- The `kcount` the handler goes on with: the slot's own, or the zero of a
    failing `get_user`. -/
def kcountRead (ok : UserAccess → Bool) (s : Uinfo t.ulongBits) : BitVec t.ulongBits :=
  if ok .getKcount then s.kcount else 0

/-- The slot after the store to `ktid`. -/
def Uinfo.putKtid (t : Target) (ok : UserAccess → Bool) (pid : BitVec 32)
    (s : Uinfo t.ulongBits) : Uinfo t.ulongBits :=
  if ok .putKtid then { s with ktid := pid, ucount := spillKtid t pid s.ucount } else s

/-- One run of `probe_handler` on the field values of a slot, when `ok` says
    which of its user accesses succeed. -/
def Uinfo.hitWith (t : Target) (ok : UserAccess → Bool) (pid : BitVec 32)
    (s : Uinfo t.ulongBits) : Uinfo t.ulongBits :=
  let stored := s.putKtid t ok pid
  let reset := if kcountRead ok s = -1 ∧ ok .putUcount then { stored with ucount := -1 }
    else stored
  if ok .putKcount then { reset with kcount := kcountRead ok s + 1 } else reset

/-! ## User memory along a run -/

theorem putUser_mem (ok : Bool) (ea : Nat) (v : BitVec t.ulongBits) (k : HandlerState t) :
    (putUser ok ea v k).mem = if ok then store k.mem ea t.ulongBytes v.toNat else k.mem := by
  cases ok <;> rfl

theorem getUser_mem (ok : Bool) (ea : Nat) (k : HandlerState t) :
    (getUser ok ea k).2.mem = k.mem := by
  cases ok <;> rfl

theorem getUser_fst (ok : Bool) (ea : Nat) (k : HandlerState t) :
    (getUser ok ea k).1 = if ok then BitVec.ofNat t.ulongBits (load k.mem ea t.ulongBytes)
      else 0 := by
  cases ok <;> rfl

theorem Uinfo.putKtid_kcount (ok : UserAccess → Bool) (pid : BitVec 32)
    (s : Uinfo t.ulongBits) : (s.putKtid t ok pid).kcount = s.kcount := by
  simp only [Uinfo.putKtid]
  split <;> rfl

/-- The byte-level handler computes `Uinfo.hitWith` on the slot, whichever of
    its accesses fail. -/
theorem read_probeHandler {ok : UserAccess → Bool} {pid : BitVec 32} {regs : Regs}
    {slot : Nat} {k : HandlerState t} (harg : getFirstArg t regs k.mem = slot)
    (hfits : slot + t.sizeofUinfo ≤ 2 ^ t.ulongBits) :
    Uinfo.read t (probeHandler ok pid regs k).1.mem slot =
      (Uinfo.read t k.mem slot).hitWith t ok pid := by
  have hktid : effectiveAddr t t.ktidOff slot = slot + t.ktidOff :=
    effectiveAddr_eq hfits (by cases t <;> decide)
  have hucount : effectiveAddr t t.ucountOff slot = slot + t.ucountOff :=
    effectiveAddr_eq hfits (by cases t <;> decide)
  have hkcount : effectiveAddr t t.kcountOff slot = slot + t.kcountOff :=
    effectiveAddr_eq hfits (by cases t <;> decide)
  -- the slot when `kcount` is read
  have hstored : ∀ k₁ : HandlerState t,
      k₁.mem = (putUser (ok .putKtid) (slot + t.ktidOff) (pid.signExtend t.ulongBits) k).mem →
      Uinfo.read t k₁.mem slot = (Uinfo.read t k.mem slot).putKtid t ok pid := by
    intro k₁ hk₁
    rw [hk₁, putUser_mem, Uinfo.putKtid]
    cases ok .putKtid with
    | false => rfl
    | true => exact Uinfo.read_storeKtid t pid slot k.mem
  simp only [probeHandler, harg, hktid, hucount, hkcount]
  generalize hk₁ : checkTids _ _ _ = k₁
  have hmem₁ : k₁.mem =
      (putUser (ok .putKtid) (slot + t.ktidOff) (pid.signExtend t.ulongBits) k).mem := by
    rw [← hk₁, checkTids_mem, getUser_mem]
  have hread₁ := hstored k₁ hmem₁
  -- the value read, and the memory it leaves
  have hvalue : (getUser (ok .getKcount) (slot + t.kcountOff) k₁).1 =
      kcountRead ok (Uinfo.read t k.mem slot) := by
    have hfield : (Uinfo.read t k₁.mem slot).kcount = (Uinfo.read t k.mem slot).kcount := by
      rw [hread₁, Uinfo.putKtid_kcount]
    rw [getUser_fst, kcountRead, ← hfield, Uinfo.read]
  have hmem₂ := getUser_mem (ok .getKcount) (slot + t.kcountOff) k₁
  generalize getUser (ok .getKcount) (slot + t.kcountOff) k₁ = got at hvalue hmem₂ ⊢
  obtain ⟨kcount, k₂⟩ := got
  dsimp only at hvalue hmem₂ ⊢
  subst hvalue
  have hread₂ : Uinfo.read t k₂.mem slot = (Uinfo.read t k.mem slot).putKtid t ok pid := by
    rw [hmem₂, hread₁]
  -- the two remaining stores
  have hreset : Uinfo.read t (if kcountRead ok (Uinfo.read t k.mem slot) = -1 then
        putUser (ok .putUcount) (slot + t.ucountOff)
          (kcountRead ok (Uinfo.read t k.mem slot)) k₂
      else k₂).mem slot =
      if kcountRead ok (Uinfo.read t k.mem slot) = -1 ∧ ok .putUcount then
        { (Uinfo.read t k.mem slot).putKtid t ok pid with ucount := -1 }
      else (Uinfo.read t k.mem slot).putKtid t ok pid := by
    by_cases h : kcountRead ok (Uinfo.read t k.mem slot) = -1
    · rw [if_pos h, h, putUser_mem]
      cases ok .putUcount with
      | false => simpa using hread₂
      | true => rw [if_pos rfl, if_pos ⟨rfl, rfl⟩, Uinfo.read_storeUcount, hread₂]
    · rw [if_neg h, if_neg (fun hc => h hc.1), hread₂]
  rw [putUser_mem, Uinfo.hitWith]
  cases ok .putKcount with
  | false => simpa using hreset
  | true =>
      simp only [if_true, Uinfo.read_storeKcount]
      rw [hreset]

/-! ## Which counter values a run may leave -/

/-- The counters of `s'` come from those of `s`: `kcount` is the old one or
    the old one plus one, `ucount` is the old one or the -1 that goes with a
    `kcount` of -1. -/
structure CountersDerived {w : Nat} (s s' : Uinfo w) : Prop where
  kcount : s'.kcount = s.kcount ∨ s'.kcount = s.kcount + 1
  ucount : s'.ucount = s.ucount ∨ s.kcount = -1 ∧ s'.ucount = -1

/-- When no zero of a failed read is stored as a count: `kcount` was read, or
    could not be stored either, or the 1 is right by chance. -/
def KcountReadHarmless (ok : UserAccess → Bool) (s : Uinfo t.ulongBits) : Prop :=
  ok .getKcount ∨ ok .putKcount = false ∨ s.kcount = 0 ∨ s.kcount = 1

/-- When the ulong-wide store to `ktid` leaves a `ucount` of the slot's own:
    it failed, `ucount` is reset after it, it fits the field, or the low half
    of `ucount` is what the counters call for already. -/
def KtidSpillHarmless (t : Target) (ok : UserAccess → Bool) (pid : BitVec 32)
    (s : Uinfo t.ulongBits) : Prop :=
  ok .putKtid = false ∨ (ok .getKcount ∧ s.kcount = -1 ∧ ok .putUcount) ∨ t = .i386 ∨
    s.ucount.setWidth 32 = (pid.signExtend 64).extractLsb' 32 32 ∨
    (s.kcount = -1 ∧ s.ucount.extractLsb' 32 32 = -1 ∧
      (pid.signExtend 64).extractLsb' 32 32 = -1)

theorem kcount_hitWith_iff (ok : UserAccess → Bool) (pid : BitVec 32) (s : Uinfo t.ulongBits) :
    ((s.hitWith t ok pid).kcount = s.kcount ∨ (s.hitWith t ok pid).kcount = s.kcount + 1) ↔
      KcountReadHarmless ok s := by
  have hk : (s.hitWith t ok pid).kcount =
      if ok .putKcount then kcountRead ok s + 1 else s.kcount := by
    have hreset : (if kcountRead ok s = -1 ∧ ok .putUcount then
        { s.putKtid t ok pid with ucount := -1 } else s.putKtid t ok pid).kcount = s.kcount := by
      split <;> exact Uinfo.putKtid_kcount ok pid s
    rw [Uinfo.hitWith]
    cases ok .putKcount with
    | false => exact hreset
    | true => rfl
  rw [hk, KcountReadHarmless, kcountRead]
  cases ok .putKcount with
  | false => simp
  | true =>
      cases ok .getKcount with
      | true => simp
      | false =>
          -- the stored value is 0 + 1
          have hone : (0 : BitVec t.ulongBits) + 1 = s.kcount + 1 ↔ 0 = s.kcount :=
            BitVec.add_left_inj 1
          simp only [Bool.false_eq_true, if_false, if_true, hone, false_or, Bool.true_eq_false]
          have hfirst : (0 : BitVec t.ulongBits) + 1 = 1 := BitVec.zero_add 1
          rw [hfirst, or_comm, eq_comm, eq_comm (a := s.kcount) (b := 1)]

/-- Two halves make up -1 when both are -1. -/
theorem append_eq_neg_one_iff (x y : BitVec 32) :
    x ++ y = (-1 : BitVec 64) ↔ x = -1 ∧ y = -1 := by
  constructor
  · intro h
    constructor
    · calc x = (x ++ y).extractLsb' 32 32 := BitVec.extractLsb'_append_eq_left.symm
        _ = -1 := by rw [h]; decide
    · calc y = (x ++ y).extractLsb' 0 32 := BitVec.extractLsb'_append_eq_right.symm
        _ = -1 := by rw [h]; decide
  · rintro ⟨rfl, rfl⟩
    decide

theorem ucount_hitWith (ok : UserAccess → Bool) (pid : BitVec 32) (s : Uinfo t.ulongBits) :
    (s.hitWith t ok pid).ucount =
      if kcountRead ok s = -1 ∧ ok .putUcount then -1
      else if ok .putKtid then spillKtid t pid s.ucount else s.ucount := by
  have hstored : (s.putKtid t ok pid).ucount =
      if ok .putKtid then spillKtid t pid s.ucount else s.ucount := by
    rw [Uinfo.putKtid]
    split <;> rfl
  have hreset : (if kcountRead ok s = -1 ∧ ok .putUcount then
      { s.putKtid t ok pid with ucount := -1 } else s.putKtid t ok pid).ucount =
      if kcountRead ok s = -1 ∧ ok .putUcount then -1
      else if ok .putKtid then spillKtid t pid s.ucount else s.ucount := by
    split
    · rfl
    · exact hstored
  rw [Uinfo.hitWith]
  cases ok .putKcount with
  | false => exact hreset
  | true => exact hreset

theorem kcountRead_eq_neg_one_iff (ok : UserAccess → Bool) (s : Uinfo t.ulongBits) :
    kcountRead ok s = -1 ↔ ok .getKcount ∧ s.kcount = -1 := by
  rw [kcountRead]
  cases ok .getKcount with
  | false =>
      have hne : (0 : BitVec t.ulongBits) ≠ -1 := by cases t <;> decide
      simp only [Bool.false_eq_true, if_false, hne, false_and]
  | true => simp

theorem ucount_hitWith_iff (ok : UserAccess → Bool) (pid : BitVec 32) (s : Uinfo t.ulongBits) :
    ((s.hitWith t ok pid).ucount = s.ucount ∨
        s.kcount = -1 ∧ (s.hitWith t ok pid).ucount = -1) ↔
      KtidSpillHarmless t ok pid s := by
  rw [ucount_hitWith, KtidSpillHarmless]
  by_cases hreset : kcountRead ok s = -1 ∧ ok .putUcount
  · have hread := (kcountRead_eq_neg_one_iff ok s).mp hreset.1
    rw [if_pos hreset]
    constructor
    · intro _
      exact Or.inr (Or.inl ⟨hread.1, hread.2, hreset.2⟩)
    · intro _
      exact Or.inr ⟨hread.2, rfl⟩
  · have hnot : ¬ (ok .getKcount ∧ s.kcount = -1 ∧ ok .putUcount) := fun h =>
      hreset ⟨(kcountRead_eq_neg_one_iff ok s).mpr ⟨h.1, h.2.1⟩, h.2.2⟩
    rw [if_neg hreset]
    cases hput : ok .putKtid with
    | false => simp
    | true =>
        have hsame := spillKtid_eq_iff t pid s.ucount
        cases t with
        | i386 => simp [spillKtid]
        | x86_64 =>
            -- the spill keeps `ucount` or makes it -1
            have hminus : spillKtid .x86_64 pid s.ucount = -1 ↔ _ :=
              append_eq_neg_one_iff _ _
            simp only [Bool.true_eq_false, if_true, false_or, hnot, hsame, hminus,
              or_assoc]

/-- A run leaves counters of the slot's own exactly when no failed read is
    stored as a count and the store to `ktid` is harmless. -/
theorem probeHandler_countersDerived_iff (tbl : Table t) {i : Nat} (hi : i < tbl.size)
    (ok : UserAccess → Bool) (pid : BitVec 32) (regs : Regs) (k : HandlerState t)
    (harg : getFirstArg t regs k.mem = tbl.slot i) :
    CountersDerived (Uinfo.read t k.mem (tbl.slot i))
        (Uinfo.read t (probeHandler ok pid regs k).1.mem (tbl.slot i)) ↔
      KcountReadHarmless ok (Uinfo.read t k.mem (tbl.slot i)) ∧
        KtidSpillHarmless t ok pid (Uinfo.read t k.mem (tbl.slot i)) := by
  rw [read_probeHandler harg (tbl.slot_fits hi), ← kcount_hitWith_iff ok pid,
    ← ucount_hitWith_iff]
  constructor
  · intro h
    exact ⟨h.kcount, h.ucount⟩
  · rintro ⟨hkcount, hucount⟩
    exact ⟨hkcount, hucount⟩

end Faults

/-- An x86_64 slot at address 4096 whose `kcount` is 5. -/
def kcountFive : Mem := fun b => if b = 4096 + 16 then 5 else 0

/-- Thread 7 hits it, and the `put_user` of `ktid` fails: `kcount` becomes 6. -/
theorem probeHandler_countersDerived_ktidFails :
    getFirstArg .x86_64 ⟨4096, 0⟩ kcountFive = 4096 ∧
    CountersDerived (Uinfo.read .x86_64 kcountFive 4096)
      (Uinfo.read .x86_64
        (probeHandler (t := .x86_64) (fun a => a != .putKtid) 7 ⟨4096, 0⟩
          ⟨kcountFive, [], 0⟩).1.mem 4096) ∧
    (Uinfo.read .x86_64
      (probeHandler (t := .x86_64) (fun a => a != .putKtid) 7 ⟨4096, 0⟩
        ⟨kcountFive, [], 0⟩).1.mem 4096).kcount = 6 := by
  have hderived := (probeHandler_countersDerived_iff (t := .x86_64) ⟨4096, 1, by decide⟩ (i := 0)
    (by decide) (fun a => a != .putKtid) 7 ⟨4096, 0⟩ ⟨kcountFive, [], 0⟩ rfl).mpr
      ⟨Or.inl rfl, Or.inl rfl⟩
  exact ⟨rfl, hderived, by decide⟩

/-- One `get_user` fails, the handler reports it and stores 1 over a count of 5. -/
theorem probeHandler_failedRead_clobbers_kcount :
    getFirstArg .x86_64 ⟨4096, 0⟩ kcountFive = 4096 ∧
    (Uinfo.read .x86_64 kcountFive 4096).kcount = 5 ∧
    (Uinfo.read .x86_64
      (probeHandler (t := .x86_64) (fun a => a != .getKcount) 7 ⟨4096, 0⟩
        ⟨kcountFive, [], 0⟩).1.mem 4096).kcount = 1 ∧
    ¬ CountersDerived (Uinfo.read .x86_64 kcountFive 4096)
      (Uinfo.read .x86_64
        (probeHandler (t := .x86_64) (fun a => a != .getKcount) 7 ⟨4096, 0⟩
          ⟨kcountFive, [], 0⟩).1.mem 4096) := by
  refine ⟨rfl, by decide, by decide, ?_⟩
  intro h
  have hkcount := h.kcount
  revert hkcount
  decide

end UprobeTests
