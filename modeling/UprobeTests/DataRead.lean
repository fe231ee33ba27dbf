/-
  UprobeTests.DataRead

  From the texts handed to `test_printk` to what `cat` reads of the data file.  A
  reader that has come to the end has the texts, whatever was printed while it read,
  as long as they fit in the 1024 bytes of the buffer (`Reads.eq_dataText`).
-/

import UprobeTests.DataLines
import UprobeTests.ReadData

namespace UprobeTests

open Tcl ByteMem

namespace DataRead

/-! ## Texts and bytes -/

/-- What a program takes bytes for. -/
def decode (bs : List Byte) : Str := bs.map fun b => Char.ofNat b.toNat

/-- The bytes are those of the text. -/
def IsBytesOf (x : Text) (text : String) : Prop := decode x.bytes = text.toList

instance (x : Text) (text : String) : Decidable (IsBytesOf x text) :=
  inferInstanceAs (Decidable (decode x.bytes = text.toList))

theorem decode_stream {xs : List Text} {texts : List String}
    (h : List.Forall₂ IsBytesOf xs texts) : decode (DataFile.stream xs) = dataText texts := by
  induction h with
  | nil => rfl
  | @cons x text xs texts hx _ ih =>
      show decode (x.bytes ++ DataFile.stream xs) = text.toList ++ dataText texts
      rw [← ih, ← hx, decode, List.map_append]
      rfl

theorem totalLength_eq {xs : List Text} {texts : List String}
    (h : List.Forall₂ IsBytesOf xs texts) :
    DataBufInfo.totalLength xs = (texts.map String.length).sum := by
  induction h with
  | nil => rfl
  | @cons x text xs texts hx _ ih =>
      have hlength : x.length = text.length := by
        have hchars := congrArg List.length hx
        rwa [decode, List.length_map, String.length_toList] at hchars
      show x.length + DataBufInfo.totalLength xs = text.length + (texts.map String.length).sum
      rw [ih, hlength]

section Read

variable {t : Target} {ι ρ : Type} {buf : DataBuf t} {mem : Mem} {s : DataFile t ι ρ}

/-- A read that gets nothing comes behind all that is completed. -/
theorem completed_le_pos (hs : DataFile.Inv buf s) {r : ρ} {count : Nat} (hcount : 0 < count)
    (hend : s.buf.readData (s.readers r).pos count = []) :
    (DataFile.stream s.completed).length ≤ (s.readers r).pos := by
  obtain ⟨-, hcompleted, -, -⟩ := hs.published.below
  have hlen : s.buf.readLength (s.readers r).pos count = 0 := by
    have hbytes := congrArg List.length hend
    rwa [DataBufInfo.readData, length_bytes] at hbytes
  rw [DataBufInfo.readLength] at hlen
  split at hlen
  · rename_i hzero
    rw [hzero] at hcompleted
    exact hcompleted.trans (Nat.zero_le _)
  · omega

variable [DecidableEq ρ]

/-- A reader at the end has all the texts, when none is being printed. -/
theorem decode_received (h : DataFile.Reachable buf mem s) {texts : List String}
    (hprinted : List.Forall₂ IsBytesOf s.acquired texts) (hdone : s.completed = s.acquired)
    (hfits : TextsFit texts) {r : ρ} {count : Nat}
    (hcount : 0 < count) (hend : s.buf.readData (s.readers r).pos count = []) :
    decode (s.readers r).received = dataText texts := by
  have htotal := totalLength_eq hprinted
  have hs := DataFile.inv h (Nat.lt_of_le_of_lt (Nat.le_of_eq htotal) hfits)
  have hpos := completed_le_pos hs hcount hend
  rw [hdone] at hpos
  rw [hs.received, List.take_of_length_le hpos, decode_stream hprinted]

end Read

/-! ## Reading the data file to its end -/

/-- A reader gets `out` when it reads the data file to its end, `texts` having been
    printed by then, in one of the interleavings. -/
def Reads (t : Target) (texts : List String) (out : Str) : Prop :=
  ∃ (buf : DataBuf t) (mem : Mem) (s : DataFile t Nat Nat) (r count : Nat),
    DataFile.Reachable buf mem s ∧ List.Forall₂ IsBytesOf s.acquired texts ∧
      s.completed = s.acquired ∧ 0 < count ∧ s.buf.readData (s.readers r).pos count = [] ∧
      decode (s.readers r).received = out

theorem Reads.eq_dataText {t : Target} {texts : List String} {out : Str}
    (h : Reads t texts out) (hfits : TextsFit texts) : out = dataText texts := by
  obtain ⟨buf, mem, s, r, count, hreach, hprinted, hdone, hcount, hend, rfl⟩ := h
  exact decode_received hreach hprinted hdone hfits hcount hend

/-- The characters of the text are bytes other than NUL. -/
def Printable (text : String) : Prop := ∀ c ∈ text.toList, 0 < c.toNat ∧ c.toNat < 256

instance (text : String) : Decidable (Printable text) :=
  List.decidableBAll _ text.toList

section Write

variable {t : Target} {texts : List String}

theorem exists_isBytesOf {text : String} (h : Printable text) (hlength : text.length < 2 ^ 31) :
    ∃ x, IsBytesOf x text := by
  let bs := text.toList.map fun c => BitVec.ofNat 8 c.toNat
  have htoNat : ∀ c ∈ text.toList, (BitVec.ofNat 8 c.toNat).toNat = c.toNat := fun c hc => by
    rw [BitVec.toNat_ofNat, Nat.mod_eq_of_lt (h c hc).2]
  have hshort : bs.length < 2 ^ 31 := by
    rw [List.length_map, String.length_toList]
    exact hlength
  have hnul : 0 ∉ bs := by
    intro hmem
    obtain ⟨c, hc, hzero⟩ := List.mem_map.mp hmem
    have hpos := (h c hc).1
    rw [← htoNat c hc, hzero] at hpos
    exact absurd hpos (Nat.lt_irrefl 0)
  refine ⟨⟨bs, hshort, hnul⟩, ?_⟩
  show (text.toList.map _).map _ = text.toList
  rw [List.map_map]
  refine (List.map_congr_left fun c hc => ?_).trans (List.map_id _)
  rw [Function.comp_apply, htoNat c hc]
  exact Char.ofNat_toNat c

theorem exists_areBytesOf (h : ∀ text ∈ texts, Printable text) (hfits : TextsFit texts) :
    ∃ xs, List.Forall₂ IsBytesOf xs texts := by
  induction texts with
  | nil => exact ⟨[], .nil⟩
  | cons text texts ih =>
      obtain ⟨htext, hrest⟩ := List.forall_mem_cons.mp h
      have hsum : text.length + (texts.map String.length).sum < dataBufSize := hfits
      have hbound : dataBufSize ≤ 2 ^ 31 := by decide
      obtain ⟨x, hx⟩ := exists_isBytesOf htext (by omega)
      obtain ⟨xs, hxs⟩ := ih hrest (Nat.lt_of_le_of_lt (Nat.le_add_left _ _) hsum)
      exact ⟨x :: xs, .cons hx hxs⟩

/-- One call of `test_printk`, undisturbed. -/
theorem exists_called (x : Text) {s : DataFile t Nat Nat} (hs : s.holder = none) :
    ∃ s', Relation.ReflTransGen DataFile.Step s s' ∧ s'.holder = none ∧
      s'.acquired = s.acquired ++ [x] ∧ s'.completed = s.completed ++ [x] ∧
      s'.readers = s.readers := by
  have hlock := Relation.ReflTransGen.single (DataFile.Step.lock 0 x hs)
  have hcounted := ((hlock.tail (.format rfl)).tail (.moveCur rfl)).tail (.addInBuf rfl)
  exact ⟨_, (hcounted.tail (.subLeft rfl)).tail (.unlock rfl), rfl, rfl, rfl, rfl⟩

theorem exists_written (xs : List Text) {s : DataFile t Nat Nat} (hs : s.holder = none) :
    ∃ s', Relation.ReflTransGen DataFile.Step s s' ∧ s'.acquired = s.acquired ++ xs ∧
      s'.completed = s.completed ++ xs ∧ s'.readers = s.readers := by
  induction xs generalizing s with
  | nil => exact ⟨s, .refl, (List.append_nil _).symm, (List.append_nil _).symm, rfl⟩
  | cons x xs ih =>
      obtain ⟨s₁, hcall, hfree, hacquired₁, hcompleted₁, hreaders₁⟩ := exists_called x hs
      obtain ⟨s', hrest, hacquired, hcompleted, hreaders⟩ := ih hfree
      refine ⟨s', hcall.trans hrest, ?_, ?_, hreaders.trans hreaders₁⟩
      · rw [hacquired, hacquired₁, List.append_assoc]
        rfl
      · rw [hcompleted, hcompleted₁, List.append_assoc]
        rfl

/-- Texts that fit are read by somebody, and then they are what is read. -/
theorem reads_dataText (buf : DataBuf t) (h : ∀ text ∈ texts, Printable text)
    (hfits : TextsFit texts) : Reads t texts (dataText texts) := by
  obtain ⟨xs, hxs⟩ := exists_areBytesOf h hfits
  obtain ⟨s, hwritten, hacquired, hcompleted, hreaders⟩ :=
    exists_written xs (s := DataFile.init buf fun _ => 0) rfl
  have hbytes : List.Forall₂ IsBytesOf s.acquired texts := hacquired ▸ hxs
  have hdone : s.completed = s.acquired := hcompleted.trans hacquired.symm
  have htotal : DataBufInfo.totalLength s.acquired < dataBufSize :=
    Nat.lt_of_le_of_lt (Nat.le_of_eq (totalLength_eq hbytes)) hfits
  obtain ⟨-, -, hbelow, -⟩ := (DataFile.inv hwritten htotal).published.below
  rw [DataFile.length_stream] at hbelow
  have hstart : (s.readers 0).pos = 0 := by
    rw [hreaders]
    rfl
  -- one read gets everything, and the next one nothing
  have hchunk : (s.buf.readData (s.readers 0).pos dataBufSize).length =
      s.buf.bytesInBuf.toNat := by
    rw [DataBufInfo.readData, length_bytes, DataBufInfo.readLength, hstart]
    split
    · rename_i hzero
      rw [hzero]
      rfl
    · omega
  have hpos : ((s.read 0 dataBufSize).readers 0).pos = s.buf.bytesInBuf.toNat := by
    show (Function.update s.readers 0 _ 0).pos = _
    rw [Function.update_self]
    show (s.readers 0).pos + _ = _
    rw [hchunk, hstart, Nat.zero_add]
  have hend : s.buf.readData ((s.read 0 dataBufSize).readers 0).pos 1 = [] := by
    have hnone : s.buf.readLength s.buf.bytesInBuf.toNat 1 = 0 := by
      rw [DataBufInfo.readLength]
      split <;> omega
    rw [hpos, DataBufInfo.readData, hnone]
    rfl
  have hread := hwritten.tail (.read 0 dataBufSize)
  exact ⟨buf, _, _, 0, 1, hread, hbytes, hdone, Nat.one_pos, hend,
    decode_received hread hbytes hdone hfits Nat.one_pos hend⟩

end Write

/-! ## The lengths of printed numbers -/

theorem length_toString_le {i : Int} {k : Nat} (hk : 0 < k) (hi : i.natAbs < 10 ^ k) :
    (toString i).length ≤ k + 1 := by
  cases i with
  | ofNat n =>
      have hdigits : (Nat.repr n).length ≤ k := (Nat.length_repr_le_iff hk).mpr hi
      exact Nat.le_succ_of_le hdigits
  | negSucc n =>
      have hdigits : (Nat.repr (n + 1)).length ≤ k := (Nat.length_repr_le_iff hk).mpr hi
      show ("-" ++ Nat.repr (n + 1)).length ≤ k + 1
      have hminus : "-".length = 1 := by decide
      rw [String.length_append, hminus]
      omega

theorem natAbs_toInt_le {w : Nat} (v : BitVec w) : v.toInt.natAbs ≤ 2 ^ w := by
  have hlt := v.isLt
  rw [BitVec.toInt_eq_toNat_cond]
  split <;> omega

/-- The longest number `%d` prints is -2147483648. -/
theorem length_toString_int_le (v : BitVec 32) : (toString v.toInt).length ≤ 11 :=
  length_toString_le (by decide) (Nat.lt_of_le_of_lt (natAbs_toInt_le v) (by decide))

theorem length_formatHex_le (v : BitVec 64) : (formatHex v).length ≤ 18 := by
  have hdigits : (Nat.toDigits 16 v.toNat).length ≤ 16 :=
    (Nat.length_toDigits_le_iff (by decide) (by decide)).mpr v.isLt
  have htext : (formatHex v).length = 2 + (Nat.toDigits 16 v.toNat).length := by
    have hnumber : (String.ofList (Nat.toDigits 16 v.toNat)).length = _ := String.length_ofList
    show ("0x" ++ String.ofList (Nat.toDigits 16 v.toNat)).length = _
    rw [String.length_append, hnumber]
    exact congrArg (· + _) (by decide : "0x".length = 2)
  omega

theorem sum_length_le {texts : List String} {c : Nat} (h : ∀ text ∈ texts, text.length ≤ c) :
    (texts.map String.length).sum ≤ texts.length * c := by
  induction texts with
  | nil => exact Nat.zero_le _
  | cons text texts ih =>
      obtain ⟨htext, hrest⟩ := List.forall_mem_cons.mp h
      have hsum := ih hrest
      rw [List.map_cons, List.sum_cons, List.length_cons, Nat.succ_mul]
      omega

end DataRead

end UprobeTests
