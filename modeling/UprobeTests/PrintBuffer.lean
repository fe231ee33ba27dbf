/-
  UprobeTests.PrintBuffer

  The print buffer of include/udbgfs.c: `test_printk` appends a formatted text
  and `read_data` hands out what has been appended.

  `vsnprintf` returns the length the text would have had without the limit, and
  all three counters are moved by it.  So the counters describe the buffer, and
  every access stays inside it, exactly as long as the formatted texts fit
  (`testPrintk_safe_iff`).
-/

import UprobeTests.Uinfo

namespace UprobeTests

open ByteMem

/-- DATA_BUF_SIZE. -/
def dataBufSize : Nat := 1024

/-- What a call of `test_printk` formats: the untruncated text.  Its length is
    an `int`, and no directive of the callers produces a NUL. -/
structure Text where
  bytes : List Byte
  length_lt : bytes.length < 2 ^ 31
  noNul : 0 ∉ bytes

def Text.length (text : Text) : Nat := text.bytes.length

/-- `vsnprintf(buf,size,..)`: at most `size` bytes, the last of them a NUL. -/
def vsnprintf (m : Mem) (buf size : Nat) (text : Text) : Mem :=
  if size = 0 then m else write m buf (text.bytes.take (size - 1) ++ [0])

/-- How many bytes `vsnprintf` writes. -/
def vsnprintfWrites (size : Nat) (text : Text) : Nat := min size (text.length + 1)

/-- `struct data_buf_info`, with the memory it points into. -/
structure DataBufInfo (t : Target) where
  mem : Mem
  bytesInBuf : BitVec t.ulongBits
  bytesLeft : BitVec t.ulongBits
  cur : BitVec t.ulongBits
  data : BitVec t.ulongBits

/-- An allocation of DATA_BUF_SIZE bytes; a pointer just behind it does not wrap. -/
structure DataBuf (t : Target) where
  addr : BitVec t.ulongBits
  fits : addr.toNat + dataBufSize < 2 ^ t.ulongBits

namespace DataBufInfo

variable {t : Target}

/-- As `set_up_print_buffer` leaves it. -/
def setUp (buf : DataBuf t) (mem : Mem) : DataBufInfo t where
  mem := mem
  bytesInBuf := 0
  bytesLeft := BitVec.ofNat t.ulongBits dataBufSize
  cur := buf.addr
  data := buf.addr

/-! ## The steps of test_printk -/

/-- The value of `len`. -/
def len (text : Text) : BitVec 32 := BitVec.ofNat 32 text.length

/-- `len = vsnprintf(print_buf->cur, print_buf->bytes_left, fmt, args)`. -/
def format (text : Text) (b : DataBufInfo t) : DataBufInfo t :=
  { b with mem := vsnprintf b.mem b.cur.toNat b.bytesLeft.toNat text }

/-- `print_buf->cur += len`. -/
def moveCur (text : Text) (b : DataBufInfo t) : DataBufInfo t :=
  { b with cur := b.cur + (len text).signExtend t.ulongBits }

/-- `print_buf->bytes_in_buf += len`. -/
def addInBuf (text : Text) (b : DataBufInfo t) : DataBufInfo t :=
  { b with bytesInBuf := b.bytesInBuf + (len text).signExtend t.ulongBits }

/-- `print_buf->bytes_left -= len`. -/
def subLeft (text : Text) (b : DataBufInfo t) : DataBufInfo t :=
  { b with bytesLeft := b.bytesLeft - (len text).signExtend t.ulongBits }

/-- `test_printk`. -/
def testPrintk (text : Text) (b : DataBufInfo t) : DataBufInfo t × BitVec 32 :=
  ((((b.format text).moveCur text).addInBuf text).subLeft text, len text)

def run (texts : List Text) (b : DataBufInfo t) : DataBufInfo t :=
  texts.foldl (fun b text => (b.testPrintk text).1) b

/-- How many bytes `read_data` copies for a read of `count` bytes at `pos`: that
    of `simple_read_from_buffer` over the first `bytes_in_buf` bytes. -/
def readLength (b : DataBufInfo t) (pos count : Nat) : Nat :=
  if b.bytesInBuf = 0 then 0 else min count (b.bytesInBuf.toNat - pos)

/-- `read_data`: the bytes copied to the user. -/
def readData (b : DataBufInfo t) (pos count : Nat) : List Byte :=
  bytes b.mem (b.data.toNat + pos) (b.readLength pos count)

/-! ## The counters describe the buffer -/

/-- The three counters agree with each other and with the buffer. -/
structure Consistent (b : DataBufInfo t) : Prop where
  cur : b.cur.toNat = b.data.toNat + b.bytesInBuf.toNat
  left : b.bytesInBuf.toNat + b.bytesLeft.toNat = dataBufSize
  inBuf : b.bytesInBuf.toNat ≤ dataBufSize

/-- An access of `n` bytes at `a` touches no byte outside the buffer. -/
def InBuffer (b : DataBufInfo t) (a n : Nat) : Prop :=
  n = 0 ∨ b.data.toNat ≤ a ∧ a + n ≤ b.data.toNat + dataBufSize

/-- What is wanted of every run: the counters agree after every call, and no
    call and no read in between touches a byte outside the buffer. -/
structure Safe (b : DataBufInfo t) (texts : List Text) : Prop where
  consistent : ∀ done, done <+: texts → (b.run done).Consistent
  writes : ∀ done text, done ++ [text] <+: texts →
    (b.run done).InBuffer (b.run done).cur.toNat
      (vsnprintfWrites (b.run done).bytesLeft.toNat text)
  reads : ∀ done, done <+: texts → ∀ pos count,
    (b.run done).InBuffer ((b.run done).data.toNat + pos) ((b.run done).readLength pos count)

theorem Consistent.writes {b : DataBufInfo t} (h : b.Consistent) (text : Text) :
    b.InBuffer b.cur.toNat (vsnprintfWrites b.bytesLeft.toNat text) := by
  have hcur := h.cur
  have hleft := h.left
  right
  rw [vsnprintfWrites]
  omega

theorem Consistent.reads {b : DataBufInfo t} (h : b.Consistent) (pos count : Nat) :
    b.InBuffer (b.data.toNat + pos) (b.readLength pos count) := by
  have hinBuf := h.inBuf
  rw [InBuffer, readLength]
  split
  · exact Or.inl rfl
  · omega

/-- The sign extension of a length is the length. -/
theorem toNat_len (text : Text) (t : Target) :
    ((len text).signExtend t.ulongBits).toNat = text.length := by
  have hlt : text.length < 2 ^ 31 := text.length_lt
  -- the length is a nonnegative `int`
  have hmsb : (len text).msb = false := by
    rw [BitVec.msb_eq_false_iff_two_mul_lt, len, BitVec.toNat_ofNat]
    omega
  have hle := t.le_ulongBits
  have hpow : 2 ^ 32 ≤ 2 ^ t.ulongBits := Nat.pow_le_pow_right (by decide) hle
  rw [BitVec.signExtend_eq_setWidth_of_msb_false hmsb, BitVec.toNat_setWidth, len,
    BitVec.toNat_ofNat, Nat.mod_eq_of_lt (by omega), Nat.mod_eq_of_lt (by omega)]

theorem toNat_add_len {x : BitVec t.ulongBits} {text : Text}
    (h : x.toNat + text.length < 2 ^ t.ulongBits) :
    (x + (len text).signExtend t.ulongBits).toNat = x.toNat + text.length := by
  rw [BitVec.toNat_add, toNat_len, Nat.mod_eq_of_lt h]

theorem toNat_sub_len {x : BitVec t.ulongBits} {text : Text} (h : text.length ≤ x.toNat) :
    (x - (len text).signExtend t.ulongBits).toNat = x.toNat - text.length := by
  have hle : ((len text).signExtend t.ulongBits).toNat ≤ x.toNat := by
    rw [toNat_len]
    exact h
  rw [BitVec.toNat_sub_of_le hle, toNat_len]

/-- Moving a counter of the buffer by a length does not wrap. -/
theorem add_length_lt {n : Nat} (h : n ≤ dataBufSize) (text : Text) (t : Target) :
    n + text.length < 2 ^ t.ulongBits := by
  have hlt : text.length < 2 ^ 31 := text.length_lt
  have hpow : 2 ^ 32 ≤ 2 ^ t.ulongBits := Nat.pow_le_pow_right (by decide) t.le_ulongBits
  rw [dataBufSize] at h
  omega

/-- One call moves the count of bytes by the length of its text. -/
theorem bytesInBuf_testPrintk {b : DataBufInfo t} (h : b.bytesInBuf.toNat ≤ dataBufSize)
    (text : Text) : (b.testPrintk text).1.bytesInBuf.toNat = b.bytesInBuf.toNat + text.length :=
  toNat_add_len (add_length_lt h text t)

/-- The counters stay in agreement as long as the text fits in what is left. -/
theorem Consistent.testPrintk_iff {b : DataBufInfo t} (h : b.Consistent)
    (hfits : b.data.toNat + dataBufSize < 2 ^ t.ulongBits) (text : Text) :
    (b.testPrintk text).1.Consistent ↔ b.bytesInBuf.toNat + text.length ≤ dataBufSize := by
  have hinBuf := bytesInBuf_testPrintk h.inBuf text
  constructor
  · intro h'
    rw [← hinBuf]
    exact h'.inBuf
  · intro hle
    obtain ⟨hcur, hleft, -⟩ := h
    have hcur' : (b.testPrintk text).1.cur.toNat = b.cur.toNat + text.length := by
      show (b.cur + _).toNat = _
      exact toNat_add_len (by omega)
    have hleft' : (b.testPrintk text).1.bytesLeft.toNat = b.bytesLeft.toNat - text.length := by
      show (b.bytesLeft - _).toNat = _
      exact toNat_sub_len (by omega)
    have hdata : (b.testPrintk text).1.data = b.data := rfl
    refine ⟨?_, ?_, ?_⟩
    · rw [hcur', hinBuf, hdata]
      omega
    · rw [hinBuf, hleft']
      omega
    · rw [hinBuf]
      exact hle

/-- The bytes that the texts would take without the limit. -/
def totalLength (texts : List Text) : Nat := (texts.map Text.length).sum

/-- The counters agree after every call exactly when all the texts fit. -/
theorem Consistent.run_iff {b : DataBufInfo t} (h : b.Consistent)
    (hfits : b.data.toNat + dataBufSize < 2 ^ t.ulongBits) (texts : List Text) :
    (∀ done, done <+: texts → (b.run done).Consistent) ↔
      b.bytesInBuf.toNat + totalLength texts ≤ dataBufSize := by
  induction texts generalizing b with
  | nil =>
      refine iff_of_true (fun done hdone => ?_) h.inBuf
      rw [List.prefix_nil.mp hdone]
      exact h
  | cons text texts ih =>
      have hinBuf := bytesInBuf_testPrintk h.inBuf text
      have htotal : totalLength (text :: texts) = text.length + totalLength texts := rfl
      rw [htotal, ← Nat.add_assoc, ← hinBuf]
      constructor
      · intro hall
        -- the run of the rest starts from a consistent buffer
        have hfirst : (b.testPrintk text).1.Consistent := hall [text] ⟨texts, rfl⟩
        exact (ih hfirst hfits).mp fun done hdone =>
          hall (text :: done) (List.cons_prefix_cons.mpr ⟨rfl, hdone⟩)
      · intro hle done hdone
        -- the first text fits, and the rest fits behind it
        have hfirst := (h.testPrintk_iff hfits text).mpr (by omega)
        rcases List.prefix_cons_iff.mp hdone with rfl | ⟨rest, rfl, hrest⟩
        · exact h
        · exact (ih hfirst hfits).mpr hle rest hrest

theorem bytesInBuf_setUp (buf : DataBuf t) (mem : Mem) :
    (setUp buf mem).bytesInBuf.toNat = 0 := by
  cases t <;> rfl

theorem consistent_setUp (buf : DataBuf t) (mem : Mem) : (setUp buf mem).Consistent where
  cur := (congrArg (buf.addr.toNat + ·) (bytesInBuf_setUp buf mem)).symm
  left := by cases t <;> rfl
  inBuf := by
    rw [bytesInBuf_setUp]
    exact Nat.zero_le _

/-- The print buffer is used safely exactly when the formatted texts of the
    whole run fit in it. -/
theorem testPrintk_safe_iff (buf : DataBuf t) (mem : Mem) (texts : List Text) :
    (setUp buf mem).Safe texts ↔ totalLength texts ≤ dataBufSize := by
  have hrun := (consistent_setUp buf mem).run_iff buf.fits texts
  rw [bytesInBuf_setUp, Nat.zero_add] at hrun
  constructor
  · exact fun h => hrun.mp h.consistent
  · intro hle
    have hall := hrun.mpr hle
    exact {
      consistent := hall
      writes := fun done text hdone =>
        (hall done ((List.prefix_append done [text]).trans hdone)).writes text
      reads := fun done hdone pos count => (hall done hdone).reads pos count }

/-- A text of 1025 bytes. -/
def longText : Text where
  bytes := List.replicate 1025 0x41
  length_lt := by
    rw [List.length_replicate]
    decide
  noNul h := absurd (List.eq_of_mem_replicate h) (by decide)

/-- One text of 1025 bytes makes `bytes_in_buf` exceed the buffer. -/
theorem testPrintk_overruns :
    ¬ (setUp (t := .i386) ⟨0xc0100000, by decide⟩ fun _ => 0).Safe [longText] := by
  rw [testPrintk_safe_iff]
  rw [totalLength, List.map_singleton, List.sum_singleton, Text.length, longText,
    List.length_replicate]
  decide

end DataBufInfo

end UprobeTests
