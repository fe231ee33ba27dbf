/-
  UprobeTests.ReadData

  Writers and readers of the data file.  Any number of threads call
  `test_printk`, whose four updates of the buffer happen under the spinlock;
  any number of readers call `read_data`, which takes no lock and may fall
  between any two of them.

  The publication invariant: the bytes below `bytes_in_buf` are final, being
  written before `bytes_in_buf` is moved over them and never again.  So, while
  the texts fit, a reader receives them in lock-acquisition order
  (`readers_receive_stream`).
-/

import Mathlib.Logic.Relation
import UprobeTests.PrintBuffer

namespace UprobeTests

open ByteMem

/-- What the holder of the spinlock has done. -/
inductive Stage where
  | locked
  | formatted
  | curMoved
  | counted
  | leftMoved
deriving DecidableEq, Repr

/-- An open data file: the position `*ppos` and what the reads have returned. -/
structure Reader where
  pos : Nat
  chunks : List (List Byte)

def Reader.received (r : Reader) : List Byte := r.chunks.flatten

/-- The system, with writers named by `ι` and readers by `ρ`. -/
structure DataFile (t : Target) (ι ρ : Type) where
  buf : DataBufInfo t
  holder : Option (ι × Text × Stage)
  /-- the texts in the order in which their writers took the lock -/
  acquired : List Text
  /-- the texts whose `test_printk` is completed -/
  completed : List Text
  readers : ρ → Reader

namespace DataFile

variable {t : Target} {ι ρ : Type}

def init (buf : DataBuf t) (mem : Mem) : DataFile t ι ρ where
  buf := .setUp buf mem
  holder := none
  acquired := []
  completed := []
  readers _ := ⟨0, []⟩

section System

variable [DecidableEq ρ]

/-- One call of `read_data` by reader `r`. -/
def read (s : DataFile t ι ρ) (r : ρ) (count : Nat) : DataFile t ι ρ :=
  let chunk := s.buf.readData (s.readers r).pos count
  { s with
    readers := Function.update s.readers r
      ⟨(s.readers r).pos + chunk.length, (s.readers r).chunks ++ [chunk]⟩ }

inductive Step : DataFile t ι ρ → DataFile t ι ρ → Prop where
  | lock {s} (i : ι) (text : Text) (h : s.holder = none) :
      Step s { s with holder := some (i, text, .locked), acquired := s.acquired ++ [text] }
  | format {s i text} (h : s.holder = some (i, text, .locked)) :
      Step s { s with buf := s.buf.format text, holder := some (i, text, .formatted) }
  | moveCur {s i text} (h : s.holder = some (i, text, .formatted)) :
      Step s { s with buf := s.buf.moveCur text, holder := some (i, text, .curMoved) }
  | addInBuf {s i text} (h : s.holder = some (i, text, .curMoved)) :
      Step s { s with buf := s.buf.addInBuf text, holder := some (i, text, .counted) }
  | subLeft {s i text} (h : s.holder = some (i, text, .counted)) :
      Step s { s with buf := s.buf.subLeft text, holder := some (i, text, .leftMoved) }
  | unlock {s i text} (h : s.holder = some (i, text, .leftMoved)) :
      Step s { s with holder := none, completed := s.completed ++ [text] }
  | read {s} (r : ρ) (count : Nat) : Step s (s.read r count)

/-- `s` occurs in some interleaving. -/
def Reachable (buf : DataBuf t) (mem : Mem) (s : DataFile t ι ρ) : Prop :=
  Relation.ReflTransGen Step (init buf mem) s

end System

/-! ## The publication invariant -/

/-- The texts one after the other. -/
def stream (texts : List Text) : List Byte := texts.flatMap Text.bytes

theorem length_stream (texts : List Text) :
    (stream texts).length = DataBufInfo.totalLength texts := by
  induction texts with
  | nil => rfl
  | cons text texts ih =>
      rw [stream, List.flatMap_cons, List.length_append]
      exact congrArg (text.length + ·) ih

theorem stream_append (texts texts' : List Text) :
    stream (texts ++ texts') = stream texts ++ stream texts' := List.flatMap_append

theorem stream_singleton (text : Text) : stream [text] = text.bytes := List.flatMap_singleton ..

/-- The buffer over the stream `bs`: how much of it is written, and how much of
    it each counter has been moved over. -/
structure Counts (buf : DataBuf t) (b : DataBufInfo t) (bs : List Byte)
    (written cur inBuf left : Nat) : Prop where
  data : b.data = buf.addr
  written : bytes b.mem b.data.toNat written = bs.take written
  cur : b.cur.toNat = b.data.toNat + cur
  inBuf : b.bytesInBuf.toNat = inBuf
  left : b.bytesLeft.toNat + left = dataBufSize

/-- What the holder of the lock has written and counted so far. -/
def Published (buf : DataBuf t) (s : DataFile t ι ρ) : Prop :=
  let bs := stream s.acquired
  let a := bs.length
  let c := (stream s.completed).length
  match s.holder with
  | none => s.acquired = s.completed ∧ Counts buf s.buf bs a a a a
  | some (_, text, stage) => s.acquired = s.completed ++ [text] ∧
      match stage with
      | .locked => Counts buf s.buf bs c c c c
      | .formatted => Counts buf s.buf bs a c c c
      | .curMoved => Counts buf s.buf bs a a c c
      | .counted => Counts buf s.buf bs a a a c
      | .leftMoved => Counts buf s.buf bs a a a a

/-- Every reader is somewhere below `bytes_in_buf` and has received the stream
    up to there. -/
structure Inv (buf : DataBuf t) (s : DataFile t ι ρ) : Prop where
  published : s.Published buf
  pos : ∀ r, (s.readers r).pos ≤ s.buf.bytesInBuf.toNat
  received : ∀ r, (s.readers r).received = (stream s.acquired).take (s.readers r).pos

/-- What is written of a stream is written of each of its beginnings. -/
theorem bytes_of_le {m : Mem} {a j k : Nat} {bs : List Byte} (h : bytes m a k = bs.take k)
    (hjk : j ≤ k) : bytes m a j = bs.take j := by
  -- cut the written part at `j`
  have hk : k = j + (k - j) := by omega
  rw [hk, bytes_add] at h
  have hj := congrArg (List.take j) h
  rwa [List.take_left' (length_bytes _ _ _), List.take_take, Nat.min_eq_left (by omega)] at hj

/-- What is in the buffer below `bytes_in_buf`, whatever the holder is doing. -/
theorem Published.below {buf : DataBuf t} {s : DataFile t ι ρ} (h : s.Published buf) :
    bytes s.buf.mem s.buf.data.toNat s.buf.bytesInBuf.toNat =
        (stream s.acquired).take s.buf.bytesInBuf.toNat ∧
      (stream s.completed).length ≤ s.buf.bytesInBuf.toNat ∧
      s.buf.bytesInBuf.toNat ≤ (stream s.acquired).length ∧
      s.completed <+: s.acquired := by
  have hcounts : ∀ {written cur inBuf left : Nat},
      Counts buf s.buf (stream s.acquired) written cur inBuf left → inBuf ≤ written →
      bytes s.buf.mem s.buf.data.toNat s.buf.bytesInBuf.toNat =
        (stream s.acquired).take s.buf.bytesInBuf.toNat := by
    intro written cur inBuf left hc hle
    rw [hc.inBuf]
    exact bytes_of_le hc.written hle
  simp only [Published] at h
  split at h
  · obtain ⟨heq, hc⟩ := h
    refine ⟨hcounts hc (Nat.le_refl _), ?_, Nat.le_of_eq hc.inBuf, heq ▸ List.prefix_rfl⟩
    rw [hc.inBuf, heq]
  · rename_i text stage _
    obtain ⟨heq, hc⟩ := h
    have hbegins : s.completed <+: s.acquired := heq ▸ List.prefix_append _ _
    have hle : (stream s.completed).length ≤ (stream s.acquired).length := by
      rw [heq, stream_append, List.length_append]
      omega
    cases stage with
    | locked => exact ⟨hcounts hc (Nat.le_refl _), Nat.le_of_eq hc.inBuf.symm,
        by rw [hc.inBuf]; exact hle, hbegins⟩
    | formatted => exact ⟨hcounts hc hle, Nat.le_of_eq hc.inBuf.symm,
        by rw [hc.inBuf]; exact hle, hbegins⟩
    | curMoved => exact ⟨hcounts hc hle, Nat.le_of_eq hc.inBuf.symm,
        by rw [hc.inBuf]; exact hle, hbegins⟩
    | counted => exact ⟨hcounts hc (Nat.le_refl _), by rw [hc.inBuf]; exact hle,
        Nat.le_of_eq hc.inBuf, hbegins⟩
    | leftMoved => exact ⟨hcounts hc (Nat.le_refl _), by rw [hc.inBuf]; exact hle,
        Nat.le_of_eq hc.inBuf, hbegins⟩

/-! ## One step -/

section Writer

variable {buf : DataBuf t} {b : DataBufInfo t} {bs : List Byte} {text : Text} {c : Nat}

/-- A longer stream has the same beginning. -/
theorem Counts.extend {written cur inBuf left : Nat}
    (h : Counts buf b bs written cur inBuf left) (hle : written ≤ bs.length) (more : List Byte) :
    Counts buf b (bs ++ more) written cur inBuf left where
  data := h.data
  written := by rw [h.written, List.take_append_of_le_length hle]
  cur := h.cur
  inBuf := h.inBuf
  left := h.left

/-- `vsnprintf` writes the text behind what is there, and a NUL. -/
theorem Counts.format (h : Counts buf b (bs ++ text.bytes) c c c c) (hc : bs.length = c)
    (hfits : c + text.length < dataBufSize) :
    Counts buf (b.format text) (bs ++ text.bytes) (c + text.length) c c c where
  data := h.data
  written := by
    have hleft := h.left
    have hbytes : text.bytes.length = text.length := rfl
    have htake : text.bytes.take (b.bytesLeft.toNat - 1) = text.bytes :=
      List.take_of_length_le (by omega)
    show bytes (vsnprintf b.mem b.cur.toNat b.bytesLeft.toNat text) b.data.toNat
      (c + text.length) = _
    rw [vsnprintf, if_neg (by omega), htake, h.cur, bytes_add, bytes_write_disjoint (Or.inl
      (Nat.le_refl _)), h.written, ← hbytes, bytes_write_prefix, List.take_left' hc, ← hc,
      ← List.length_append, List.take_length]
  cur := h.cur
  inBuf := h.inBuf
  left := h.left

theorem Counts.moveCur {a : Nat} (h : Counts buf b bs a c c c) (text : Text)
    (hfits : c + text.length < dataBufSize) :
    Counts buf (b.moveCur text) bs a (c + text.length) c c where
  data := h.data
  written := h.written
  cur := by
    have hbuf := buf.fits
    have hdata := h.data
    have hcur := h.cur
    rw [hdata] at hcur
    show (b.cur + _).toNat = b.data.toNat + _
    rw [DataBufInfo.toNat_add_len (by omega), hdata]
    omega
  inBuf := h.inBuf
  left := h.left

theorem Counts.addInBuf {a cur : Nat} (h : Counts buf b bs a cur c c) (text : Text)
    (hfits : c + text.length < dataBufSize) :
    Counts buf (b.addInBuf text) bs a cur (c + text.length) c where
  data := h.data
  written := h.written
  cur := h.cur
  inBuf := by
    have hinBuf := h.inBuf
    show (b.bytesInBuf + _).toNat = _
    rw [DataBufInfo.toNat_add_len (DataBufInfo.add_length_lt (by omega) text t), hinBuf]
  left := h.left

theorem Counts.subLeft {a cur inBuf : Nat} (h : Counts buf b bs a cur inBuf c) (text : Text)
    (hfits : c + text.length < dataBufSize) :
    Counts buf (b.subLeft text) bs a cur inBuf (c + text.length) where
  data := h.data
  written := h.written
  cur := h.cur
  inBuf := h.inBuf
  left := by
    have hleft := h.left
    show (b.bytesLeft - _).toNat + _ = _
    rw [DataBufInfo.toNat_sub_len (by omega)]
    omega

end Writer

/-- A step of the holder that leaves the readers alone and `bytes_in_buf` no
    smaller. -/
theorem Inv.holder_step {buf : DataBuf t} {s s' : DataFile t ι ρ} (hs : Inv buf s)
    (hpublished : s'.Published buf) (hacquired : s'.acquired = s.acquired)
    (hreaders : s'.readers = s.readers)
    (hinBuf : s.buf.bytesInBuf.toNat ≤ s'.buf.bytesInBuf.toNat) : Inv buf s' where
  published := hpublished
  pos r := by
    rw [hreaders]
    exact Nat.le_trans (hs.pos r) hinBuf
  received r := by
    rw [hreaders, hacquired]
    exact hs.received r

/-- The stream while `text` is being appended. -/
theorem stream_acquired {s : DataFile t ι ρ} {text : Text}
    (heq : s.acquired = s.completed ++ [text]) :
    stream s.acquired = stream s.completed ++ text.bytes ∧
      (stream s.acquired).length = (stream s.completed).length + text.length := by
  have hbs : stream s.acquired = stream s.completed ++ text.bytes := by
    rw [heq, stream_append, stream_singleton]
  refine ⟨hbs, ?_⟩
  rw [hbs, List.length_append]
  rfl

theorem inv_init (buf : DataBuf t) (mem : Mem) : Inv buf (init buf mem : DataFile t ι ρ) where
  published := by
    have hcounts := DataBufInfo.consistent_setUp buf mem
    refine ⟨rfl, rfl, rfl, ?_, DataBufInfo.bytesInBuf_setUp buf mem, ?_⟩
    · show (DataBufInfo.setUp buf mem).cur.toNat = _
      rw [hcounts.cur, DataBufInfo.bytesInBuf_setUp]
      rfl
    · have hleft := hcounts.left
      rw [DataBufInfo.bytesInBuf_setUp, Nat.zero_add] at hleft
      exact hleft
  pos _ := Nat.zero_le _
  received _ := rfl

section Step

variable [DecidableEq ρ]

/-- A read hands out the next bytes of the stream. -/
theorem Inv.read {buf : DataBuf t} {s : DataFile t ι ρ} (hs : Inv buf s) (r : ρ) (count : Nat) :
    Inv buf (s.read r count) := by
  obtain ⟨hbelow, -, -, -⟩ := hs.published.below
  have hpos := hs.pos r
  have hlen : s.buf.readLength (s.readers r).pos count ≤
      s.buf.bytesInBuf.toNat - (s.readers r).pos := by
    rw [DataBufInfo.readLength]
    split
    · exact Nat.zero_le _
    · exact Nat.min_le_right _ _
  have hchunk : (s.buf.readData (s.readers r).pos count).length =
      s.buf.readLength (s.readers r).pos count := length_bytes _ _ _
  -- what has been received and the new chunk are adjacent in the buffer
  have hjoin := bytes_add s.buf.mem s.buf.data.toNat (s.readers r).pos
    (s.buf.readLength (s.readers r).pos count)
  rw [bytes_of_le hbelow hpos, bytes_of_le hbelow (by omega)] at hjoin
  refine ⟨hs.published, fun r' => ?_, fun r' => ?_⟩
  · show (Function.update s.readers r _ r').pos ≤ s.buf.bytesInBuf.toNat
    by_cases hr : r' = r
    · subst hr
      rw [Function.update_self]
      show (s.readers r').pos + _ ≤ _
      omega
    · rw [Function.update_of_ne hr]
      exact hs.pos r'
  · show (Function.update s.readers r _ r').received = (stream s.acquired).take
      (Function.update s.readers r _ r').pos
    by_cases hr : r' = r
    · subst hr
      rw [Function.update_self]
      show ((s.readers r').chunks ++ [_]).flatten = (stream s.acquired).take
        ((s.readers r').pos + (s.buf.readData (s.readers r').pos count).length)
      rw [hchunk, hjoin, List.flatten_append, List.flatten_singleton]
      exact congrArg (· ++ _) (hs.received r')
    · rw [Function.update_of_ne hr]
      exact hs.received r'

theorem inv_step {buf : DataBuf t} {s s' : DataFile t ι ρ} (hs : Inv buf s)
    (htotal : DataBufInfo.totalLength s'.acquired < dataBufSize) (h : Step s s') : Inv buf s' := by
  rw [← length_stream] at htotal
  have hpub := hs.published
  cases h with
  | lock i text hnone =>
      simp only [Published, hnone] at hpub
      obtain ⟨heq, hcounts⟩ := hpub
      -- the new text is appended behind every reader
      have hpos : ∀ r, (s.readers r).pos ≤ (stream s.acquired).length := fun r =>
        Nat.le_trans (hs.pos r) (Nat.le_of_eq hcounts.inBuf)
      refine ⟨?_, hs.pos, fun r => ?_⟩
      · refine ⟨congrArg (· ++ [text]) heq, ?_⟩
        show Counts buf s.buf (stream (s.acquired ++ [text])) _ _ _ _
        rw [stream_append, ← heq]
        exact hcounts.extend (Nat.le_refl _) _
      · show (s.readers r).received = (stream (s.acquired ++ [text])).take _
        rw [stream_append, List.take_append_of_le_length (hpos r)]
        exact hs.received r
  | @format i text hholder =>
      simp only [Published, hholder] at hpub
      obtain ⟨heq, hcounts⟩ := hpub
      obtain ⟨hbs, hlen⟩ := stream_acquired heq
      refine hs.holder_step ⟨heq, ?_⟩ rfl rfl (Nat.le_refl _)
      show Counts buf (s.buf.format text) (stream s.acquired) (stream s.acquired).length _ _ _
      rw [hbs] at hcounts
      rw [hlen, hbs]
      -- the text and its NUL fit in what is left
      exact hcounts.format rfl (lt_of_eq_of_lt hlen.symm htotal)
  | @moveCur i text hholder =>
      simp only [Published, hholder] at hpub
      obtain ⟨heq, hcounts⟩ := hpub
      obtain ⟨-, hlen⟩ := stream_acquired heq
      refine hs.holder_step ⟨heq, ?_⟩ rfl rfl (Nat.le_refl _)
      have hmoved := hcounts.moveCur text (lt_of_eq_of_lt hlen.symm htotal)
      rwa [← hlen] at hmoved
  | @addInBuf i text hholder =>
      simp only [Published, hholder] at hpub
      obtain ⟨heq, hcounts⟩ := hpub
      obtain ⟨-, hlen⟩ := stream_acquired heq
      -- this step publishes the text
      have hmoved := hcounts.addInBuf text (lt_of_eq_of_lt hlen.symm htotal)
      refine hs.holder_step ⟨heq, ?_⟩ rfl rfl ?_
      · rwa [← hlen] at hmoved
      · show _ ≤ (s.buf.addInBuf text).bytesInBuf.toNat
        rw [hmoved.inBuf, hcounts.inBuf]
        exact Nat.le_add_right _ _
  | @subLeft i text hholder =>
      simp only [Published, hholder] at hpub
      obtain ⟨heq, hcounts⟩ := hpub
      obtain ⟨-, hlen⟩ := stream_acquired heq
      refine hs.holder_step ⟨heq, ?_⟩ rfl rfl (Nat.le_refl _)
      have hmoved := hcounts.subLeft text (lt_of_eq_of_lt hlen.symm htotal)
      rwa [← hlen] at hmoved
  | @unlock i text hholder =>
      simp only [Published, hholder] at hpub
      exact hs.holder_step ⟨hpub.1, hpub.2⟩ rfl rfl (Nat.le_refl _)
  | read r count => exact hs.read r count

/-! ## What a reader sees -/

/-- A step never takes a text back. -/
theorem acquired_step {s s' : DataFile t ι ρ} (h : Step s s') : s.acquired <+: s'.acquired := by
  cases h with
  | lock i text hnone => exact List.prefix_append _ _
  | _ => exact List.prefix_rfl

theorem totalLength_le_of_prefix {texts texts' : List Text} (h : texts <+: texts') :
    DataBufInfo.totalLength texts ≤ DataBufInfo.totalLength texts' := by
  obtain ⟨more, rfl⟩ := h
  rw [DataBufInfo.totalLength, DataBufInfo.totalLength, List.map_append, List.sum_append]
  exact Nat.le_add_right _ _

theorem inv {buf : DataBuf t} {mem : Mem} {s : DataFile t ι ρ} (h : Reachable buf mem s)
    (htotal : DataBufInfo.totalLength s.acquired < dataBufSize) : Inv buf s := by
  induction h with
  | refl => exact inv_init buf mem
  | tail _ hstep ih =>
      -- the texts of an earlier state fit as well
      have hle := totalLength_le_of_prefix (acquired_step hstep)
      exact inv_step (ih (Nat.lt_of_le_of_lt hle htotal)) htotal hstep

theorem noNul_stream (texts : List Text) : 0 ∉ stream texts := by
  intro h
  obtain ⟨text, -, hmem⟩ := List.mem_flatMap.mp h
  exact text.noNul hmem

/-- While the texts fit, a reader has received a beginning of the texts in
    lock-acquisition order, without a NUL; and a read of some bytes that gets
    none has been preceded by all that was completed before it. -/
theorem readers_receive_stream {buf : DataBuf t} {mem : Mem} {s : DataFile t ι ρ}
    (h : Reachable buf mem s) (htotal : DataBufInfo.totalLength s.acquired < dataBufSize) (r : ρ) :
    (s.readers r).received <+: stream s.acquired ∧ 0 ∉ (s.readers r).received ∧
      ∀ count, 0 < count → s.buf.readData (s.readers r).pos count = [] →
        stream s.completed <+: (s.readers r).received := by
  have hs := inv h htotal
  have hbegins : (s.readers r).received <+: stream s.acquired := by
    rw [hs.received]
    exact List.take_prefix _ _
  refine ⟨hbegins, fun hnul => noNul_stream _ (hbegins.subset hnul), fun count hcount hempty => ?_⟩
  obtain ⟨-, hcompleted, -, hacquired⟩ := hs.published.below
  have hlen : s.buf.readLength (s.readers r).pos count = 0 := by
    have hbytes := congrArg List.length hempty
    rwa [DataBufInfo.readData, length_bytes] at hbytes
  -- the reader stands at `bytes_in_buf`, which every completed text is below
  have hpos : s.buf.bytesInBuf.toNat ≤ (s.readers r).pos := by
    rw [DataBufInfo.readLength] at hlen
    split at hlen
    · rename_i hzero
      rw [hzero]
      exact Nat.zero_le _
    · omega
  obtain ⟨more, hmore⟩ := hacquired
  rw [hs.received, ← hmore, stream_append, List.take_append, List.take_of_length_le (by omega)]
  exact List.prefix_append _ _

end Step

/-- A text of two bytes. -/
def twoBytes : Text := ⟨[0x61, 0x62], by decide, by decide⟩

def someBuf : DataBuf .i386 := ⟨0xc0100000, by decide⟩

/-- One byte is read after `bytes_in_buf` has been moved and before `bytes_left` is. -/
theorem readers_receive_stream_midway :
    ∃ s : DataFile .i386 Unit Unit, Reachable someBuf (fun _ => 0) s ∧
      (s.readers ()).received = [0x61] ∧ (s.readers ()).received <+: stream s.acquired := by
  let s : DataFile .i386 Unit Unit := init someBuf fun _ => 0
  have hlock := Relation.ReflTransGen.single (Step.lock (s := s) () twoBytes rfl)
  have hcounted := ((hlock.tail (.format rfl)).tail (.moveCur rfl)).tail (.addInBuf rfl)
  have hread := hcounted.tail (.read () 1)
  exact ⟨_, hread, by decide, (readers_receive_stream hread (by decide) ()).1⟩

end DataFile

end UprobeTests
