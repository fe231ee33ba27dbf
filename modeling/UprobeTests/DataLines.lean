/-
  UprobeTests.DataLines

  From the texts handed to `test_printk` to the lines `uprobes_diff` compares.
  Each text is a line, its numbers printed by `%d`, `%ld` or `%#lx`, so the lines
  of the data file are those of the texts, normalised (`outputLines_dataText`).
-/

import UprobeTests.Normalise
import UprobeTests.PrintBuffer

namespace UprobeTests

open Tcl

/-! ## Numbers -/

/-- The characters of a number in decimal. -/
theorem mem_toString {i : Int} {c : Char} (hc : c ∈ (toString i).toList) :
    c = '-' ∨ isDecimal c = true := by
  have hnat {n : Nat} (hc : c ∈ (Nat.repr n).toList) : isDecimal c = true := by
    rw [Nat.repr, String.toList_ofList] at hc
    obtain ⟨d, hd, rfl⟩ := mem_toDigits (by decide) c hc
    exact isDecimal_digitChar hd
  cases i with
  | ofNat n => exact Or.inr (hnat hc)
  | negSucc n =>
      have hneg : (toString (Int.negSucc n)).toList = '-' :: (Nat.repr (n + 1)).toList := by
        show ("-" ++ Nat.repr (n + 1)).toList = _
        rw [String.toList_append]
        rfl
      rw [hneg] at hc
      exact (List.mem_cons.mp hc).imp_right hnat

theorem mem_formatHex {v : BitVec 64} {c : Char} (hc : c ∈ (formatHex v).toList) :
    c = 'x' ∨ isHex c = true := by
  simp only [formatHex, String.toList_append, String.toList_ofList] at hc
  rcases List.mem_append.mp hc with hc | hc
  · have hprefix : c = '0' ∨ c = 'x' := by simpa using hc
    rcases hprefix with rfl | rfl
    · exact Or.inr (by decide)
    · exact Or.inl rfl
  · obtain ⟨d, hd, rfl⟩ := mem_toDigits (by decide) c hc
    exact Or.inr (isHex_digitChar hd)

theorem ne_of_isHex {c c' : Char} (hc : isHex c = true) (hc' : isHex c' = false) : c ≠ c' := by
  rintro rfl
  rw [hc] at hc'
  cases hc'

theorem isHex_of_isDecimal {c : Char} (hc : isDecimal c = true) : isHex c = true := by
  rw [isHex, hc]
  rfl

theorem ne_of_mem_toString {i : Int} {c c' : Char} (hc : c ∈ (toString i).toList)
    (hminus : c' ≠ '-') (hc' : isHex c' = false) : c ≠ c' := by
  rcases mem_toString hc with rfl | hdecimal
  · exact hminus.symm
  · exact ne_of_isHex (isHex_of_isDecimal hdecimal) hc'

theorem plain_toString (i : Int) : Plain (toString i).toList := fun _ hc =>
  ⟨ne_of_mem_toString hc (by decide) (by decide), ne_of_mem_toString hc (by decide) (by decide)⟩

theorem plain_formatHex (v : BitVec 64) : Plain (formatHex v).toList := by
  intro c hc
  rcases mem_formatHex hc with rfl | hhex
  · decide
  · exact ⟨ne_of_isHex hhex (by decide), ne_of_isHex hhex (by decide)⟩

theorem toString_natCast_injective {m n : Nat} (h : toString (m : Int) = toString (n : Int)) :
    m = n := by
  have hdigits : Nat.toDigits 10 m = Nat.toDigits 10 n := String.ofList_injective h
  rw [← Nat.ofDigitChars_ten_toDigits (n := m), hdigits, Nat.ofDigitChars_ten_toDigits]

theorem toString_int_injective {i : Int} {n : Nat} (h : toString i = toString (n : Int)) :
    i = n := by
  cases i with
  | ofNat m => exact congrArg Int.ofNat (toString_natCast_injective h)
  | negSucc m =>
      -- the sign is no digit
      have hminus : '-' ∈ (toString (n : Int)).toList := by
        rw [← h]
        show '-' ∈ ("-" ++ Nat.repr (m + 1)).toList
        rw [String.toList_append]
        exact List.mem_append_left _ (by decide)
      have hnat : '-' ∈ (Nat.repr n).toList := hminus
      rw [Nat.repr, String.toList_ofList] at hnat
      obtain ⟨d, hd, heq⟩ := mem_toDigits (by decide) '-' hnat
      have hdigit := isDecimal_digitChar hd
      rw [← heq] at hdigit
      cases hdigit

/-- A positive number begins with a digit that is not 0. -/
theorem toString_of_pos {i : Int} (h : 0 < i) :
    ∃ d ds, (toString i).toList = d :: ds ∧ decimalPattern.second d = true ∧
      ∀ c ∈ ds, isDecimal c = true := by
  obtain ⟨n, rfl⟩ := Int.eq_ofNat_of_zero_le (Int.le_of_lt h)
  obtain ⟨d, ds, hdigits, hd, hds⟩ := toDigits_eq_cons (n := n) (by omega)
  refine ⟨d, ds, ?_, hd, hds⟩
  rw [← hdigits]
  exact Nat.toList_repr

/-- A positive number is matched together with its comma. -/
theorem isMatch_comma {i : Int} (h : 0 < i) :
    decimalPattern.IsMatch (' ' :: ((toString i).toList ++ [','])) := by
  obtain ⟨d, ds, hdigits, hd, hds⟩ := toString_of_pos h
  rw [hdigits]
  refine ⟨d, ds ++ [','], rfl, hd, by simp, ?_⟩
  intro c hc
  rcases List.mem_append.mp hc with hc | hc
  · exact Bool.or_eq_true_iff.mpr (Or.inl (hds c hc))
  · rw [List.mem_singleton.mp hc]
    decide

/-- A number behind a character that is no blank is left as it is. -/
theorem normalise_count {name : Str} (hblank : ' ' ∉ name) (hx : 'x' ∉ name) (i : Int) :
    normalise (name ++ (toString i).toList) = name ++ (toString i).toList := by
  have hnone {c : Char} (hname : c ∉ name) (hminus : c ≠ '-') (hhex : isHex c = false) :
      c ∉ name ++ (toString i).toList := by
    intro hc
    rcases List.mem_append.mp hc with hc | hc
    · exact hname hc
    · exact ne_of_mem_toString hc hminus hhex rfl
  rw [normalise_eq_self_iff]
  refine ⟨?_, RunPattern.settled_of_second fun c hc => ?_⟩
  · rw [← List.append_nil (name ++ _), RunPattern.settled_append_iff isMatch_decimalSub
      (hnone hblank (by decide) (by decide))]
    exact .nil
  · apply beq_false_of_ne
    rintro rfl
    exact hnone hx (by decide) (by decide) hc

/-! ## Texts and lines -/

/-- What the data file has when the texts fit in the buffer (`TextsFit`); of more there
    is nothing to say, `test_printk` writing behind the end. -/
def dataText (texts : List String) : Str := texts.flatMap String.toList

/-- The texts and the NUL behind the last of them fit in the buffer. -/
def TextsFit (texts : List String) : Prop := (texts.map String.length).sum < dataBufSize

instance (texts : List String) : Decidable (TextsFit texts) :=
  inferInstanceAs (Decidable (_ < _))

/-- The text is the line and its end. -/
def IsTextOf (text : String) (line : Str) : Prop := text.toList = line ++ ['\n'] ∧ IsLine line

instance (text : String) (line : Str) : Decidable (IsTextOf text line) :=
  inferInstanceAs (Decidable (_ ∧ _))

/-- Every text is a line of its own. -/
def AreTexts (texts : List String) : Prop := ∀ text ∈ texts, ∃ line, IsTextOf text line

theorem isTextOf_append {s : String} (h : IsLine s.toList) : IsTextOf (s ++ "\n") s.toList :=
  ⟨by rw [String.toList_append]; rfl, h⟩

theorem AreTexts.append {texts texts' : List String} (h : AreTexts texts)
    (h' : AreTexts texts') : AreTexts (texts ++ texts') := fun text hmem =>
  (List.mem_append.mp hmem).elim (h text) (h' text)

/-- The lines of the data file are those of the texts. -/
theorem outputLines_dataText {texts : List String} (h : AreTexts texts) :
    outputLines (dataText texts) = texts.map fun text => normalise text.toList.dropLast := by
  have hlines : dataText texts = unlines (texts.map fun text => text.toList.dropLast) := by
    rw [dataText, unlines, List.flatMap_map]
    apply List.flatMap_congr
    intro text hmem
    obtain ⟨line, htext, -⟩ := h text hmem
    rw [htext, List.dropLast_concat]
  rw [outputLines, hlines, splitLines_execOutput_unlines, List.map_map]
  · rfl
  · intro line hmem
    obtain ⟨text, htext, rfl⟩ := List.mem_map.mp hmem
    obtain ⟨line, hline, hisLine⟩ := h text htext
    rwa [hline, List.dropLast_concat]

theorem mem_outputLines {texts : List String} (h : AreTexts texts) {text : String} {line : Str}
    (hmem : text ∈ texts) (hline : IsTextOf text line) :
    normalise line ∈ outputLines (dataText texts) := by
  rw [outputLines_dataText h]
  refine List.mem_map.mpr ⟨text, hmem, ?_⟩
  rw [hline.1, List.dropLast_concat]

/-- A file with these lines. -/
def fileText (lines : List String) : Str := unlines (lines.map String.toList)

theorem expectedLines_fileText {lines : List String} (h : ∀ line ∈ lines, IsLine line.toList) :
    expectedLines (fileText lines) = lines.map String.toList := by
  rw [expectedLines, fileText, splitLines_execOutput_unlines]
  intro line hmem
  obtain ⟨s, hs, rfl⟩ := List.mem_map.mp hmem
  exact h s hs

/-- An output with nothing to replace in its lines. -/
theorem diffSucceeds_lines_iff {output lines : List String}
    (houtput : ∀ line ∈ output, IsLine line.toList)
    (hleft : ∀ line ∈ output, normalise line.toList = line.toList)
    (hlines : ∀ line ∈ lines, IsLine line.toList) :
    diffSucceeds (dataText (output.map (· ++ "\n"))) (fileText lines) = true ↔
      (output.map String.toList).Sublist (lines.map String.toList) ∧
        ¬ Overrun (output.map String.toList) (lines.map String.toList) := by
  have htexts : AreTexts (output.map (· ++ "\n")) := by
    intro text hmem
    obtain ⟨line, hline, rfl⟩ := List.mem_map.mp hmem
    exact ⟨_, isTextOf_append (houtput line hline)⟩
  have heq : outputLines (dataText (output.map (· ++ "\n"))) = output.map String.toList := by
    rw [outputLines_dataText htexts, List.map_map]
    apply List.map_congr_left
    intro line hline
    rw [Function.comp_apply, (isTextOf_append (houtput line hline)).1, List.dropLast_concat]
    exact hleft line hline
  rw [diffSucceeds_iff, heq, expectedLines_fileText hlines]

instance (os es : List Str) : Decidable (Overrun os es) :=
  inferInstanceAs (Decidable (_ ∧ _))

/-- A last line that the file does not have before its own last line. -/
theorem accepts_concat_iff {os es : List Str} {o e : Str} (ho : o ∉ es) :
    (os ++ [o]).Sublist (es ++ [e]) ∧ ¬ Overrun (os ++ [o]) (es ++ [e]) ↔
      os.Sublist es ∧ o = e := by
  have hoverrun : ¬ Overrun (os ++ [o]) (es ++ [e]) := by
    rintro ⟨-, hsub⟩
    rw [List.dropLast_concat] at hsub
    exact ho (hsub.subset (by simp))
  rw [and_iff_left hoverrun]
  constructor
  · intro hsub
    have hmem : o ∈ es ++ [e] := hsub.subset (by simp)
    have hlast : o = e := List.mem_singleton.mp ((List.mem_append.mp hmem).resolve_left ho)
    rw [hlast] at hsub
    exact ⟨(List.append_sublist_append_right [e]).mp hsub, hlast⟩
  · rintro ⟨hsub, rfl⟩
    exact hsub.append_right [o]

/-- Every line of the output that `uprobes_diff` accepts is in the expected file. -/
theorem mem_of_diffSucceeds {texts lines : List String} (htexts : AreTexts texts)
    (hlines : ∀ line ∈ lines, IsLine line.toList)
    (h : diffSucceeds (dataText texts) (fileText lines) = true) {text : String} {line : Str}
    (hmem : text ∈ texts) (hline : IsTextOf text line) :
    normalise line ∈ lines.map String.toList := by
  rw [← expectedLines_fileText hlines]
  exact ((diffSucceeds_iff _ _).mp h).1.mem (mem_outputLines htexts hmem hline)

/-! ## Counts -/

/-- A count behind `=` is left alone, unlike one behind a blank. -/
theorem settled_count {name count tail : Str} (hname : ' ' ∉ name) (hcount : ' ' ∉ count)
    (htail : decimalPattern.Settled decimalSub tail) {c : Char}
    (hc : decimalPattern.second c = false) (hblank : c ≠ ' ') :
    decimalPattern.Settled decimalSub (name ++ ' ' :: c :: (count ++ tail)) := by
  rw [RunPattern.settled_append_iff isMatch_decimalSub hname]
  refine .copy (RunPattern.matchLength_of_second hc ' ' _) ?_
  refine .copy (RunPattern.matchLength_of_ne hblank _) ?_
  rwa [RunPattern.settled_append_iff isMatch_decimalSub hcount]

end UprobeTests
