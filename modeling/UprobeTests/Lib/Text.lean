/-
  UprobeTests.Lib.Text

  Texts as Perl and shell scripts take them apart: words between blanks,
  `split /\s+/`, hexadecimal numbers, and of the shell's tools `grep -n`,
  `tail`, `cut`, the removal of a blank or a comma at an end, and `echo` of an
  unquoted expansion.

  What a text is split into is known from its pieces (`words_append_sep`), and
  the words of an `echo` keep the literal beginning of the text
  (`echo_keeps_start`).
-/

import Mathlib.Algebra.Ring.Int.Defs
import Mathlib.Algebra.Ring.Nat
import Mathlib.Data.List.Basic
import Mathlib.Data.List.Induction

namespace UprobeTests.Text

abbrev Str := List Char

/-! ## Words -/

/-- `\s` of Perl. -/
def isBlank (c : Char) : Bool :=
  c == ' ' || c == '\t' || c == '\n' || c == '\r' || c == '\x0b' || c == '\x0c'

/-- The nonempty pieces of a text between separators. -/
def words (sep : Char → Bool) (t : Str) : List Str :=
  (t.splitOnP sep).filter fun w => !w.isEmpty

/-- Perl's `split /\s+/`: a text that begins with blanks has an empty first
    field, and empty fields at the end are left out. -/
def split (t : Str) : List Str :=
  let ws := words isBlank t
  if t.head?.any isBlank && !ws.isEmpty then [] :: ws else ws

/-- A text that is one word. -/
structure Word where
  text : Str
  ne_nil : text ≠ []
  noBlank : text.any isBlank = false

section Words

variable {sep : Char → Bool}

@[simp] theorem words_nil : words sep [] = [] := by
  rw [words, List.splitOnP_nil]
  rfl

theorem words_append_sep (t u : Str) {c : Char} (hc : sep c = true) :
    words sep (t ++ c :: u) = words sep t ++ words sep u := by
  rw [words, words, words, List.splitOnP_append_cons t u hc, List.filter_append]

theorem words_cons_sep (t : Str) {c : Char} (hc : sep c = true) :
    words sep (c :: t) = words sep t := by
  have h := words_append_sep [] t hc
  rwa [List.nil_append, words_nil, List.nil_append] at h

theorem words_replicate_sep (n : Nat) (t : Str) {c : Char} (hc : sep c = true) :
    words sep (List.replicate n c ++ t) = words sep t := by
  induction n with
  | zero => rfl
  | succ n ih => rw [List.replicate_succ, List.cons_append, words_cons_sep _ hc, ih]

theorem noSep_of_mem {t : Str} (h : t.any sep = false) {c : Char} (hc : c ∈ t) :
    sep c = false :=
  Bool.eq_false_iff.mpr (List.any_eq_false.mp h c hc)

/-- A text without separators is a word, unless it is empty. -/
theorem words_of_noSep {t : Str} (h : t.any sep = false) :
    words sep t = if t = [] then [] else [t] := by
  rw [words, List.splitOnP_eq_singleton fun c hc => noSep_of_mem h hc]
  cases t with
  | nil => rfl
  | cons c t => rfl

theorem Word.words_text (w : Word) : words isBlank w.text = [w.text] := by
  rw [words_of_noSep w.noBlank, if_neg w.ne_nil]

theorem mem_of_mem_splitOnP {t w : Str} {c : Char} (hw : w ∈ t.splitOnP sep) (hc : c ∈ w) :
    c ∈ t := by
  induction t generalizing w with
  | nil =>
      rw [List.splitOnP_nil, List.mem_singleton] at hw
      exact hw ▸ hc
  | cons d t ih =>
      rw [List.splitOnP_cons_eq_if_modifyHead] at hw
      split at hw
      · rcases List.mem_cons.mp hw with rfl | hw
        · exact absurd hc List.not_mem_nil
        · exact List.mem_cons_of_mem _ (ih hw hc)
      · obtain ⟨v, vs, hvs⟩ := List.exists_cons_of_ne_nil (List.splitOnP_ne_nil sep t)
        rw [hvs] at hw ih
        -- the character joins the first piece
        rcases List.mem_cons.mp hw with rfl | hw
        · rcases List.mem_cons.mp hc with rfl | hc
          · exact List.mem_cons_self
          · exact List.mem_cons_of_mem _ (ih List.mem_cons_self hc)
        · exact List.mem_cons_of_mem _ (ih (List.mem_cons_of_mem _ hw) hc)

/-- The characters of the words are characters of the text. -/
theorem mem_of_mem_words {t w : Str} {c : Char} (hw : w ∈ words sep t) (hc : c ∈ w) : c ∈ t :=
  mem_of_mem_splitOnP (List.mem_of_mem_filter hw) hc

/-- A text that begins without separators begins with the beginning of its
    first piece. -/
theorem splitOnP_of_noSep_append {t : Str} (h : t.any sep = false) (u : Str) :
    ∃ v vs, (t ++ u).splitOnP sep = (t ++ v) :: vs := by
  induction t with
  | nil =>
      obtain ⟨v, vs, hvs⟩ := List.exists_cons_of_ne_nil (List.splitOnP_ne_nil sep u)
      exact ⟨v, vs, hvs⟩
  | cons c t ih =>
      rw [List.any_cons, Bool.or_eq_false_iff] at h
      obtain ⟨v, vs, hvs⟩ := ih h.2
      refine ⟨v, vs, ?_⟩
      rw [List.cons_append, List.splitOnP_cons_eq_if_modifyHead, h.1, hvs]
      rfl

/-- The same for its first word. -/
theorem words_of_noSep_append {t : Str} (ht : t ≠ []) (h : t.any sep = false) (u : Str) :
    ∃ v ws, words sep (t ++ u) = (t ++ v) :: ws := by
  obtain ⟨v, vs, hvs⟩ := splitOnP_of_noSep_append h u
  refine ⟨v, vs.filter fun w => !w.isEmpty, ?_⟩
  rw [words, hvs, List.filter_cons_of_pos]
  cases t with
  | nil => exact absurd rfl ht
  | cons c t => rfl

end Words

/-- A text that begins with a word is split into its words. -/
theorem split_word_append (w : Word) (t : Str) :
    split (w.text ++ t) = words isBlank (w.text ++ t) := by
  obtain ⟨c, cs, hc⟩ := List.exists_cons_of_ne_nil w.ne_nil
  have hblank : (w.text ++ t).head?.any isBlank = false := by
    rw [hc]
    exact noSep_of_mem w.noBlank (by rw [hc]; exact List.mem_cons_self)
  rw [split, hblank]
  rfl

/-! ## Hexadecimal numbers -/

def hexDigits : List Char :=
  ['0', '1', '2', '3', '4', '5', '6', '7', '8', '9', 'a', 'b', 'c', 'd', 'e', 'f']

/-- `[0-9a-f]`. -/
def isHexDigit (c : Char) : Bool := hexDigits.contains c

def hexDigit (c : Char) : Nat := hexDigits.idxOf c

/-- Perl's `hex`. -/
def hex (t : Str) : Nat := t.foldl (fun n c => 16 * n + hexDigit c) 0

/-- `/^[0-9a-f]+$/`. -/
def isHex (t : Str) : Bool := !t.isEmpty && t.all isHexDigit

/-- A number of at most 64 bits as objdump prints it. -/
structure Vma where
  text : Str
  isHex_text : isHex text = true
  length_le : text.length ≤ 16

theorem notBlank_of_isHexDigit {c : Char} (h : isHexDigit c = true) : isBlank c = false :=
  noSep_of_mem (show hexDigits.any isBlank = false by decide) (List.contains_iff_mem.mp h)

theorem isHexDigit_digitChar {n : Nat} (h : n < 16) : isHexDigit (Nat.digitChar n) = true := by
  revert n
  decide

theorem hexDigit_lt {c : Char} (h : isHexDigit c = true) : hexDigit c < 16 :=
  List.idxOf_lt_length_of_mem (List.contains_iff_mem.mp h)

theorem hex_snoc (t : Str) (c : Char) : hex (t ++ [c]) = 16 * hex t + hexDigit c := by
  rw [hex, List.foldl_append]
  rfl

theorem hex_lt {t : Str} (h : ∀ c ∈ t, isHexDigit c = true) : hex t < 16 ^ t.length := by
  induction t using List.reverseRec with
  | nil => exact Nat.one_pos
  | append_singleton t c ih =>
      have hc : hexDigit c < 16 := hexDigit_lt (h c (by simp))
      have ht : hex t < 16 ^ t.length := ih fun d hd => h d (List.mem_append_left _ hd)
      rw [hex_snoc, List.length_append, List.length_singleton, Nat.pow_succ]
      omega

namespace Vma

variable (v : Vma)

theorem digits : ∀ c ∈ v.text, isHexDigit c = true := by
  have h := v.isHex_text
  rw [isHex, Bool.and_eq_true, List.all_eq_true] at h
  exact h.2

def value : Nat := hex v.text

theorem value_lt : v.value < 2 ^ 64 :=
  calc v.value < 16 ^ v.text.length := hex_lt v.digits
    _ ≤ 16 ^ 16 := Nat.pow_le_pow_right (by omega) v.length_le
    _ = 2 ^ 64 := rfl

/-- A number is a word. -/
def word : Word where
  text := v.text
  ne_nil hnil := by
    have h := v.isHex_text
    rw [hnil] at h
    cases h
  noBlank := List.any_eq_false.mpr fun c hc =>
    Bool.eq_false_iff.mp (notBlank_of_isHexDigit (v.digits c hc))

end Vma

/-! ## The tools of a shell script -/

/-- `grep -n`: the numbers of the lines that are selected, the first line
    having number `i`. -/
def grepNumbers (selects : Str → Bool) : Nat → List Str → List Nat
  | _, [] => []
  | i, l :: ls => if selects l then i :: grepNumbers selects (i + 1) ls
      else grepNumbers selects (i + 1) ls

/-- A character of which words consist for `grep -w`. -/
def isWordChar (c : Char) : Bool := c.isAlphanum || c == '_'

/-- `grep -w` for a pattern without special characters: whether it occurs in the
    rest of a line as a word; `free` says whether a word can begin here. -/
def grepWordFrom (pattern : Str) : Bool → Str → Bool
  | _, [] => false
  | free, c :: cs =>
      (free && pattern.isPrefixOf (c :: cs) &&
        !((c :: cs).drop pattern.length).head?.any isWordChar) ||
      grepWordFrom pattern (!isWordChar c) cs

def grepWord (pattern line : Str) : Bool := grepWordFrom pattern true line

/-- `tail -n +k`; for a negative `k` only an error is printed. -/
def tailFrom (k : Int) (ls : List Str) : List Str :=
  if k < 0 then [] else ls.drop (k.toNat - 1)

/-- `cut -f 2 -d delim` of a line; one without the delimiter is printed as it is. -/
def cutSecond (delim : Char) (l : Str) : Str :=
  match l.splitOn delim with
  | _ :: field :: _ => field
  | _ => l

/-- `${a## }`. -/
def stripBlank : Str → Str
  | ' ' :: t => t
  | t => t

/-- `${a%%,}`. -/
def stripComma (t : Str) : Str := if t.getLast? = some ',' then t.dropLast else t

/-- A separator of words in an expansion without quotes. -/
def isIfs (c : Char) : Bool := c == ' ' || c == '\t' || c == '\n'

/-- A character that stands for itself in a pattern for file names. -/
def isLiteral (c : Char) : Bool := c != '*' && c != '?' && c != '[' && c != '\\'

/-- The pathname expansion of a word, which depends on the files there are: the
    names found, or the word itself, and they begin as the pattern does. -/
structure Globbing where
  expand : Str → List Str
  ne_nil : ∀ w, expand w ≠ []
  literal : ∀ w, ∀ name ∈ expand w, w.takeWhile isLiteral <+: name

/-- No file matches any pattern. -/
def Globbing.none : Globbing where
  expand w := [w]
  ne_nil _ := List.cons_ne_nil _ _
  literal w name h := by
    rw [List.mem_singleton.mp h]
    exact List.takeWhile_prefix _

/-- The line that `echo` prints for a text without quotes. -/
def echo (G : Globbing) (t : Str) : Str :=
  [' '].intercalate ((words isIfs t).flatMap G.expand)

theorem grepNumbers_append (selects : Str → Bool) (i : Nat) (ls ms : List Str) :
    grepNumbers selects i (ls ++ ms) =
      grepNumbers selects i ls ++ grepNumbers selects (i + ls.length) ms := by
  induction ls generalizing i with
  | nil => rfl
  | cons l ls ih =>
      rw [List.cons_append, grepNumbers, grepNumbers, ih, List.length_cons,
        show i + 1 + ls.length = i + (ls.length + 1) by omega]
      split
      · rfl
      · rfl

theorem grepNumbers_eq_nil {selects : Str → Bool} {i : Nat} {ls : List Str}
    (h : ls.filter selects = []) : grepNumbers selects i ls = [] := by
  induction ls generalizing i with
  | nil => rfl
  | cons l ls ih =>
      rw [List.filter_cons] at h
      rw [grepNumbers]
      split at h
      · cases h
      · rename_i hl
        rw [if_neg hl]
        exact ih h

/-- The number of the only line that is selected. -/
theorem grepNumbers_only {selects : Str → Bool} {i : Nat} {before after : List Str} {l : Str}
    (hl : selects l = true) (h : (before ++ l :: after).filter selects = [l]) :
    grepNumbers selects i (before ++ l :: after) = [i + before.length] := by
  rw [List.filter_append, List.filter_cons_of_pos hl] at h
  have hlength := congrArg List.length h
  simp only [List.length_append, List.length_cons, List.length_nil] at hlength
  have hbefore : before.filter selects = [] := List.eq_nil_of_length_eq_zero (by omega)
  have hafter : after.filter selects = [] := List.eq_nil_of_length_eq_zero (by omega)
  rw [grepNumbers_append, grepNumbers_eq_nil hbefore, grepNumbers, if_pos hl,
    grepNumbers_eq_nil hafter]
  rfl

/-- The second field begins behind the first delimiter. -/
theorem cutSecond_append {delim : Char} {t u : Str} (ht : delim ∉ t) (hu : delim ∉ u) (v : Str) :
    ∃ w, cutSecond delim (t ++ delim :: (u ++ v)) = u ++ w := by
  have hne : ∀ {t : Str}, delim ∉ t → t.any (· == delim) = false := fun h =>
    List.any_eq_false.mpr fun c hc heq => h (eq_of_beq heq ▸ hc)
  obtain ⟨w, ws, hws⟩ := splitOnP_of_noSep_append (hne hu) v
  have hsplit : (t ++ delim :: (u ++ v)).splitOn delim = t :: (u ++ w) :: ws := by
    rw [List.splitOn_eq_splitOnP,
      List.splitOnP_append_cons (p := (· == delim)) t _ (beq_self_eq_true delim),
      List.splitOnP_eq_singleton fun c hc => noSep_of_mem (hne ht) hc, hws]
    rfl
  exact ⟨w, by rw [cutSecond, hsplit]⟩

theorem stripComma_cons {c : Char} (hc : c ≠ ',') (t : Str) :
    ∃ u, stripComma (c :: t) = c :: u := by
  rw [stripComma]
  split
  · rename_i h
    cases t with
    | nil => exact absurd (Option.some.inj h) hc
    | cons d t => exact ⟨_, rfl⟩
  · exact ⟨t, rfl⟩

/-- What `echo` prints begins with the literal beginning of the text. -/
theorem echo_keeps_start (G : Globbing) {t : Str} (ht : t ≠ [])
    (hifs : t.any isIfs = false) (hlit : t.all isLiteral = true) (u : Str) :
    t <+: echo G (t ++ u) := by
  obtain ⟨v, ws, hws⟩ := words_of_noSep_append ht hifs u
  obtain ⟨name, names, hnames⟩ := List.exists_cons_of_ne_nil (G.ne_nil (t ++ v))
  have hname : t <+: name := by
    have hpattern := G.literal (t ++ v) name (by rw [hnames]; exact List.mem_cons_self)
    rw [List.takeWhile_append_of_pos (List.all_eq_true.mp hlit)] at hpattern
    exact (List.prefix_append t _).trans hpattern
  rw [echo, hws, List.flatMap_cons, hnames, List.cons_append]
  cases names ++ ws.flatMap G.expand with
  | nil =>
      rw [List.intercalate_singleton]
      exact hname
  | cons next rest =>
      rw [List.intercalate_cons_cons, List.append_assoc]
      exact hname.trans (List.prefix_append _ _)

end UprobeTests.Text
