/-
  UprobeTests.Mksym

  mksym: the table `user_symbols` of a program, from what `objdump -t` prints
  of it.  The script splits a line at its blanks, so the fields it takes are
  where they belong only in a row with two groups of flags, and it takes the
  visibility for the name where there is one (`emitsExactly_iff`).

  The offset is the address less 0x400000 plus 0x5a, in two's complement; it is
  the offset of the function's first instruction for no layout in use
  (`probesEntry_iff`).
-/

import Mathlib.Data.List.Sort
import UprobeTests.Lib.Text
import UprobeTests.Symbols

namespace UprobeTests

namespace Mksym

open Text

/-! ## The script -/

/-- `m/.text/`. -/
def matchesText : Str → Bool
  | [] => false
  | _ :: t => "text".toList.isPrefixOf t || matchesText t

/-- A record of the table. -/
structure Record where
  /-- the number that is printed; `none` for `.offset = 0` -/
  offset : Option Nat
  name : Str
deriving DecidableEq, Repr

/-- A number under `%x`. -/
def unsigned (val : Int) : Nat := (val % 2 ^ 64).toNat

/-- One turn of the loop: the record it prints, if any.  A field that is missing
    is printed as nothing. -/
def turn (line : Str) : Option Record :=
  let nm := split line
  let offset := nm.getD 0 []
  let sect := nm.getD 3 []
  let name := nm.getD 5 []
  if matchesText sect then
    let offset :=
      if isHex offset then
        let val : Int := hex offset
        -- marked as to be fixed in the script
        some (unsigned (val - hex "400000".toList + hex "5a".toList))
      else none
    some ⟨offset, name⟩
  else none

/-- `sort -k6`; the order of two lines depends on the locale. -/
def sortK6 (le : Str → Str → Bool) (lines : List Str) : List Str :=
  lines.insertionSort fun a b => le a b

/-- The turns of the loop over `@lines` (from which empty lines at the end, that
    print nothing, are missing). -/
def turns (le : Str → Str → Bool) (objdump : List Str) : List (Str × Option Record) :=
  (sortK6 le objdump).map fun line => (line, turn line)

/-- The records that are printed. -/
def records (le : Str → Str → Bool) (objdump : List Str) : List Record :=
  (turns le objdump).filterMap Prod.snd

/-- A path as `readlink -f` prints it. -/
structure Path where
  text : Str
  oneLine : '\n' ∉ text

def writeTop : List Str :=
  ["struct symbol \x7b".toList,
    "\tchar            * path;".toList,
    "\tloff_t          offset ;".toList,
    "\tchar            * name;".toList,
    "\x7d;".toList,
    [],
    "static const struct symbol user_symbols[] = \x7b".toList]

def writeBot : List Str := ["\x7d;".toList]

def Path.line (path : Path) : Str := "\t .path = \"".toList ++ (path.text ++ "\",".toList)

/-- What is printed for the offset. -/
def Record.offsetText (record : Record) : Str :=
  match record.offset with
  | some val => "(loff_t)0x".toList ++ (Nat.toDigits 16 val ++ "ULL".toList)
  | none => "0".toList

def Record.offsetLine (record : Record) : Str :=
  "\t .offset = ".toList ++ (record.offsetText ++ [','])

def Record.nameLine (record : Record) : Str := "\t .name = \"".toList ++ (record.name ++ ['"'])

def Record.lines (path : Path) (record : Record) : List Str :=
  ["\t\x7b".toList,
    path.line,
    record.offsetLine,
    record.nameLine,
    "\t\x7d,".toList]

/-- The lines of the file that is written for the program `path`. -/
def mksym (le : Str → Str → Bool) (path : Path) (objdump : List Str) : List Str :=
  writeTop ++ ((records le objdump).flatMap (Record.lines path) ++ writeBot)

/-! ## The listing -/

/-- The letters of the seven flag columns. -/
def flagColumns : List (List Char) :=
  [[' ', 'l', 'g', 'u', '!'], [' ', 'w'], [' ', 'C'], [' ', 'W'], [' ', 'I', 'i'],
    [' ', 'd', 'D'], [' ', 'F', 'f', 'O']]

structure Flags where
  text : Str
  columns : List.Forall₂ (· ∈ ·) text flagColumns

/-- The visibility of a symbol that has not the default one. -/
inductive Visibility where
  | stvInternal
  | stvHidden
  | stvProtected
  | other (stOther : BitVec 8)
deriving DecidableEq, Repr

def Visibility.text : Visibility → Str
  | .stvInternal => ".internal".toList
  | .stvHidden => ".hidden".toList
  | .stvProtected => ".protected".toList
  | .other stOther =>
      ['0', 'x', Nat.digitChar (stOther.toNat / 16), Nat.digitChar (stOther.toNat % 16)]

/-- The row of a symbol; `gap` is the number of blanks before the columns that
    follow the size. -/
structure Row where
  value : Vma
  flags : Flags
  sect : Word
  size : Vma
  gap : Nat
  visibility : Option Visibility
  name : Str
  name_noBlank : name.any isBlank = false

def Row.visibilityText (r : Row) : Str :=
  match r.visibility with
  | none => []
  | some v => v.text ++ [' ']

def Row.text (r : Row) : Str :=
  r.value.text ++ ' ' :: (r.flags.text ++ ' ' :: (r.sect.text ++ '\t' :: (r.size.text ++
    ' ' :: (List.replicate r.gap ' ' ++ (r.visibilityText ++ r.name)))))

/-- A line of what `objdump -t` prints. -/
inductive Line where
  | blank
  | fileFormat (file format : Word)
  | title
  | noSymbols
  | row (r : Row)

def Line.text : Line → Str
  | .blank => []
  | .fileFormat file format => file.text ++ ":     file format ".toList ++ format.text
  | .title => "SYMBOL TABLE:".toList
  | .noSymbols => "no symbols".toList
  | .row r => r.text

/-- The section `.text` or a subsection of it. -/
def inText (sect : Str) : Bool := sect == ".text".toList || ".text.".toList.isPrefixOf sect

/-- The name of the record the line should have. -/
def Line.expected : Line → Option Str
  | .row r => if inText r.sect.text then some r.name else none
  | _ => none

/-- Every line has one turn, which prints a record just for a symbol in `.text`,
    with the symbol's own name. -/
def EmitsExactly (le : Str → Str → Bool) (listing : List Line) : Prop :=
  ((turns le (listing.map Line.text)).map fun t => (t.1, t.2.map Record.name)).Perm
    (listing.map fun line => (line.text, line.expected))

/-! ## What the script makes of a line -/

theorem matchesText_cons {c : Char} {t : Str} (h : matchesText (c :: t) = true) : 't' ∈ t := by
  induction t generalizing c with
  | nil => cases h
  | cons d t ih =>
      rw [matchesText, Bool.or_eq_true] at h
      rcases h with h | h
      · have hd : 't' = d := by
          simp only [show "text".toList = ['t', 'e', 'x', 't'] from rfl, List.isPrefixOf_cons_cons,
            Bool.and_eq_true, beq_iff_eq] at h
          exact h.1
        rw [hd]
        exact List.mem_cons_self
      · exact List.mem_cons_of_mem _ (ih h)

theorem not_matchesText {t : Str} (h : 't' ∉ t) : matchesText t = false := by
  cases t with
  | nil => rfl
  | cons c t =>
      by_contra hm
      exact h (List.mem_cons_of_mem _ (matchesText_cons (Bool.eq_true_of_not_eq_false hm)))

theorem Visibility.other_chars (stOther : BitVec 8) :
    ∀ c ∈ (Visibility.other stOther).text, c = 'x' ∨ isHexDigit c = true := by
  have hlt : stOther.toNat < 256 := stOther.isLt
  have htext : (Visibility.other stOther).text =
      ['0', 'x', Nat.digitChar (stOther.toNat / 16), Nat.digitChar (stOther.toNat % 16)] := rfl
  intro c hc
  rw [htext] at hc
  simp only [List.mem_cons, List.not_mem_nil, or_false] at hc
  rcases hc with hc | hc | hc | hc
  · exact Or.inr (by rw [hc]; decide)
  · exact Or.inl hc
  · exact Or.inr (by rw [hc]; exact isHexDigit_digitChar (by omega))
  · exact Or.inr (by rw [hc]; exact isHexDigit_digitChar (by omega))

theorem Visibility.not_matchesText (v : Visibility) : matchesText v.text = false := by
  cases v with
  | stvInternal => decide
  | stvHidden => decide
  | stvProtected => decide
  | other stOther =>
      apply Mksym.not_matchesText
      intro h
      have := Visibility.other_chars stOther 't' h
      revert this
      decide

theorem Visibility.words_text (v : Visibility) : words isBlank v.text = [v.text] := by
  cases v with
  | stvInternal => decide
  | stvHidden => decide
  | stvProtected => decide
  | other stOther =>
      refine words_of_noSep (List.any_eq_false.mpr fun c hc => ?_)
      rcases Visibility.other_chars stOther c hc with rfl | h
      · decide
      · rw [notBlank_of_isHexDigit h]
        exact Bool.false_ne_true

theorem vma_t_notMem (v : Vma) : 't' ∉ v.text := fun h => absurd (v.digits 't' h) (by decide)

/-- No flag is a `t`. -/
theorem Flags.t_notMem (f : Flags) : 't' ∉ f.text := by
  intro h
  have hcolumn : ∀ {text : Str} {columns : List (List Char)},
      List.Forall₂ (· ∈ ·) text columns → 't' ∈ text → ∃ column ∈ columns, 't' ∈ column := by
    intro text columns hcolumns
    induction hcolumns with
    | nil => exact fun h => absurd h List.not_mem_nil
    | cons hc _ ih =>
        intro h
        rcases List.mem_cons.mp h with rfl | h
        · exact ⟨_, List.mem_cons_self, hc⟩
        · obtain ⟨column, hmem, ht⟩ := ih h
          exact ⟨column, List.mem_cons_of_mem _ hmem, ht⟩
  have hnone : ∀ column ∈ flagColumns, 't' ∉ column := by decide
  obtain ⟨column, hmem, ht⟩ := hcolumn f.columns h
  exact hnone column hmem ht

/-- The number of groups of flags that blanks separate. -/
def Flags.groups (f : Flags) : Nat := (words isBlank f.text).length

/-- The words behind the size. -/
def Row.last (r : Row) : List Str :=
  (r.visibility.map Visibility.text).toList ++ if r.name = [] then [] else [r.name]

/-- The fields of a row. -/
theorem split_row (r : Row) :
    split r.text = r.value.text ::
      (words isBlank r.flags.text ++ r.sect.text :: r.size.text :: r.last) := by
  have hlast : words isBlank (r.visibilityText ++ r.name) = r.last := by
    rw [Row.visibilityText, Row.last, ← words_of_noSep r.name_noBlank]
    cases r.visibility with
    | none => rfl
    | some v =>
        dsimp only
        rw [List.append_assoc, List.singleton_append, words_append_sep _ _ rfl, v.words_text]
        rfl
  have hsplit := split_word_append r.value.word
    (' ' :: (r.flags.text ++ ' ' :: (r.sect.text ++ '\t' :: (r.size.text ++
      ' ' :: (List.replicate r.gap ' ' ++ (r.visibilityText ++ r.name))))))
  rw [words_append_sep _ _ rfl, words_append_sep _ _ rfl, words_append_sep _ _ rfl,
    words_append_sep _ _ rfl, words_replicate_sep _ _ rfl, hlast, r.value.word.words_text,
    r.sect.words_text, show words isBlank r.size.text = _ from r.size.word.words_text] at hsplit
  exact hsplit

/-- The number printed for a row. -/
def Row.offset (r : Row) : Nat :=
  unsigned ((r.value.value : Int) - hex "400000".toList + hex "5a".toList)

/-- The record printed for a row: the section is found behind two groups of
    flags; without flags the name stands in its place. -/
theorem turn_row (r : Row) : turn r.text =
    if r.flags.groups = 2 ∧ matchesText r.sect.text = true then
      some ⟨some r.offset, r.last.headD []⟩
    else if r.flags.groups = 0 ∧ r.visibility = none ∧ matchesText r.name = true then
      some ⟨some r.offset, []⟩
    else none := by
  have hvalue : isHex r.value.text = true := r.value.isHex_text
  have hsize : matchesText r.size.text = false := not_matchesText (vma_t_notMem r.size)
  have hflags : ∀ w ∈ words isBlank r.flags.text, matchesText w = false := fun w hw =>
    not_matchesText fun h => r.flags.t_notMem (mem_of_mem_words hw h)
  have hsplit := split_row r
  rw [Flags.groups]
  generalize words isBlank r.flags.text = flags at hsplit hflags
  match flags with
  | [] =>
      rw [turn, hsplit, Row.last]
      cases r.visibility with
      | some v => simp [v.not_matchesText]
      | none =>
          by_cases hname : r.name = []
          · simp [hname, matchesText]
          · simp [hname, hvalue, Row.offset, Vma.value]
  | [q0] =>
      rw [turn, hsplit]
      simp [hsize]
  | [q0, q1] =>
      rw [turn, hsplit]
      cases hlast : r.last with
      | nil => simp [hvalue, Row.offset, Vma.value]
      | cons name rest => simp [hvalue, Row.offset, Vma.value]
  | q0 :: q1 :: q2 :: rest =>
      have hq2 : matchesText q2 = false := hflags q2 (by simp)
      rw [turn, hsplit]
      simp [hq2]

/-- The line is read right: a row of `.text` has two groups of flags, and no
    visibility unless it reads as the name; any other row has not both two
    groups and a section that matches, nor a name that matches, no flags and no
    visibility; and the file format does not match. -/
def Line.ReadRight : Line → Prop
  | .row r =>
      if inText r.sect.text then
        r.flags.groups = 2 ∧ ∀ v, r.visibility = some v → v.text = r.name
      else
        ¬ (r.flags.groups = 2 ∧ matchesText r.sect.text = true) ∧
          ¬ (r.flags.groups = 0 ∧ r.visibility = none ∧ matchesText r.name = true)
  | .fileFormat _ format => matchesText format.text = false
  | _ => True

theorem matchesText_of_inText {sect : Str} (h : inText sect = true) : matchesText sect = true := by
  rw [inText, Bool.or_eq_true, beq_iff_eq] at h
  rcases h with rfl | h
  · decide
  · obtain ⟨rest, rfl⟩ := List.isPrefixOf_iff_prefix.mp h
    rfl

/-- A row of `.text` gets its own name exactly when it is read right. -/
theorem turn_row_inText {r : Row} (hin : inText r.sect.text = true) :
    (turn r.text).map Record.name = some r.name ↔
      r.flags.groups = 2 ∧ ∀ v, r.visibility = some v → v.text = r.name := by
  rw [turn_row, matchesText_of_inText hin]
  by_cases hgroups : r.flags.groups = 2
  · have hhead : r.last.headD [] = r.name ↔ ∀ v, r.visibility = some v → v.text = r.name := by
      rw [Row.last]
      cases r.visibility with
      | some v => simp
      | none =>
          by_cases hname : r.name = []
          · simp [hname]
          · simp [hname]
    rw [if_pos ⟨hgroups, rfl⟩, Option.map_some, Option.some_inj, hhead]
    exact (and_iff_right hgroups).symm
  · -- without two groups the name is never printed
    simp only [hgroups, false_and, if_false, iff_false]
    split
    · rename_i h
      intro hname
      have hnil : [] = r.name := Option.some.inj hname
      rw [← hnil] at h
      exact absurd h.2.2 (by decide)
    · exact fun h => nomatch h

/-- A row of another section gets no record exactly when it is read right. -/
theorem turn_row_not_inText (r : Row) : turn r.text = none ↔
    ¬ (r.flags.groups = 2 ∧ matchesText r.sect.text = true) ∧
      ¬ (r.flags.groups = 0 ∧ r.visibility = none ∧ matchesText r.name = true) := by
  rw [turn_row]
  split
  · rename_i h
    simp [h]
  · rename_i h
    split
    · rename_i h'
      simp [h']
    · rename_i h'
      exact iff_of_true rfl ⟨h, h'⟩

/-- The fields of the first line that is not blank. -/
theorem split_fileFormat (file format : Word) :
    split (Line.fileFormat file format).text =
      [file.text ++ [':'], "file".toList, "format".toList, format.text] := by
  obtain ⟨first, hfirst⟩ : ∃ w : Word, w.text = file.text ++ [':'] :=
    ⟨⟨file.text ++ [':'], by simp, by
      rw [List.any_append, file.noBlank]
      rfl⟩, rfl⟩
  have htext : (Line.fileFormat file format).text = first.text ++ ' ' :: (List.replicate 4 ' ' ++
      ("file".toList ++ ' ' :: ("format".toList ++ ' ' :: format.text))) := by
    rw [hfirst]
    show file.text ++ _ ++ format.text = (file.text ++ [':']) ++ _
    simp
  rw [htext, split_word_append, words_append_sep _ _ rfl, words_replicate_sep _ _ rfl,
    words_append_sep _ _ rfl, words_append_sep _ _ rfl, first.words_text, format.words_text,
    hfirst]
  rfl

/-- One line is read right exactly when its turn prints what it should. -/
theorem readRight_iff (line : Line) :
    (turn line.text).map Record.name = line.expected ↔ line.ReadRight := by
  cases line with
  | blank => exact iff_of_true (by decide) trivial
  | title => exact iff_of_true (by decide) trivial
  | noSymbols => exact iff_of_true (by decide) trivial
  | fileFormat file format =>
      show (turn _).map Record.name = none ↔ matchesText format.text = false
      rw [turn, split_fileFormat, Option.map_eq_none_iff]
      simp
  | row r =>
      show (turn r.text).map Record.name = (if inText r.sect.text then some r.name else none) ↔
        if inText r.sect.text then _ else _
      by_cases hin : inText r.sect.text = true
      · rw [if_pos hin, if_pos hin]
        exact turn_row_inText hin
      · rw [if_neg hin, if_neg hin, Option.map_eq_none_iff]
        exact turn_row_not_inText r

/-- The script prints a record for each symbol of `.text` with the symbol's own
    name, and none for any other line, exactly when every line is read right. -/
theorem emitsExactly_iff (le : Str → Str → Bool) (listing : List Line) :
    EmitsExactly le listing ↔ ∀ line ∈ listing, line.ReadRight := by
  have hsort : ((turns le (listing.map Line.text)).map fun t => (t.1, t.2.map Record.name)).Perm
      (listing.map fun line => (line.text, (turn line.text).map Record.name)) := by
    have hperm := List.perm_insertionSort (fun a b => le a b = true) (listing.map Line.text)
    have hmap := (hperm.map fun line => (line, turn line)).map fun t => (t.1, t.2.map Record.name)
    rw [List.map_map, List.map_map, List.map_map] at hmap
    rw [turns, sortK6, List.map_map]
    exact hmap
  constructor
  · intro h line hline
    have hmem : (line.text, line.expected) ∈
        listing.map fun line => (line.text, (turn line.text).map Record.name) :=
      (h.symm.trans hsort).mem_iff.mp (List.mem_map_of_mem hline)
    obtain ⟨line', -, hline'⟩ := List.mem_map.mp hmem
    rw [Prod.mk.injEq] at hline'
    apply (readRight_iff line).mp
    rw [← hline'.1]
    exact hline'.2
  · intro h
    refine hsort.trans (List.Perm.of_eq (List.map_congr_left fun line hline => ?_))
    rw [(readRight_iff line).mpr (h line hline)]

/-- The row of a function of four bytes in `.text`. -/
def functionRow (value : Vma) (visibility : Option Visibility) (name : Str)
    (name_noBlank : name.any isBlank = false) : Row where
  value := value
  flags := ⟨"g     F".toList, by
    show List.Forall₂ (· ∈ ·) ['g', ' ', ' ', ' ', ' ', ' ', 'F'] flagColumns
    simp [flagColumns]⟩
  sect := ⟨".text".toList, by decide, by decide⟩
  size := ⟨"0000000000000004".toList, by decide, by decide⟩
  gap := 0
  visibility := visibility
  name := name
  name_noBlank := name_noBlank

def vma401136 : Vma := ⟨"0000000000401136".toList, by decide, by decide⟩

example : turn (functionRow vma401136 none "_probe_0".toList (by decide)).text =
    some ⟨some 0x1190, "_probe_0".toList⟩ := by decide

/-- The record of a function with hidden visibility is named `.hidden`. -/
theorem hidden_misnamed : ¬ EmitsExactly (fun _ _ => true)
    [.row (functionRow vma401136 (some .stvHidden) "helper".toList (by decide))] := by
  unfold EmitsExactly
  decide

/-! ## The offsets -/

/-- The entry that a record of the file makes. -/
def Record.symbol (path : Path) (record : Record) : Symbol where
  path := String.ofList path.text
  offset := BitVec.ofNat 64 (record.offset.getD 0)
  name := String.ofList record.name

/-- The table `user_symbols` of the program `path`. -/
def userSymbols (le : Str → Str → Bool) (path : Path) (listing : List Line) : List Symbol :=
  (records le (listing.map Line.text)).map (Record.symbol path)

/-- The record of the symbol has the file offset of the symbol's address, in a
    text segment whose address less its file offset is `L`, and `find_offset`
    finds it. -/
def ProbesEntry (le : Str → Str → Bool) (path : Path) (listing : List Line) (r : Row)
    (L : Nat) : Prop :=
  ∃ record ∈ records le (listing.map Line.text), record.name = r.name ∧
    (record.symbol path).offset.toInt = r.value.value - L ∧
    (findOffset (String.ofList r.name) (userSymbols le path listing)).toInt = r.value.value - L

/-- Name and offset of the row are found where they belong. -/
def Row.IsRead (r : Row) : Prop :=
  r.flags.groups = 2 ∧ matchesText r.sect.text = true ∧ r.visibility = none

theorem mem_records_iff {le : Str → Str → Bool} {objdump : List Str} {record : Record} :
    record ∈ records le objdump ↔ ∃ line ∈ objdump, turn line = some record := by
  have hperm := List.perm_insertionSort (fun a b => le a b = true) objdump
  rw [records, turns, sortK6, List.mem_filterMap]
  simp only [List.mem_map, hperm.mem_iff]
  constructor
  · rintro ⟨t, ⟨line, hline, rfl⟩, ht⟩
    exact ⟨line, hline, ht⟩
  · rintro ⟨line, hline, ht⟩
    exact ⟨_, ⟨line, hline, rfl⟩, ht⟩

theorem turn_of_isRead {r : Row} (h : r.IsRead) : turn r.text = some ⟨some r.offset, r.name⟩ := by
  obtain ⟨hgroups, hsect, hvisibility⟩ := h
  rw [turn_row, if_pos ⟨hgroups, hsect⟩, Row.last, hvisibility]
  by_cases hname : r.name = []
  · rw [if_pos hname, hname]
    rfl
  · rw [if_neg hname]
    rfl

/-- Visibilities do not begin as the names of probes do. -/
theorem Visibility.not_probe (v : Visibility) : ¬ "_probe".toList <+: v.text := by
  intro h
  have hhead : v.text.head? = some '_' := by
    obtain ⟨rest, hrest⟩ := h
    rw [← hrest]
    rfl
  cases v with
  | stvInternal => exact absurd hhead (by decide)
  | stvHidden => exact absurd hhead (by decide)
  | stvProtected => exact absurd hhead (by decide)
  | other stOther => exact absurd (Option.some.inj hhead) (by decide)

/-- A record with the name of a probe is that of a row that is read right. -/
theorem row_of_probe {line : Line} {record : Record} (hturn : turn line.text = some record)
    (hprobe : "_probe".toList <+: record.name) :
    ∃ r, line = .row r ∧ r.IsRead ∧ record = ⟨some r.offset, r.name⟩ := by
  have hne : record.name ≠ [] := fun hnil => by
    rw [hnil] at hprobe
    exact absurd (List.prefix_nil.mp hprobe) (by decide)
  cases line with
  | blank => cases (show turn Line.blank.text = none by decide).symm.trans hturn
  | title => cases (show turn Line.title.text = none by decide).symm.trans hturn
  | noSymbols => cases (show turn Line.noSymbols.text = none by decide).symm.trans hturn
  | fileFormat file format =>
      rw [turn, split_fileFormat] at hturn
      split at hturn
      · cases hturn
        exact absurd rfl hne
      · cases hturn
  | row r =>
      have hrow : turn r.text = some record := hturn
      rw [turn_row] at hrow
      split at hrow
      · rename_i h
        cases hrow
        have hnone : r.visibility = none := by
          cases hvisibility : r.visibility with
          | none => rfl
          | some v =>
              rw [Row.last, hvisibility] at hprobe
              exact absurd hprobe v.not_probe
        have hread : r.IsRead := ⟨h.1, h.2, hnone⟩
        exact ⟨r, rfl, hread, Option.some.inj (hturn.symm.trans (turn_of_isRead hread))⟩
      · split at hrow
        · cases hrow
          exact absurd rfl hne
        · cases hrow

/-- The number printed for a row, as a `loff_t`. -/
theorem toInt_offset (r : Row) :
    (BitVec.ofNat 64 r.offset).toInt = ((r.value.value : Int) - 0x3fffa6).bmod (2 ^ 64) := by
  have hbase : ((r.value.value : Int) - hex "400000".toList + hex "5a".toList) =
      (r.value.value : Int) - 0x3fffa6 := by
    rw [show hex "400000".toList = 0x400000 from rfl, show hex "5a".toList = 0x5a from rfl]
    omega
  have hcast : ((r.offset : Nat) : Int) = ((r.value.value : Int) - 0x3fffa6) % 2 ^ 64 := by
    rw [Row.offset, unsigned, hbase]
    exact Int.toNat_of_nonneg (Int.emod_nonneg _ (by decide))
  rw [BitVec.toInt_eq_toNat_bmod, BitVec.toNat_ofNat, Int.natCast_emod, hcast,
    Int.emod_bmod]
  exact Int.emod_bmod _ _

/-- With `L` the address less the file offset of the text segment, the record
    of a probe has the file offset of the function's first instruction exactly
    when `L` is 0x400000 - 0x5a, the row is read right and the offset is no
    negative `loff_t`. -/
theorem probesEntry_iff {le : Str → Str → Bool} {path : Path} {listing : List Line} {r : Row}
    {L : Nat} (hr : .row r ∈ listing) (hprobe : "_probe".toList <+: r.name)
    (hunique : ∀ r', .row r' ∈ listing → r'.name = r.name → r' = r) (hL : L ≤ r.value.value) :
    ProbesEntry le path listing r L ↔
      L = 0x400000 - 0x5a ∧ r.IsRead ∧ r.value.value - L < 2 ^ 63 := by
  have hvalue : r.value.value < 2 ^ 64 := r.value.value_lt
  -- the records with the name are all the same
  have hrecord : ∀ record ∈ records le (listing.map Line.text), record.name = r.name →
      r.IsRead ∧ record = ⟨some r.offset, r.name⟩ := by
    intro record hrecord hname
    obtain ⟨text, htext, hturn⟩ := mem_records_iff.mp hrecord
    obtain ⟨line, hline, rfl⟩ := List.mem_map.mp htext
    obtain ⟨r', rfl, hread, rfl⟩ := row_of_probe hturn (by rw [hname]; exact hprobe)
    rw [hunique r' hline hname] at hread ⊢
    exact ⟨hread, rfl⟩
  have hbmod : ((r.value.value : Int) - 0x3fffa6).bmod (2 ^ 64) = r.value.value - L ↔
      L = 0x400000 - 0x5a ∧ r.value.value - L < 2 ^ 63 := by
    rw [Int.bmod_def]
    split
    · omega
    · omega
  constructor
  · rintro ⟨record, hmem, hname, hoffset, -⟩
    obtain ⟨hread, rfl⟩ := hrecord record hmem hname
    obtain ⟨hlayout, hpositive⟩ := hbmod.mp ((toInt_offset r).symm.trans hoffset)
    exact ⟨hlayout, hread, hpositive⟩
  · rintro ⟨hlayout, hread, hpositive⟩
    have hmem : (⟨some r.offset, r.name⟩ : Record) ∈ records le (listing.map Line.text) :=
      mem_records_iff.mpr ⟨r.text, List.mem_map_of_mem hr, turn_of_isRead hread⟩
    have hoffset := (toInt_offset r).trans (hbmod.mpr ⟨hlayout, hpositive⟩)
    refine ⟨_, hmem, rfl, hoffset, ?_⟩
    have hfind : findOffset (String.ofList r.name) (userSymbols le path listing) =
        BitVec.ofNat 64 r.offset := by
      refine findOffset_eq ⟨_, List.mem_map_of_mem hmem, rfl⟩ fun s hs hname => ?_
      obtain ⟨record, hrecordMem, rfl⟩ := List.mem_map.mp hs
      rw [(hrecord record hrecordMem (String.ofList_inj.mp hname)).2]
      rfl
    rw [hfind]
    exact hoffset

/-- With the layout for which the offset is right. -/
theorem probesEntry_of_layout : ProbesEntry (fun _ _ => true) ⟨"/uthread".toList, by decide⟩
    [.row (functionRow vma401136 none "_probe_0".toList (by decide))]
    (functionRow vma401136 none "_probe_0".toList (by decide)) 0x3fffa6 :=
  (probesEntry_iff List.mem_cons_self (by decide) (fun r' hr' _ => by
    cases List.mem_singleton.mp hr'
    rfl) (by decide)).mpr ⟨rfl, ⟨by decide, by decide, rfl⟩, by decide⟩

/-- With the layout mksym assumes, the probe sits 0x5a bytes behind the entry. -/
theorem probe_behind_entry : ¬ ProbesEntry (fun _ _ => true) ⟨"/uthread".toList, by decide⟩
    [.row (functionRow vma401136 none "_probe_0".toList (by decide))]
    (functionRow vma401136 none "_probe_0".toList (by decide)) 0x400000 := by
  rintro ⟨record, -, -, -, hfind⟩
  revert hfind
  decide

end Mksym

end UprobeTests
