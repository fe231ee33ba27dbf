/-
  UprobeTests.FindVaddr

  find_vaddr: looks a symbol up in a file that mksym has written.  It takes the
  line two above the symbol's name, where an earlier layout of the records had
  the address; in what mksym writes the path stands there, so that a quotation
  mark follows `vaddr=` and never a number (`not_findsOffset`).
-/

import UprobeTests.Mksym

namespace UprobeTests

namespace FindVaddr

open Text Mksym

/-- `find_vaddr symbol file`; `grepW` says whether `grep -w` finds a symbol on
    a line. -/
def findVaddr (grepW : Str → Str → Bool) (G : Globbing) (symbol : Str) (file : List Str) : Str :=
  let lineno := grepNumbers (grepW symbol) 1 file
  let a :=
    match lineno with
    | [n] => ((tailFrom ((n : Int) - 2) file).head?.map (cutSecond '=')).getD []
    -- `$(($lineno-2))` is -2, or no expression
    | _ => []
  let vaddr := stripBlank a
  echo G ("vaddr=".toList ++ stripComma vaddr)

/-- The texts for the number of a record: as it stands in the file, and in
    hexadecimal and decimal notation. -/
def spellings (record : Record) : List Str :=
  let offset := record.offset.getD 0
  [record.offsetText, "0x".toList ++ Nat.toDigits 16 offset, Nat.toDigits 10 offset]

/-- The script prints the offset mksym wrote for the record. -/
def FindsOffset (grepW : Str → Str → Bool) (G : Globbing) (record : Record) (file : List Str) :
    Prop :=
  ∃ text ∈ spellings record,
    findVaddr grepW G record.name file = "vaddr=".toList ++ text

/-- The path stands two lines above the name. -/
theorem mksym_split {le : Str → Str → Bool} {objdump : List Str} {record : Record} (path : Path)
    (h : record ∈ records le objdump) :
    ∃ before after, mksym le path objdump =
      before ++ path.line :: record.offsetLine :: record.nameLine :: after := by
  obtain ⟨front, back, hsplit⟩ := List.append_of_mem h
  refine ⟨writeTop ++ (front.flatMap (Record.lines path) ++ ["\t\x7b".toList]),
    "\t\x7d,".toList :: (back.flatMap (Record.lines path) ++ writeBot), ?_⟩
  rw [mksym, hsplit, List.flatMap_append, List.flatMap_cons, Record.lines]
  simp only [List.append_assoc, List.cons_append, List.nil_append]

/-- The line that is taken is the path of the record. -/
theorem findVaddr_eq {grepW : Str → Str → Bool} {G : Globbing} {path : Path} {record : Record}
    {file before after : List Str}
    (hfile : file = before ++ path.line :: record.offsetLine :: record.nameLine :: after)
    (hword : file.filter (grepW record.name) = [record.nameLine]) :
    findVaddr grepW G record.name file =
      echo G ("vaddr=".toList ++ stripComma (stripBlank (cutSecond '=' path.line))) := by
  have hname : grepW record.name record.nameLine = true :=
    List.of_mem_filter (by rw [hword]; exact List.mem_singleton_self _)
  have hlines : file =
      (before ++ [path.line, record.offsetLine]) ++ record.nameLine :: after := by
    rw [hfile, List.append_assoc]
    rfl
  have hlineno : grepNumbers (grepW record.name) 1 file = [before.length + 3] := by
    rw [hlines] at hword ⊢
    rw [grepNumbers_only hname hword, List.length_append, List.length_cons, List.length_singleton]
    congr 1
    omega
  have htail : (tailFrom (((before.length + 3 : Nat) : Int) - 2) file).head? = some path.line := by
    rw [tailFrom, if_neg (by omega),
      show (((before.length + 3 : Nat) : Int) - 2).toNat - 1 = before.length by omega, hfile,
      List.drop_left]
    rfl
  rw [findVaddr, hlineno]
  dsimp only
  rw [htail]
  rfl

/-- What is printed begins with a quotation mark behind `vaddr=`. -/
theorem findVaddr_quote {grepW : Str → Str → Bool} {G : Globbing} {le : Str → Str → Bool}
    {path : Path} {objdump : List Str} {record : Record} (hrecord : record ∈ records le objdump)
    (hword : (mksym le path objdump).filter (grepW record.name) = [record.nameLine]) :
    "vaddr=\"".toList <+: findVaddr grepW G record.name (mksym le path objdump) := by
  obtain ⟨before, after, hfile⟩ := mksym_split path hrecord
  rw [findVaddr_eq hfile hword]
  have hline : path.line = "\t .path ".toList ++ '=' :: (" \"".toList ++
      (path.text ++ "\",".toList)) := rfl
  obtain ⟨field, hfield⟩ : ∃ field, cutSecond '=' path.line = " \"".toList ++ field := by
    rw [hline]
    exact cutSecond_append (by decide) (by decide) _
  obtain ⟨text, htext⟩ := stripComma_cons (show '"' ≠ ',' by decide) field
  rw [hfield, show stripBlank (" \"".toList ++ field) = '"' :: field from rfl, htext,
    show "vaddr=".toList ++ '"' :: text = "vaddr=\"".toList ++ text from rfl]
  exact echo_keeps_start G (by decide) (by decide) (by decide) text

theorem spellings_not_quote {record : Record} {text : Str} (h : text ∈ spellings record) :
    text.head? ≠ some '"' := by
  intro hhead
  simp only [spellings, List.mem_cons, List.not_mem_nil, or_false] at h
  rcases h with h | h | h
  · rw [h, Record.offsetText] at hhead
    split at hhead
    · exact absurd (Option.some.inj hhead) (by decide)
    · exact absurd (Option.some.inj hhead) (by decide)
  · rw [h] at hhead
    exact absurd (Option.some.inj hhead) (by decide)
  · rw [h] at hhead
    have hdigit : '"'.isDigit = true :=
      Nat.isDigit_of_mem_toDigits (by omega) (by omega) (List.mem_of_mem_head? hhead)
    exact absurd hdigit (by decide)

/-- Whatever the table, the script never prints the offset of a symbol that
    occurs as a word just on the line of its name. -/
theorem not_findsOffset {grepW : Str → Str → Bool} {G : Globbing} {le : Str → Str → Bool}
    {path : Path} {objdump : List Str} {record : Record} (hrecord : record ∈ records le objdump)
    (hword : (mksym le path objdump).filter (grepW record.name) = [record.nameLine]) :
    ¬ FindsOffset grepW G record (mksym le path objdump) := by
  rintro ⟨text, htext, hfound⟩
  obtain ⟨rest, hrest⟩ := findVaddr_quote (G := G) hrecord hword
  rw [hfound] at hrest
  have hquote : '"' :: rest = text :=
    List.append_cancel_left
      (show "vaddr=".toList ++ '"' :: rest = "vaddr=".toList ++ text from hrest)
  exact spellings_not_quote htext (by rw [← hquote]; rfl)

/-- A program with one function. -/
def probe0Listing : List Str := ["0000000000401136 g     F .text\t0000000000000004 _probe_0".toList]

def probe0File : List Str := mksym (fun _ _ => true) ⟨"/uthread".toList, by decide⟩ probe0Listing

def probe0Record : Record := ⟨some 0x1190, "_probe_0".toList⟩

theorem not_findsOffset_probe0 : ¬ FindsOffset grepWord .none probe0Record probe0File :=
  not_findsOffset (by decide) (by decide)

/-- The path is printed for the address. -/
theorem findVaddr_prints_path :
    probe0File.filter (grepWord probe0Record.name) = [probe0Record.nameLine] ∧
    findVaddr grepWord .none probe0Record.name probe0File = "vaddr=\"/uthread\"".toList ∧
    ¬ FindsOffset grepWord .none probe0Record probe0File := by
  have hprints : findVaddr grepWord .none probe0Record.name probe0File =
      "vaddr=\"/uthread\"".toList := by decide
  refine ⟨by decide, hprints, fun ⟨text, htext, hfound⟩ => ?_⟩
  have hpath : "\"/uthread\"".toList = text :=
    List.append_cancel_left
      (show "vaddr=".toList ++ "\"/uthread\"".toList = "vaddr=".toList ++ text from
        hprints.symm.trans hfound)
  exact spellings_not_quote htext (by rw [← hpath]; rfl)

end FindVaddr

end UprobeTests
