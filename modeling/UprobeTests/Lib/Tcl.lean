/-
  UprobeTests.Lib.Tcl

  The Tcl commands of a small test script, over texts as lists of characters:
  `exec` of a command that prints a text, `split` at newlines, arrays indexed
  from 0, `regsub -all` and the comparison `>= 0` of `expr`.
-/

import Mathlib.Data.List.Basic

namespace UprobeTests.Tcl

abbrev Str := List Char

/-! ## Errors and arrays -/

/-- Reading an array element that is not set: the array itself does not exist
    until its first element is set. -/
inductive Error where
  | noSuchVariable
  | noSuchElement (index : Nat)
deriving DecidableEq, Repr

/-- `$a($i)` of an array whose elements `0 .. a.length - 1` are set. -/
def arrayGet (a : List Str) (i : Nat) : Except Error Str :=
  match a[i]? with
  | some t => .ok t
  | none => if a = [] then .error .noSuchVariable else .error (.noSuchElement i)

theorem arrayGet_of_lt {a : List Str} {i : Nat} (h : i < a.length) :
    arrayGet a i = .ok a[i] := by
  rw [arrayGet, List.getElem?_eq_getElem h]

theorem arrayGet_length (a : List Str) : ∃ e, arrayGet a a.length = .error e := by
  rw [arrayGet, List.getElem?_eq_none (Nat.le_refl _)]
  by_cases h : a = []
  · exact ⟨.noSuchVariable, by rw [if_pos h]⟩
  · exact ⟨.noSuchElement a.length, by rw [if_neg h]⟩

/-- The elements `0 .. a.length - 1`, read one after the other. -/
theorem mapM_arrayGet (a : List Str) :
    ((List.range a.length).mapM (arrayGet a)) = .ok a := by
  suffices h : ∀ n ≤ a.length, (List.range n).mapM (arrayGet a) = .ok (a.take n) by
    simpa using h a.length (Nat.le_refl _)
  intro n hn
  induction n with
  | zero => rfl
  | succ n ih =>
      rw [List.range_succ, List.mapM_append, ih (by omega), List.mapM_cons,
        arrayGet_of_lt (by omega)]
      show Except.ok (a.take n ++ [a[n]]) = _
      rw [List.take_append_getElem]

/-! ## exec and split -/

/-- The input translation `auto` of a channel: `\r\n` and `\r` end a line too. -/
def autoEol : Str → Str
  | [] => []
  | '\r' :: '\n' :: cs => '\n' :: autoEol cs
  | '\r' :: cs => '\n' :: autoEol cs
  | c :: cs => c :: autoEol cs

/-- The result of `exec` for a command that prints `t`: without its last newline. -/
def execOutput (t : Str) : Str :=
  let output := autoEol t
  if output.getLast? = some '\n' then output.dropLast else output

/-- `split t "\n"`; an empty text has no lines. -/
def splitLines (t : Str) : List Str := if t = [] then [] else t.splitOn '\n'

/-- The text of a file with these lines. -/
def unlines (lines : List Str) : Str := lines.flatMap fun line => line ++ ['\n']

/-- A line as a program prints it. -/
structure IsLine (line : Str) : Prop where
  ne_nil : line ≠ []
  noNewline : '\n' ∉ line
  noReturn : '\r' ∉ line

instance (line : Str) : Decidable (IsLine line) :=
  decidable_of_iff (line ≠ [] ∧ '\n' ∉ line ∧ '\r' ∉ line)
    ⟨fun ⟨h, h', h''⟩ => ⟨h, h', h''⟩, fun ⟨h, h', h''⟩ => ⟨h, h', h''⟩⟩

/-- Neither of the characters that end a line. -/
def Plain (t : Str) : Prop := ∀ c ∈ t, c ≠ '\n' ∧ c ≠ '\r'

instance (t : Str) : Decidable (Plain t) := List.decidableBAll _ t

theorem Plain.append {t u : Str} (ht : Plain t) (hu : Plain u) : Plain (t ++ u) := by
  intro c hc
  exact (List.mem_append.mp hc).elim (ht c) (hu c)

theorem IsLine.append {t u : Str} (ht : IsLine t) (hu : Plain u) : IsLine (t ++ u) where
  ne_nil := List.append_ne_nil_of_left_ne_nil ht.ne_nil u
  noNewline h := (List.mem_append.mp h).elim ht.noNewline fun h => (hu _ h).1 rfl
  noReturn h := (List.mem_append.mp h).elim ht.noReturn fun h => (hu _ h).2 rfl

theorem autoEol_of_notMem {t : Str} (h : '\r' ∉ t) : autoEol t = t := by
  fun_induction autoEol t with
  | case1 => rfl
  | case2 cs _ => simp at h
  | case3 cs _ _ => simp at h
  | case4 c cs _ _ ih => rw [ih fun hmem => h (List.mem_cons_of_mem c hmem)]

theorem splitOn_unlines_append {lines : List Str} (h : ∀ line ∈ lines, '\n' ∉ line) {last : Str}
    (hlast : '\n' ∉ last) : (unlines lines ++ last).splitOn '\n' = lines ++ [last] := by
  induction lines with
  | nil => exact List.splitOn_eq_singleton hlast
  | cons line lines ih =>
      have hsplit := ih fun l hl => h l (List.mem_cons_of_mem line hl)
      have hline : unlines (line :: lines) ++ last = line ++ '\n' :: (unlines lines ++ last) := by
        simp [unlines]
      rw [hline, List.splitOn_append_cons_self_of_not_mem (h line List.mem_cons_self), hsplit]
      rfl

/-- The lines of a text are those it was made of. -/
theorem splitLines_execOutput_unlines {lines : List Str} (h : ∀ line ∈ lines, IsLine line) :
    splitLines (execOutput (unlines lines)) = lines := by
  rcases List.eq_nil_or_concat lines with rfl | ⟨front, last, rfl⟩
  · rfl
  · rw [List.concat_eq_append] at h ⊢
    have hlast := h last (by simp)
    have hreturn : '\r' ∉ unlines (front ++ [last]) := by
      simp only [unlines, List.mem_flatMap, List.mem_append]
      rintro ⟨line, hmem, hin | hin⟩
      · exact (h line (by simpa using hmem)).noReturn hin
      · simp at hin
    have htext : unlines (front ++ [last]) = unlines front ++ last ++ ['\n'] := by
      simp [unlines]
    rw [execOutput, autoEol_of_notMem hreturn, htext, List.getLast?_concat, if_pos rfl,
      List.dropLast_concat, splitLines, if_neg (List.append_ne_nil_of_right_ne_nil _ hlast.ne_nil)]
    apply splitOn_unlines_append _ hlast.noNewline
    intro line hmem
    exact (h line (List.mem_append_left _ hmem)).noNewline

/-! ## regsub -/

/-- The length of the longest start of `t` in `[p]*`. -/
def spanLength (p : Char → Bool) : Str → Nat
  | [] => 0
  | c :: cs => if p c then spanLength p cs + 1 else 0

/-- The replacement of every match from left to right; `matchLength t` is the length
    of the match that starts at the head of `t`, and `skip` characters belong to
    the match replaced last. -/
def regsubFrom (matchLength : Str → Option Nat) (subSpec : Str) : Nat → Str → Str
  | _, [] => []
  | skip + 1, _ :: cs => regsubFrom matchLength subSpec skip cs
  | 0, c :: cs =>
      match matchLength (c :: cs) with
      | some n => subSpec ++ regsubFrom matchLength subSpec (n - 1) cs
      | none => c :: regsubFrom matchLength subSpec 0 cs

/-- `regsub -all`, for an expression that never matches the empty text. -/
def regsubAll (matchLength : Str → Option Nat) (subSpec t : Str) : Str :=
  regsubFrom matchLength subSpec 0 t

/-! ## expr -/

/-- The value of a decimal digit. -/
def digit? (c : Char) : Option Nat :=
  if '0' ≤ c ∧ c ≤ '9' then some (c.toNat - '0'.toNat) else none

/-- A nonempty text of decimal digits. -/
def natValue? (t : Str) : Option Nat :=
  if t = [] then none
  else t.foldlM (fun n c => (digit? c).map (10 * n + ·)) 0

/-- A decimal integer with an optional sign (octal, hexadecimal and floating-point
    numbers, which `expr` also reads, are left out). -/
def intValue? : Str → Option Int
  | '-' :: t => (natValue? t).map fun n => -(n : Int)
  | '+' :: t => (natValue? t).map Int.ofNat
  | t => (natValue? t).map Int.ofNat

/-- `$t >= 0`: numbers are compared as numbers, anything else as a string. -/
def geZero (t : Str) : Bool :=
  match intValue? t, t with
  | some n, _ => 0 ≤ n
  -- a string comes after "0" when its first character does, or is '0' itself
  | none, c :: _ => '0' ≤ c
  | none, [] => false

example : geZero "0".toList = true := by decide
example : geZero "-1".toList = false := by decide
example : geZero [] = false := by decide

end UprobeTests.Tcl
