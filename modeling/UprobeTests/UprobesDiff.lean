/-
  UprobeTests.UprobesDiff

  lib/uprobes.exp, `uprobes_diff`: the lines the module printed, with their
  numbers and addresses normalised, against the lines of the expected file.

  The loop over the expected lines advances the index of the output line only
  on a match and skips an expected line that does not match, so it looks for
  the output as a subsequence of the expected lines and not for equality. An
  expected line that is left when the whole output is matched makes the loop
  read an array element that is not there.
-/

import UprobeTests.Lib.Tcl

namespace UprobeTests

open Tcl

/-! ## The two regsub steps -/

def isDecimal (c : Char) : Bool := '0' ≤ c && c ≤ '9'

def isHex (c : Char) : Bool :=
  isDecimal c || ('a' ≤ c && c ≤ 'f') || ('A' ≤ c && c ≤ 'F')

/-- ` [1-9][0-9,]+` at the head of a text. -/
def matchDecimal : Str → Option Nat
  | ' ' :: c :: cs =>
      let n := spanLength (fun d => isDecimal d || d == ',') cs
      if '1' ≤ c ∧ c ≤ '9' ∧ 0 < n then some (n + 2) else none
  | _ => none

/-- `0x[0-9a-fA-F]+` at the head of a text. -/
def matchHex : Str → Option Nat
  | '0' :: 'x' :: cs =>
      let n := spanLength isHex cs
      if 0 < n then some (n + 2) else none
  | _ => none

/-- What `uprobes_diff` does to a line of the output. -/
def normalise (line : Str) : Str :=
  let line := regsubAll matchDecimal " 1234".toList line
  regsubAll matchHex "0xC0123456".toList line

example : normalise "inode -77 offset 0x5a4[_probe_0] 12,5".toList =
    "inode -77 offset 0xC0123456[_probe_0] 1234".toList := by decide

/-! ## The comparison -/

/-- The array `results`: the normalised lines of the output of the module. -/
def outputLines (output : Str) : List Str :=
  (splitLines (execOutput output)).map normalise

/-- The lines of the expected file. -/
def expectedLines (expected : Str) : List Str := splitLines (execOutput expected)

/-- The loop over the expected lines, from index `i` of `results` on. -/
def compareLoop (results : List Str) (ind : Nat) : Nat → List Str → Except Tcl.Error Nat
  | i, [] => .ok i
  | i, line :: lines =>
      if i > ind then .ok i
      else do
        let r ← arrayGet results i
        if r ≠ line then
          compareLoop results ind i lines
        else
          compareLoop results ind (i + 1) lines

/-- `uprobes_diff`. It has no `return`, so its result is that of its last command:
    `set loc_return 0`, or the `puts` that ends the other branch. -/
def uprobesDiff (output expected : Str) : Except Tcl.Error Str := do
  let results := outputLines output
  let ind := results.length
  let i ← compareLoop results ind 0 (expectedLines expected)
  if i = ind then
    return "0".toList
  else
    let _ ← (List.range ind).mapM (arrayGet results)
    return []

def diffCompletes (output expected : Str) : Bool := (uprobesDiff output expected).isOk

/-- The callers' test `$res >= 0`. -/
def diffSucceeds (output expected : Str) : Bool :=
  match uprobesDiff output expected with
  | .ok res => geZero res
  | .error _ => false

/-! ## What the loop decides -/

/-- All of `os` is matched before the last of the lines `es`. -/
def Overrun (os es : List Str) : Prop := es ≠ [] ∧ os.Sublist es.dropLast

theorem sublist_cons_iff_of_ne {o e : Str} {os es : List Str} (h : o ≠ e) :
    (o :: os).Sublist (e :: es) ↔ (o :: os).Sublist es := by
  rw [List.sublist_cons_iff]
  constructor
  · rintro (hs | ⟨r, hr, -⟩)
    · exact hs
    · exact absurd (List.cons_eq_cons.mp hr).1 h
  · exact Or.inl

theorem Overrun.nil_left (e : Str) (es : List Str) : Overrun [] (e :: es) :=
  ⟨List.cons_ne_nil e es, List.nil_sublist _⟩

theorem overrun_cons_of_eq {o : Str} {os es : List Str} :
    Overrun (o :: os) (o :: es) ↔ Overrun os es := by
  cases es with
  | nil => simp [Overrun]
  | cons e es =>
      simp only [Overrun, List.dropLast_cons_cons, List.cons_sublist_cons, ne_eq, reduceCtorEq,
        not_false_eq_true, true_and]

theorem overrun_cons_of_ne {o e : Str} {os es : List Str} (h : o ≠ e) :
    Overrun (o :: os) (e :: es) ↔ Overrun (o :: os) es := by
  cases es with
  | nil => simp [Overrun]
  | cons e' es =>
      simp only [Overrun, List.dropLast_cons_cons, sublist_cons_iff_of_ne h, ne_eq, reduceCtorEq,
        not_false_eq_true, true_and]

/-- The loop fails when the output runs out before the expected lines do, and
    otherwise ends at the last index exactly when the output is a subsequence. -/
theorem compareLoop_spec (results : List Str) (lines : List Str) :
    ∀ i ≤ results.length,
      (∃ e, compareLoop results results.length i lines = .error e ∧
        Overrun (results.drop i) lines) ∨
      (∃ j, compareLoop results results.length i lines = .ok j ∧
        (j = results.length ↔ (results.drop i).Sublist lines) ∧
        ¬ Overrun (results.drop i) lines) := by
  induction lines with
  | nil =>
      intro i hi
      refine Or.inr ⟨i, rfl, ?_, fun h => h.1 rfl⟩
      rw [List.sublist_nil, List.drop_eq_nil_iff]
      omega
  | cons line lines ih =>
      intro i hi
      rw [compareLoop, if_neg (Nat.not_lt.mpr hi)]
      by_cases hlt : i < results.length
      · rw [arrayGet_of_lt hlt, List.drop_eq_getElem_cons hlt]
        show _ ∨ _
        by_cases heq : results[i] = line
        · -- a match: both sides go on to their next line
          subst heq
          rw [overrun_cons_of_eq, List.cons_sublist_cons]
          simpa [Bind.bind, Except.bind] using ih (i + 1) hlt
        · -- the expected line is skipped
          rw [overrun_cons_of_ne heq, sublist_cons_iff_of_ne heq,
            ← List.drop_eq_getElem_cons hlt]
          simpa [Bind.bind, Except.bind, heq] using ih i hi
      · -- no output line is left to compare with
        obtain rfl : i = results.length := by omega
        obtain ⟨e, he⟩ := arrayGet_length results
        rw [he, List.drop_length]
        exact Or.inl ⟨e, rfl, Overrun.nil_left line lines⟩

/-! ## The verdict -/

/-- The three ways `uprobes_diff` ends. -/
theorem uprobesDiff_spec (output expected : Str) :
    (Overrun (outputLines output) (expectedLines expected) ∧
      ∃ e, uprobesDiff output expected = .error e) ∨
    (¬ Overrun (outputLines output) (expectedLines expected) ∧
      (outputLines output).Sublist (expectedLines expected) ∧
      uprobesDiff output expected = .ok "0".toList) ∨
    (¬ (outputLines output).Sublist (expectedLines expected) ∧
      uprobesDiff output expected = .ok []) := by
  rcases compareLoop_spec (outputLines output) (expectedLines expected) 0 (Nat.zero_le _) with
    ⟨e, he, hover⟩ | ⟨j, hj, hsub, hover⟩
  · exact Or.inl ⟨hover, e, by rw [uprobesDiff, he]; rfl⟩
  · rw [List.drop_zero] at hsub hover
    by_cases hall : j = (outputLines output).length
    · refine Or.inr (Or.inl ⟨hover, hsub.mp hall, ?_⟩)
      rw [uprobesDiff, hj]
      exact if_pos hall
    · refine Or.inr (Or.inr ⟨fun h => hall (hsub.mpr h), ?_⟩)
      rw [uprobesDiff, hj]
      show (if j = (outputLines output).length then _ else _) = _
      rw [if_neg hall, mapM_arrayGet]
      rfl

theorem Overrun.sublist {os es : List Str} (h : Overrun os es) : os.Sublist es :=
  h.2.trans (List.dropLast_sublist es)

theorem Overrun.ne {os es : List Str} (h : Overrun os es) : os ≠ es := by
  rintro rfl
  have hlen := h.2.length_le
  have hpos := List.length_pos_iff.mpr h.1
  rw [List.length_dropLast] at hlen
  omega

theorem diffCompletes_iff (output expected : Str) :
    diffCompletes output expected ↔
      ¬ Overrun (outputLines output) (expectedLines expected) := by
  rw [diffCompletes]
  rcases uprobesDiff_spec output expected with ⟨hover, e, he⟩ | ⟨hover, -, hok⟩ | ⟨hsub, hok⟩
  · simp [he, hover, Except.isOk, Except.toBool]
  · simp [hok, hover, Except.isOk, Except.toBool]
  · have hover : ¬ Overrun (outputLines output) (expectedLines expected) :=
      fun h => hsub h.sublist
    simp [hok, hover, Except.isOk, Except.toBool]

theorem diffSucceeds_iff (output expected : Str) :
    diffSucceeds output expected ↔
      (outputLines output).Sublist (expectedLines expected) ∧
        ¬ Overrun (outputLines output) (expectedLines expected) := by
  rw [diffSucceeds]
  rcases uprobesDiff_spec output expected with ⟨hover, e, he⟩ | ⟨hover, hsub, hok⟩ | ⟨hsub, hok⟩
  · simp [he, hover]
  · have hzero : geZero "0".toList = true := by decide
    simp only [hok, hzero, hsub, hover, not_false_eq_true, and_self]
  · have hempty : geZero [] = false := by decide
    simp [hok, hempty, hsub]

/-- `uprobes_diff` completes with the verdict "equal" exactly for equal lists of
    lines, unless the output is a proper subsequence of the expected lines; and its
    verdict alone (a Tcl error being no success) is wrong only for those proper
    subsequences that are not matched before the last expected line. -/
theorem uprobesDiff_exact_iff (output expected : Str) :
    ((diffCompletes output expected ∧
        (diffSucceeds output expected ↔ outputLines output = expectedLines expected)) ↔
      ((outputLines output).Sublist (expectedLines expected) →
        outputLines output = expectedLines expected)) ∧
    ((diffSucceeds output expected ↔ outputLines output = expectedLines expected) ↔
      ((outputLines output).Sublist (expectedLines expected) →
        outputLines output = expectedLines expected ∨
          (outputLines output).Sublist (expectedLines expected).dropLast)) := by
  rw [diffCompletes_iff, diffSucceeds_iff]
  generalize outputLines output = os
  generalize expectedLines expected = es
  have heq : os = es → os.Sublist es ∧ ¬ Overrun os es := by
    intro h
    exact ⟨h ▸ List.Sublist.refl os, fun hover => hover.ne h⟩
  have hdrop : os.Sublist es.dropLast → os = es ∨ Overrun os es := by
    intro h
    by_cases hnil : es = []
    · subst hnil
      exact Or.inl (List.sublist_nil.mp h)
    · exact Or.inr ⟨hnil, h⟩
  constructor
  · constructor
    · rintro ⟨hover, hiff⟩ hsub
      exact hiff.mp ⟨hsub, hover⟩
    · intro h
      have hover : ¬ Overrun os es := fun hover => hover.ne (h hover.sublist)
      exact ⟨hover, fun hs => h hs.1, heq⟩
  · constructor
    · intro hiff hsub
      by_cases hover : Overrun os es
      · exact Or.inr hover.2
      · exact Or.inl (hiff.mp ⟨hsub, hover⟩)
    · intro h
      refine ⟨fun ⟨hsub, hover⟩ => ?_, heq⟩
      rcases h hsub with he | hd
      · exact he
      · exact (hdrop hd).resolve_right hover

/-- A line that the module did not print is not missed. -/
theorem uprobesDiff_accepts_missing :
    ¬ (∀ output expected : Str, diffCompletes output expected ∧
      (diffSucceeds output expected ↔ outputLines output = expectedLines expected)) := by
  intro h
  have hiff := (h "num_probes=5\n".toList "registering\nnum_probes=5\n".toList).2
  revert hiff
  decide

end UprobeTests
