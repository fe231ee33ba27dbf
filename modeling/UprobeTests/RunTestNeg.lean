/-
  UprobeTests.RunTestNeg

  lib/uprobes.exp, the two other expect loops: `uprobes_run_test_neg`, the verdict
  on a test that is not expected to report, and `uprobes_rmmod`.

  In `uprobes_run_test_neg` it is a line that ends the loop, with 0.  The markers
  are looked for first, but only in what has arrived, so a text with any line in
  it can be taken for a success (`uprobesRunTestNeg_some`), and one that ends in a
  line always is, a `PASSED` or an `Error` in it or not (`uprobesRunTestNeg_iff`).
-/

import Mathlib.Data.List.Infix
import UprobeTests.RunTest

namespace UprobeTests.RunTest

open Tcl

/-! ## The expect loop of uprobes_run_test_neg -/

def errorUpper : Str := "ERROR".toList

def errorUpperArm : Expect.Arm Char Str := ⟨errorUpper, by decide, fun _ => "1".toList, true⟩

/-- Unlike in `uprobes_run_test` it is no success, and the loop goes on. -/
def passedNegArm : Expect.Arm Char Str :=
  ⟨passed, passedArm.marker_ne, fun _ => "-1".toList, true⟩

/-- The only arm without `exp_continue`. -/
def lineNegArm : Expect.Arm Char Str := ⟨['\r'], lineArm.marker_ne, fun _ => "0".toList, false⟩

/-- The arms that are tried before that of a line. -/
def markerArms : List (Expect.Arm Char Str) := [failedArm, errorArm, errorUpperArm, passedNegArm]

def runTestNegArms : List (Expect.Arm Char Str) := markerArms ++ [lineNegArm]

/-- The loop over the chunks of the output, from `set loc_return -1` to `eof`. -/
def expectLoopNeg (chunks : List Str) : Expect.Conf Char Str :=
  Expect.run runTestNegArms "-1".toList chunks

def locReturnNeg (chunks : List Str) : Str := (expectLoopNeg chunks).value

/-- `uprobes_run_test_neg`, for the chunks of the test's output, the text in `r_file`
    and the text in `e_file`. -/
def uprobesRunTestNeg (chunks : List Str) (output expected : Str) : Except Tcl.Error Str := do
  let res ← uprobesDiff output expected
  if geZero res then
    return locReturnNeg chunks
  else
    return res

/-- Behind the last line there is no marker. -/
def EndsInLine (text : Str) : Prop :=
  ∃ x y, text = x ++ ['\r'] ++ y ∧ ∀ a ∈ markerArms, ¬ a.marker <:+: y

/-! ## What one arm does -/

/-- A firing of a marker goes on with another value than 0, and a line ends the
    loop with 0 when there is no marker in the buffer. -/
theorem runTestNeg_fire_cases {c c' : Expect.Conf Char Str}
    (h : Expect.fire runTestNegArms c = some c') (hvalue : c.value ≠ "0".toList) :
    (c'.stopped = false ∧ c'.value ≠ "0".toList) ∨
      (c'.stopped = true ∧ c'.value = "0".toList ∧
        (∀ a ∈ markerArms, ¬ a.marker <:+: c.buffer) ∧ ∃ u r, c.buffer = u ++ ['\r'] ++ r) := by
  obtain ⟨-, pre, a, post, u, r, harms, hpre, hbuf, rfl⟩ := Expect.fire_cases h
  have hone : "1".toList ≠ "0".toList := by decide
  have hminus : "-1".toList ≠ "0".toList := by decide
  rcases pre with _ | ⟨b₁, _ | ⟨b₂, _ | ⟨b₃, _ | ⟨b₄, _ | ⟨b₅, pre⟩⟩⟩⟩⟩
  all_goals simp only [runTestNegArms, markerArms, List.nil_append, List.cons_append,
    List.cons.injEq] at harms
  · obtain ⟨rfl, -⟩ := harms
    exact Or.inl ⟨rfl, hvalue⟩
  · obtain ⟨-, rfl, -⟩ := harms
    exact Or.inl ⟨rfl, hone⟩
  · obtain ⟨-, -, rfl, -⟩ := harms
    exact Or.inl ⟨rfl, hone⟩
  · obtain ⟨-, -, -, rfl, -⟩ := harms
    exact Or.inl ⟨rfl, hminus⟩
  · obtain ⟨rfl, rfl, rfl, rfl, rfl, -⟩ := harms
    exact Or.inr ⟨rfl, rfl, hpre, u, r, hbuf⟩
  · simp at harms

/-! ## What every chunking agrees on -/

/-- The value is 0 just when the loop has been ended by a line. -/
theorem sound_expectLoopNeg (chunks : List Str) :
    locReturnNeg chunks = "0".toList ↔ (expectLoopNeg chunks).stopped = true := by
  have h : (expectLoopNeg chunks).stopped = false ∧ locReturnNeg chunks ≠ "0".toList ∨
      (expectLoopNeg chunks).stopped = true ∧ locReturnNeg chunks = "0".toList := by
    refine Expect.run_induction runTestNegArms (P := fun _ c =>
      c.stopped = false ∧ c.value ≠ "0".toList ∨ c.stopped = true ∧ c.value = "0".toList)
      (Or.inl ⟨rfl, by decide⟩) (fun _ _ _ h => h) ?_ chunks
    rintro - c c' (⟨-, hvalue⟩ | ⟨hstopped, -⟩) hfire
    · exact (runTestNeg_fire_cases hfire hvalue).imp_right fun h => ⟨h.1, h.2.1⟩
    · rw [(Expect.fire_eq_none_iff c).mpr (Or.inl hstopped)] at hfire
      cases hfire
  rcases h with ⟨hstopped, hvalue⟩ | ⟨hstopped, hvalue⟩
  · rw [hstopped]
    exact iff_of_false hvalue Bool.false_ne_true
  · exact iff_of_true hvalue hstopped

/-- A line with no marker after it ends the loop in every chunking. -/
theorem line_noticed {x y : Str} (hy : ∀ a ∈ markerArms, ¬ a.marker <:+: y)
    (chunks rest : List Str) (h : chunks.flatten = x ++ ['\r'] ++ y) :
    locReturnNeg (chunks ++ rest) = "0".toList := by
  rw [sound_expectLoopNeg]
  apply Expect.hit_of_occurrence markerArms [] lineNegArm (fun _ stopped => stopped = true)
    (x := x) (y := y)
  · decide
  · exact hy
  · exact fun _ => rfl
  · exact fun _ => rfl
  · exact fun _ _ _ hw => by cases hw
  · exact h

/-- In a single chunk, a line with a marker after it goes unnoticed. -/
theorem locReturnNeg_single {text : Str} (h : ¬ EndsInLine text) :
    locReturnNeg [text] ≠ "0".toList := by
  have hminus : "-1".toList ≠ "0".toList := by decide
  refine (Expect.settle_induction runTestNegArms
    (P := fun c => c.value ≠ "0".toList ∧ c.buffer <:+ text) ?_ _ _
    ⟨hminus, List.suffix_refl text⟩).1
  rintro c c' ⟨hvalue, hbuffer⟩ hfire
  refine ⟨?_, (Expect.suffix_of_fire hfire).trans hbuffer⟩
  rcases runTestNeg_fire_cases hfire hvalue with ⟨-, hne⟩ | ⟨-, -, hmarkers, u, r, hbuf⟩
  · exact hne
  · -- what is behind this line is in the buffer, where there is no marker
    exfalso
    obtain ⟨d, rfl⟩ := hbuffer
    refine h ⟨d ++ u, r, ?_, fun a ha hr => hmarkers a ha (hr.trans ?_)⟩
    · rw [hbuf]
      simp only [List.append_assoc]
    · rw [hbuf]
      exact (List.suffix_append _ r).isInfix

/-- Without any line the value is not 0. -/
theorem mem_of_locReturnNeg {chunks : List Str} (h : locReturnNeg chunks = "0".toList) :
    '\r' ∈ chunks.flatten := by
  have hline : locReturnNeg chunks ≠ "0".toList ∨ '\r' ∈ chunks.flatten := by
    refine (Expect.run_induction runTestNegArms (P := fun text c =>
      (c.value ≠ "0".toList ∨ '\r' ∈ text) ∧ c.buffer <:+ text) ?_ ?_ ?_ chunks).1
    · exact ⟨Or.inl (by decide), List.nil_suffix⟩
    · rintro text c chunk ⟨hvalue, d, rfl⟩
      exact ⟨hvalue.imp_right (List.mem_append_left chunk), d, (List.append_assoc _ _ _).symm⟩
    · rintro text c c' ⟨hvalue, hbuffer⟩ hfire
      refine ⟨?_, (Expect.suffix_of_fire hfire).trans hbuffer⟩
      rcases hvalue with hvalue | hmem
      · rcases runTestNeg_fire_cases hfire hvalue with ⟨-, hne⟩ | ⟨-, -, -, u, r, hbuf⟩
        · exact Or.inl hne
        · refine Or.inr (hbuffer.subset ?_)
          rw [hbuf]
          simp
      · exact Or.inr hmem
  exact hline.resolve_left (not_not_intro h)

/-! ## The verdict -/

/-- The value is 0 in every chunking exactly for a text that ends in a line. -/
theorem locReturnNeg_every (text : Str) :
    (∀ chunks, IsSplit chunks text → locReturnNeg chunks = "0".toList) ↔ EndsInLine text := by
  constructor
  · intro h
    by_contra hends
    by_cases htext : text = []
    · subst htext
      exact absurd (h [] (by simp [IsSplit])) (by decide)
    · exact locReturnNeg_single hends (h [text] ⟨by simp, by simpa using Ne.symm htext⟩)
  · rintro ⟨x, y, rfl, hmarkers⟩ chunks ⟨hchunks, -⟩
    have hvalue := line_noticed hmarkers chunks [] hchunks
    rwa [List.append_nil] at hvalue

/-- The value is 0 in some chunking exactly for a text with a line. -/
theorem locReturnNeg_some (text : Str) :
    (∃ chunks, IsSplit chunks text ∧ locReturnNeg chunks = "0".toList) ↔ '\r' ∈ text := by
  constructor
  · rintro ⟨chunks, ⟨rfl, -⟩, hvalue⟩
    exact mem_of_locReturnNeg hvalue
  · -- cut right behind the line, whatever comes later
    intro hmem
    obtain ⟨x, y, rfl⟩ := List.append_of_mem hmem
    obtain ⟨rest, hsplit⟩ := exists_isSplit (append_ne_nil_of_marker lineArm.marker_ne) y
    have hrest : IsSplit ([x ++ ['\r']] ++ rest) (x ++ ['\r'] ++ y) := hsplit
    rw [List.append_assoc] at hrest
    refine ⟨_, hrest, line_noticed (x := x) (y := []) ?_ [x ++ ['\r']] rest ?_⟩
    · intro a _ hnil
      exact a.marker_ne (List.infix_nil.mp hnil)
    · simp

theorem uprobesRunTestNeg_of_succeeds {output expected : Str}
    (h : diffSucceeds output expected = true) (chunks : List Str) :
    uprobesRunTestNeg chunks output expected = .ok (locReturnNeg chunks) := by
  rw [diffSucceeds] at h
  rw [uprobesRunTestNeg]
  split at h
  next res hres =>
    rw [hres]
    exact if_pos h
  next => cases h

theorem uprobesRunTestNeg_of_not_succeeds {output expected : Str}
    (h : diffSucceeds output expected ≠ true) (chunks : List Str) :
    uprobesRunTestNeg chunks output expected ≠ .ok "0".toList := by
  rw [diffSucceeds] at h
  rw [uprobesRunTestNeg]
  split at h
  next res hres =>
    rw [hres]
    have hvalue : (if geZero res then pure (locReturnNeg chunks) else pure res :
        Except Tcl.Error Str) = .ok res := if_neg h
    intro heq
    have hres : res = "0".toList := Except.ok.inj (hvalue.symm.trans heq)
    rw [hres] at h
    exact h (by decide)
  next e he =>
    rw [he]
    intro heq
    cases heq

/-- In every chunking the verdict of `uprobes_run_test_neg` is that of `uprobes_diff`
    alone, a `PASSED`, an `ERROR` or an `Error` in the text or not, exactly when
    `uprobes_diff` does not succeed or the text ends in a line. -/
theorem uprobesRunTestNeg_iff (text output expected : Str) :
    (∀ chunks, IsSplit chunks text →
      (uprobesRunTestNeg chunks output expected = .ok "0".toList ↔
        diffSucceeds output expected = true)) ↔
    (diffSucceeds output expected = true → EndsInLine text) := by
  by_cases hdiff : diffSucceeds output expected = true
  · simp only [uprobesRunTestNeg_of_succeeds hdiff, hdiff, Except.ok.injEq, iff_true,
      forall_const]
    exact locReturnNeg_every text
  · simp only [uprobesRunTestNeg_of_not_succeeds hdiff, hdiff, implies_true,
      Bool.false_eq_true, false_implies]

/-- In some chunking it is a success exactly when `uprobes_diff` succeeds and the
    text has a line at all, so an `Error` in it need not be noticed. -/
theorem uprobesRunTestNeg_some (text output expected : Str) :
    (∃ chunks, IsSplit chunks text ∧ uprobesRunTestNeg chunks output expected = .ok "0".toList) ↔
      diffSucceeds output expected = true ∧ '\r' ∈ text := by
  by_cases hdiff : diffSucceeds output expected = true
  · simp only [uprobesRunTestNeg_of_succeeds hdiff, hdiff, Except.ok.injEq, true_and]
    exact locReturnNeg_some text
  · simp only [uprobesRunTestNeg_of_not_succeeds hdiff, hdiff, and_false, exists_false,
      Bool.false_eq_true, false_and]

/-! ## The expect loop of uprobes_rmmod -/

/-- The arms of `uprobes_rmmod` all set `loc_return` to 1. -/
def rmmodArms : List (Expect.Arm Char Str) :=
  [⟨errorUpper, errorUpperArm.marker_ne, fun _ => "1".toList, true⟩,
    ⟨error, errorArm.marker_ne, fun _ => "1".toList, true⟩,
    ⟨['\r'], lineArm.marker_ne, fun _ => "1".toList, true⟩]

/-- `uprobes_rmmod`, for the chunks of the output of rmmod. -/
def uprobesRmmod (chunks : List Str) : Str :=
  (Expect.run rmmodArms "0".toList chunks).value

/-- Unlike the verdicts on a test, the result of `uprobes_rmmod` does not depend on
    how the output is cut: it is 1 just for an output with a line or an error, and 0
    for any other. -/
theorem uprobesRmmod_iff (chunks : List Str) :
    (uprobesRmmod chunks = "1".toList ↔
      errorUpper <:+: chunks.flatten ∨ error <:+: chunks.flatten ∨ '\r' ∈ chunks.flatten) ∧
    (uprobesRmmod chunks = "0".toList ↔
      ¬ (errorUpper <:+: chunks.flatten ∨ error <:+: chunks.flatten ∨ '\r' ∈ chunks.flatten)) := by
  have hact : ∀ b ∈ rmmodArms, ∀ w, b.act w = "1".toList := by
    intro b hb w
    simp only [rmmodArms, List.mem_cons, List.not_mem_nil, or_false] at hb
    rcases hb with rfl | rfl | rfl <;> rfl
  have hone : uprobesRmmod chunks = "1".toList ↔
      errorUpper <:+: chunks.flatten ∨ error <:+: chunks.flatten ∨ '\r' ∈ chunks.flatten := by
    rw [uprobesRmmod, Expect.const_value_iff (by decide) hact (by decide)]
    simp [rmmodArms, List.singleton_infix_iff]
  have hdiffer : "0".toList ≠ "1".toList := by decide
  refine ⟨hone, ?_⟩
  rw [← hone]
  rcases Expect.const_value_eq_or (v := "0".toList) hact chunks with hzero | hset
  · exact iff_of_true hzero fun h => hdiffer (hzero.symm.trans h)
  · exact iff_of_false (fun h => hdiffer (h.symm.trans hset)) (not_not.mpr hset)

end UprobeTests.RunTest
