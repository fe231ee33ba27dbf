/-
  UprobeTests.RunTest

  lib/uprobes.exp, `uprobes_run_test`: the verdict on the output of the spawned
  test. The output arrives in chunks, and the verdict depends on how it is cut:
  the arm for `PASSED` ends the loop at once, with what arrived later unread,
  while `FAILED` and `Error` are looked for first and discard a `PASSED` that is
  in the buffer before them.

  Of `timeout` nothing is left: its arm does nothing but `exp_continue`.
-/

import UprobeTests.Lib.Expect
import UprobeTests.UprobesDiff

namespace UprobeTests.RunTest

open Tcl

/-! ## The expect loop -/

def failed : Str := "FAILED".toList

def error : Str := "Error".toList

def passed : Str := "PASSED".toList

def failedArm : Expect.Arm Char Str := ⟨failed, by decide, id, true⟩

def errorArm : Expect.Arm Char Str := ⟨error, by decide, fun _ => "1".toList, true⟩

def passedArm : Expect.Arm Char Str := ⟨passed, by decide, fun _ => "0".toList, false⟩

/-- `[^\r]*\r` matches from the start of the buffer up to its first `\r`, so it
    discards what a search for `\r` alone would. -/
def lineArm : Expect.Arm Char Str := ⟨['\r'], by decide, id, true⟩

def runTestArms : List (Expect.Arm Char Str) := [failedArm, errorArm, passedArm, lineArm]

/-- The loop over the chunks of the output, from `set loc_return -1` to `eof`. -/
def expectLoop (chunks : List Str) : Expect.Conf Char Str :=
  Expect.run runTestArms "-1".toList chunks

def locReturn (chunks : List Str) : Str := (expectLoop chunks).value

/-- `uprobes_run_test`, for the chunks of the test's output, the text in `r_file`
    and the text in `e_file`. -/
def uprobesRunTest (chunks : List Str) (output expected : Str) : Except Tcl.Error Str := do
  let res ← uprobesDiff output expected
  if geZero res then
    return locReturn chunks
  else
    return res

/-- A way to cut a text; Expect receives no empty chunk. -/
def IsSplit (chunks : List Str) (text : Str) : Prop := chunks.flatten = text ∧ [] ∉ chunks

instance (chunks : List Str) (text : Str) : Decidable (IsSplit chunks text) :=
  inferInstanceAs (Decidable (_ ∧ _))

/-! ## What one arm does -/

/-- The four ways to go on, in the order in which the arms are tried. -/
theorem runTest_fire_cases {c c' : Expect.Conf Char Str}
    (h : Expect.fire runTestArms c = some c') :
    c.stopped = false ∧ ∃ u r,
      (c.buffer = u ++ failed ++ r ∧ c' = ⟨c.value, r, false⟩) ∨
      (¬ failed <:+: c.buffer ∧ c.buffer = u ++ error ++ r ∧ c' = ⟨"1".toList, r, false⟩) ∨
      (c.buffer = u ++ passed ++ r ∧ c' = ⟨"0".toList, r, true⟩) ∨
      (c.buffer = u ++ ['\r'] ++ r ∧ c' = ⟨c.value, r, false⟩) := by
  obtain ⟨hrun, pre, a, post, u, r, harms, hpre, hbuf, rfl⟩ := Expect.fire_cases h
  refine ⟨hrun, u, r, ?_⟩
  rcases pre with _ | ⟨b₁, _ | ⟨b₂, _ | ⟨b₃, _ | ⟨b₄, pre⟩⟩⟩⟩
  all_goals simp only [runTestArms, List.nil_append, List.cons_append, List.cons.injEq] at harms
  · obtain ⟨rfl, -⟩ := harms
    exact Or.inl ⟨hbuf, rfl⟩
  · obtain ⟨rfl, rfl, -⟩ := harms
    exact Or.inr (Or.inl ⟨hpre failedArm (by simp), hbuf, rfl⟩)
  · obtain ⟨-, -, rfl, -⟩ := harms
    exact Or.inr (Or.inr (Or.inl ⟨hbuf, rfl⟩))
  · obtain ⟨-, -, -, rfl, -⟩ := harms
    exact Or.inr (Or.inr (Or.inr ⟨hbuf, rfl⟩))
  · simp at harms

/-! ## What every chunking agrees on -/

/-- Where the values come from: `0` from a `PASSED` in the output, `1` from an
    `Error` in it; the loop stops early only with `0`. -/
structure Sound (text : Str) (c : Expect.Conf Char Str) : Prop where
  buffer : c.buffer <:+ text
  stopped : c.stopped = true → c.value = "0".toList
  value : c.value = "-1".toList ∨ (c.value = "1".toList ∧ error <:+: text) ∨
    (c.value = "0".toList ∧ passed <:+: text)

theorem infix_of_suffix {buffer text u m r : Str} (h : buffer <:+ text)
    (hbuf : buffer = u ++ m ++ r) : m <:+: text := by
  have hm : m <:+: buffer := ⟨u, r, hbuf.symm⟩
  exact hm.trans h.isInfix

theorem sound_expectLoop (chunks : List Str) : Sound chunks.flatten (expectLoop chunks) := by
  refine Expect.run_induction runTestArms (P := Sound) ?_ ?_ ?_ chunks
  · exact ⟨List.nil_suffix, nofun, Or.inl rfl⟩
  · rintro text c chunk ⟨⟨d, rfl⟩, hstopped, hvalue⟩
    have hgrow {m : Str} (h : m <:+: d ++ c.buffer) : m <:+: d ++ c.buffer ++ chunk :=
      h.trans (List.prefix_append _ _).isInfix
    exact ⟨⟨d, (List.append_assoc _ _ _).symm⟩, hstopped,
      hvalue.imp_right (Or.imp (And.imp_right hgrow) (And.imp_right hgrow))⟩
  · rintro text c c' ⟨hbuffer, hstopped, hvalue⟩ hfire
    have hbuffer' : c'.buffer <:+ text := (Expect.suffix_of_fire hfire).trans hbuffer
    obtain ⟨-, u, r, ⟨-, rfl⟩ | ⟨-, hbuf, rfl⟩ | ⟨hbuf, rfl⟩ | ⟨-, rfl⟩⟩ := runTest_fire_cases hfire
    · exact ⟨hbuffer', nofun, hvalue⟩
    · exact ⟨hbuffer', nofun, Or.inr (Or.inl ⟨rfl, infix_of_suffix hbuffer hbuf⟩)⟩
    · exact ⟨hbuffer', fun _ => rfl, Or.inr (Or.inr ⟨rfl, infix_of_suffix hbuffer hbuf⟩)⟩
    · exact ⟨hbuffer', nofun, hvalue⟩

/-- An `Error` with no `FAILED` after it is noticed in every chunking, unless a
    `PASSED` ends the loop before. -/
theorem error_noticed {x y : Str} (hy : ¬ failed <:+: y) (chunks rest : List Str)
    (h : chunks.flatten = x ++ error ++ y) :
    (expectLoop (chunks ++ rest)).stopped = true ∨ locReturn (chunks ++ rest) = "1".toList := by
  apply Expect.hit_of_occurrence [failedArm] [passedArm, lineArm] errorArm
    (fun v stopped => stopped = true ∨ v = "1".toList) (x := x) (y := y)
  · decide
  · intro b hb
    obtain rfl := List.mem_singleton.mp hb
    exact hy
  · exact fun _ => Or.inr rfl
  · exact fun _ => Or.inl rfl
  · -- `FAILED` and a line keep the value, `PASSED` stops
    intro b hb w hw
    have hone := hw.resolve_left Bool.false_ne_true
    simp only [List.cons_append, List.nil_append, List.mem_cons, List.not_mem_nil, or_false] at hb
    rcases hb with rfl | rfl | rfl | rfl
    · exact Or.inr hone
    · exact Or.inr rfl
    · exact Or.inl rfl
    · exact Or.inr hone
  · exact h

/-- A `PASSED` with neither `FAILED` nor `Error` after it ends the loop in every chunking. -/
theorem passed_noticed {x y : Str} (hfailed : ¬ failed <:+: y) (herror : ¬ error <:+: y)
    (chunks rest : List Str) (h : chunks.flatten = x ++ passed ++ y) :
    (expectLoop (chunks ++ rest)).stopped = true := by
  apply Expect.hit_of_occurrence [failedArm, errorArm] [lineArm] passedArm
    (fun _ stopped => stopped = true) (x := x) (y := y)
  · decide
  · intro b hb
    rcases List.mem_cons.mp hb with rfl | hb
    · exact hfailed
    · obtain rfl := List.mem_singleton.mp hb
      exact herror
  · exact fun _ => rfl
  · exact fun _ => rfl
  · exact fun _ _ _ hw => by cases hw
  · exact h

/-- In a single chunk, every `Error` that has a `FAILED` after it goes unnoticed. -/
theorem locReturn_single {text : Str} (hpassed : ¬ passed <:+: text)
    (herror : ∀ x y, text = x ++ error ++ y → failed <:+: y) :
    locReturn [text] = "-1".toList := by
  refine (Expect.settle_induction runTestArms
    (P := fun c => c.value = "-1".toList ∧ c.buffer <:+ text) ?_ _ _
    ⟨rfl, List.suffix_refl text⟩).1
  rintro c c' ⟨hvalue, hbuffer⟩ hfire
  have hbuffer' : c'.buffer <:+ text := (Expect.suffix_of_fire hfire).trans hbuffer
  obtain ⟨-, u, r, ⟨-, rfl⟩ | ⟨hfailed, hbuf, rfl⟩ | ⟨hbuf, rfl⟩ | ⟨-, rfl⟩⟩ :=
    runTest_fire_cases hfire
  · exact ⟨hvalue, hbuffer'⟩
  · -- the `FAILED` after this `Error` is in the buffer and would have been taken first
    obtain ⟨d, hd⟩ := hbuffer
    have hr : failed <:+: r := herror (d ++ u) r (by rw [← hd, hbuf]; simp)
    refine absurd (hr.trans ?_) hfailed
    rw [hbuf]
    exact (List.suffix_append (u ++ error) r).isInfix
  · exact absurd (infix_of_suffix hbuffer hbuf) hpassed
  · exact ⟨hvalue, hbuffer'⟩

/-! ## The verdict -/

/-- Some `Error` is not followed by any `FAILED`. -/
def ErrorLast (text : Str) : Prop := ∃ x y, text = x ++ error ++ y ∧ ¬ failed <:+: y

/-- The texts for which the chunks do not matter. -/
def Decided (text : Str) : Prop :=
  (passed <:+: text ∧ ¬ failed <:+: text ∧ ¬ error <:+: text) ∨
  (¬ passed <:+: text ∧ (error <:+: text → ErrorLast text))

theorem locReturn_of_passed {chunks : List Str} {text : Str} (hchunks : chunks.flatten = text)
    (hpassed : passed <:+: text) (hfailed : ¬ failed <:+: text) (herror : ¬ error <:+: text) :
    locReturn chunks = "0".toList := by
  obtain ⟨x, y, rfl⟩ := hpassed
  have hy {m : Str} (h : m <:+: y) : m <:+: x ++ passed ++ y :=
    h.trans (List.suffix_append _ _).isInfix
  have hstopped := passed_noticed (fun h => hfailed (hy h)) (fun h => herror (hy h)) chunks []
    hchunks
  rw [List.append_nil] at hstopped
  exact (sound_expectLoop chunks).stopped hstopped

theorem locReturn_ne_zero {chunks : List Str} {text : Str} (hchunks : chunks.flatten = text)
    (hpassed : ¬ passed <:+: text) : locReturn chunks ≠ "0".toList := by
  intro h
  have hvalue := (sound_expectLoop chunks).value
  rw [hchunks] at hvalue
  rcases hvalue with h' | ⟨h', -⟩ | ⟨-, h'⟩
  · exact absurd (h.symm.trans h') (by decide)
  · exact absurd (h.symm.trans h') (by decide)
  · exact hpassed h'

theorem locReturn_of_error {chunks : List Str} {text : Str} (hchunks : chunks.flatten = text)
    (hpassed : ¬ passed <:+: text) (herror : ErrorLast text) :
    locReturn chunks = "1".toList := by
  obtain ⟨x, y, htext, hy⟩ := herror
  have hnoticed := error_noticed hy chunks [] (hchunks.trans htext)
  rw [List.append_nil] at hnoticed
  apply hnoticed.resolve_left
  intro hstopped
  exact locReturn_ne_zero hchunks hpassed ((sound_expectLoop chunks).stopped hstopped)

theorem locReturn_of_neither {chunks : List Str} {text : Str} (hchunks : chunks.flatten = text)
    (hpassed : ¬ passed <:+: text) (herror : ¬ error <:+: text) :
    locReturn chunks = "-1".toList := by
  have hvalue := (sound_expectLoop chunks).value
  rw [hchunks] at hvalue
  rcases hvalue with h | ⟨-, h⟩ | ⟨-, h⟩
  · exact h
  · exact absurd h herror
  · exact absurd h hpassed

/-- A text can be cut behind any nonempty beginning. -/
theorem exists_isSplit {u : Str} (hu : u ≠ []) (y : Str) :
    ∃ rest, IsSplit ([u] ++ rest) (u ++ y) := by
  by_cases hy : y = []
  · exact ⟨[], by simp [hy], by simpa using hu.symm⟩
  · exact ⟨[y], by simp, by simpa using ⟨hu, hy⟩⟩

theorem append_ne_nil_of_marker {x m : Str} (hm : m ≠ []) : x ++ m ≠ [] :=
  List.append_ne_nil_of_right_ne_nil x hm

/-- Cut right behind a `PASSED`, the text is taken for a success. -/
theorem exists_split_zero {text : Str} (h : passed <:+: text) :
    ∃ chunks, IsSplit chunks text ∧ locReturn chunks = "0".toList := by
  obtain ⟨x, y, rfl⟩ := h
  obtain ⟨rest, hrest⟩ := exists_isSplit (append_ne_nil_of_marker passedArm.marker_ne) y
  refine ⟨_, hrest, (sound_expectLoop _).stopped ?_⟩
  exact passed_noticed (x := x) (y := []) (by decide) (by decide) [x ++ passed] rest (by simp)

/-- Cut right behind an `Error`, the error is noticed. -/
theorem exists_split_one {text : Str} (h : error <:+: text) (hpassed : ¬ passed <:+: text) :
    ∃ chunks, IsSplit chunks text ∧ locReturn chunks = "1".toList := by
  obtain ⟨x, y, rfl⟩ := h
  obtain ⟨rest, hrest⟩ := exists_isSplit (append_ne_nil_of_marker errorArm.marker_ne) y
  refine ⟨_, hrest, ?_⟩
  have hnoticed := error_noticed (x := x) (y := []) (by decide) [x ++ error] rest (by simp)
  apply hnoticed.resolve_left
  intro hstopped
  exact locReturn_ne_zero hrest.1 hpassed ((sound_expectLoop _).stopped hstopped)

/-- Every chunking gives one value, and the value `0` just for a text with a
    `PASSED` and neither `FAILED` nor `Error`, exactly when the text is decided. -/
theorem locReturn_iff (text : Str) :
    ((∀ chunks₁ chunks₂, IsSplit chunks₁ text → IsSplit chunks₂ text →
        locReturn chunks₁ = locReturn chunks₂) ∧
      (∀ chunks, IsSplit chunks text → (locReturn chunks = "0".toList ↔
        passed <:+: text ∧ ¬ failed <:+: text ∧ ¬ error <:+: text))) ↔
    Decided text := by
  constructor
  · rintro ⟨hsame, hzero⟩
    by_cases hpassed : passed <:+: text
    · obtain ⟨chunks, hsplit, hvalue⟩ := exists_split_zero hpassed
      exact Or.inl ((hzero chunks hsplit).mp hvalue)
    · refine Or.inr ⟨hpassed, fun herror => ?_⟩
      by_contra hlast
      obtain ⟨chunks, hsplit, hvalue⟩ := exists_split_one herror hpassed
      have hsingle : locReturn [text] = "-1".toList := by
        apply locReturn_single hpassed
        intro x y htext
        by_contra hy
        exact hlast ⟨x, y, htext, hy⟩
      have htext : text ≠ [] := by
        rintro rfl
        exact errorArm.marker_ne (List.infix_nil.mp herror)
      have := hsame chunks [text] hsplit ⟨by simp, by simpa using htext.symm⟩
      rw [hvalue, hsingle] at this
      exact absurd this (by decide)
  · rintro (⟨hpassed, hfailed, herror⟩ | ⟨hpassed, hlast⟩)
    · have hvalue {chunks : List Str} (h : IsSplit chunks text) :
          locReturn chunks = "0".toList :=
        locReturn_of_passed h.1 hpassed hfailed herror
      exact ⟨fun _ _ h₁ h₂ => (hvalue h₁).trans (hvalue h₂).symm,
        fun chunks h => iff_of_true (hvalue h) ⟨hpassed, hfailed, herror⟩⟩
    · refine ⟨fun chunks₁ chunks₂ h₁ h₂ => ?_, fun chunks h =>
        iff_of_false (locReturn_ne_zero h.1 hpassed) fun hmarks => hpassed hmarks.1⟩
      by_cases herror : error <:+: text
      · exact (locReturn_of_error h₁.1 hpassed (hlast herror)).trans
          (locReturn_of_error h₂.1 hpassed (hlast herror)).symm
      · exact (locReturn_of_neither h₁.1 hpassed herror).trans
          (locReturn_of_neither h₂.1 hpassed herror).symm

theorem uprobesRunTest_of_succeeds {output expected : Str}
    (h : diffSucceeds output expected = true) (chunks : List Str) :
    uprobesRunTest chunks output expected = .ok (locReturn chunks) := by
  rw [diffSucceeds] at h
  rw [uprobesRunTest]
  split at h
  next res hres =>
    rw [hres]
    exact if_pos h
  next => cases h

theorem uprobesRunTest_of_not_succeeds {output expected : Str}
    (h : diffSucceeds output expected ≠ true) (chunks : List Str) :
    uprobesRunTest chunks output expected = uprobesDiff output expected := by
  rw [diffSucceeds] at h
  rw [uprobesRunTest]
  split at h
  next res hres =>
    rw [hres]
    exact if_neg h
  next e he =>
    rw [he]
    rfl

/-- `uprobes_run_test`'s value is the same for every chunking, and with a successful
    `uprobes_diff` it is 0 just for a text with a `PASSED` and neither `FAILED` nor
    `Error`, exactly when `uprobes_diff` does not succeed or the text is decided; and
    so it is for `loc_return` alone, whatever `uprobes_diff` says. -/
theorem uprobesRunTest_iff (text output expected : Str) :
    (((∀ chunks₁ chunks₂, IsSplit chunks₁ text → IsSplit chunks₂ text →
          uprobesRunTest chunks₁ output expected = uprobesRunTest chunks₂ output expected) ∧
        (diffSucceeds output expected → ∀ chunks, IsSplit chunks text →
          (uprobesRunTest chunks output expected = .ok "0".toList ↔
            passed <:+: text ∧ ¬ failed <:+: text ∧ ¬ error <:+: text))) ↔
      (diffSucceeds output expected → Decided text)) ∧
    (((∀ chunks₁ chunks₂, IsSplit chunks₁ text → IsSplit chunks₂ text →
          locReturn chunks₁ = locReturn chunks₂) ∧
        (∀ chunks, IsSplit chunks text → (locReturn chunks = "0".toList ↔
          passed <:+: text ∧ ¬ failed <:+: text ∧ ¬ error <:+: text))) ↔
      Decided text) := by
  refine ⟨?_, locReturn_iff text⟩
  by_cases hdiff : diffSucceeds output expected = true
  · simp only [uprobesRunTest_of_succeeds hdiff, hdiff, Except.ok.injEq, forall_const]
    exact locReturn_iff text
  · simp only [uprobesRunTest_of_not_succeeds hdiff, hdiff, IsEmpty.forall_iff,
      implies_true, and_self, Bool.false_eq_true]

/-- A `PASSED` with an `Error` after it: success when they arrive one by one,
    a failure when they arrive together. -/
theorem uprobesRunTest_split_matters :
    ¬ (∀ text output expected : Str,
      (∀ chunks₁ chunks₂, IsSplit chunks₁ text → IsSplit chunks₂ text →
        uprobesRunTest chunks₁ output expected = uprobesRunTest chunks₂ output expected) ∧
      (diffSucceeds output expected → ∀ chunks, IsSplit chunks text →
        (uprobesRunTest chunks output expected = .ok "0".toList ↔
          passed <:+: text ∧ ¬ failed <:+: text ∧ ¬ error <:+: text))) := by
  intro h
  have hsame := (h "***PASSED***\r\nError\r\n".toList [] []).1
    ["***PASSED***\r\nError\r\n".toList] ["***PASSED***\r\n".toList, "Error\r\n".toList]
    (by decide) (by decide)
  revert hsame
  decide

end UprobeTests.RunTest
