/-
  UprobeTests.Normalise

  The two `regsub` steps of `uprobes_diff`, on any line and on the line
  "Registering uprobe on inode %d, offset %#lx[%s]" of the modules.

  Normalising twice is normalising once (`normalise_settles`): no replacement
  makes or changes a match of either expression.  The line of a registration
  becomes the expected one only when the pointer, printed as an `int`, is
  positive: neither a sign nor a single 0 is matched (`registeringLines_iff`).
-/

import UprobeTests.Lib.Regsub
import UprobeTests.ProbeModule
import UprobeTests.UprobesDiff

namespace UprobeTests

open Tcl

/-! ## The two expressions -/

/-- ` [1-9][0-9,]+`. -/
def decimalPattern : RunPattern where
  first := ' '
  second c := '1' ≤ c && c ≤ '9'
  run c := isDecimal c || c == ','
  second_first := by decide

/-- `0x[0-9a-fA-F]+`. -/
def hexPattern : RunPattern where
  first := '0'
  second c := c == 'x'
  run := isHex
  second_first := by decide

/-- " 1234". -/
def decimalSub : Str := " 1234".toList

/-- "0xC0123456". -/
def hexSub : Str := "0xC0123456".toList

theorem isMatch_decimalSub : decimalPattern.IsMatch decimalSub :=
  ⟨'1', "234".toList, rfl, by decide, by decide, List.all_eq_true.mp (by decide)⟩

theorem isMatch_hexSub : hexPattern.IsMatch hexSub :=
  ⟨'x', "C0123456".toList, rfl, by decide, by decide, List.all_eq_true.mp (by decide)⟩

/-- No hexadecimal number reaches into a decimal one. -/
theorem decimal_apart_hex : decimalPattern.Apart hexPattern decimalSub where
  first := by decide
  second_first := by decide
  run_second c hc := by
    rw [beq_iff_eq.mp hc]
    decide
  first_second := by decide
  first_run := by decide
  sub := by decide

theorem matchDecimal_eq : matchDecimal = decimalPattern.matchLength := by
  funext t
  match t with
  | [] => rfl
  | [c] => simp [matchDecimal, RunPattern.matchLength]
  | a :: b :: cs =>
      by_cases ha : a = ' '
      · rw [ha]
        simp [matchDecimal, RunPattern.matchLength, decimalPattern, and_assoc]
      · rw [RunPattern.matchLength_of_ne ha]
        simp [matchDecimal, ha]

theorem matchHex_eq : matchHex = hexPattern.matchLength := by
  funext t
  match t with
  | [] => rfl
  | [c] => simp [matchHex, RunPattern.matchLength]
  | a :: b :: cs =>
      by_cases ha : a = '0'
      · by_cases hb : b = 'x'
        · rw [ha, hb]
          simp [matchHex, RunPattern.matchLength, hexPattern]
        · rw [RunPattern.matchLength_of_second (beq_false_of_ne hb)]
          simp [matchHex, hb]
      · rw [RunPattern.matchLength_of_ne ha]
        simp [matchHex, ha]

theorem normalise_eq (line : Str) :
    normalise line = hexPattern.regsub hexSub (decimalPattern.regsub decimalSub line) := by
  rw [normalise, matchDecimal_eq, matchHex_eq]
  rfl

/-- What `uprobes_diff` leaves alone: every number in it is the replacement. -/
structure LeftAlone (line : Str) : Prop where
  decimal : decimalPattern.Settled decimalSub line
  hex : hexPattern.Settled hexSub line

theorem normalise_eq_self_iff {line : Str} : normalise line = line ↔ LeftAlone line := by
  rw [normalise_eq, RunPattern.regsub_regsub_eq_self_iff decimal_apart_hex isMatch_decimalSub
    isMatch_hexSub]
  exact ⟨fun h => ⟨h.1, h.2⟩, fun h => ⟨h.decimal, h.hex⟩⟩

theorem leftAlone_normalise (line : Str) : LeftAlone (normalise line) := by
  rw [normalise_eq]
  obtain ⟨hdecimal, hhex⟩ := RunPattern.settled_regsub_regsub decimal_apart_hex isMatch_decimalSub
    isMatch_hexSub line
  exact ⟨hdecimal, hhex⟩

/-- Normalising twice is normalising once, and an expected line that normalising
    changes is no line of any output. -/
theorem normalise_settles :
    (∀ line, normalise (normalise line) = normalise line) ∧
      ∀ line, normalise line ≠ line → ∀ output, line ∉ outputLines output := by
  have htwice : ∀ line, normalise (normalise line) = normalise line :=
    fun line => normalise_eq_self_iff.mpr (leftAlone_normalise line)
  refine ⟨htwice, fun line hne output hmem => hne ?_⟩
  obtain ⟨printed, -, rfl⟩ := List.mem_map.mp hmem
  exact htwice printed

/-! ## The line of a registration -/

/-- What `%d` prints of the pointer. -/
def printedInode (inode : Option Inode) : Int := ((inode.getD 0).setWidth 32).toInt

/-- The line of `registeringText`. -/
def registeringLine (inode : Option Inode) (offset : Loff) (name : String) : Str :=
  (registeringText inode offset name).toList.dropLast

/-- The line in the expected files. -/
def expectedRegistering (name : String) : Str :=
  ("Registering uprobe on inode 1234 offset 0xC0123456[" ++ name ++ "]").toList

/-- "[%s]". -/
def bracketed (name : String) : Str := ("[" ++ name ++ "]").toList

/-- A name without a blank and without an x, such as `_probe_0`. -/
theorem leftAlone_bracketed {name : String} (h : ∀ c ∈ name.toList, c ≠ ' ' ∧ c ≠ 'x') :
    LeftAlone (bracketed name) := by
  have hname : ∀ c ∈ bracketed name, c ≠ ' ' ∧ c ≠ 'x' := by
    intro c hc
    rw [bracketed, String.toList_append, String.toList_append] at hc
    rcases List.mem_append.mp hc with hc | hc
    · rcases List.mem_append.mp hc with hc | hc
      · rw [List.mem_singleton.mp hc]
        decide
      · exact h c hc
    · rw [List.mem_singleton.mp hc]
      decide
  refine ⟨?_, RunPattern.settled_of_second fun c hc => beq_false_of_ne (hname c hc).2⟩
  rw [← List.append_nil (bracketed name),
    RunPattern.settled_append_iff isMatch_decimalSub fun hc => (hname ' ' hc).1 rfl]
  exact .nil

theorem mem_toDigits {b n : Nat} (hb : 1 < b) :
    ∀ c ∈ Nat.toDigits b n, ∃ d < b, c = Nat.digitChar d := by
  induction n using Nat.strongRecOn with
  | ind n ih =>
      intro c hc
      by_cases hlt : n < b
      · rw [Nat.toDigits_of_lt_base hlt] at hc
        exact ⟨n, hlt, List.mem_singleton.mp hc⟩
      · rw [Nat.toDigits_of_base_le hb (by omega)] at hc
        rcases List.mem_append.mp hc with hc | hc
        · exact ih (n / b) (Nat.div_lt_self (by omega) hb) c hc
        · exact ⟨n % b, Nat.mod_lt _ (by omega), List.mem_singleton.mp hc⟩

theorem isDecimal_digitChar {d : Nat} (h : d < 10) : isDecimal (Nat.digitChar d) = true := by
  revert d
  decide

theorem isHex_digitChar {d : Nat} (h : d < 16) : isHex (Nat.digitChar d) = true := by
  revert d
  decide

/-- A positive number begins with a digit that is not 0. -/
theorem toDigits_eq_cons {n : Nat} (hn : 0 < n) :
    ∃ d ds, Nat.toDigits 10 n = d :: ds ∧ decimalPattern.second d = true ∧
      ∀ c ∈ ds, isDecimal c = true := by
  have hfirst : ∀ {n}, n < 10 → 0 < n → decimalPattern.second (Nat.digitChar n) = true := by
    decide
  induction n using Nat.strongRecOn with
  | ind n ih =>
      by_cases hlt : n < 10
      · exact ⟨_, [], Nat.toDigits_of_lt_base hlt, hfirst hlt hn, by simp⟩
      · obtain ⟨d, ds, heq, hd, hds⟩ := ih (n / 10) (by omega) (by omega)
        refine ⟨d, ds ++ [Nat.digitChar (n % 10)], ?_, hd, ?_⟩
        · rw [Nat.toDigits_of_base_le (by decide) (by omega), heq, List.cons_append]
        · intro c hc
          rcases List.mem_append.mp hc with hc | hc
          · exact hds c hc
          · rw [List.mem_singleton.mp hc]
            exact isDecimal_digitChar (by omega)

theorem registeringLine_eq (inode : Option Inode) (offset : Loff) (name : String) :
    registeringLine inode offset name = "Registering uprobe on inode ".toList ++
      ((toString (printedInode inode)).toList ++ (", offset ".toList ++
        ("0x".toList ++ Nat.toDigits 16 offset.toNat ++ bracketed name))) := by
  have hend : "]\n".toList = "]".toList ++ ['\n'] := by decide
  have htext : (registeringText inode offset name).toList =
      ("Registering uprobe on inode ".toList ++
        ((toString (printedInode inode)).toList ++ (", offset ".toList ++
          ("0x".toList ++ Nat.toDigits 16 offset.toNat ++ bracketed name)))) ++ ['\n'] := by
    show ("Registering uprobe on inode " ++ toString (printedInode inode) ++ ", offset " ++
      ("0x" ++ String.ofList (Nat.toDigits 16 offset.toNat)) ++ "[" ++ name ++ "]\n").toList = _
    rw [String.toList_append, hend]
    simp only [bracketed, String.toList_append, String.toList_ofList, List.append_assoc]
  rw [registeringLine, htext, List.dropLast_concat]

/-- The first step comes to the printed pointer. -/
theorem regsub_registeringLine (inode : Option Inode) (offset : Loff) (name : String) :
    decimalPattern.regsub decimalSub (registeringLine inode offset name) =
      "Registering uprobe on inode".toList ++ decimalPattern.regsub decimalSub
        (' ' :: ((toString (printedInode inode)).toList ++ (", offset ".toList ++
          ("0x".toList ++ Nat.toDigits 16 offset.toNat ++ bracketed name)))) := by
  rw [registeringLine_eq]
  rfl

theorem isMatch_formatHex (v : BitVec 64) :
    hexPattern.IsMatch ("0x".toList ++ Nat.toDigits 16 v.toNat) := by
  refine ⟨'x', Nat.toDigits 16 v.toNat, rfl, by decide, Nat.toDigits_ne_nil, ?_⟩
  intro c hc
  obtain ⟨d, hd, rfl⟩ := mem_toDigits (by decide) c hc
  exact isHex_digitChar hd

/-- A positive pointer is replaced together with its comma. -/
theorem normalise_registeringLine_of_pos {inode : Option Inode} (h : 0 < printedInode inode)
    (offset : Loff) (name : String) :
    normalise (registeringLine inode offset name) =
      "Registering uprobe on inode 1234 offset 0xC0123456".toList ++ normalise (bracketed name) := by
  obtain ⟨n, hn⟩ := Int.eq_ofNat_of_zero_le (Int.le_of_lt h)
  have hpos : 0 < n := by omega
  obtain ⟨d, ds, hdigits, hd, hds⟩ := toDigits_eq_cons hpos
  have hprinted : (toString (printedInode inode)).toList = d :: ds := by
    rw [hn, ← hdigits]
    exact Nat.toList_repr
  have hmatch : decimalPattern.IsMatch (' ' :: d :: (ds ++ [','])) := by
    refine ⟨d, ds ++ [','], rfl, hd, by simp, ?_⟩
    intro c hc
    rcases List.mem_append.mp hc with hc | hc
    · exact Bool.or_eq_true_iff.mpr (Or.inl (hds c hc))
    · rw [List.mem_singleton.mp hc]
      decide
  have hhex := isMatch_formatHex offset
  -- no digit of the offset begins a decimal number
  have hoffset : decimalPattern.regsub decimalSub (" offset ".toList ++
      ("0x".toList ++ Nat.toDigits 16 offset.toNat ++ bracketed name)) =
      " offset ".toList ++ ("0x".toList ++ Nat.toDigits 16 offset.toNat ++
        decimalPattern.regsub decimalSub (bracketed name)) := by
    rw [← RunPattern.regsub_of_notMem (decimal_apart_hex.notMem_match hhex)]
    rfl
  have hdecimal : decimalPattern.regsub decimalSub (registeringLine inode offset name) =
      ("Registering uprobe on inode".toList ++ (decimalSub ++ " offset ".toList)) ++
        ("0x".toList ++ Nat.toDigits 16 offset.toNat ++
          decimalPattern.regsub decimalSub (bracketed name)) := by
    have hcomma : ' ' :: ((d :: ds) ++ (", offset ".toList ++
        ("0x".toList ++ Nat.toDigits 16 offset.toNat ++ bracketed name))) =
        ' ' :: d :: (ds ++ [',']) ++ (" offset ".toList ++
          ("0x".toList ++ Nat.toDigits 16 offset.toNat ++ bracketed name)) := by
      simp only [List.cons_append, List.append_assoc]
      rfl
    rw [regsub_registeringLine, hprinted, hcomma, RunPattern.regsub_append hmatch rfl, hoffset]
    simp only [List.append_assoc]
  -- the bracket ends the offset
  have hbracket : spanLength hexPattern.run
      (decimalPattern.regsub decimalSub (bracketed name)) = 0 := by
    rw [spanLength_eq_zero_congr (RunPattern.head?_regsub isMatch_decimalSub _), bracketed,
      String.toList_append, String.toList_append]
    rfl
  rw [normalise_eq, hdecimal, RunPattern.regsub_of_notMem (by decide),
    RunPattern.regsub_append hhex hbracket, ← normalise_eq, ← List.append_assoc]
  rfl

/-- Any other number begins with a sign or is 0. -/
theorem toString_of_not_pos {i : Int} (h : ¬ 0 < i) :
    ∃ c rest, (toString i).toList = c :: rest ∧ decimalPattern.second c = false ∧ c ≠ ' ' := by
  cases i with
  | ofNat n =>
      have hzero : n = 0 := by
        have hle : (n : Int) ≤ 0 := Int.not_lt.mp h
        omega
      subst hzero
      exact ⟨'0', [], by decide, by decide, by decide⟩
  | negSucc n =>
      refine ⟨'-', (Nat.repr (n + 1)).toList, ?_, by decide, by decide⟩
      show ("-" ++ Nat.repr (n + 1)).toList = _
      rw [String.toList_append]
      rfl

/-- Nothing else is replaced. -/
theorem normalise_registeringLine_of_not_pos {inode : Option Inode}
    (h : ¬ 0 < printedInode inode) (offset : Loff) (name : String) :
    ∃ c rest, decimalPattern.second c = false ∧ normalise (registeringLine inode offset name) =
      "Registering uprobe on inode".toList ++ ' ' :: c :: rest := by
  obtain ⟨c, digits, hdigits, hc, hne⟩ := toString_of_not_pos h
  have hdecimal : ∃ rest, decimalPattern.regsub decimalSub (registeringLine inode offset name) =
      ("Registering uprobe on inode".toList ++ [' ']) ++ c :: rest := by
    rw [regsub_registeringLine, hdigits, List.cons_append,
      RunPattern.regsub_cons (RunPattern.matchLength_of_second hc _ _),
      RunPattern.regsub_cons (RunPattern.matchLength_of_ne hne _), List.append_assoc]
    exact ⟨_, rfl⟩
  obtain ⟨rest, hdecimal⟩ := hdecimal
  have hhead := RunPattern.head?_regsub isMatch_hexSub (c :: rest)
  rw [normalise_eq, hdecimal, RunPattern.regsub_of_notMem (by decide), List.append_assoc]
  cases hlast : hexPattern.regsub hexSub (c :: rest) with
  | nil =>
      rw [hlast] at hhead
      cases hhead
  | cons c' rest' =>
      rw [hlast] at hhead
      cases hhead
      exact ⟨c, rest', hc, rfl⟩

theorem expectedRegistering_eq (name : String) :
    expectedRegistering name =
      "Registering uprobe on inode 1234 offset 0xC0123456".toList ++ bracketed name := by
  have hend : "Registering uprobe on inode 1234 offset 0xC0123456[".toList =
      "Registering uprobe on inode 1234 offset 0xC0123456".toList ++ "[".toList := by decide
  rw [expectedRegistering, bracketed]
  simp only [String.toList_append, hend, List.append_assoc]

/-- When the line of a registration becomes the one in the expected file. -/
theorem registeringLine_iff (inode : Option Inode) (offset : Loff) (name : String) :
    normalise (registeringLine inode offset name) = expectedRegistering name ↔
      0 < printedInode inode ∧ LeftAlone (bracketed name) := by
  rw [expectedRegistering_eq]
  by_cases hpos : 0 < printedInode inode
  · rw [normalise_registeringLine_of_pos hpos, List.append_cancel_left_eq, normalise_eq_self_iff,
      and_iff_right hpos]
  · refine iff_of_false (fun heq => ?_) fun h => hpos h.1
    obtain ⟨c, rest, hc, hline⟩ := normalise_registeringLine_of_not_pos hpos offset name
    have hsplit : "Registering uprobe on inode 1234 offset 0xC0123456".toList =
        "Registering uprobe on inode".toList ++ ' ' :: '1' :: "234 offset 0xC0123456".toList := by
      decide
    rw [hline, hsplit, List.append_assoc, List.append_cancel_left_eq] at heq
    obtain ⟨rfl, -⟩ := List.cons_eq_cons.mp (List.cons_eq_cons.mp heq).2
    exact absurd hc (by decide)

/-- Two runs of a module print lines that are normalised to the expected one
    exactly when in both the pointer is printed as a positive number, and the
    name of the symbol contains no other number. -/
theorem registeringLines_iff (inode inode' : Option Inode) (offset offset' : Loff) (name : String) :
    (normalise (registeringLine inode offset name) = expectedRegistering name ∧
      normalise (registeringLine inode' offset' name) = expectedRegistering name) ↔
    0 < printedInode inode ∧ 0 < printedInode inode' ∧ LeftAlone (bracketed name) := by
  rw [registeringLine_iff, registeringLine_iff]
  exact ⟨fun h => ⟨h.1.1, h.2.1, h.1.2⟩, fun h => ⟨⟨h.1, h.2.2⟩, h.2.1, h.2.2⟩⟩

/-- The inode object once in the lower half of a 4 GiB block and once in the
    upper half: the pointer is printed as 305419896 and as -229812616. -/
theorem registeringLines_differ :
    normalise (registeringLine (some 0xffff880012345678) 0x5a4 "_probe_0") =
        expectedRegistering "_probe_0" ∧
      normalise (registeringLine (some 0xffff8800f24d5678) 0x5a4 "_probe_0") ≠
        expectedRegistering "_probe_0" := by
  refine ⟨by decide, fun heq => ?_⟩
  exact absurd ((registeringLine_iff _ _ _).mp heq).1 (by decide)

end UprobeTests
