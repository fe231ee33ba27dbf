/-
  UprobeTests.ModuleReads

  The buffer is large enough for a module with an `init_module` like kthread's that
  registers no more than the ten probe functions, whatever the numbers in its texts:
  who reads its data file to the end has them all (`module_read`).
-/

import UprobeTests.ModuleTests

namespace UprobeTests

open Tcl ModuleTests

namespace DataRead

/-! ## The lengths of the texts -/

theorem length_registeringText_le (inode : Option Inode) (offset : Loff) (name : String) :
    (registeringText inode offset name).length ≤ 69 + name.length := by
  have hinode : (toString (printedInode inode)).length ≤ 11 := length_toString_int_le _
  have hoffset := length_formatHex_le offset
  have htext : (registeringText inode offset name).length =
      "Registering uprobe on inode ".length + (toString (printedInode inode)).length +
        ", offset ".length + (formatHex offset).length + "[".length + name.length +
          "]\n".length := by
    show ("Registering uprobe on inode " ++ toString (printedInode inode) ++ ", offset " ++
      formatHex offset ++ "[" ++ name ++ "]\n").length = _
    simp only [String.length_append]
  have hwords : "Registering uprobe on inode ".length = 28 ∧ ", offset ".length = 9 ∧
      "[".length = 1 ∧ "]\n".length = 2 := by decide
  omega

variable {o : Outcomes} {syms : List Symbol}

theorem length_registeringTexts_le {names : List String} (h : ∀ name ∈ names, name.length ≤ 8)
    (p : Nat) :
    ((registeringTexts o syms names p).map String.length).sum ≤ names.length * 77 := by
  induction names generalizing p with
  | nil => exact Nat.le_refl _
  | cons found names ih =>
      obtain ⟨hfound, hnames⟩ := List.forall_mem_cons.mp h
      have hline := length_registeringText_le (inodeOf o syms found p) (findOffset found syms)
        found
      have hrest := ih hnames (p + 1)
      rw [registeringTexts, List.map_cons, List.sum_cons, List.length_cons]
      omega

theorem length_numProbes_le {w : Nat} (hw : w ≤ 64) (numProbes : BitVec w) :
    (toString numProbes.toInt).length ≤ 21 := by
  have hle := natAbs_toInt_le numProbes
  have hpow : 2 ^ w ≤ 2 ^ 64 := Nat.pow_le_pow_right (by decide) hw
  exact length_toString_le (by decide) (by omega)

/-- What `child_exit` prints. -/
def IsLastText {w : Nat} (numProbes : BitVec w) (last : String) : Prop :=
  last = numProbesText numProbes ∨ last = numProbesSpacedText numProbes

theorem IsLastText.length_le {w : Nat} (hw : w ≤ 64) {numProbes : BitVec w} {last : String}
    (h : IsLastText numProbes last) : last.length ≤ 35 := by
  have hnumber := length_numProbes_le hw numProbes
  have hwords : "num_probes=".length = 11 ∧ "num_probes = ".length = 13 ∧ "\n".length = 1 := by
    decide
  rcases h with rfl | rfl
  · have htext : (numProbesText numProbes).length = "num_probes=".length +
        (toString numProbes.toInt).length + "\n".length := by
      show ("num_probes=" ++ toString numProbes.toInt ++ "\n").length = _
      rw [String.length_append, String.length_append]
    omega
  · have htext : (numProbesSpacedText numProbes).length = "num_probes = ".length +
        (toString numProbes.toInt).length + "\n".length := by
      show ("num_probes = " ++ toString numProbes.toInt ++ "\n").length = _
      rw [String.length_append, String.length_append]
    omega

/-- Eleven lines of registrations and a count fit. -/
theorem length_module {names : List String} (hten : names.Sublist (probes ++ ["_probe_9"]))
    {w : Nat} (hw : w ≤ 64) {numProbes : BitVec w} {last : String}
    (hlast : IsLastText numProbes last) :
    TextsFit (registeringTexts o syms names 0 ++ [last]) := by
  have height : ∀ name ∈ probes ++ ["_probe_9"], name.length ≤ 8 := by decide
  have hlines : ((registeringTexts o syms names 0).map String.length).sum ≤ names.length * 77 :=
    length_registeringTexts_le (fun name hname => height name (hten.subset hname)) 0
  have hcount : names.length ≤ 11 := hten.length_le
  have hend := hlast.length_le hw
  rw [TextsFit, List.map_append, List.sum_append, List.map_singleton, List.sum_singleton,
    dataBufSize]
  omega

end DataRead

end UprobeTests
