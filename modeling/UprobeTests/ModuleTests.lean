/-
  UprobeTests.ModuleTests

  The tests of uprobes.w that compare what a module has printed: kfork_thread,
  kthread, kexec and ksuicide print a line for each probe they register and, when
  the test is over, `num_probes`.

  A line is accepted when the kernel's inode pointer happens to be printed as a
  positive number.  A probe missing from the symbol table goes unnoticed
  (`kforkThread_test_iff`, `ksuicide_test_iff`), and the files of kthread and kexec
  still have the lines of an older interface, so that their tests pass with no
  probe registered or not at all (`kthread_test_iff`, `kexec_never_passes`).
-/

import UprobeTests.DataRead
import UprobeTests.RegisterLoop

namespace UprobeTests

open Tcl DataRead

namespace ModuleTests

/-! ## What the modules print -/

/-- What `child_exit` prints in ksuicide and kexec, "num_probes=%ld\n". -/
def numProbesText {w : Nat} (numProbes : BitVec w) : String :=
  "num_probes=" ++ toString numProbes.toInt ++ "\n"

/-- What `child_exit` prints in kthread and kfork_thread, "num_probes = %ld\n". -/
def numProbesSpacedText {w : Nat} (numProbes : BitVec w) : String :=
  "num_probes = " ++ toString numProbes.toInt ++ "\n"

section Printed

variable (o : Outcomes) (syms : List Symbol)

/-- The inode of the symbol `found` when `p` calls of `kern_path` were made before. -/
def inodeOf (found : String) (p : Nat) : Option Inode :=
  (firstNamed found syms).bind fun e => o.kernPath p e.path

/-- The lines of the registrations of the symbols `names`. -/
def registeringTexts : List String → Nat → List String
  | [], _ => []
  | found :: names, p =>
      registeringText (inodeOf o syms found p) (findOffset found syms) found ::
        registeringTexts names (p + 1)

/-- The symbols a module registers, in order. -/
def names (m : ProbeModule) : List String :=
  probeNames syms ++ if m.suicide then ["_probe_9"] else []

/-- What an x86_64 module has printed when it is loaded and `child_exit` has printed
    `last`. -/
def texts (m : ProbeModule) (last : String) : List String :=
  (m.initModule o syms .init).2.printed ++ [last]

variable {o syms}

/-- What `find_inode` finds, of a name in the table or not. -/
theorem findInode_eq (o : Outcomes) (syms : List Symbol) (found : String) (k : Kern) :
    (findInode o found syms k).1 = inodeOf o syms found k.kernPathCalls := by
  cases hfirst : firstNamed found syms with
  | some e =>
      rw [(findInode_of_firstNamed o hfirst k).1, inodeOf, hfirst]
      rfl
  | none =>
      rw [inodeOf, hfirst]
      induction syms with
      | nil => rfl
      | cons s syms ih =>
          rw [firstNamed, List.find?_cons] at hfirst
          split at hfirst
          · cases hfirst
          · rename_i hname
            rw [findInode, if_neg (by simpa using hname)]
            exact ih hfirst

/-- What is left of a turn once `kzalloc` has succeeded. -/
def registerFound (o : Outcomes) (syms : List Symbol) (h : Handler) (found : String) (k : Kern) :
    Int × Kern :=
  let place := findInode o found syms k.withConsumer
  let offset := findOffset found syms
  ((place.2.setHandler k.kzallocCalls h).testPrintk
    (registeringText place.1 offset found)).uprobeRegister o place.1 offset k.kzallocCalls

/-- It prints the line of the registration, whatever `uprobe_register` says. -/
theorem registerFound_printed (h : Handler) (found : String) (k : Kern) :
    (registerFound o syms h found k).2.printed = k.printed ++
        [registeringText (inodeOf o syms found k.kernPathCalls) (findOffset found syms) found] ∧
      ((∃ e, firstNamed found syms = some e) →
        (registerFound o syms h found k).2.kernPathCalls = k.kernPathCalls + 1) := by
  have hinode := findInode_eq o syms found k.withConsumer
  have hprinted : (findInode o found syms k.withConsumer).2.printed = k.printed := by
    obtain ⟨_, _, _, hframe⟩ := findInode_frame o found syms k.withConsumer
    rw [hframe]
    rfl
  refine ⟨?_, fun ⟨e, he⟩ => (findInode_of_firstNamed o he k.withConsumer).2⟩
  show (findInode o found syms k.withConsumer).2.printed ++ [registeringText
    (findInode o found syms k.withConsumer).1 (findOffset found syms) found] = _
  rw [hprinted, hinode]
  rfl

/-- A turn that goes on has printed its line. -/
theorem registerProbe_printed {h : Handler} {found : String} {k k' : Kern}
    (hgo : registerProbe o syms h found k = (none, k')) :
    k'.printed = k.printed ++ [registeringText (inodeOf o syms found k.kernPathCalls)
        (findOffset found syms) found] ∧
      ((∃ e, firstNamed found syms = some e) → k'.kernPathCalls = k.kernPathCalls + 1) := by
  rw [registerProbe, Kern.kzalloc] at hgo
  by_cases hz : o.kzalloc k.kzallocCalls = true
  · rw [if_pos hz] at hgo
    have hturn : (if (registerFound o syms h found k).1 ≠ 0 then
        (some (-1), uDbfsCleanup (registerFound o syms h found k).2)
      else (none, (registerFound o syms h found k).2)) = (none, k') := hgo
    split at hturn
    · cases hturn
    · cases hturn
      exact registerFound_printed h found k
  · rw [if_neg hz] at hgo
    cases hgo

/-- A loop that gets to the end of the table has printed a line for each turn. -/
theorem runEach_printed {h : Handler} {l : List (Nat × String)}
    (hl : ∀ x ∈ l, ∃ e, firstNamed x.2 syms = some e) {k k' : Kern}
    (hgo : runEach (fun _ => registerProbe o syms h) l k = (none, k')) :
    k'.printed = k.printed ++ registeringTexts o syms (l.map Prod.snd) k.kernPathCalls ∧
      k'.kernPathCalls = k.kernPathCalls + l.length := by
  induction l generalizing k with
  | nil =>
      cases hgo
      exact ⟨(List.append_nil _).symm, rfl⟩
  | cons x l ih =>
      obtain ⟨hx, hl⟩ := List.forall_mem_cons.mp hl
      rw [runEach] at hgo
      split at hgo
      · cases hgo
      · rename_i k₁ hturn
        obtain ⟨hprinted, hpaths⟩ := registerProbe_printed hturn
        obtain ⟨hrest, hrestPaths⟩ := ih hl hgo
        rw [hpaths hx] at hrest hrestPaths
        rw [hrest, hprinted, List.append_assoc, hrestPaths]
        exact ⟨rfl, by rw [List.length_cons]; omega⟩

theorem registeringTexts_append (l l' : List String) (p : Nat) :
    registeringTexts o syms (l ++ l') p =
      registeringTexts o syms l p ++ registeringTexts o syms l' (p + l.length) := by
  induction l generalizing p with
  | nil => rfl
  | cons found l ih =>
      rw [List.cons_append, registeringTexts, registeringTexts, ih, List.cons_append,
        List.length_cons]
      congr 3
      omega

/-- A turn that ends `init_module` makes it fail. -/
theorem registerProbe_fails {h : Handler} {found : String} {k k' : Kern} {ret : Int}
    (hstop : registerProbe o syms h found k = (some ret, k')) : ret ≠ 0 := by
  rw [registerProbe] at hstop
  split at hstop
  · cases hstop
    decide
  · dsimp only at hstop
    split at hstop
    · cases hstop
      decide
    · cases hstop

theorem runEach_fails {h : Handler} {l : List (Nat × String)} {k k' : Kern} {ret : Int}
    (hstop : runEach (fun _ => registerProbe o syms h) l k = (some ret, k')) : ret ≠ 0 := by
  induction l generalizing k with
  | nil => cases hstop
  | cons x l ih =>
      rw [runEach] at hstop
      split at hstop
      · rename_i hturn
        cases hstop
        exact registerProbe_fails hturn
      · exact ih hstop

theorem registerProbes_printed {m : ProbeModule} {k : Kern}
    (h : (m.registerProbes o syms k).1 = 0) :
    (m.registerProbes o syms k).2.printed =
      k.printed ++ registeringTexts o syms (names syms m) k.kernPathCalls := by
  have hfound := exists_firstNamed_of_globMatches "_probe" syms
  have hnames := globMatches_map_snd "_probe" 0 syms
  rw [ProbeModule.registerProbes, forEachGlob_eq] at h ⊢
  split at h
  · rename_i ret k₁ hstop
    exact absurd h (runEach_fails hstop)
  · rename_i k₁ hgo
    obtain ⟨hprinted, hpaths⟩ := runEach_printed hfound hgo
    rw [hnames] at hprinted
    by_cases hsuicide : m.suicide = true
    · rw [if_pos hsuicide] at h ⊢
      split at h
      · rename_i ret k₂ hstop
        exact absurd h (registerProbe_fails hstop)
      · rename_i k₂ hlast
        show k₂.printed = _
        rw [(registerProbe_printed hlast).1, hprinted, hpaths, names, if_pos hsuicide,
          registeringTexts_append, probeNames, List.append_assoc, ← hnames, List.length_map]
        rfl
    · rw [if_neg hsuicide, names, if_neg hsuicide, List.append_nil, probeNames]
      exact hprinted

/-- A module that is loaded has printed a line for each symbol it registers. -/
theorem initModule_printed {m : ProbeModule} (h : (m.initModule o syms .init).1 = 0) :
    (m.initModule o syms .init).2.printed = registeringTexts o syms (names syms m) 0 := by
  have hspec := uDbfsInit_spec o m.dbgDirPath
  rw [ProbeModule.initModule] at h ⊢
  split at h
  · cases h
  · rename_i hinit
    rw [if_neg hinit]
    dsimp only at h ⊢
    split at h
    · cases h
    · rename_i hret
      -- a `u_dbfs_init` that does not fail has printed nothing
      have hready : uDbfsInit o m.dbgDirPath .init =
          (0, .ready m.dbgDirPath (o.debugfsCreate 2)) := by
        split at hspec
        · rw [hspec.1] at hret
          exact absurd (by decide) hret
        · split at hspec
          · rw [hspec.1] at hret
            exact absurd (by decide) hret
          · exact hspec
      rw [if_neg hret, hready]
      rw [hready] at h
      exact registerProbes_printed h

end Printed

/-! ## The lines of the registrations -/

section Lines

theorem isTextOf_registering {found : String} (hfound : Plain found.toList)
    (inode : Option Inode) (offset : Loff) :
    IsTextOf (registeringText inode offset found) (registeringLine inode offset found) := by
  constructor
  · have hend : "]\n".toList = "]".toList ++ ['\n'] := by decide
    have htext : (registeringText inode offset found).toList = ("Registering uprobe on inode " ++
        toString (printedInode inode) ++ ", offset " ++ formatHex offset ++ "[" ++ found).toList ++
          "]\n".toList := String.toList_append
    rw [registeringLine, htext, hend, ← List.append_assoc, List.dropLast_concat]
  · have hhex : Plain ("0x".toList ++ Nat.toDigits 16 offset.toNat) := by
      have h := plain_formatHex offset
      simpa only [formatHex, String.toList_append, String.toList_ofList] using h
    have hbracketed : Plain (bracketed found) := by
      rw [bracketed, String.toList_append, String.toList_append]
      exact (Plain.append (by decide) hfound).append (by decide)
    rw [registeringLine_eq]
    exact IsLine.append (by decide) ((plain_toString _).append
      (Plain.append (by decide) (hhex.append hbracketed)))

/-- What normalising the rest of a line cannot make of another name. -/
theorem normalise_bracketed_iff {name name' : String}
    (h : ∀ c ∈ name'.toList, c ≠ ' ' ∧ c ≠ 'x') :
    normalise (bracketed name) = bracketed name' ↔ name = name' := by
  have hplain : ∀ c ∈ bracketed name', c ≠ ' ' ∧ c ≠ 'x' := by
    intro c hc
    rw [bracketed, String.toList_append, String.toList_append] at hc
    rcases List.mem_append.mp hc with hc | hc
    · rcases List.mem_append.mp hc with hc | hc
      · rw [List.mem_singleton.mp hc]
        decide
      · exact h c hc
    · rw [List.mem_singleton.mp hc]
      decide
  constructor
  · intro heq
    -- neither of the replacements shows in the result
    rw [normalise_eq] at heq
    have hhex : hexPattern.regsub hexSub (decimalPattern.regsub decimalSub (bracketed name)) =
        decimalPattern.regsub decimalSub (bracketed name) :=
      RunPattern.regsub_eq_self_of_notMem (c := 'x') (by decide) fun hc =>
        (hplain 'x' (heq ▸ hc)).2 rfl
    rw [hhex] at heq
    have hdecimal : decimalPattern.regsub decimalSub (bracketed name) = bracketed name :=
      RunPattern.regsub_eq_self_of_notMem (c := ' ') (by decide) fun hc =>
        (hplain ' ' (heq ▸ hc)).1 rfl
    rw [hdecimal] at heq
    simp only [bracketed, String.toList_append] at heq
    exact String.toList_injective (List.append_cancel_left (List.append_cancel_right heq))
  · rintro rfl
    exact normalise_eq_self_iff.mpr (leftAlone_bracketed h)

/-- A line of a registration becomes one of an expected file exactly for the same
    name and a positive inode. -/
theorem registeringLine_expected_iff {name name' : String}
    (h : ∀ c ∈ name'.toList, c ≠ ' ' ∧ c ≠ 'x') (inode : Option Inode) (offset : Loff) :
    normalise (registeringLine inode offset name) = expectedRegistering name' ↔
      0 < printedInode inode ∧ name = name' := by
  rw [expectedRegistering_eq]
  by_cases hpos : 0 < printedInode inode
  · rw [normalise_registeringLine_of_pos hpos, List.append_cancel_left_eq,
      normalise_bracketed_iff h, and_iff_right hpos]
  · refine iff_of_false (fun heq => ?_) fun h => hpos h.1
    obtain ⟨c, rest, hc, hline⟩ := normalise_registeringLine_of_not_pos hpos offset name
    have hsplit : "Registering uprobe on inode 1234 offset 0xC0123456".toList =
        "Registering uprobe on inode".toList ++ ' ' :: '1' :: "234 offset 0xC0123456".toList := by
      decide
    rw [hline, hsplit, List.append_assoc, List.append_cancel_left_eq] at heq
    obtain ⟨rfl, -⟩ := List.cons_eq_cons.mp (List.cons_eq_cons.mp heq).2
    exact absurd hc (by decide)

variable (o : Outcomes) (syms : List Symbol)

/-- Every inode is printed as a positive number. -/
def InodesPositive (names : List String) (p : Nat) : Prop :=
  ∀ j found, names[j]? = some found → 0 < printedInode (inodeOf o syms found (p + j))

variable {o syms}

theorem inodesPositive_cons {found : String} {names : List String} {p : Nat} :
    InodesPositive o syms (found :: names) p ↔
      0 < printedInode (inodeOf o syms found p) ∧ InodesPositive o syms names (p + 1) := by
  constructor
  · intro h
    refine ⟨h 0 found rfl, fun j name hname => ?_⟩
    have hj := h (j + 1) name hname
    rwa [show p + (j + 1) = p + 1 + j by omega] at hj
  · rintro ⟨hfirst, hrest⟩ j name hname
    cases j with
    | zero =>
        cases hname
        exact hfirst
    | succ j =>
        rw [show p + (j + 1) = p + 1 + j by omega]
        exact hrest j name hname

/-- The lines of the registrations, normalised. -/
def registeringLines (o : Outcomes) (syms : List Symbol) (names : List String) (p : Nat) :
    List Str :=
  (registeringTexts o syms names p).map fun text => normalise text.toList.dropLast

/-- Nothing in the names is replaced. -/
def NoNumbers (regs : List String) : Prop := ∀ name ∈ regs, ∀ c ∈ name.toList, c ≠ ' ' ∧ c ≠ 'x'

theorem expectedRegistering_injective : Function.Injective expectedRegistering := by
  intro name name' h
  rw [expectedRegistering, expectedRegistering] at h
  simp only [String.toList_append] at h
  exact String.toList_injective (List.append_cancel_left (List.append_cancel_right h))

theorem registeringLines_eq {names : List String} {p : Nat}
    (hnames : NoNumbers names) (hpos : InodesPositive o syms names p) :
    registeringLines o syms names p = names.map expectedRegistering := by
  induction names generalizing p with
  | nil => rfl
  | cons found names ih =>
      obtain ⟨hfirst, hrest⟩ := inodesPositive_cons.mp hpos
      obtain ⟨hfound, hnames⟩ := List.forall_mem_cons.mp hnames
      have hline := (registeringLine_expected_iff hfound (inodeOf o syms found p)
        (findOffset found syms)).mpr ⟨hfirst, rfl⟩
      rw [List.map_cons, ← ih hnames hrest, ← hline]
      rfl

/-- Every line is in the file only for names of the file and positive inodes. -/
theorem of_registeringLines_subset {regs names : List String} {p : Nat} (hregs : NoNumbers regs)
    (h : ∀ line ∈ registeringLines o syms names p, line ∈ regs.map expectedRegistering) :
    (∀ name ∈ names, name ∈ regs) ∧ InodesPositive o syms names p := by
  induction names generalizing p with
  | nil => exact ⟨fun _ h => absurd h List.not_mem_nil, fun j _ h => by cases h⟩
  | cons found names ih =>
      have hcons : registeringLines o syms (found :: names) p =
          normalise (registeringLine (inodeOf o syms found p) (findOffset found syms) found) ::
            registeringLines o syms names (p + 1) := rfl
      rw [hcons] at h
      obtain ⟨hfirst, hrest⟩ := List.forall_mem_cons.mp h
      obtain ⟨name, hname, heq⟩ := List.mem_map.mp hfirst
      obtain ⟨hpos, rfl⟩ := (registeringLine_expected_iff (hregs name hname) _ _).mp heq.symm
      obtain ⟨hmem, hpositive⟩ := ih hrest
      exact ⟨List.forall_mem_cons.mpr ⟨hname, hmem⟩, inodesPositive_cons.mpr ⟨hpos, hpositive⟩⟩

/-- The lines are among those of the file, in their order. -/
theorem registeringLines_sublist_iff {regs names : List String} {p : Nat} (hregs : NoNumbers regs) :
    (registeringLines o syms names p).Sublist (regs.map expectedRegistering) ↔
      names.Sublist regs ∧ InodesPositive o syms names p := by
  constructor
  · intro hsub
    obtain ⟨hmem, hpos⟩ := of_registeringLines_subset hregs fun line hline => hsub.subset hline
    have hnames : NoNumbers names := fun name hname => hregs name (hmem name hname)
    rw [registeringLines_eq hnames hpos, List.sublist_map_iff] at hsub
    obtain ⟨l, hl, heq⟩ := hsub
    obtain rfl := List.map_injective_iff.mpr expectedRegistering_injective heq
    exact ⟨hl, hpos⟩
  · rintro ⟨hsub, hpos⟩
    have hnames : NoNumbers names := fun name hname => hregs name (hsub.subset hname)
    rw [registeringLines_eq hnames hpos]
    exact hsub.map expectedRegistering

end Lines

/-! ## The line of child_exit -/

section Counts

theorem notMem_numProbes {c : Char} {name : Str} {i : Int} (hname : c ∉ name) (hminus : c ≠ '-')
    (hhex : isHex c = false) : c ∉ name ++ (toString i).toList := by
  intro hc
  rcases List.mem_append.mp hc with hc | hc
  · exact hname hc
  · exact ne_of_mem_toString hc hminus hhex rfl

/-- A count of one digit, and one that is not positive, is not replaced. -/
theorem settled_blank_count {i : Int} (hi : i < 10) :
    decimalPattern.Settled decimalSub (' ' :: (toString i).toList) := by
  have hrest : decimalPattern.Settled decimalSub (toString i).toList := by
    rw [← List.append_nil (toString i).toList, RunPattern.settled_append_iff isMatch_decimalSub
      fun hc => ne_of_mem_toString hc (by decide) (by decide) rfl]
    exact .nil
  refine .copy ?_ hrest
  by_cases hpos : 0 < i
  · obtain ⟨n, rfl⟩ := Int.eq_ofNat_of_zero_le (Int.le_of_lt hpos)
    have hdigits : (toString (n : Int)).toList = Nat.toDigits 10 n := Nat.toList_repr
    rw [hdigits, Nat.toDigits_of_lt_base (by omega)]
    -- there is no second digit for the run
    simp [RunPattern.matchLength, spanLength]
  · obtain ⟨c, rest, hdigits, hc, -⟩ := toString_of_not_pos hpos
    rw [hdigits]
    exact RunPattern.matchLength_of_second hc _ _

/-- A count of two digits or more is replaced. -/
theorem isMatch_blank_count {i : Int} (hi : 10 ≤ i) :
    decimalPattern.IsMatch (' ' :: (toString i).toList) := by
  obtain ⟨d, ds, hdigits, hd, hds⟩ := toString_of_pos (by omega : 0 < i)
  refine ⟨d, ds, by rw [hdigits]; rfl, hd, ?_, fun c hc => ?_⟩
  · rintro rfl
    obtain ⟨n, rfl⟩ := Int.eq_ofNat_of_zero_le (by omega : 0 ≤ i)
    have htwo : (toString (n : Int)).toList = Nat.toDigits 10 n := Nat.toList_repr
    rw [htwo, Nat.toDigits_of_base_le (by decide) (by omega)] at hdigits
    have hlen := congrArg List.length hdigits
    have hne : 0 < (Nat.toDigits 10 (n / 10)).length :=
      List.length_pos_iff.mpr Nat.toDigits_ne_nil
    rw [List.length_append, List.length_singleton, List.length_singleton] at hlen
    omega
  · exact Bool.or_eq_true_iff.mpr (Or.inl (hds c hc))

theorem normalise_numProbesSpaced_iff (i : Int) :
    normalise ("num_probes = ".toList ++ (toString i).toList) = "num_probes = 1234".toList ↔
      10 ≤ i := by
  have hsplit : "num_probes = ".toList ++ (toString i).toList =
      "num_probes".toList ++ ' ' :: '=' :: ' ' :: (toString i).toList := rfl
  have hx : 'x' ∉ "num_probes = ".toList ++ (toString i).toList :=
    notMem_numProbes (by decide) (by decide) (by decide)
  -- a blank and two digits are what the pattern wants
  by_cases hi : 10 ≤ i
  · refine iff_of_true ?_ hi
    have hdecimal : decimalPattern.regsub decimalSub (' ' :: (toString i).toList) = decimalSub := by
      have h := RunPattern.regsub_append (s := decimalSub) (isMatch_blank_count hi) (w := []) rfl
      rw [List.append_nil] at h
      exact h.trans (List.append_nil _)
    rw [normalise_eq, hsplit, RunPattern.regsub_of_notMem (by decide),
      RunPattern.regsub_cons (RunPattern.matchLength_of_second (by decide) _ _),
      RunPattern.regsub_cons (RunPattern.matchLength_of_ne (by decide) _), hdecimal]
    decide
  · refine iff_of_false (fun heq => ?_) hi
    have hleft : LeftAlone ("num_probes = ".toList ++ (toString i).toList) := by
      refine ⟨?_, RunPattern.settled_of_second fun c hc => beq_false_of_ne fun h => hx (h ▸ hc)⟩
      rw [hsplit, RunPattern.settled_append_iff isMatch_decimalSub (by decide)]
      refine .copy (RunPattern.matchLength_of_second (by decide) _ _) ?_
      exact .copy (RunPattern.matchLength_of_ne (by decide) _) (settled_blank_count (by omega))
    have hcount : "num_probes = 1234".toList =
        "num_probes = ".toList ++ (toString ((1234 : Nat) : Int)).toList := by decide
    rw [normalise_eq_self_iff.mpr hleft, hcount] at heq
    have h1234 := toString_int_injective (String.toList_injective (List.append_cancel_left heq))
    omega

theorem normalise_numProbes_iff (i : Int) (n : Nat) :
    normalise ("num_probes=".toList ++ (toString i).toList) =
      "num_probes=".toList ++ (toString (n : Int)).toList ↔ i = n := by
  rw [normalise_count (by decide) (by decide)]
  constructor
  · exact fun h => toString_int_injective (String.toList_injective (List.append_cancel_left h))
  · rintro rfl
    rfl

theorem isTextOf_numProbes {w : Nat} (numProbes : BitVec w) :
    IsTextOf (numProbesText numProbes)
      ("num_probes=".toList ++ (toString numProbes.toInt).toList) := by
  refine ⟨?_, IsLine.append (by decide) (plain_toString _)⟩
  show ("num_probes=" ++ toString numProbes.toInt ++ "\n").toList = _
  simp only [String.toList_append]
  rfl

theorem isTextOf_numProbesSpaced {w : Nat} (numProbes : BitVec w) :
    IsTextOf (numProbesSpacedText numProbes)
      ("num_probes = ".toList ++ (toString numProbes.toInt).toList) := by
  refine ⟨?_, IsLine.append (by decide) (plain_toString _)⟩
  show ("num_probes = " ++ toString numProbes.toInt ++ "\n").toList = _
  simp only [String.toList_append]
  rfl

end Counts

/-! ## The tests -/

section Tests

/-- The names the expected files have. -/
def probes : List String :=
  ["_probe_0", "_probe_1", "_probe_2", "_probe_3", "_probe_4", "_probe_5", "_probe_6", "_probe_7",
    "_probe_8", "_probe_9"]

/-- A line for a probe, of the modules as they are. -/
def inodeLine (name : String) : String :=
  "Registering uprobe on inode 1234 offset 0xC0123456[" ++ name ++ "]"

/-- A line for a probe, of modules that were told a process and an address. -/
def pidLine (name : String) : String :=
  "Registering uprobe on pid 1234 vaddr 0xC0123456[" ++ name ++ "]"

/-- kfork_thread_simple and kfork_thread_hard. -/
def kforkThreadExpected : List String := probes.map inodeLine ++ ["num_probes = 1234"]

/-- ksuicide. -/
def ksuicideExpected : List String :=
  (probes ++ ["_probe_9"]).map inodeLine ++ ["num_probes=145"]

/-- kthread_10_10, kthread_100_10 and kthread_5_10000. -/
def kthreadExpected : List String := probes.map pidLine ++ ["num_probes = 1234"]

/-- kexec. -/
def kexecExpected : List String := probes.map pidLine

theorem noNumbers_probes : NoNumbers (probes ++ ["_probe_9"]) := by
  have hall : (probes ++ ["_probe_9"]).all fun name =>
      name.toList.all fun c => c != ' ' && c != 'x' := by decide
  intro name hname c hc
  have h := List.all_eq_true.mp (List.all_eq_true.mp hall name hname) c hc
  simpa using h

/-- No name of the table has the end of a line in it. -/
def PlainNames (syms : List Symbol) : Prop := ∀ s ∈ syms, Plain s.name.toList

instance (syms : List Symbol) : Decidable (PlainNames syms) :=
  inferInstanceAs (Decidable (∀ s ∈ syms, _))

variable {o : Outcomes} {syms : List Symbol}

theorem plain_of_mem_names (hplain : PlainNames syms) {m : ProbeModule} {found : String}
    (hfound : found ∈ names syms m) : Plain found.toList := by
  rw [names] at hfound
  rcases List.mem_append.mp hfound with hprobe | hlast
  · rw [probeNames, ← globMatches_map_snd "_probe" 0] at hprobe
    obtain ⟨⟨i, name⟩, hmatch, rfl⟩ := List.mem_map.mp hprobe
    obtain ⟨_, s, hs, rfl, _⟩ := mem_globMatches.mp hmatch
    exact hplain s (List.mem_of_getElem? hs)
  · split at hlast
    · rw [List.mem_singleton.mp hlast]
      decide
    · exact absurd hlast List.not_mem_nil

theorem areTexts_registering (o : Outcomes) (syms : List Symbol) {l : List String}
    (h : ∀ found ∈ l, Plain found.toList) (p : Nat) : AreTexts (registeringTexts o syms l p) := by
  induction l generalizing p with
  | nil => exact fun _ h => absurd h List.not_mem_nil
  | cons found l ih =>
      obtain ⟨hfound, hl⟩ := List.forall_mem_cons.mp h
      intro text hmem
      rcases List.mem_cons.mp hmem with rfl | hrest
      · exact ⟨_, isTextOf_registering hfound _ _⟩
      · exact ih hl (p + 1) text hrest

/-- The lines compared when the module is loaded and `child_exit` has printed `last`. -/
theorem outputLines_module {m : ProbeModule} (hloaded : (m.initModule o syms .init).1 = 0)
    (hplain : PlainNames syms) {last : String} {line : Str} (hlast : IsTextOf last line) :
    outputLines (dataText ((m.initModule o syms .init).2.printed ++ [last])) =
      registeringLines o syms (names syms m) 0 ++ [normalise line] := by
  have htexts := areTexts_registering o syms
    (fun found hfound => plain_of_mem_names (m := m) hplain hfound) 0
  have hone : AreTexts [last] := fun text h => ⟨line, List.mem_singleton.mp h ▸ hlast⟩
  rw [initModule_printed hloaded, outputLines_dataText (htexts.append hone), List.map_append,
    List.map_singleton, hlast.1, List.dropLast_concat]
  rfl

/-- Behind lines that begin with `R`, the line of `child_exit` is no other line. -/
theorem notMem_of_head {os : List Str} {line : Str} (hos : ∀ l ∈ os, l.head? = some 'R')
    (hline : line.head? = some 'n') : line ∉ os := by
  intro hmem
  have hR := hos line hmem
  rw [hline] at hR
  exact absurd hR (by decide)

theorem head?_append {text rest : String} {c : Char} (h : text.toList.head? = some c) :
    (text ++ rest).toList.head? = some c := by
  rw [String.toList_append, List.head?_append, h]
  rfl

theorem head?_inodeLine (name : String) : (inodeLine name).toList.head? = some 'R' :=
  head?_append (head?_append (by decide))

theorem head?_pidLine (name : String) : (pidLine name).toList.head? = some 'R' :=
  head?_append (head?_append (by decide))

/-- A file with lines of registrations and then a count. -/
theorem accepts_iff {m : ProbeModule} (hloaded : (m.initModule o syms .init).1 = 0)
    (hplain : PlainNames syms) {last : String} {line : Str} (hlast : IsTextOf last line)
    (hn : (normalise line).head? = some 'n') {regs : List String} {count : String}
    (hregs : ∀ l ∈ regs, IsLine l.toList ∧ l.toList.head? = some 'R')
    (hcount : IsLine count.toList) :
    diffSucceeds (dataText ((m.initModule o syms .init).2.printed ++ [last]))
        (fileText (regs ++ [count])) = true ↔
      (registeringLines o syms (names syms m) 0).Sublist (regs.map String.toList) ∧
        normalise line = count.toList := by
  have hlines : ∀ l ∈ regs ++ [count], IsLine l.toList := by
    intro l hl
    rcases List.mem_append.mp hl with hl | hl
    · exact (hregs l hl).1
    · rwa [List.mem_singleton.mp hl]
  rw [diffSucceeds_iff, outputLines_module hloaded hplain hlast, expectedLines_fileText hlines,
    List.map_append, List.map_singleton]
  apply accepts_concat_iff
  exact notMem_of_head (List.forall_mem_map.mpr fun l hl => (hregs l hl).2) hn

theorem head?_normalise (line : Str) : (normalise line).head? = line.head? := by
  rw [normalise_eq, RunPattern.head?_regsub isMatch_hexSub,
    RunPattern.head?_regsub isMatch_decimalSub]

theorem map_inodeLine (l : List String) :
    (l.map inodeLine).map String.toList = l.map expectedRegistering := by
  rw [List.map_map]
  rfl

theorem toList_between (before name after : String) : (before ++ name ++ after).toList =
    before.toList ++ (name.toList ++ after.toList) := by
  rw [String.toList_append, String.toList_append, List.append_assoc]

theorem isLine_between {before name after : String} (hbefore : IsLine before.toList)
    (hname : Plain name.toList) (hafter : Plain after.toList) :
    IsLine (before ++ name ++ after).toList := by
  rw [toList_between]
  exact hbefore.append (hname.append hafter)

theorem isLine_inodeLine {l : List String} (h : ∀ name ∈ l, Plain name.toList) :
    ∀ line ∈ l.map inodeLine, IsLine line.toList ∧ line.toList.head? = some 'R' :=
  List.forall_mem_map.mpr fun name hname =>
    ⟨isLine_between (by decide) (h name hname) (by decide), head?_inodeLine name⟩

theorem isLine_pidLine {l : List String} (h : ∀ name ∈ l, Plain name.toList) :
    ∀ line ∈ l.map pidLine, IsLine line.toList ∧ line.toList.head? = some 'R' :=
  List.forall_mem_map.mpr fun name hname =>
    ⟨isLine_between (by decide) (h name hname) (by decide), head?_pidLine name⟩

theorem plain_probes : ∀ name ∈ probes ++ ["_probe_9"], Plain name.toList := by decide

theorem noNumbers_ten : NoNumbers probes := fun name hname =>
  noNumbers_probes name (List.mem_append_left _ hname)

theorem plain_ten : ∀ name ∈ probes, Plain name.toList := fun name hname =>
  plain_probes name (List.mem_append_left _ hname)

/-- A file with the lines of the modules as they are: the probes registered are among
    those of the file, in their order, and their inodes are positive. -/
theorem accepts_inodes_iff {m : ProbeModule} (hloaded : (m.initModule o syms .init).1 = 0)
    (hplain : PlainNames syms) {last : String} {line : Str} (hlast : IsTextOf last line)
    (hn : line.head? = some 'n') {regs : List String} (hregs : NoNumbers regs)
    (hnames : ∀ name ∈ regs, Plain name.toList) {count : String} (hcount : IsLine count.toList) :
    diffSucceeds (dataText ((m.initModule o syms .init).2.printed ++ [last]))
        (fileText (regs.map inodeLine ++ [count])) = true ↔
      (names syms m).Sublist regs ∧ InodesPositive o syms (names syms m) 0 ∧
        normalise line = count.toList := by
  have hhead : (normalise line).head? = some 'n' := (head?_normalise line).trans hn
  rw [accepts_iff hloaded hplain hlast hhead (isLine_inodeLine hnames) hcount, map_inodeLine,
    registeringLines_sublist_iff hregs, and_assoc]

theorem ksuicide_accepts_iff (numProbes : BitVec 64)
    (hloaded : (ProbeModule.ksuicide.initModule o syms .init).1 = 0)
    (hplain : PlainNames syms) :
    diffSucceeds (dataText (texts o syms .ksuicide (numProbesText numProbes)))
        (fileText ksuicideExpected) = true ↔
      (probeNames syms).Sublist probes ∧
        InodesPositive o syms (probeNames syms ++ ["_probe_9"]) 0 ∧ numProbes.toInt = 145 := by
  have hnames : names syms .ksuicide = probeNames syms ++ ["_probe_9"] := rfl
  have hcount : "num_probes=145".toList =
      "num_probes=".toList ++ (toString ((145 : Nat) : Int)).toList := by decide
  have haccepts := accepts_inodes_iff hloaded hplain (isTextOf_numProbes numProbes) rfl
    noNumbers_probes plain_probes (by decide : IsLine "num_probes=145".toList)
  rw [hnames, List.append_sublist_append_right, hcount, normalise_numProbes_iff] at haccepts
  exact haccepts

/-- A buffer in the direct mapping of x86_64. -/
def kernelBuf : DataBuf .x86_64 := ⟨0xffff880012345000, by decide⟩

/-- The ten probe functions of the program. -/
def tenProbes : List Symbol := probes.map fun name => ⟨"/uthread", 0x5a4, name⟩

theorem inodesPositive_tenProbes {names : List String} (h : ∀ name ∈ names, name ∈ probes) :
    InodesPositive allSucceed tenProbes names 0 := by
  have hfound : ∀ found ∈ probes, 0 < printedInode (inodeOf allSucceed tenProbes found 0) := by
    decide
  exact fun j found hj => hfound found (h found (List.mem_of_getElem? hj))

theorem exists_registeringLine_eq (inode : Option Inode) (offset : Loff) (name : String) :
    ∃ rest, normalise (registeringLine inode offset name) =
      "Registering uprobe on inode".toList ++ rest := by
  by_cases hpos : 0 < printedInode inode
  · have hsplit : "Registering uprobe on inode 1234 offset 0xC0123456".toList =
        "Registering uprobe on inode".toList ++ " 1234 offset 0xC0123456".toList := by decide
    rw [normalise_registeringLine_of_pos hpos, hsplit, List.append_assoc]
    exact ⟨_, rfl⟩
  · obtain ⟨c, rest, -, hline⟩ := normalise_registeringLine_of_not_pos hpos offset name
    exact ⟨_, hline⟩

theorem head?_registeringLine (inode : Option Inode) (offset : Loff) (name : String) :
    (normalise (registeringLine inode offset name)).head? = some 'R' := by
  obtain ⟨rest, hline⟩ := exists_registeringLine_eq inode offset name
  rw [hline]
  rfl

/-- The line of a registration says "inode" where the older files say "pid". -/
theorem registeringLine_ne_pidLine (inode : Option Inode) (offset : Loff) (name name' : String) :
    normalise (registeringLine inode offset name) ≠ (pidLine name').toList := by
  have hpid : (pidLine name').toList = "Registering uprobe on pid 1234 vaddr 0xC0123456[".toList ++
      (name'.toList ++ "]".toList) := toList_between _ _ _
  obtain ⟨rest, hline⟩ := exists_registeringLine_eq inode offset name
  rw [hline, hpid]
  intro heq
  have hstart := congrArg (List.take 23) heq
  rw [List.take_append_of_le_length (by decide),
    List.take_append_of_le_length (by decide)] at hstart
  exact absurd hstart (by decide)

theorem registeringLines_sublist_pidLines_iff {l regs : List String} {p : Nat} :
    (registeringLines o syms l p).Sublist ((regs.map pidLine).map String.toList) ↔ l = [] := by
  constructor
  · intro hsub
    cases l with
    | nil => rfl
    | cons found l =>
        have hmem := hsub.subset List.mem_cons_self
        obtain ⟨line, hline, heq⟩ := List.mem_map.mp hmem
        obtain ⟨name, -, rfl⟩ := List.mem_map.mp hline
        exact absurd heq.symm (registeringLine_ne_pidLine _ _ _ _)
  · rintro rfl
    exact List.nil_sublist _

/-- The files of the thread tests were not changed with the interface: they match
    only what kthread prints when it registers no probe at all and has counted ten
    hits nevertheless. -/
theorem kthread_test_iff {w : Nat} (numProbes : BitVec w)
    (hloaded : (ProbeModule.kthread.initModule o syms .init).1 = 0) (hplain : PlainNames syms) :
    diffSucceeds (dataText ((ProbeModule.kthread.initModule o syms .init).2.printed ++
        [numProbesSpacedText numProbes])) (fileText kthreadExpected) = true ↔
      probeNames syms = [] ∧ 10 ≤ numProbes.toInt := by
  have hnames : names syms .kthread = probeNames syms := List.append_nil _
  have haccepts := accepts_iff hloaded hplain (isTextOf_numProbesSpaced numProbes)
    ((head?_normalise _).trans rfl) (isLine_pidLine plain_ten)
    (by decide : IsLine "num_probes = 1234".toList)
  rw [hnames, registeringLines_sublist_pidLines_iff, normalise_numProbesSpaced_iff] at haccepts
  exact haccepts

theorem kthread_test_noProbe :
    diffSucceeds (dataText ((ProbeModule.kthread.initModule allSucceed [] .init).2.printed ++
        [numProbesSpacedText (10 : BitVec 64)])) (fileText kthreadExpected) = true :=
  (kthread_test_iff 10 (by decide) (by decide)).mpr ⟨rfl, by decide⟩

/-- The exec test fails whatever happens, also when `child_exit` has printed its line:
    without a line of output the last line of the file ends the comparison too late. -/
theorem kexec_never_passes {w : Nat} (numProbes : BitVec w)
    (hloaded : (ProbeModule.kexec.initModule o syms .init).1 = 0) (hplain : PlainNames syms) :
    diffSucceeds (dataText (ProbeModule.kexec.initModule o syms .init).2.printed)
        (fileText kexecExpected) = false ∧
      diffSucceeds (dataText ((ProbeModule.kexec.initModule o syms .init).2.printed ++
        [numProbesText numProbes])) (fileText kexecExpected) = false := by
  have hlines : ∀ line ∈ kexecExpected, IsLine line.toList := fun line hline =>
    (isLine_pidLine plain_ten line hline).1
  have htexts := areTexts_registering o syms
    (fun found hfound => plain_of_mem_names (m := .kexec) hplain hfound) 0
  constructor
  · rw [Bool.eq_false_iff, ne_eq, diffSucceeds_iff, initModule_printed hloaded,
      outputLines_dataText htexts, expectedLines_fileText hlines]
    rintro ⟨hsub, hoverrun⟩
    -- no line of a registration is in the file, and no lines at all are too few
    have hnone := registeringLines_sublist_pidLines_iff.mp hsub
    refine hoverrun ?_
    rw [hnone]
    exact Overrun.nil_left _ _
  · rw [Bool.eq_false_iff, ne_eq, diffSucceeds_iff,
      outputLines_module hloaded hplain (isTextOf_numProbes numProbes),
      expectedLines_fileText hlines]
    rintro ⟨hsub, -⟩
    -- the file has no line that begins as the count does
    have hheads : ∀ line ∈ kexecExpected.map String.toList, line.head? = some 'R' :=
      List.forall_mem_map.mpr fun s hs => (isLine_pidLine plain_ten s hs).2
    have hmem := hsub.subset (List.mem_append_right _ (List.mem_singleton_self _))
    exact notMem_of_head hheads ((head?_normalise _).trans rfl) hmem

theorem kexec_fails_oneProbe :
    diffSucceeds (dataText (ProbeModule.kexec.initModule allSucceed oneProbe .init).2.printed)
        (fileText kexecExpected) = false ∧
      diffSucceeds (dataText ((ProbeModule.kexec.initModule allSucceed oneProbe .init).2.printed ++
        [numProbesText (0 : BitVec 64)])) (fileText kexecExpected) = false :=
  kexec_never_passes 0 (by decide) (by decide)

end Tests

end ModuleTests

end UprobeTests
