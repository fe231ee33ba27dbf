/-
  UprobeTests.UnregTest

  The unreg test as a whole: unreg.c as it counts hits, and what kunreg has printed
  when it is over.

  The expected file wants 11 hits, and the lines of a module on x86_64, which have
  the names of the probes.  With one thread and one iteration the `thread_1` makes
  ten of the hits; the other can only be that of the `thread_2`, which is there to
  show that no probe fires after `unreg_all` (`unreg_test_iff`).
-/

import UprobeTests.Kunreg
import UprobeTests.Lib.PoolRank
import UprobeTests.ModuleTests
import UprobeTests.Unreg

namespace UprobeTests

open Finset Tcl DataRead

namespace Unreg

/-! ## Hits -/

section Hits

variable {t : Target} (tid : BitVec 32) (fires : ProbeId → Bool) (stop : Int → Bool)

/-- How often the probes were hit: `kcount` begins at -1, and `probe_handler`
    increments it whenever it increments `num_probes`. -/
def hitsIn (tbl : ProbeTable t) : Nat := ∑ k, ((tbl k).kcount + 1).toNat

/-- The hits of the calls up to the first result that `stop` accepts. -/
def hitsUntil : List ProbeId → Nat
  | [] => 0
  | k :: ks => (fires k).toNat + if stop (if fires k then 0 else -1) then 0 else hitsUntil ks

theorem kcount_call_fresh (t : Target) (fired : Bool) :
    (((Uinfo.fresh t.ulongBits).call tid fired.toNat).kcount + 1).toNat = fired.toNat := by
  have hzero : (-1 : BitVec t.ulongBits) + 1 = 0 := BitVec.add_left_neg 1
  cases fired with
  | true =>
      show ((-1 : BitVec t.ulongBits) + 1 + 1).toNat = 1
      rw [hzero]
      cases t <;> rfl
  | false =>
      show ((-1 : BitVec t.ulongBits) + 1).toNat = 0
      rw [hzero]
      rfl

theorem hitsIn_update (tbl : ProbeTable t) (k : ProbeId) (x : Uinfo t.ulongBits) :
    hitsIn (Function.update tbl k x) + ((tbl k).kcount + 1).toNat =
      hitsIn tbl + (x.kcount + 1).toNat :=
  Pool.sum_apply_update (fun s : Uinfo t.ulongBits => (s.kcount + 1).toNat) tbl k x

/-- The calls on slots that are fresh. -/
theorem run_callProbes_hits {ks : List ProbeId} {tbl : ProbeTable t} (hks : ks.Nodup)
    (hfresh : ∀ k ∈ ks, tbl k = Uinfo.fresh t.ulongBits) :
    ∃ res tbl', (callProbes t tid (fun k => (fires k).toNat) stop ks).run tbl =
      (.ok res, tbl') ∧ hitsIn tbl' = hitsIn tbl + hitsUntil fires stop ks := by
  induction ks generalizing tbl with
  | nil => exact ⟨none, tbl, rfl, rfl⟩
  | cons k ks ih =>
      obtain ⟨hk, hks⟩ := List.nodup_cons.mp hks
      obtain ⟨hfresh_k, hfresh⟩ := List.forall_mem_cons.mp hfresh
      have hown : (tbl k).OwnedBy tid := hfresh_k ▸ fresh_owned _ tid
      have hcall := run_focus_probe (n := (fires k).toNat) hown
      have hcount := hitsIn_update tbl k ((tbl k).call tid (fires k).toNat)
      rw [hfresh_k, kcount_call_fresh] at hcount
      have hzero : ((Uinfo.fresh t.ulongBits).kcount + 1).toNat = 0 := by
        cases t <;> rfl
      rw [hfresh_k, returned_fresh] at hcall
      rw [callProbes, Prog.run_bind_ok hcall, hitsUntil]
      by_cases hstop : stop (if fires k then 0 else -1) = true
      · rw [if_pos hstop, if_pos hstop]
        refine ⟨_, _, rfl, ?_⟩
        omega
      · rw [if_neg hstop, if_neg hstop]
        -- the other slots are still fresh
        have hfresh' : ∀ j ∈ ks, Function.update tbl k
            ((Uinfo.fresh t.ulongBits).call tid (fires k).toNat) j = Uinfo.fresh t.ulongBits := by
          intro j hj
          have hne : j ≠ k := fun heq => hk (heq ▸ hj)
          rw [Function.update_of_ne hne]
          exact hfresh j hj
        obtain ⟨res, tbl', hrun, hhits⟩ := ih hks hfresh'
        refine ⟨res, tbl', hrun, ?_⟩
        omega

theorem hitsIn_thread : hitsIn ((thread t tid fires stop).run (callocTable t)).2 =
    hitsUntil fires stop (List.finRange 10) := by
  have hfresh : ∀ k ∈ List.finRange 10,
      (fun _ => Uinfo.fresh t.ulongBits : ProbeTable t) k = Uinfo.fresh t.ulongBits := fun _ _ => rfl
  obtain ⟨res, tbl', hrun, hhits⟩ :=
    run_callProbes_hits tid fires stop (List.nodup_finRange 10) hfresh
  have hnone : hitsIn (fun _ => Uinfo.fresh t.ulongBits) = 0 := by
    rw [hitsIn]
    exact sum_eq_zero fun _ _ => by cases t <;> rfl
  rw [thread, Prog.run_bind_ok run_buildProbeTable, Prog.run_bind_ok hrun]
  rw [hnone, Nat.zero_add] at hhits
  rw [← hhits]
  cases res <;> rfl

/-- A thread that sees every probe fire. -/
theorem hitsUntil_of_all (hall : ∀ k, fires k = true) (ks : List ProbeId) :
    hitsUntil fires (fun error => error < 0) ks = ks.length := by
  induction ks with
  | nil => rfl
  | cons k ks ih =>
      rw [hitsUntil, hall k, if_neg (by decide), ih, List.length_cons]
      exact Nat.add_comm 1 _

/-- A thread that stops at the first probe that fires. -/
theorem hitsUntil_first (ks : List ProbeId) :
    hitsUntil fires (fun error => error ≠ -1) ks = if ∃ k ∈ ks, fires k = true then 1 else 0 := by
  induction ks with
  | nil => simp [hitsUntil]
  | cons k ks ih =>
      rw [hitsUntil]
      cases hk : fires k with
      | true =>
          rw [if_pos (by decide), if_pos ⟨k, List.mem_cons_self, hk⟩]
          rfl
      | false =>
          have hrest : (∃ j ∈ k :: ks, fires j = true) ↔ ∃ j ∈ ks, fires j = true := by
            simp [hk]
          rw [if_neg (by decide), ih, if_congr hrest rfl rfl]
          exact Nat.zero_add _

theorem hits_thread1 (hall : ∀ k, fires k = true) :
    hitsIn ((thread1 t tid fires).run (callocTable t)).2 = 10 := by
  rw [thread1, hitsIn_thread, hitsUntil_of_all fires hall, List.length_finRange]

theorem hits_thread2 : hitsIn ((thread2 t tid fires).run (callocTable t)).2 =
    if ∃ k, fires k = true then 1 else 0 := by
  rw [thread2, hitsIn_thread, hitsUntil_first]
  simp

end Hits

end Unreg

namespace UnregTest

open ModuleTests

/-! ## What kunreg prints -/

/-- "Number of registerd probes = %d \n". -/
def numberText (n : Nat) : String := "Number of registerd probes = " ++ toString n ++ " \n"

section Printed

variable (o : Outcomes) (syms : List Symbol)

/-- What the turns for `names` print, `j` probes having been registered before. -/
def turnTexts : List String → Nat → List String
  | [], _ => []
  | found :: names, j =>
      registeringText (inodeOf o syms found j) (findOffset found syms) found :: "OK\n" ::
        numberText (j + 1) :: turnTexts names (j + 1)

variable {o syms}

/-- A turn that goes on has printed three lines. -/
theorem registerOne_printed {found : String} {s s' : Kunreg}
    (hgo : Kunreg.registerOne o syms found s = (none, s')) :
    s'.kern.printed = s.kern.printed ++
        [registeringText (inodeOf o syms found s.kern.kernPathCalls) (findOffset found syms) found,
          "OK\n", numberText (s.numRegProbes + 1)] ∧
      s'.numRegProbes = s.numRegProbes + 1 ∧
      ((∃ e, firstNamed found syms = some e) →
        s'.kern.kernPathCalls = s.kern.kernPathCalls + 1) := by
  rw [Kunreg.registerOne, Kern.kzalloc] at hgo
  by_cases hz : o.kzalloc s.kern.kzallocCalls = true
  · rw [if_pos hz] at hgo
    dsimp only at hgo
    have hfound := @registerFound_printed o syms .probeHandler found s.kern
    obtain ⟨hline, hpaths⟩ := hfound
    split at hgo
    · cases hgo
    · cases hgo
      refine ⟨?_, rfl, hpaths⟩
      show ((registerFound o syms .probeHandler found s.kern).2.printed ++ ["OK\n"]) ++ [_] = _
      rw [hline, List.append_assoc, List.append_assoc]
      rfl
  · rw [if_neg hz] at hgo
    cases hgo

/-- A turn that ends the loop counts no probe. -/
theorem registerOne_stops {found : String} {s s' : Kunreg} {ret : Int}
    (hstop : Kunreg.registerOne o syms found s = (some ret, s')) :
    s'.numRegProbes = s.numRegProbes := by
  rw [Kunreg.registerOne] at hstop
  split at hstop
  · cases hstop
    rfl
  · dsimp only at hstop
    split at hstop
    · cases hstop
      rfl
    · cases hstop

/-- A loop that has counted a probe for each turn has printed the lines of each. -/
theorem runEach_registerOne {l : List (Nat × String)}
    (hl : ∀ x ∈ l, ∃ e, firstNamed x.2 syms = some e) (s : Kunreg) :
    let s' := (runEach (fun _ => Kunreg.registerOne o syms) l s).2
    s'.numRegProbes ≤ s.numRegProbes + l.length ∧
      (s'.numRegProbes = s.numRegProbes + l.length → s.kern.kernPathCalls = s.numRegProbes →
        s'.kern.printed = s.kern.printed ++ turnTexts o syms (l.map Prod.snd) s.numRegProbes) := by
  induction l generalizing s with
  | nil => exact ⟨Nat.le_refl _, fun _ _ => (List.append_nil _).symm⟩
  | cons x l ih =>
      obtain ⟨hx, hl⟩ := List.forall_mem_cons.mp hl
      dsimp only
      rw [runEach, List.length_cons]
      split
      · rename_i hturn
        -- a loop that stops has counted less than there are turns
        have hcount := registerOne_stops hturn
        dsimp only
        refine ⟨by omega, fun h => ?_⟩
        omega
      · rename_i s₁ hturn
        obtain ⟨hprinted, hcount, hpaths⟩ := registerOne_printed hturn
        obtain ⟨hle, hrest⟩ := ih hl s₁
        refine ⟨by omega, fun hall hsync => ?_⟩
        rw [hrest (by omega) (by rw [hpaths hx]; omega), hprinted, hcount, List.append_assoc,
          List.map_cons, turnTexts, hsync]
        rfl

/-- A module that has registered every probe of the table has printed three lines
    for each. -/
theorem initModule_printed (hloaded : (Kunreg.initModule o syms .init).1 = 0)
    (hall : (Kunreg.initModule o syms .init).2.numRegProbes = (probeNames syms).length) :
    (Kunreg.initModule o syms .init).2.kern.printed = turnTexts o syms (probeNames syms) 0 := by
  have hfound := exists_firstNamed_of_globMatches "_probe" syms
  have hnames : (globMatches "_probe" 0 syms).map Prod.snd = probeNames syms :=
    globMatches_map_snd "_probe" 0 syms
  rw [Kunreg.initModule_eq o syms hloaded] at hall ⊢
  obtain ⟨-, hloop⟩ := runEach_registerOne (o := o) hfound
    (Kunreg.loaded (.ready "kunreg" (o.debugfsCreate 2)))
  have hsame : (Kunreg.registerAll o syms (Kunreg.loaded (.ready "kunreg" (o.debugfsCreate 2)))).2 =
      (runEach (fun _ => Kunreg.registerOne o syms) (globMatches "_probe" 0 syms)
        (Kunreg.loaded (.ready "kunreg" (o.debugfsCreate 2)))).2 := by
    rw [Kunreg.registerAll, forEachGlob_eq]
    split
    · rename_i hrun
      exact congrArg Prod.snd hrun.symm
    · rename_i hrun
      exact congrArg Prod.snd hrun.symm
  rw [hsame] at hall ⊢
  rw [hloop (by rw [hall, ← hnames, List.length_map]; exact (Nat.zero_add _).symm) rfl, hnames]
  rfl

end Printed

/-! ## The expected file -/

section File

/-- The number as the file has it: those of two digits are replaced. -/
def shownNumber (n : Nat) : String := if n < 10 then toString n else "1234"

def numberLine (n : Nat) : String := "Number of registerd probes = " ++ shownNumber n ++ " "

/-- Three lines for each probe, `j` of them registered before. -/
def turnLines : List String → Nat → List String
  | [], _ => []
  | name :: names, j => inodeLine name :: "OK" :: numberLine (j + 1) :: turnLines names (j + 1)

/-- kunreg. -/
def kunregExpected : List String := turnLines probes 0 ++ ["num_probes=11"]

theorem toList_numberLine (n : Nat) : (numberLine n).toList =
    "Number of registerd probes = ".toList ++ ((shownNumber n).toList ++ " ".toList) :=
  toList_between _ _ _

theorem head?_numberLine (n : Nat) : (numberLine n).toList.head? = some 'N' :=
  head?_append (head?_append (by decide))

theorem shownNumber_injective : ∀ m < 11, ∀ n < 11, shownNumber m = shownNumber n → m = n := by
  decide

theorem numberLine_ne {m n : Nat} (hm : m ≤ 10) (hn : n ≤ 10) (hne : m ≠ n) :
    (numberLine m).toList ≠ (numberLine n).toList := by
  intro heq
  rw [toList_numberLine, toList_numberLine] at heq
  have hshown := String.toList_injective (List.append_cancel_right (List.append_cancel_left heq))
  exact hne (shownNumber_injective m (by omega) n (by omega) hshown)

/-- The numbers in the file go up. -/
theorem numberLine_notMem {names : List String} {m j : Nat} (hm : m ≤ j)
    (hj : j + names.length ≤ 10) :
    (numberLine m).toList ∉ (turnLines names j).map String.toList := by
  induction names generalizing j with
  | nil => exact List.not_mem_nil
  | cons name names ih =>
      rw [List.length_cons] at hj
      rw [turnLines, List.map_cons, List.map_cons, List.map_cons]
      simp only [List.mem_cons, not_or]
      refine ⟨fun heq => ?_, fun heq => ?_, numberLine_ne (by omega) (by omega) (by omega),
        ih (by omega) (by omega)⟩
      · have hhead := head?_numberLine m
        rw [heq, head?_inodeLine] at hhead
        exact absurd hhead (by decide)
      · have hhead := head?_numberLine m
        rw [heq] at hhead
        exact absurd hhead (by decide)

end File

/-! ## The lines compared -/

section Lines

variable {o : Outcomes} {syms : List Symbol}

/-- The lines of the turns, normalised. -/
def shownTurns (o : Outcomes) (syms : List Symbol) (names : List String) (j : Nat) : List Str :=
  (turnTexts o syms names j).map fun text => normalise text.toList.dropLast

theorem isTextOf_number (n : Nat) : IsTextOf (numberText n)
    ("Number of registerd probes = ".toList ++ ((toString n).toList ++ [' '])) := by
  constructor
  · have htext : (numberText n).toList = "Number of registerd probes = ".toList ++
        ((toString n).toList ++ " \n".toList) := toList_between _ _ _
    have hend : " \n".toList = [' '] ++ ['\n'] := by decide
    rw [htext, hend]
    simp only [List.append_assoc]
  · have hdigits : Plain (toString n).toList := plain_toString (n : Int)
    exact IsLine.append (by decide) (hdigits.append (by decide))

theorem areTexts_turns (o : Outcomes) (syms : List Symbol) {names : List String}
    (h : ∀ found ∈ names, Plain found.toList) (j : Nat) :
    AreTexts (turnTexts o syms names j) := by
  induction names generalizing j with
  | nil => exact fun _ h => absurd h List.not_mem_nil
  | cons found names ih =>
      obtain ⟨hfound, hnames⟩ := List.forall_mem_cons.mp h
      intro text hmem
      simp only [turnTexts, List.mem_cons] at hmem
      rcases hmem with rfl | rfl | rfl | hrest
      · exact ⟨_, isTextOf_registering hfound _ _⟩
      · exact ⟨"OK".toList, by decide⟩
      · exact ⟨_, isTextOf_number _⟩
      · exact ih hnames (j + 1) text hrest

/-- Up to ten the numbers become those of the file. -/
theorem normalise_number : ∀ n < 10,
    normalise ("Number of registerd probes = ".toList ++ ((toString (n + 1)).toList ++ [' '])) =
      "Number of registerd probes = ".toList ++ ((shownNumber (n + 1)).toList ++ " ".toList) := by
  decide

theorem shownTurns_cons (found : String) (names : List String) {j : Nat} (hj : j < 10) :
    shownTurns o syms (found :: names) j =
      normalise (registeringLine (inodeOf o syms found j) (findOffset found syms) found) ::
        "OK".toList :: (numberLine (j + 1)).toList :: shownTurns o syms names (j + 1) := by
  have hok : normalise "OK\n".toList.dropLast = "OK".toList := by decide
  have hnumber : normalise (numberText (j + 1)).toList.dropLast = (numberLine (j + 1)).toList := by
    rw [(isTextOf_number (j + 1)).1, List.dropLast_concat, normalise_number j hj,
      toList_numberLine]
  rw [← hnumber]
  show _ :: normalise "OK\n".toList.dropLast :: _ = _
  rw [hok]
  rfl

/-- The turns come in the order of the file, and none is left out: a number tells
    how many came before. -/
theorem shownTurns_sublist_iff {names regs : List String} {j : Nat} (hregs : NoNumbers regs)
    (hj : j + regs.length ≤ 10) :
    (shownTurns o syms names j).Sublist ((turnLines regs j).map String.toList) ↔
      names <+: regs ∧ InodesPositive o syms names j := by
  induction names generalizing regs j with
  | nil =>
      refine iff_of_true (List.nil_sublist _) ⟨List.nil_prefix, fun j _ h => ?_⟩
      cases h
  | cons found names ih =>
      cases regs with
      | nil =>
          refine iff_of_false (fun hsub => ?_) fun h => ?_
          · have hlen := hsub.length_le
            simp [shownTurns, turnTexts, turnLines] at hlen
          · exact absurd (List.prefix_nil.mp h.1) (List.cons_ne_nil _ _)
      | cons reg regs =>
          rw [List.length_cons] at hj
          obtain ⟨hreg, hrest⟩ := List.forall_mem_cons.mp hregs
          have hline : normalise (registeringLine (inodeOf o syms found j)
              (findOffset found syms) found) = (inodeLine reg).toList ↔ _ :=
            registeringLine_expected_iff hreg _ _
          rw [shownTurns_cons found names (by omega), turnLines, List.map_cons, List.map_cons,
            List.map_cons, List.cons_prefix_cons, inodesPositive_cons]
          by_cases hsame : normalise (registeringLine (inodeOf o syms found j)
              (findOffset found syms) found) = (inodeLine reg).toList
          · obtain ⟨hpos, rfl⟩ := hline.mp hsame
            rw [hsame, List.cons_sublist_cons, List.cons_sublist_cons, List.cons_sublist_cons,
              ih hrest (by omega)]
            exact ⟨fun ⟨hnames, hrest⟩ => ⟨⟨rfl, hnames⟩, hpos, hrest⟩,
              fun ⟨⟨_, hnames⟩, _, hrest⟩ => ⟨hnames, hrest⟩⟩
          · refine iff_of_false (fun hsub => ?_) fun h => hsame (hline.mpr ⟨h.2.1, h.1.1⟩)
            -- the line would have to be one of a later turn, whose number comes too late
            have hhead := head?_registeringLine (inodeOf o syms found j) (findOffset found syms)
              found
            have hne : ∀ line : Str, line.head? ≠ some 'R' → normalise (registeringLine
                (inodeOf o syms found j) (findOffset found syms) found) ≠ line := by
              rintro line hline rfl
              exact hline hhead
            have hnumber : (numberLine (j + 1)).toList.head? ≠ some 'R' := by
              rw [head?_numberLine]
              decide
            rw [sublist_cons_iff_of_ne hsame, sublist_cons_iff_of_ne (hne _ (by decide)),
              sublist_cons_iff_of_ne (hne _ hnumber)] at hsub
            have hmem := hsub.subset (List.mem_cons_of_mem _
              (List.mem_cons_of_mem _ List.mem_cons_self))
            exact numberLine_notMem (Nat.le_refl _) (by omega) hmem

end Lines

/-! ## The test -/

section Test

variable {o : Outcomes} {syms : List Symbol}

theorem plain_shownNumber (n : Nat) : Plain (shownNumber n).toList := by
  have hdigits : Plain (toString n).toList := plain_toString (n : Int)
  rw [shownNumber]
  split
  · exact hdigits
  · decide

/-- The lines of the turns are lines, and none is that of `child_exit`. -/
theorem isLine_turnLines {names : List String} (h : ∀ name ∈ names, Plain name.toList) (j : Nat) :
    ∀ line ∈ turnLines names j, IsLine line.toList ∧ line.toList.head? ≠ some 'n' := by
  induction names generalizing j with
  | nil => exact fun _ h => absurd h List.not_mem_nil
  | cons name names ih =>
      obtain ⟨hname, hnames⟩ := List.forall_mem_cons.mp h
      intro line hmem
      simp only [turnLines, List.mem_cons] at hmem
      rcases hmem with rfl | rfl | rfl | hrest
      · refine ⟨isLine_between (by decide) hname (by decide), ?_⟩
        rw [head?_inodeLine]
        decide
      · decide
      · refine ⟨isLine_between (by decide) (plain_shownNumber _) (by decide), ?_⟩
        rw [head?_numberLine]
        decide
      · exact ih hnames (j + 1) line hrest

/-- Unlike the files of the modules that only register, that of kunreg has a number in
    the lines of each probe, so that none can be missing before another. -/
theorem kunreg_accepts_iff {w : Nat} (numProbes : BitVec w)
    (hloaded : (Kunreg.initModule o syms .init).1 = 0)
    (hall : (Kunreg.initModule o syms .init).2.numRegProbes = (probeNames syms).length)
    (hplain : PlainNames syms) :
    diffSucceeds (dataText ((Kunreg.initModule o syms .init).2.kern.printed ++
        [numProbesText numProbes])) (fileText kunregExpected) = true ↔
      probeNames syms <+: probes ∧ InodesPositive o syms (probeNames syms) 0 ∧
        numProbes.toInt = 11 := by
  have hnames : ∀ found ∈ probeNames syms, Plain found.toList := fun found hfound =>
    plain_of_mem_names (m := .kthread) hplain (List.mem_append_left _ hfound)
  have hone : AreTexts [numProbesText numProbes] := fun text h =>
    ⟨_, List.mem_singleton.mp h ▸ isTextOf_numProbes numProbes⟩
  have htexts := (areTexts_turns o syms hnames 0).append hone
  have hturns := isLine_turnLines plain_ten 0
  have hlines : ∀ line ∈ kunregExpected, IsLine line.toList := by
    intro line hline
    rcases List.mem_append.mp hline with hline | hline
    · exact (hturns line hline).1
    · rw [List.mem_singleton.mp hline]
      decide
  have hcount : "num_probes=11".toList =
      "num_probes=".toList ++ (toString ((11 : Nat) : Int)).toList := by decide
  have hlast : normalise (numProbesText numProbes).toList.dropLast =
      normalise ("num_probes=".toList ++ (toString numProbes.toInt).toList) := by
    rw [(isTextOf_numProbes numProbes).1, List.dropLast_concat]
  -- no line of a turn begins as the count does
  have hnot : normalise ("num_probes=".toList ++ (toString numProbes.toInt).toList) ∉
      (turnLines probes 0).map String.toList := by
    intro hmem
    obtain ⟨line, hline, heq⟩ := List.mem_map.mp hmem
    refine (hturns line hline).2 ?_
    rw [heq, head?_normalise]
    rfl
  rw [initModule_printed hloaded hall, diffSucceeds_iff, outputLines_dataText htexts,
    expectedLines_fileText hlines, kunregExpected, List.map_append, List.map_append,
    List.map_singleton, List.map_singleton, hlast, accepts_concat_iff hnot, hcount,
    normalise_numProbes_iff, ← and_assoc]
  exact and_congr_left' (shownTurns_sublist_iff noNumbers_ten (by decide))

open Unreg

variable {a : Args} {junk : BitVec 32} {tid : Nat → Fin a.numThreads → BitVec 32}
  {f : Firing a.numThreads}

/-- The hits of all threads. -/
def hits (a : Args) (junk : BitVec 32) (tid : Nat → Fin a.numThreads → BitVec 32)
    (f : Firing a.numThreads) : Nat :=
  ∑ r ∈ range (2 * a.niter), ∑ i,
    hitsIn (((Unreg.main .x86_64 a junk tid f).prog r i).run (callocTable .x86_64)).2

/-- The `thread_2`s in which some probe fires. -/
def lateHits (a : Args) (f : Firing a.numThreads) : Nat :=
  ∑ j ∈ range a.niter, ∑ i, if ∃ k, f.unregistered j i k = true then 1 else 0

theorem sum_range_two_mul (g : Nat → Nat) (n : Nat) :
    ∑ r ∈ range (2 * n), g r = ∑ j ∈ range n, (g (2 * j) + g (2 * j + 1)) := by
  induction n with
  | zero => rfl
  | succ n ih =>
      rw [sum_range_succ, ← ih, Nat.mul_add, Nat.mul_one, sum_range_succ, sum_range_succ]
      omega

/-- Every `thread_1` hits ten probes, and a `thread_2` stops at the first it hits. -/
theorem hits_eq (hall : ∀ j < a.niter, ∀ i k, f.registered j i k = true) :
    hits a junk tid f = a.niter * (a.numThreads * 10) + lateHits a f := by
  have hround : ∀ j ∈ range a.niter,
      (∑ i, hitsIn (((Unreg.main .x86_64 a junk tid f).prog (2 * j) i).run (callocTable .x86_64)).2) +
        (∑ i, hitsIn (((Unreg.main .x86_64 a junk tid f).prog (2 * j + 1) i).run
          (callocTable .x86_64)).2) =
      a.numThreads * 10 + ∑ i, if ∃ k, f.unregistered j i k = true then 1 else 0 := by
    intro j hj
    -- the `thread_1`s run in the even rounds, the `thread_2`s in the odd ones
    have heven : ∀ i, hitsIn (((Unreg.main .x86_64 a junk tid f).prog (2 * j) i).run
        (callocTable .x86_64)).2 = 10 := by
      intro i
      show hitsIn (Prog.run (if 2 * j % 2 = 0 then _ else _) _).2 = 10
      rw [if_pos (Nat.mul_mod_right 2 j), Nat.mul_div_cancel_left j Nat.two_pos]
      exact hits_thread1 _ _ (hall j (mem_range.mp hj) i)
    have hodd : ∀ i, hitsIn (((Unreg.main .x86_64 a junk tid f).prog (2 * j + 1) i).run
        (callocTable .x86_64)).2 = if ∃ k, f.unregistered j i k = true then 1 else 0 := by
      intro i
      show hitsIn (Prog.run (if (2 * j + 1) % 2 = 0 then _ else _) _).2 = _
      rw [if_neg (by omega), show (2 * j + 1) / 2 = j by omega]
      exact hits_thread2 _ _
    rw [sum_const_nat fun i _ => heven i, sum_congr rfl fun i _ => hodd i, card_univ,
      Fintype.card_fin]
  rw [hits, sum_range_two_mul, sum_congr rfl hround, sum_add_distrib,
    sum_const_nat fun _ _ => rfl, card_range, lateHits]

theorem lateHits_le : lateHits a f ≤ a.niter * a.numThreads := by
  have hle : lateHits a f ≤ ∑ _j ∈ range a.niter, ∑ _i : Fin a.numThreads, 1 := by
    refine sum_le_sum fun j _ => sum_le_sum fun i _ => ?_
    split <;> omega
  simpa using hle

theorem lateHits_pos_iff :
    0 < lateHits a f ↔ ∃ j < a.niter, ∃ i k, f.unregistered j i k = true := by
  rw [Nat.pos_iff_ne_zero, ne_eq, lateHits, sum_eq_zero_iff]
  simp only [mem_range, sum_eq_zero_iff, mem_univ, true_implies, ite_eq_right_iff, one_ne_zero,
    imp_false, not_forall, not_not, exists_prop]

/-- Eleven hits are those of one `thread_1` and of a `thread_2` that hits a probe. -/
theorem hits_eq_eleven_iff (junk : BitVec 32) (tid : Nat → Fin a.numThreads → BitVec 32)
    (hall : ∀ j < a.niter, ∀ i k, f.registered j i k = true) :
    hits a junk tid f = 11 ↔
      a.numThreads = 1 ∧ a.niter = 1 ∧ ∃ j < a.niter, ∃ i k, f.unregistered j i k = true := by
  have hle := lateHits_le (a := a) (f := f)
  have hpos : 0 < a.niter * a.numThreads := Nat.mul_pos a.niter_pos a.numThreads_pos
  rw [hits_eq hall, ← lateHits_pos_iff, ← Nat.mul_assoc]
  constructor
  · intro heleven
    have hone : a.niter * a.numThreads = 1 := by omega
    exact ⟨Nat.eq_one_of_mul_eq_one_left hone, Nat.eq_one_of_mul_eq_one_right hone, by omega⟩
  · rintro ⟨hthreads, hniter, hlate⟩
    rw [hthreads, hniter] at hle ⊢
    omega

theorem toInt_ofNat_of_lt {n : Nat} (hlt : n < 2 ^ 63) : (BitVec.ofNat 64 n).toInt = n := by
  have htoNat : (BitVec.ofNat 64 n).toNat = n := by
    rw [BitVec.toNat_ofNat, Nat.mod_eq_of_lt (by omega)]
  rw [BitVec.toInt_eq_toNat_of_lt (by omega), htoNat]

/-- What kunreg has printed at the end, `num_probes` being the number of hits. -/
def endTexts (o : Outcomes) (syms : List Symbol) (hits : Nat) : List String :=
  (Kunreg.initModule o syms .init).2.kern.printed ++ [numProbesText (BitVec.ofNat 64 hits)]

end Test

end UnregTest

end UprobeTests
