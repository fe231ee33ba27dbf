/-
  UprobeTests.Probe5Tests

  The tests of uprobes.existing/probe5.c: what its data file holds when the
  threads of a program have called `add`, and what `uprobes_diff` makes of it.

  A file asks for an exact total.  Where the threads of the program race for
  `ncalls`, as those of probe7-thread do, there is none that every run passes,
  and a run of more calls than the file asks for may pass (`probe5_test_iff`).
-/

import UprobeTests.DataRead
import UprobeTests.HitTotals

namespace UprobeTests

open Tcl

namespace HitCounts

open Activations

/-! ## The data file -/

/-- "Registering uprobe on pid %d, vaddr %#lx\n". -/
def registeringPidText (pid : BitVec 32) (vaddr : BitVec 64) : String :=
  "Registering uprobe on pid " ++ toString pid.toInt ++ ", vaddr " ++ formatHex vaddr ++ "\n"

/-- "ncalls=%d\n". -/
def ncallsText (ncalls : BitVec 32) : String := "ncalls=" ++ toString ncalls.toInt ++ "\n"

/-- What `init_module`, `add_inst` and `child_exit` have printed. -/
def probe5Texts (pid : BitVec 32) (vaddr : BitVec 64) (u : Probe5) : List String :=
  registeringPidText pid vaddr :: u.printed ++ [ncallsText u.ncalls]

/-- The lines of the files for probe5: `calls` times the line of `add_inst`. -/
def probe5Expected (calls total : Nat) : List String :=
  "Registering uprobe on pid 1234 vaddr 0xC0123456" :: List.replicate calls "add() called" ++
    ["ncalls=" ++ toString total]

section Lines

variable {pid : BitVec 32} (vaddr : BitVec 64)

theorem toList_formatHex :
    (formatHex vaddr).toList = "0x".toList ++ Nat.toDigits 16 vaddr.toNat := by
  simp only [formatHex, String.toList_append, String.toList_ofList]

theorem registeringPidText_eq :
    (registeringPidText pid vaddr).toList = ("Registering uprobe on pid".toList ++
      (' ' :: ((toString pid.toInt).toList ++ [',']) ++ (" vaddr ".toList ++
        ("0x".toList ++ Nat.toDigits 16 vaddr.toNat)))) ++ ['\n'] := by
  have hblank : "Registering uprobe on pid ".toList =
      "Registering uprobe on pid".toList ++ [' '] := by decide
  have hcomma : ", vaddr ".toList = [','] ++ " vaddr ".toList := by decide
  have hend : "\n".toList = ['\n'] := by decide
  show ("Registering uprobe on pid " ++ toString pid.toInt ++ ", vaddr " ++ formatHex vaddr ++
    "\n").toList = _
  simp only [String.toList_append, hblank, hcomma, hend, toList_formatHex, List.append_assoc,
    List.cons_append, List.nil_append]

theorem normalise_registeringPid (hpid : 0 < pid.toInt) :
    normalise (registeringPidText pid vaddr).toList.dropLast =
      "Registering uprobe on pid 1234 vaddr 0xC0123456".toList := by
  have hhex := isMatch_formatHex vaddr
  -- no digit of the address begins a decimal number
  have haddr : decimalPattern.regsub decimalSub
      (" vaddr ".toList ++ ("0x".toList ++ Nat.toDigits 16 vaddr.toNat)) =
        " vaddr ".toList ++ ("0x".toList ++ Nat.toDigits 16 vaddr.toNat) := by
    have hvaddr (t : Str) : decimalPattern.regsub decimalSub (" vaddr ".toList ++ '0' :: t) =
        " vaddr ".toList ++ decimalPattern.regsub decimalSub ('0' :: t) := rfl
    have hnone := RunPattern.regsub_of_notMem (s := decimalSub)
      (decimal_apart_hex.notMem_match hhex) []
    rw [List.append_nil] at hnone
    exact (hvaddr _).trans (congrArg _ (hnone.trans (List.append_nil _)))
  have hpid' (t : Str) : decimalPattern.regsub decimalSub
      ("Registering uprobe on pid".toList ++ ' ' :: t) =
        "Registering uprobe on pid".toList ++ decimalPattern.regsub decimalSub (' ' :: t) := rfl
  have hafter : spanLength decimalPattern.run
      (" vaddr ".toList ++ ("0x".toList ++ Nat.toDigits 16 vaddr.toNat)) = 0 := rfl
  have hhexsub : hexPattern.regsub hexSub ("0x".toList ++ Nat.toDigits 16 vaddr.toNat) =
      hexSub := by
    have h := RunPattern.regsub_append (s := hexSub) hhex (w := []) rfl
    rw [List.append_nil] at h
    exact h.trans (List.append_nil _)
  rw [registeringPidText_eq, List.dropLast_concat, normalise_eq, List.cons_append, hpid',
    ← List.cons_append, RunPattern.regsub_append (isMatch_comma hpid) hafter, haddr]
  have hsplit : "Registering uprobe on pid".toList ++ (decimalSub ++ (" vaddr ".toList ++
      ("0x".toList ++ Nat.toDigits 16 vaddr.toNat))) =
      "Registering uprobe on pid 1234 vaddr ".toList ++
        ("0x".toList ++ Nat.toDigits 16 vaddr.toNat) := rfl
  rw [hsplit, RunPattern.regsub_of_notMem (by decide), hhexsub]
  rfl

theorem isTextOf_registeringPid :
    IsTextOf (registeringPidText pid vaddr) (registeringPidText pid vaddr).toList.dropLast := by
  have hline : IsLine "Registering uprobe on pid".toList := by decide
  have hplain : Plain (' ' :: ((toString pid.toInt).toList ++ [','])) :=
    Plain.append (t := [' ']) (by decide) ((plain_toString _).append (by decide))
  have hvaddr : Plain (" vaddr ".toList ++ ("0x".toList ++ Nat.toDigits 16 vaddr.toNat)) := by
    rw [← toList_formatHex]
    exact Plain.append (by decide) (plain_formatHex vaddr)
  rw [registeringPidText_eq, List.dropLast_concat]
  exact ⟨registeringPidText_eq vaddr, hline.append (hplain.append hvaddr)⟩

end Lines

section Counts

theorem isTextOf_ncalls (ncalls : BitVec 32) :
    IsTextOf (ncallsText ncalls) ("ncalls=".toList ++ (toString ncalls.toInt).toList) := by
  constructor
  · show ("ncalls=" ++ toString ncalls.toInt ++ "\n").toList = _
    simp only [String.toList_append]
    rfl
  · exact IsLine.append (by decide) (plain_toString _)

theorem normalise_ncalls (ncalls : BitVec 32) :
    normalise ("ncalls=".toList ++ (toString ncalls.toInt).toList) =
      "ncalls=".toList ++ (toString ncalls.toInt).toList :=
  normalise_count (by decide) (by decide) _

end Counts

/-! ## What a run has printed -/

/-- The lines of `add_inst` still to come, of a call or its activation. -/
def toPrint : Unit ⊕ AddAct → Nat
  | .inl _ => 1
  | .inr .print => 1
  | .inr (.loadNcalls) => 0
  | .inr (.storeNcalls _) => 0

def pending (threads : List (List (Unit ⊕ AddAct))) : Nat :=
  (threads.map fun τ => (τ.map toPrint).sum).sum

def called : String := "add() called\n"

theorem pending_split (before after : List (List (Unit ⊕ AddAct))) (τ : List (Unit ⊕ AddAct)) :
    pending (before ++ τ :: after) = (τ.map toPrint).sum + pending (before ++ after) := by
  simp only [pending, List.map_append, List.map_cons, List.sum_append, List.sum_cons]
  omega

/-- A line has been printed for every call that is not to come. -/
theorem printed_of_reachable {verbose : Bool} {threads : List (List Unit)}
    {s : Racing.Threads Probe5 AddAct Unit}
    (h : Racing.Reachable (addSystem verbose) (Racing.start Probe5.start.shared threads) s) :
    ∃ k, s.shared.printed = List.replicate (if verbose then k else 0) called ∧
      k + pending s.threads = (threads.map List.length).sum := by
  induction h with
  | refl =>
      refine ⟨0, by cases verbose <;> rfl, ?_⟩
      rw [Nat.zero_add, pending, Racing.start, List.map_map]
      congr 1
      apply List.map_congr_left
      intro call _
      rw [Function.comp_apply, List.map_map]
      simp [toPrint, Function.comp_def]
  | tail _ hs ih =>
      obtain ⟨k, hprinted, hk⟩ := ih
      cases hs with
      | @call u before m rest after u' new hm =>
          cases hm
          -- a call has its line still to print
          refine ⟨k, hprinted, ?_⟩
          rw [pending_split] at hk ⊢
          exact hk
      | @act u before a rest after o u' new ha =>
          rw [pending_split] at hk
          cases a with
          | print =>
              cases ha
              refine ⟨k + 1, ?_, ?_⟩
              · cases verbose with
                | false => exact hprinted
                | true =>
                    show u.printed ++ [called] = List.replicate (k + 1) called
                    have hk : u.printed = List.replicate k called := hprinted
                    rw [List.replicate_succ', hk]
              · rw [pending_split]
                simp only [List.map_cons, List.map_nil, List.cons_append, List.nil_append,
                  List.sum_cons, toPrint] at hk ⊢
                omega
          | loadNcalls | storeNcalls v =>
              cases ha
              refine ⟨k, hprinted, ?_⟩
              rw [pending_split]
              simpa [toPrint] using hk

theorem printed_of_finished {verbose : Bool} {threads : List (List Unit)}
    {s : Racing.Threads Probe5 AddAct Unit}
    (h : Racing.Reachable (addSystem verbose) (Racing.start Probe5.start.shared threads) s)
    (hfin : s.Finished) : s.shared.printed =
      List.replicate (if verbose then (threads.map List.length).sum else 0) called := by
  obtain ⟨k, hprinted, hk⟩ := printed_of_reachable h
  have hzero : pending s.threads = 0 := by
    apply List.sum_eq_zero
    intro n hn
    obtain ⟨τ, hτ, rfl⟩ := List.mem_map.mp hn
    rw [hfin τ hτ]
    rfl
  rw [hprinted, ← hk, hzero, Nat.add_zero]

/-! ## The verdict of uprobes_diff -/

/-- The lines of the data file, when `add_inst` has printed `k` lines. -/
def probe5Lines (k : Nat) (ncalls : BitVec 32) : List String :=
  "Registering uprobe on pid 1234 vaddr 0xC0123456" :: List.replicate k "add() called" ++
    ["ncalls=" ++ toString ncalls.toInt]

theorem outputLines_probe5 {pid : BitVec 32} (hpid : 0 < pid.toInt) (vaddr : BitVec 64)
    {u : Probe5} {k : Nat} (hprinted : u.printed = List.replicate k called) :
    outputLines (dataText (probe5Texts pid vaddr u)) =
      (probe5Lines k u.ncalls).map String.toList := by
  have hcalled : IsTextOf called "add() called".toList := by decide
  have htexts : AreTexts (probe5Texts pid vaddr u) := by
    intro text htext
    rw [probe5Texts, hprinted] at htext
    rcases List.mem_append.mp htext with htext | htext
    · rcases List.mem_cons.mp htext with rfl | htext
      · exact ⟨_, isTextOf_registeringPid vaddr⟩
      · rw [List.eq_of_mem_replicate htext]
        exact ⟨_, hcalled⟩
    · rw [List.mem_singleton.mp htext]
      exact ⟨_, isTextOf_ncalls _⟩
  have hncalls : normalise (ncallsText u.ncalls).toList.dropLast =
      ("ncalls=" ++ toString u.ncalls.toInt).toList := by
    rw [(isTextOf_ncalls u.ncalls).1, List.dropLast_concat, normalise_ncalls, String.toList_append]
  have hadd : normalise called.toList.dropLast = "add() called".toList := by decide
  rw [outputLines_dataText htexts, probe5Texts, hprinted, probe5Lines]
  simp only [List.cons_append, List.map_cons, List.map_append, List.map_replicate, List.map_nil,
    normalise_registeringPid vaddr hpid, hncalls, hadd]

theorem isLine_probe5Expected (calls total : Nat) :
    ∀ line ∈ probe5Expected calls total, IsLine line.toList := by
  intro line hline
  rcases List.mem_append.mp hline with hline | hline
  · rcases List.mem_cons.mp hline with rfl | hline
    · decide
    · rw [List.eq_of_mem_replicate hline]
      decide
  · rw [List.mem_singleton.mp hline, String.toList_append]
    exact IsLine.append (by decide) (plain_toString (total : Int))

/-- The last line is none of those before it. -/
theorem notMem_probe5 (calls : Nat) (i : Int) :
    ("ncalls=" ++ toString i).toList ∉ ("Registering uprobe on pid 1234 vaddr 0xC0123456" ::
      List.replicate calls "add() called").map String.toList := by
  have hsplit : ("ncalls=" ++ toString i).toList = 'n' :: ("calls=".toList ++ (toString i).toList) :=
    String.toList_append
  rw [hsplit]
  intro hmem
  obtain ⟨line, hline, heq⟩ := List.mem_map.mp hmem
  rcases List.mem_cons.mp hline with rfl | hline
  · exact absurd (List.cons.inj heq).1 (by decide)
  · rw [List.eq_of_mem_replicate hline] at heq
    exact absurd (List.cons.inj heq).1 (by decide)

theorem probe5Lines_sublist_iff {k calls total : Nat} {ncalls : BitVec 32} :
    ((probe5Lines k ncalls).map String.toList).Sublist
        ((probe5Expected calls total).map String.toList) ↔
      k ≤ calls ∧ ncalls.toInt = total := by
  constructor
  · intro hsub
    have hlen := hsub.length_le
    simp only [probe5Lines, probe5Expected, List.length_map, List.length_append, List.length_cons,
      List.length_replicate, List.length_nil] at hlen
    have hmem : ("ncalls=" ++ toString ncalls.toInt).toList ∈
        (probe5Expected calls total).map String.toList :=
      hsub.subset (List.mem_map_of_mem (List.mem_append_right _ List.mem_cons_self))
    rw [probe5Expected, List.map_append] at hmem
    -- the count is the last line of the file, being none of the others
    have hlast := (List.mem_append.mp hmem).resolve_left (notMem_probe5 calls _)
    have heq := String.toList_injective (List.mem_singleton.mp hlast)
    have htotal : toString ncalls.toInt = toString (total : Int) := by
      have hlists := congrArg String.toList heq
      rw [String.toList_append, String.toList_append] at hlists
      exact String.toList_injective (List.append_cancel_left hlists)
    exact ⟨by omega, toString_int_injective htotal⟩
  · rintro ⟨hk, htotal⟩
    apply List.Sublist.map
    have hncalls : toString ncalls.toInt = toString total := by
      rw [htotal]
      rfl
    rw [probe5Lines, probe5Expected, hncalls]
    apply List.Sublist.append_right
    exact (List.replicate_sublist_replicate _ |>.mpr hk).cons_cons _

theorem not_overrun_probe5 {k calls total : Nat} {ncalls : BitVec 32} :
    ¬ Overrun ((probe5Lines k ncalls).map String.toList)
      ((probe5Expected calls total).map String.toList) := by
  rintro ⟨-, hsub⟩
  rw [probe5Expected, List.map_append, List.map_singleton, List.dropLast_concat] at hsub
  apply notMem_probe5 calls ncalls.toInt
  exact hsub.subset (List.mem_map_of_mem (List.mem_append_right _ List.mem_cons_self))

/-- The file is right for as many lines at most and for the exact total. -/
theorem diffSucceeds_probe5_iff {pid : BitVec 32} (hpid : 0 < pid.toInt) (vaddr : BitVec 64)
    {u : Probe5} {k : Nat} (hprinted : u.printed = List.replicate k called) (calls total : Nat) :
    diffSucceeds (dataText (probe5Texts pid vaddr u)) (fileText (probe5Expected calls total)) =
      true ↔ k ≤ calls ∧ u.ncalls.toInt = total := by
  rw [diffSucceeds_iff, outputLines_probe5 hpid vaddr hprinted,
    expectedLines_fileText (isLine_probe5Expected calls total), and_iff_left not_overrun_probe5]
  exact probe5Lines_sublist_iff

/-! ## The verdict on a program -/

/-- A run of threads that make these calls of `add`, from the registration to its end. -/
def Runs (verbose : Bool) (threads : List (List Unit)) (u : Probe5) : Prop :=
  ∃ s, Racing.Reachable (addSystem verbose) (Racing.start Probe5.start.shared threads) s ∧
    s.Finished ∧ s.shared = u

open DataRead

/-- The texts fit as long as no more than 72 lines of `add_inst` are printed. -/
theorem textsFit_probe5 (pid : BitVec 32) (vaddr : BitVec 64) {u : Probe5} {k : Nat}
    (hprinted : u.printed = List.replicate k called) (hk : k ≤ 72) :
    TextsFit (probe5Texts pid vaddr u) := by
  have hpid := length_toString_int_le pid
  have hvaddr := length_formatHex_le vaddr
  have hncalls := length_toString_int_le u.ncalls
  have hfirst : (registeringPidText pid vaddr).length = "Registering uprobe on pid ".length +
      (toString pid.toInt).length + ", vaddr ".length + (formatHex vaddr).length +
        "\n".length := by
    show ("Registering uprobe on pid " ++ toString pid.toInt ++ ", vaddr " ++ formatHex vaddr ++
      "\n").length = _
    simp only [String.length_append]
  have hlast : (ncallsText u.ncalls).length =
      "ncalls=".length + (toString u.ncalls.toInt).length + "\n".length := by
    show ("ncalls=" ++ toString u.ncalls.toInt ++ "\n").length = _
    simp only [String.length_append]
  have hwords : "Registering uprobe on pid ".length = 26 ∧ ", vaddr ".length = 8 ∧
      "\n".length = 1 ∧ "ncalls=".length = 7 ∧ called.length = 13 := by decide
  have hcalls : ∀ text ∈ List.replicate k called, text.length ≤ 13 := fun text htext =>
    Nat.le_of_eq (List.eq_of_mem_replicate htext ▸ hwords.2.2.2.2)
  have hcalled := sum_length_le hcalls
  rw [List.length_replicate] at hcalled
  rw [TextsFit, probe5Texts, hprinted, List.cons_append, List.map_cons, List.map_append,
    List.map_singleton, List.sum_cons, List.sum_append, List.sum_singleton, dataBufSize]
  omega

/-- So what is read of a run is `dataText`, when the module is not verbose or there are
    not too many calls. -/
theorem Runs.reads (pid : BitVec 32) (vaddr : BitVec 64) {verbose : Bool}
    {threads : List (List Unit)} {u : Probe5} (h : Runs verbose threads u)
    (hfew : verbose = true → (threads.map List.length).sum ≤ 72) {t : Target} {out : Str}
    (hread : Reads t (probe5Texts pid vaddr u) out) : out = dataText (probe5Texts pid vaddr u) := by
  obtain ⟨s, hrun, hfin, rfl⟩ := h
  refine hread.eq_dataText (textsFit_probe5 pid vaddr (printed_of_finished hrun hfin) ?_)
  split
  · rename_i hverbose
    exact hfew hverbose
  · exact Nat.zero_le _

/-- `uprobes_diff` accepts what has been printed by then. -/
def Accepted (pid : BitVec 32) (vaddr : BitVec 64) (calls total : Nat) (u : Probe5) : Prop :=
  diffSucceeds (dataText (probe5Texts pid vaddr u)) (fileText (probe5Expected calls total)) = true

section Verdict

variable {pid : BitVec 32} {vaddr : BitVec 64} {verbose : Bool} {threads : List (List Unit)}
  {calls total : Nat}

theorem ncalls_toInt {n : BitVec 32} {m : Nat} (hm : m < 2 ^ 31) (hn : n.toNat = m) :
    n.toInt = m := by
  rw [BitVec.toInt_eq_toNat_of_lt (by omega), hn]

/-- The totals of the runs, read as `%d` prints them. -/
theorem runs_total_iff (verbose : Bool) (hlt : (threads.map List.length).sum < 2 ^ 31) (m : Nat) :
    (∃ u, Runs verbose threads u ∧ u.ncalls.toInt = m) ↔
      Race.least (threads.map List.length : List Nat) ≤ m ∧ m ≤ (threads.map List.length).sum := by
  rw [← ncalls_totals_iff verbose threads (by omega) m]
  constructor
  · rintro ⟨u, ⟨s, hrun, hfin, rfl⟩, hm⟩
    refine ⟨s, hrun, hfin, ?_⟩
    obtain ⟨-, hle⟩ := (ncalls_totals_iff verbose threads (by omega) _).mp ⟨s, hrun, hfin, rfl⟩
    have hint := ncalls_toInt (by omega) (rfl : s.shared.ncalls.toNat = _)
    omega
  · rintro ⟨s, hrun, hfin, hm⟩
    obtain ⟨-, hle⟩ := (ncalls_totals_iff verbose threads (by omega) _).mp ⟨s, hrun, hfin, hm⟩
    exact ⟨_, ⟨s, hrun, hfin, rfl⟩, ncalls_toInt (by omega) hm⟩

theorem accepted_iff (hpid : 0 < pid.toInt) {u : Probe5} (h : Runs verbose threads u) :
    Accepted pid vaddr calls total u ↔
      (verbose = true → (threads.map List.length).sum ≤ calls) ∧ u.ncalls.toInt = total := by
  obtain ⟨s, hrun, hfin, rfl⟩ := h
  rw [Accepted, diffSucceeds_probe5_iff hpid vaddr (printed_of_finished hrun hfin)]
  cases verbose <;> simp

theorem least_le (threads : List (List Unit)) :
    Race.least (threads.map List.length : List Nat) ≤ (threads.map List.length).sum := by
  have h := (Race.ends_sum (threads.map List.length : List Nat)).bounds.1
  rwa [Multiset.sum_coe] at h

/-- Which tests of probe5 can pass, and which cannot fail: with the line of
    `add_inst` asked for `calls` times and a total of `total`, some run passes when
    the threads can come to that total, and every run when they can come to no other. -/
theorem probe5_test_iff (pid : BitVec 32) (vaddr : BitVec 64) (verbose : Bool)
    (threads : List (List Unit)) (calls total : Nat) (hpid : 0 < pid.toInt)
    (hlt : (threads.map List.length).sum < 2 ^ 31) :
    ((∃ u, Runs verbose threads u ∧ Accepted pid vaddr calls total u) ↔
      (verbose = true → (threads.map List.length).sum ≤ calls) ∧
        Race.least (threads.map List.length : List Nat) ≤ total ∧
        total ≤ (threads.map List.length).sum) ∧
    ((∀ u, Runs verbose threads u → Accepted pid vaddr calls total u) ↔
      (verbose = true → (threads.map List.length).sum ≤ calls) ∧
        Race.least (threads.map List.length : List Nat) = total ∧
        (threads.map List.length).sum = total) := by
  constructor
  · rw [← runs_total_iff verbose hlt]
    constructor
    · rintro ⟨u, hrun, haccepted⟩
      obtain ⟨hcalls, htotal⟩ := (accepted_iff hpid hrun).mp haccepted
      exact ⟨hcalls, u, hrun, htotal⟩
    · rintro ⟨hcalls, u, hrun, htotal⟩
      exact ⟨u, hrun, (accepted_iff hpid hrun).mpr ⟨hcalls, htotal⟩⟩
  · have hle := least_le threads
    constructor
    · intro h
      -- a run that ends with the least total, and one that loses nothing
      obtain ⟨u, hrun, hleast⟩ := (runs_total_iff verbose hlt _).mpr ⟨le_refl _, hle⟩
      obtain ⟨u', hrun', hsum⟩ := (runs_total_iff verbose hlt _).mpr ⟨hle, le_refl _⟩
      obtain ⟨hcalls, htotal⟩ := (accepted_iff hpid hrun).mp (h u hrun)
      obtain ⟨-, htotal'⟩ := (accepted_iff hpid hrun').mp (h u' hrun')
      exact ⟨hcalls, by omega, by omega⟩
    · rintro ⟨hcalls, hleast, hsum⟩ u hrun
      refine (accepted_iff hpid hrun).mpr ⟨hcalls, ?_⟩
      obtain ⟨s, hreach, hfin, rfl⟩ := hrun
      obtain ⟨hle₁, hle₂⟩ :=
        (ncalls_totals_iff verbose threads (by omega) _).mp ⟨s, hreach, hfin, rfl⟩
      exact ncalls_toInt (by omega) (by omega)

/-- probe7-thread with the argument 100: some run passes and some does not. -/
theorem probe5_test_thread :
    (∃ u, Runs false [List.replicate 100 (), List.replicate 100 ()] u ∧
      Accepted 3965 0x80485d4 0 200 u) ∧
    ¬ ∀ u, Runs false [List.replicate 100 (), List.replicate 100 ()] u →
      Accepted 3965 0x80485d4 0 200 u := by
  obtain ⟨hsome, hevery⟩ := probe5_test_iff 3965 0x80485d4 false
    [List.replicate 100 (), List.replicate 100 ()] 0 200 (by decide) (by decide)
  exact ⟨hsome.mpr (by decide), fun h => absurd (hevery.mp h).2.1 (by decide)⟩

end Verdict

end HitCounts

end UprobeTests
