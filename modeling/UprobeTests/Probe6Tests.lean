/-
  UprobeTests.Probe6Tests

  The tests probe6_probeme6 and rprobe6_probeme6: the program probeme6.c, which
  calls `add` in a loop and ends below a chain of calls that do not return, under
  the two modules, and what `uprobes_diff` makes of the data file.

  The files are right for five turns of the loop.  That of rprobe6 has the lines
  of the uretprobe handler and a summary without any return, so it is right only
  where there are no uretprobes; the lines that are missing there are not missed.
-/

import UprobeTests.DataRead
import UprobeTests.ProbemeRuns
import UprobeTests.ProbeReports

namespace UprobeTests

open Tcl

/-! ## probeme6.c -/

namespace Probeme

/-- The calls of the loop `L` in `n` rounds from `l` on, and what comes after it. -/
def addCalls (L : Loop Locals) : Nat → Locals → Code String (BitVec 32) →
    Code String (BitVec 32)
  | 0, _, after => after
  | n + 1, l, after => .call "add" .done (L.body l).sum (addCalls L n (L.body l) after)

def arrivederci : Code String (BitVec 32) := .exit

def aufWiedersehen : Code String (BitVec 32) := .call "arrivederci" arrivederci 0 .done

def auRevoir : Code String (BitVec 32) := .call "auf_wiedersehen" aufWiedersehen 0 .done

def adios : Code String (BitVec 32) := .call "au_revoir" auRevoir 0 .done

def bye : Code String (BitVec 32) := .call "adios" adios 0 .done

/-- `main` of probeme6.c behind its SIGSTOP, for a loop of `rounds` rounds. -/
def probeme6Calls (n : BitVec 32) (rounds : Nat) : Code String (BitVec 32) :=
  addCalls (probeme6.loop n) rounds .start (.call "bye" bye 0 .done)

/-- The calls of `add` and their returns. -/
def addEvents (L : Loop Locals) : Nat → Locals → List (CallEvent String (BitVec 32))
  | 0, _ => []
  | n + 1, l => .enter "add" :: .leave "add" (L.body l).sum :: addEvents L n (L.body l)

/-- The last calls, none of which returns. -/
def byeEvents : List (CallEvent String (BitVec 32)) :=
  ["bye", "adios", "au_revoir", "auf_wiedersehen", "arrivederci"].map .enter

theorem events_addCalls (L : Loop Locals) (n : Nat) (l : Locals)
    (after : Code String (BitVec 32)) :
    (addCalls L n l after).events = addEvents L n l ++ after.events := by
  induction n generalizing l with
  | zero => rfl
  | succ n ih =>
      rw [addCalls, addEvents, Code.events, ih]
      rfl

theorem events_probeme6Calls (n : BitVec 32) (rounds : Nat) :
    (probeme6Calls n rounds).events =
      addEvents (probeme6.loop n) rounds .start ++ byeEvents := by
  rw [probeme6Calls, events_addCalls]
  rfl

theorem entered_addEvents (L : Loop Locals) (n : Nat) (l : Locals) (f : String)
    (es : List (CallEvent String (BitVec 32))) :
    Code.entered f (addEvents L n l ++ es) =
      Code.entered f es + if f = "add" then n else 0 := by
  induction n generalizing l with
  | zero => simp [addEvents]
  | succ n ih =>
      simp only [addEvents, List.cons_append, Code.entered, ih, eq_comm (a := "add")]
      split <;> omega

theorem returned_addEvents (L : Loop Locals) (n : Nat) (l : Locals) (f : String)
    (es : List (CallEvent String (BitVec 32))) :
    Code.returned f (addEvents L n l ++ es) =
      Code.returned f es + if f = "add" then n else 0 := by
  induction n generalizing l with
  | zero => simp [addEvents]
  | succ n ih =>
      simp only [addEvents, List.cons_append, Code.returned, ih, eq_comm (a := "add")]
      split <;> omega

end Probeme

namespace Probe6

/-! ## The data file -/

/-- The texts the module has printed when probeme6 has run with the argument `n`
    and the cleanup file has been written. -/
def probeme6Texts (R : Reporter) (verbose : Bool) (n : BitVec 32) (rounds : Nat) : List String :=
  (childExit R (onEvents verbose R.module (.start WriteCleanup.fnames)
    (Probeme.probeme6Calls n rounds).events)).printed

/-- The lines of the file probe6_probeme6. -/
def probe6Expected : List String :=
  ["Registering probes for add", "Registering probes for bye", "Registering probes for adios",
    "Registering probes for au_revoir", "Registering probes for auf_wiedersehen",
    "Registering probes for arrivederci", "add called", "add called", "add called", "add called",
    "add called", "bye called", "adios called", "au_revoir called", "auf_wiedersehen called",
    "arrivederci called", "probe6 add=5 calls", "probe6 bye=1 calls", "probe6 adios=1 calls",
    "probe6 au_revoir=1 calls", "probe6 auf_wiedersehen=1 calls", "probe6 arrivederci=1 calls"]

/-- The lines of the file rprobe6_probeme6. -/
def rprobe6Expected : List String :=
  ["Registering probes for add", "Registering probes for bye", "Registering probes for adios",
    "Registering probes for au_revoir", "Registering probes for auf_wiedersehen",
    "Registering probes for arrivederci", "add called", "add returns 0xC0123456", "add called",
    "add returns 0xC0123456", "add called", "add returns 0xC0123456", "add called",
    "add returns 0xC0123456", "add called", "add returns 0xC0123456", "bye called",
    "adios called", "au_revoir called", "auf_wiedersehen called", "arrivederci called",
    "rprobe6 add=5, calls=0 returns", "rprobe6 bye=1, calls=0 returns",
    "rprobe6 adios=1, calls=0 returns", "rprobe6 au_revoir=1, calls=0 returns",
    "rprobe6 auf_wiedersehen=1, calls=0 returns", "rprobe6 arrivederci=1, calls=0 returns"]

/-- The entry of `f` at the end of the run. -/
def endCounters (R : Reporter) (rounds : Nat) (f : String) : Counters :=
  let calls := if f = "add" then rounds else 1
  let returns := if f = "add" then rounds else 0
  ⟨f, BitVec.ofNat 32 calls, if R.module.uretprobes then BitVec.ofNat 32 returns else 0⟩

section Texts

variable (R : Reporter) (verbose : Bool) (n : BitVec 32) (rounds : Nat)

theorem counts_byeEvents : ∀ f ∈ WriteCleanup.fnames,
    Code.entered f Probeme.byeEvents = (if f = "add" then 0 else 1) ∧
      Code.returned f Probeme.byeEvents = 0 := by
  decide

/-- The texts of the registrations, of the handlers and of `child_exit`. -/
theorem probeme6Texts_eq :
    probeme6Texts R verbose n rounds =
      (WriteCleanup.fnames.map fun f => "Registering probes for " ++ f ++ "\n") ++
      (Probeme.addEvents (Probeme.probeme6.loop n) rounds .start ++ Probeme.byeEvents).flatMap
        (eventTexts verbose R.module WriteCleanup.fnames) ++
      WriteCleanup.fnames.map fun f => R.childExitText (endCounters R rounds f) := by
  obtain ⟨hprobes, hprinted⟩ := onEvents_spec verbose R.module
    (.start WriteCleanup.fnames) (Probeme.probeme6Calls n rounds).events
  have hnames : (Reports.start WriteCleanup.fnames).probes.map Counters.fname =
      WriteCleanup.fnames := by
    decide
  rw [probeme6Texts, childExit, hprinted, hprobes, hnames, Probeme.events_probeme6Calls]
  refine congrArg₂ (· ++ ·) rfl ?_
  rw [Reports.start, List.map_map, List.map_map]
  apply List.map_congr_left
  intro f hf
  obtain ⟨hentered, hreturned⟩ := counts_byeEvents f hf
  simp only [Function.comp_apply, Counters.counts, endCounters, Probeme.entered_addEvents,
    Probeme.returned_addEvents, hentered, hreturned]
  congr 2
  · split <;> simp
  · split <;> simp

theorem text_mem {f : String} (hf : f ∈ WriteCleanup.fnames) :
    R.childExitText (endCounters R rounds f) ∈ probeme6Texts R verbose n rounds := by
  rw [probeme6Texts_eq]
  exact List.mem_append_right _ (List.mem_map_of_mem hf)

theorem isLine_called : ∀ f ∈ WriteCleanup.fnames,
    IsLine ("Registering probes for " ++ f).toList ∧ IsLine (f ++ " called").toList ∧
      IsLine (f ++ " returns ").toList ∧ IsLine ("probe6 " ++ f ++ "=").toList ∧
      IsLine ("rprobe6 " ++ f ++ "=").toList := by
  decide

/-- All of them are lines, when `child_exit` prints lines. -/
theorem areTexts (hR : ∀ f ∈ WriteCleanup.fnames,
    ∃ line, IsTextOf (R.childExitText (endCounters R rounds f)) line) :
    AreTexts (probeme6Texts R verbose n rounds) := by
  rw [probeme6Texts_eq]
  refine (AreTexts.append ?_ ?_).append ?_
  · intro text hmem
    obtain ⟨f, hf, rfl⟩ := List.mem_map.mp hmem
    exact ⟨_, isTextOf_append (isLine_called f hf).1⟩
  · intro text hmem
    obtain ⟨e, -, htext⟩ := List.mem_flatMap.mp hmem
    cases e with
    | enter f =>
        rw [eventTexts] at htext
        split at htext
        next h =>
          obtain rfl := List.mem_singleton.mp htext
          have hline := isTextOf_append (isLine_called f h.2).2.1
          rw [String.append_assoc] at hline
          exact ⟨_, hline⟩
        next => cases htext
    | leave f eax =>
        rw [eventTexts] at htext
        split at htext
        next h =>
          obtain rfl := List.mem_singleton.mp htext
          refine ⟨_, isTextOf_append ?_⟩
          rw [String.toList_append]
          exact (isLine_called f h.2.2).2.2.1.append (plain_formatHex _)
        next => cases htext
  · intro text hmem
    obtain ⟨f, hf, rfl⟩ := List.mem_map.mp hmem
    exact hR f hf

/-! ## The texts fit -/

open DataRead

/-- A call of `add` prints two lines at most. -/
theorem length_addEvents (m : Module) (L : Loop Probeme.Locals) (l : Probeme.Locals) :
    (((Probeme.addEvents L rounds l).flatMap (eventTexts verbose m WriteCleanup.fnames)).map
      String.length).sum ≤ rounds * 42 := by
  have hcalled : ("add" ++ " called\n").length = 11 := by decide
  induction rounds generalizing l with
  | zero => exact Nat.zero_le _
  | succ rounds ih =>
      have hrest := ih (L.body l)
      have henter : ((eventTexts verbose m WriteCleanup.fnames (.enter "add")).map
          String.length).sum ≤ 11 := by
        rw [eventTexts]
        split
        · rw [List.map_singleton, List.sum_singleton, hcalled]
        · exact Nat.zero_le _
      have hleave : ((eventTexts verbose m WriteCleanup.fnames
          (.leave "add" (L.body l).sum)).map String.length).sum ≤ 31 := by
        rw [eventTexts]
        split
        · have hnumber := length_formatHex_le ((L.body l).sum.setWidth 64)
          have hwords : ("add" ++ " returns ").length = 12 ∧ "\n".length = 1 := by decide
          rw [List.map_singleton, List.sum_singleton, String.length_append, String.length_append]
          omega
        · exact Nat.zero_le _
      rw [Probeme.addEvents, List.flatMap_cons, List.flatMap_cons, List.map_append,
        List.map_append, List.sum_append, List.sum_append]
      omega

theorem length_byeEvents (m : Module) :
    ((Probeme.byeEvents.flatMap (eventTexts verbose m WriteCleanup.fnames)).map
      String.length).sum ≤ 83 := by
  -- none of these calls returns, so the module makes no difference
  show ((Probeme.byeEvents.flatMap (eventTexts verbose probe6 WriteCleanup.fnames)).map
    String.length).sum ≤ 83
  cases verbose <;> decide

/-- A run of a few rounds fits, when the lines of `child_exit` are of moderate length. -/
theorem textsFit_probeme6 (hrounds : rounds ≤ 8)
    (hR : ∀ f ∈ WriteCleanup.fnames, (R.childExitText (endCounters R rounds f)).length ≤ 63) :
    TextsFit (probeme6Texts R verbose n rounds) := by
  have hregister : ((WriteCleanup.fnames.map fun f => "Registering probes for " ++ f ++
      "\n").map String.length).sum = 190 := by decide
  have hadd := length_addEvents verbose rounds R.module (Probeme.probeme6.loop n) .start
  have hbye := length_byeEvents verbose R.module
  have hexit := sum_length_le (List.forall_mem_map.mpr hR)
  have hsix : (WriteCleanup.fnames.map fun f =>
      R.childExitText (endCounters R rounds f)).length = 6 := by
    rw [List.length_map]
    rfl
  rw [hsix] at hexit
  rw [TextsFit, probeme6Texts_eq, List.map_append, List.map_append, List.flatMap_append,
    List.map_append, List.sum_append, List.sum_append, List.sum_append, hregister, dataBufSize]
  omega

/-- The lines of `child_exit` are, in both modules. -/
theorem length_childExitText {R : Reporter} (hR : R = probe6Reporter ∨ ∃ a b, R = rprobe6Reporter a b)
    (rounds : Nat) :
    ∀ f ∈ WriteCleanup.fnames, (R.childExitText (endCounters R rounds f)).length ≤ 63 := by
  intro f hf
  have hname : f.length ≤ 15 := by
    have hall : ∀ f ∈ WriteCleanup.fnames, f.length ≤ 15 := by decide
    exact hall f hf
  have hncalls := length_toString_int_le (endCounters R rounds f).ncalls
  have hnret := length_toString_int_le (endCounters R rounds f).nret
  rcases hR with rfl | ⟨a, b, rfl⟩
  · have hwords : "probe6 ".length = 7 ∧ "=".length = 1 ∧ " calls\n".length = 7 := by decide
    show ("probe6 " ++ f ++ "=" ++ toString (endCounters probe6Reporter rounds f).ncalls.toInt ++
      " calls\n").length ≤ 63
    simp only [String.length_append]
    omega
  · have hwords : "rprobe6 ".length = 8 ∧ "=".length = 1 ∧ ", calls=".length = 8 ∧
        " returns\n".length = 9 := by decide
    show ("rprobe6 " ++ f ++ "=" ++ toString (endCounters (rprobe6Reporter a b) rounds f).ncalls.toInt
      ++ ", calls=" ++ toString (endCounters (rprobe6Reporter a b) rounds f).nret.toInt ++
        " returns\n").length ≤ 63
    simp only [String.length_append]
    omega

/-- So the text `uprobes_diff` is given after a few rounds, among them the five of the
    tests, is the data file. -/
theorem reads_probeme6 (hR : R = probe6Reporter ∨ ∃ a b, R = rprobe6Reporter a b)
    (hrounds : rounds ≤ 8) {t : Target} {out : Str}
    (hread : Reads t (probeme6Texts R verbose n rounds) out) :
    out = dataText (probeme6Texts R verbose n rounds) :=
  hread.eq_dataText (textsFit_probeme6 R verbose n rounds hrounds (length_childExitText hR rounds))

end Texts

/-- The loop of probeme6 makes as many rounds as its argument says. -/
theorem toInt_ofNat_rounds {n : BitVec 32} {rounds : Nat} {fin : Probeme.Locals}
    (hpos : 0 < n.toInt) (h : (Probeme.probeme6.loop n).Ends .start rounds fin) :
    n.toInt = rounds ∧ BitVec.ofNat 32 rounds = n := by
  have hmax : n.toInt ≠ 2 ^ 31 - 1 := by
    intro hmax
    exact h.not_forever ((Probeme.counts_signed (p := .probeme6) nofun).forever_signed hmax)
  obtain ⟨fin', hends⟩ := Probeme.loop_ends (p := .probeme6) hpos fun _ => hmax
  obtain ⟨rfl, -⟩ := h.unique hends
  have hn := Probeme.toInt_eq_toNat_of_nonneg hpos.le
  refine ⟨(Int.toNat_of_nonneg hpos.le).symm, ?_⟩
  rw [hn, Int.toNat_natCast, BitVec.ofNat_toNat, BitVec.setWidth_eq]

/-! ## The line that depends on the argument -/

/-- A summary of `add` is left as it is. -/
theorem leftAlone_add {name tail : Str} {i : Int} (hname : ' ' ∉ name ∧ 'x' ∉ name)
    (htail : decimalPattern.Settled decimalSub tail) (hx : 'x' ∉ tail) :
    normalise (name ++ " add=".toList ++ (toString i).toList ++ tail) =
      name ++ " add=".toList ++ (toString i).toList ++ tail := by
  rw [normalise_eq_self_iff]
  have hcount : ' ' ∉ "dd=".toList ++ (toString i).toList := by
    intro hmem
    rcases List.mem_append.mp hmem with hmem | hmem
    · revert hmem
      decide
    · exact ne_of_mem_toString hmem (by decide) (by decide) rfl
  constructor
  · have hsettled := settled_count (c := 'a') hname.1 hcount htail
      (by decide) (by decide)
    simpa using hsettled
  · apply RunPattern.settled_of_second
    intro c hc
    apply beq_false_of_ne
    rintro rfl
    simp only [List.mem_append] at hc
    rcases hc with ((hc | hc) | hc) | hc
    · exact hname.2 hc
    · revert hc
      decide
    · exact ne_of_mem_toString hc (by decide) (by decide) rfl
    · exact hx hc

/-! ## probe6 -/

theorem probe6_isTextOf {f : String} (hf : f ∈ WriteCleanup.fnames) (pi : Counters)
    (hpi : pi.fname = f) :
    IsTextOf (probe6Reporter.childExitText pi) (("probe6 " ++ f ++ "=").toList ++
      (toString pi.ncalls.toInt).toList ++ " calls".toList) := by
  constructor
  · simp [probe6Reporter, hpi]
  · exact ((isLine_called f hf).2.2.2.1.append (plain_toString _)).append (by decide)

theorem isLine_probe6Expected : ∀ line ∈ probe6Expected, IsLine line.toList := by decide

theorem count_of_mem_probe6Expected {count : Str}
    (h : "probe6".toList ++ " add=".toList ++ count ++ " calls".toList ∈
      probe6Expected.map String.toList) :
    count = "5".toList := by
  have hcount : count ++ " calls".toList = "5".toList ++ " calls".toList := by
    simpa [probe6Expected] using h
  exact List.append_cancel_right hcount

/-- What the module prints of a run of probeme6 is accepted exactly for five calls. -/
theorem probe6_test_iff {n : BitVec 32} {rounds : Nat} {fin : Probeme.Locals}
    (hpos : 0 < n.toInt) (h : (Probeme.probeme6.loop n).Ends .start rounds fin) :
    diffSucceeds (dataText (probeme6Texts probe6Reporter true n rounds))
      (fileText probe6Expected) = true ↔ n = 5 := by
  obtain ⟨hn, hrounds⟩ := toInt_ofNat_rounds hpos h
  constructor
  · intro hdiff
    have hadd : "add" ∈ WriteCleanup.fnames := by decide
    have htexts : AreTexts (probeme6Texts probe6Reporter true n rounds) :=
      areTexts _ _ _ _ fun f hf => ⟨_, probe6_isTextOf hf _ rfl⟩
    -- the line of `add` alone tells the number of rounds
    have hmem := mem_of_diffSucceeds htexts isLine_probe6Expected hdiff
      (text_mem _ true n rounds hadd) (probe6_isTextOf hadd _ rfl)
    have hcount : (endCounters probe6Reporter rounds "add").ncalls.toInt = rounds := by
      rw [← hn, ← hrounds]
      rfl
    have hname : ("probe6 " ++ "add" ++ "=").toList = "probe6".toList ++ " add=".toList := by
      decide
    rw [hcount, hname, leftAlone_add (by decide)
      (RunPattern.settled_of_regsub_eq isMatch_decimalSub (by decide)) (by decide)] at hmem
    have hfive := count_of_mem_probe6Expected hmem
    have hrounds5 : rounds = 5 := toString_natCast_injective (String.toList_injective hfive)
    rw [← hrounds, hrounds5]
    rfl
  · rintro rfl
    obtain rfl : rounds = 5 := by
      have h5 : (5 : BitVec 32).toInt = 5 := by decide
      omega
    have htexts : probeme6Texts probe6Reporter true 5 5 = probe6Expected.map (· ++ "\n") := by
      decide
    rw [htexts, diffSucceeds_lines_iff isLine_probe6Expected (by decide) isLine_probe6Expected]
    exact ⟨List.Sublist.refl _, fun hover => hover.ne rfl⟩

theorem five_rounds : (Probeme.probeme6.loop 5).Ends .start 5 ⟨6, 15⟩ :=
  .round rfl (.round rfl (.round rfl (.round rfl (.round rfl (.done rfl)))))

theorem probe6_test_five :
    diffSucceeds (dataText (probeme6Texts probe6Reporter true 5 5)) (fileText probe6Expected) =
      true :=
  (probe6_test_iff (by decide) five_rounds).mpr rfl

/-! ## rprobe6 -/

theorem rprobe6_isTextOf (arch init : Bool) {f : String} (hf : f ∈ WriteCleanup.fnames)
    (pi : Counters) (hpi : pi.fname = f) :
    IsTextOf ((rprobe6Reporter arch init).childExitText pi) (("rprobe6 " ++ f ++ "=").toList ++
      (toString pi.ncalls.toInt).toList ++
        (", calls=".toList ++ (toString pi.nret.toInt).toList ++ " returns".toList)) := by
  constructor
  · simp [rprobe6Reporter, hpi]
  · have hcalls := (isLine_called f hf).2.2.2.2.append (plain_toString pi.ncalls.toInt)
    exact hcalls.append (((show Plain ", calls=".toList by decide).append
      (plain_toString _)).append (by decide))

/-- The end of a summary, from the comma on. -/
theorem settled_returns (i : Int) : decimalPattern.Settled decimalSub
    (", calls=".toList ++ (toString i).toList ++ " returns".toList) := by
  have hcount : ' ' ∉ "alls=".toList ++ (toString i).toList := by
    intro hmem
    rcases List.mem_append.mp hmem with hmem | hmem
    · revert hmem
      decide
    · exact ne_of_mem_toString hmem (by decide) (by decide) rfl
  have hreturns : decimalPattern.Settled decimalSub " returns".toList :=
    RunPattern.settled_of_regsub_eq isMatch_decimalSub (by decide)
  have hsettled : decimalPattern.Settled decimalSub
      (",".toList ++ ' ' :: 'c' :: ("alls=".toList ++ (toString i).toList ++ " returns".toList)) :=
    settled_count (by decide) hcount hreturns (by decide) (by decide)
  simpa using hsettled

theorem notMem_returns (i : Int) :
    'x' ∉ ", calls=".toList ++ (toString i).toList ++ " returns".toList := by
  intro hmem
  simp only [List.mem_append] at hmem
  rcases hmem with (hmem | hmem) | hmem
  · revert hmem
    decide
  · exact ne_of_mem_toString hmem (by decide) (by decide) rfl
  · revert hmem
    decide

theorem isLine_rprobe6Expected : ∀ line ∈ rprobe6Expected, IsLine line.toList := by decide

theorem counts_of_mem_rprobe6Expected {calls returns : Str} (hcalls : ',' ∉ calls)
    (hreturns : ',' ∉ returns)
    (h : "rprobe6".toList ++ " add=".toList ++ calls ++
      (", calls=".toList ++ returns ++ " returns".toList) ∈ rprobe6Expected.map String.toList) :
    calls = "5".toList ∧ returns = "0".toList := by
  have heq : calls ++ ',' :: (" calls=".toList ++ returns ++ " returns".toList) =
      "5".toList ++ ',' :: (" calls=".toList ++ "0".toList ++ " returns".toList) := by
    simpa [rprobe6Expected] using h
  have hnone : ',' ∉ " calls=".toList ++ returns ++ " returns".toList := by
    simpa using hreturns
  obtain ⟨hfive, -, hrest⟩ := (List.append_cons_inj_of_notMem hcalls hnone).mp heq
  exact ⟨hfive, List.append_cancel_left (List.append_cancel_right hrest)⟩

/-- The lines of the module without uretprobes, for five calls. -/
def rprobe6Lines : List String := rprobe6Expected.filter (· ≠ "add returns 0xC0123456")

/-- What the module prints of a run of probeme6 is accepted exactly for five calls
    and without uretprobes, though the file has the lines of their handler. -/
theorem rprobe6_test_iff (arch init : Bool) {n : BitVec 32} {rounds : Nat}
    {fin : Probeme.Locals} (hpos : 0 < n.toInt)
    (h : (Probeme.probeme6.loop n).Ends .start rounds fin) :
    diffSucceeds (dataText (probeme6Texts (rprobe6Reporter arch init) true n rounds))
      (fileText rprobe6Expected) = true ↔ arch = false ∧ n = 5 := by
  obtain ⟨hn, hrounds⟩ := toInt_ofNat_rounds hpos h
  constructor
  · intro hdiff
    have hadd : "add" ∈ WriteCleanup.fnames := by decide
    have htexts : AreTexts (probeme6Texts (rprobe6Reporter arch init) true n rounds) :=
      areTexts _ _ _ _ fun f hf => ⟨_, rprobe6_isTextOf arch init hf _ rfl⟩
    have hmem := mem_of_diffSucceeds htexts isLine_rprobe6Expected hdiff
      (text_mem _ true n rounds hadd) (rprobe6_isTextOf arch init hadd _ rfl)
    have hcalls : (endCounters (rprobe6Reporter arch init) rounds "add").ncalls.toInt =
        (rounds : Int) := by
      rw [← hn, ← hrounds]
      rfl
    have hname : ("rprobe6 " ++ "add" ++ "=").toList = "rprobe6".toList ++ " add=".toList := by
      decide
    rw [hcalls, hname, leftAlone_add (by decide) (settled_returns _) (notMem_returns _)] at hmem
    have hcomma (i : Int) : ',' ∉ (toString i).toList := fun hc =>
      ne_of_mem_toString hc (by decide) (by decide) rfl
    obtain ⟨hfive, hzero⟩ := counts_of_mem_rprobe6Expected (hcomma _) (hcomma _) hmem
    have hrounds5 : rounds = 5 := toString_natCast_injective (String.toList_injective hfive)
    refine ⟨?_, by rw [← hrounds, hrounds5]; rfl⟩
    -- with uretprobes the summary has as many returns as calls
    cases arch with
    | false => rfl
    | true =>
        subst hrounds5
        revert hzero
        cases init <;> decide
  · rintro ⟨rfl, rfl⟩
    obtain rfl : rounds = 5 := by
      have h5 : (5 : BitVec 32).toInt = 5 := by decide
      omega
    have htexts : probeme6Texts (rprobe6Reporter false init) true 5 5 =
        rprobe6Lines.map (· ++ "\n") := by
      cases init <;> decide
    rw [htexts, diffSucceeds_lines_iff (by decide) (by decide) isLine_rprobe6Expected]
    decide

theorem rprobe6_test_five :
    diffSucceeds (dataText (probeme6Texts (rprobe6Reporter false false) true 5 5))
      (fileText rprobe6Expected) = true :=
  (rprobe6_test_iff false false (by decide) five_rounds).mpr ⟨rfl, rfl⟩

end Probe6

end UprobeTests
