/-
  UprobeTests.ProbeReports

  The handlers and the summary of uprobes.existing/rprobe6.c and
  uprobes.existing/probe6.c.  `u_handler` counts the calls of a function of the
  table and `rp_handler` its returns, so at every point of a run the two differ
  by the frames of the function on the stack (`counters_of_run`).
-/

import UprobeTests.Lib.Calls
import UprobeTests.Probe6
import UprobeTests.ProbeModule
import UprobeTests.WriteCleanup

namespace UprobeTests

namespace Probe6

open Code

/-- The fields of a `struct probe_info` that the handlers use. -/
structure Counters where
  fname : String
  ncalls : BitVec 32
  nret : BitVec 32
deriving DecidableEq, Repr

/-- `probes[]`, and the texts handed to `test_printk`. -/
structure Reports where
  probes : List Counters
  printed : List String
deriving DecidableEq, Repr

/-- A module with what its `child_exit` prints for an entry. -/
structure Reporter where
  module : Module
  childExitText : Counters → String

def rprobe6Reporter (archSupportsUretprobes uprobesInitUretprobes : Bool) : Reporter where
  module := rprobe6 archSupportsUretprobes uprobesInitUretprobes
  childExitText pi := "rprobe6 " ++ pi.fname ++ "=" ++ toString pi.ncalls.toInt ++ ", calls=" ++
    toString pi.nret.toInt ++ " returns\n"

def probe6Reporter : Reporter where
  module := probe6
  childExitText pi := "probe6 " ++ pi.fname ++ "=" ++ toString pi.ncalls.toInt ++ " calls\n"

section Handlers

variable (verbose : Bool)

/-- `u_handler`, hit at the function of the entry named `f`. -/
def uHandler (f : String) (r : Reports) : Reports where
  probes := r.probes.map fun pi =>
    if pi.fname = f then { pi with ncalls := pi.ncalls + 1 } else pi
  printed := if verbose then r.printed ++ [f ++ " called\n"] else r.printed

/-- `rp_handler`; `%#lx` prints the register `eax`. -/
def rpHandler (f : String) (eax : BitVec 32) (r : Reports) : Reports where
  probes := r.probes.map fun pi =>
    if pi.fname = f then { pi with nret := pi.nret + 1 } else pi
  printed :=
    if verbose then r.printed ++ [f ++ " returns " ++ formatHex (eax.setWidth 64) ++ "\n"]
    else r.printed

variable (m : Module)

/-- What the probes of the module make of a call: only a function of the table
    has them, and a uretprobe only where the module registers one. -/
def onEvent (r : Reports) : CallEvent String (BitVec 32) → Reports
  | .enter f => if f ∈ r.probes.map Counters.fname then uHandler verbose f r else r
  | .leave f eax =>
      if m.uretprobes ∧ f ∈ r.probes.map Counters.fname then rpHandler verbose f eax r else r

def onEvents (r : Reports) (es : List (CallEvent String (BitVec 32))) : Reports :=
  es.foldl (onEvent verbose m) r

end Handlers

/-- `child_exit`. -/
def childExit (R : Reporter) (r : Reports) : Reports :=
  { r with printed := r.printed ++ r.probes.map R.childExitText }

/-- When all probes of the table have been registered. -/
def Reports.start (fnames : List String) : Reports where
  probes := fnames.map fun f => ⟨f, 0, 0⟩
  printed := fnames.map fun f => "Registering probes for " ++ f ++ "\n"

/-! ## What a run leaves in the table -/

section Run

variable {verbose : Bool} {m : Module}

/-- What an event adds to the counters of an entry. -/
def Counters.count (m : Module) (pi : Counters) : CallEvent String (BitVec 32) → Counters
  | .enter f => if pi.fname = f then { pi with ncalls := pi.ncalls + 1 } else pi
  | .leave f _ => if m.uretprobes ∧ pi.fname = f then { pi with nret := pi.nret + 1 } else pi

theorem fname_count (pi : Counters) (e : CallEvent String (BitVec 32)) :
    (pi.count m e).fname = pi.fname := by
  cases e with
  | enter f | leave f v =>
      rw [Counters.count]
      split <;> rfl

/-- An event that is not of a function of the table changes no entry. -/
theorem probes_onEvent (r : Reports) (e : CallEvent String (BitVec 32)) :
    (onEvent verbose m r e).probes = r.probes.map fun pi => pi.count m e := by
  have hother {f : String} {b : Prop} (h : ¬ (b ∧ f ∈ r.probes.map Counters.fname))
      (g : Counters → Counters) [Decidable b] :
      r.probes = r.probes.map fun pi => if b ∧ pi.fname = f then g pi else pi := by
    rw [List.map_congr_left (g := id), List.map_id]
    intro pi hpi
    apply if_neg
    rintro ⟨hb, rfl⟩
    exact h ⟨hb, List.mem_map_of_mem hpi⟩
  cases e with
  | enter f =>
      rw [onEvent]
      split
      next => rfl
      next h => simpa [Counters.count] using hother (b := True) (by simpa using h) _
  | leave f v =>
      rw [onEvent]
      split
      next h => simp [rpHandler, Counters.count, h.1]
      next h => exact hother h _

/-- What the handlers of an event print, for a table of these functions. -/
def eventTexts (verbose : Bool) (m : Module) (fnames : List String) :
    CallEvent String (BitVec 32) → List String
  | .enter f => if verbose ∧ f ∈ fnames then [f ++ " called\n"] else []
  | .leave f eax =>
      if verbose ∧ m.uretprobes ∧ f ∈ fnames then
        [f ++ " returns " ++ formatHex (eax.setWidth 64) ++ "\n"]
      else []

theorem printed_onEvent (r : Reports) (e : CallEvent String (BitVec 32)) :
    (onEvent verbose m r e).printed =
      r.printed ++ eventTexts verbose m (r.probes.map Counters.fname) e := by
  cases e with
  | enter f =>
      rw [onEvent, eventTexts]
      cases verbose <;> split <;> simp_all [uHandler]
  | leave f v =>
      rw [onEvent, eventTexts]
      cases verbose <;> split <;> simp_all [rpHandler]

/-- The counters of an entry after a run. -/
def Counters.counts (m : Module) (pi : Counters) (es : List (CallEvent String (BitVec 32))) :
    Counters :=
  { pi with
    ncalls := pi.ncalls + BitVec.ofNat 32 (entered pi.fname es)
    nret := pi.nret + if m.uretprobes then BitVec.ofNat 32 (returned pi.fname es) else 0 }

theorem counts_cons (pi : Counters) (e : CallEvent String (BitVec 32))
    (es : List (CallEvent String (BitVec 32))) :
    (pi.count m e).counts m es = pi.counts m (e :: es) := by
  cases e with
  | enter f =>
      by_cases hf : pi.fname = f
      · subst hf
        simp [Counters.count, Counters.counts, entered, returned, BitVec.ofNat_add,
          BitVec.add_assoc, BitVec.add_comm]
      · simp [Counters.count, Counters.counts, entered, returned, hf, Ne.symm hf]
  | leave f v =>
      by_cases hf : pi.fname = f
      · subst hf
        cases hm : m.uretprobes <;>
          simp [Counters.count, Counters.counts, entered, returned, BitVec.ofNat_add, hm,
            BitVec.add_assoc, BitVec.add_comm]
      · simp [Counters.count, Counters.counts, entered, returned, hf, Ne.symm hf]

/-- The counters after a run, and the texts in the order of its events. -/
theorem onEvents_spec (verbose : Bool) (m : Module) (r : Reports)
    (es : List (CallEvent String (BitVec 32))) :
    (onEvents verbose m r es).probes = r.probes.map (fun pi => pi.counts m es) ∧
    (onEvents verbose m r es).printed =
      r.printed ++ es.flatMap (eventTexts verbose m (r.probes.map Counters.fname)) := by
  induction es generalizing r with
  | nil => simp [onEvents, Counters.counts, entered, returned]
  | cons e es ih =>
      have hnames : (onEvent verbose m r e).probes.map Counters.fname =
          r.probes.map Counters.fname := by
        rw [probes_onEvent, List.map_map]
        exact List.map_congr_left fun pi _ => fname_count pi e
      obtain ⟨hprobes, hprinted⟩ := ih (onEvent verbose m r e)
      rw [hnames] at hprinted
      constructor
      · rw [onEvents, List.foldl_cons, ← onEvents, hprobes, probes_onEvent, List.map_map]
        apply List.map_congr_left
        intro pi _
        exact counts_cons pi e es
      · rw [onEvents, List.foldl_cons, ← onEvents, hprinted, printed_onEvent, List.flatMap_cons,
          List.append_assoc]

/-- At every point of a run of any program, `ncalls` counts the calls of a function
    and `nret` its returns; where the architecture has uretprobes they differ by
    the activations of the function that are on the stack. -/
theorem counters_of_run (verbose : Bool) (m : Module) (fnames : List String)
    (c : Code String (BitVec 32)) {es : List (CallEvent String (BitVec 32))}
    (h : es <+: c.events) :
    ∃ stack, Path [] es stack ∧
      (onEvents verbose m (.start fnames) es).probes = fnames.map (fun f =>
        ⟨f, BitVec.ofNat 32 (entered f es),
          if m.uretprobes then BitVec.ofNat 32 (returned f es) else 0⟩) ∧
      ∀ pi ∈ (onEvents verbose m (.start fnames) es).probes, m.uretprobes = true →
        pi.ncalls - pi.nret = BitVec.ofNat 32 (stack.count pi.fname) := by
  obtain ⟨stack, hpath, hcount⟩ := balance h
  have hprobes : (onEvents verbose m (.start fnames) es).probes = fnames.map (fun f =>
      ⟨f, BitVec.ofNat 32 (entered f es),
        if m.uretprobes then BitVec.ofNat 32 (returned f es) else 0⟩) := by
    rw [(onEvents_spec verbose m _ es).1, Reports.start, List.map_map]
    apply List.map_congr_left
    intro f _
    simp [Counters.counts]
  refine ⟨stack, hpath, hprobes, ?_⟩
  intro pi hpi hm
  rw [hprobes] at hpi
  obtain ⟨f, -, rfl⟩ := List.mem_map.mp hpi
  rw [if_pos hm, hcount f, BitVec.ofNat_add, BitVec.add_comm, BitVec.add_sub_cancel]

/-- A run that ends the process in `bye`. -/
def endsInBye : List (CallEvent String (BitVec 32)) := [.enter "add", .leave "add" 3, .enter "bye"]

theorem counters_of_run_bye :
    ∃ stack, Path [] endsInBye stack ∧
      (onEvents true (rprobe6 true true) (.start ["add", "bye"]) endsInBye).probes =
        [⟨"add", 1, 1⟩, ⟨"bye", 1, 0⟩] ∧
      ∀ pi ∈ (onEvents true (rprobe6 true true) (.start ["add", "bye"]) endsInBye).probes,
        pi.ncalls - pi.nret = BitVec.ofNat 32 (stack.count pi.fname) := by
  obtain ⟨stack, hpath, -, hcount⟩ := counters_of_run true (rprobe6 true true) ["add", "bye"]
    (.call "add" .done 3 (.call "bye" .exit 0 .done)) (List.prefix_refl _)
  exact ⟨stack, hpath, by decide, fun pi hpi => hcount pi hpi rfl⟩

end Run

end Probe6

end UprobeTests
