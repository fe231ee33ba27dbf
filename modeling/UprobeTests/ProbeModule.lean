/-
  UprobeTests.ProbeModule

  `init_module` and `cleanup_module` of the modules kthread, kdie, kexec,
  kfork_thread, kfork_and_defunc, ksuicide and ksuicide2: set up debugfs, then
  allocate and register one consumer for each symbol that starts with
  "_probe", and in the suicide modules once more for `_probe_9`.

  Neither an error path nor `cleanup_module` unregisters or frees a consumer or
  puts an inode or path, so loading is all-or-nothing only where no consumer is
  ever allocated (`initModule_allOrNothing_iff`).
-/

import Mathlib.Tactic.Tauto
import UprobeTests.Symbols
import UprobeTests.Udbgfs

namespace UprobeTests

/-- Where the modules differ. -/
structure ProbeModule where
  dbgDirPath : String
  /-- the handler the registration loop installs -/
  handler : Handler
  /-- whether `_probe_9` is registered again with `suicide_handler` -/
  suicide : Bool
deriving DecidableEq, Repr

namespace ProbeModule

def kthread : ProbeModule := ⟨"kthread", .probeHandler, false⟩

def kdie : ProbeModule := ⟨"kdie", .probeHandler, false⟩

def kexec : ProbeModule := ⟨"kexec", .probeHandler, false⟩

def kforkThread : ProbeModule := ⟨"kfork_thread", .probeHandler, false⟩

/-- The one module whose loop has no `usp->handler = probe_handler`. -/
def kforkAndDefunc : ProbeModule := ⟨"kfork_and_defunc", .null, false⟩

def ksuicide : ProbeModule := ⟨"ksuicide", .probeHandler, true⟩

def ksuicide2 : ProbeModule := ⟨"ksuicide2", .probeHandler, true⟩

end ProbeModule

/-- `%#lx` of the kernel's vsnprintf, which prints 0 as `0x0`. -/
def formatHex (v : BitVec 64) : String := "0x" ++ String.ofList (Nat.toDigits 16 v.toNat)

/-- "Registering uprobe on inode %d, offset %#lx[%s]\n" on x86_64, where the pointer is
    printed as an `int`.  On i386 the offset is two words, of which `%#lx` takes the low
    one and `%s` the high one, and no name is printed. -/
def registeringText (inode : Option Inode) (offset : Loff) (name : String) : String :=
  "Registering uprobe on inode " ++ toString ((inode.getD 0).setWidth 32).toInt ++
    ", offset " ++ formatHex offset ++ "[" ++ name ++ "]\n"

section InitModule

variable (o : Outcomes) (syms : List Symbol)

/-- Allocate a consumer and register it for the symbol `found`: the body of the
    registration loop.  A result ends `init_module`. -/
def registerProbe (h : Handler) (found : String) (k : Kern) : Option Int × Kern :=
  match k.kzalloc o with
  -- what was registered by the turns before stays registered
  | (none, k) => (some (-enomem), uDbfsCleanup k)
  | (some usp, k) =>
      match findInode o found syms k with
      | (inode, k) =>
          let offset := findOffset found syms
          let k := (k.setHandler usp h).testPrintk (registeringText inode offset found)
          match k.uprobeRegister o inode offset usp with
          | (ret, k) => if ret ≠ 0 then (some (-1), uDbfsCleanup k) else (none, k)

/-- The registrations of `init_module`, once debugfs is set up. -/
def ProbeModule.registerProbes (m : ProbeModule) (k : Kern) : Int × Kern :=
  match forEachGlob syms "_probe" (fun _ => registerProbe o syms m.handler) k with
  | (some ret, k) => (ret, k)
  | (none, k) =>
      if m.suicide then
        match registerProbe o syms .suicideHandler "_probe_9" k with
        | (some ret, k) => (ret, k)
        | (none, k) => (0, k)
      else (0, k)

/-- `init_module`. -/
def ProbeModule.initModule (m : ProbeModule) (k : Kern) : Int × Kern :=
  if initUprobe o < 0 then (-1, k)
  else
    match uDbfsInit o m.dbgDirPath k with
    | (ret, k) => if ret < 0 then (-1, k) else m.registerProbes o syms k

/-- `cleanup_module`. -/
def cleanupModule (k : Kern) : Kern := uDbfsCleanup k

/-- Nothing is held once `init_module` has failed, and nothing once
    `cleanup_module` has returned after an `init_module` that succeeded. -/
def ProbeModule.AllOrNothing (m : ProbeModule) : Prop :=
  ((m.initModule o syms .init).1 ≠ 0 → (m.initModule o syms .init).2.Clean) ∧
    ((m.initModule o syms .init).1 = 0 → (cleanupModule (m.initModule o syms .init).2).Clean)

/-! ## Consumers are never given back -/

variable {o syms}

/-- Once the consumer is allocated it stays, whatever else happens. -/
theorem registerProbe_holdsConsumer (o : Outcomes) (syms : List Symbol) (h : Handler)
    (found : String) {k : Kern}
    (hk : k.HoldsConsumer ∨ o.kzalloc k.kzallocCalls = true) :
    (registerProbe o syms h found k).2.HoldsConsumer := by
  rw [registerProbe, Kern.kzalloc]
  by_cases hz : o.kzalloc k.kzallocCalls = true
  · rw [if_pos hz]
    -- the new consumer survives the lookup of the inode
    have hmem : .consumer k.kzallocCalls ∈ (findInode o found syms k.withConsumer).2.live := by
      obtain ⟨_, _, _, hframe⟩ := findInode_frame o found syms k.withConsumer
      rw [hframe]
      exact List.mem_append_right k.live (List.mem_singleton_self _)
    dsimp only
    generalize findInode o found syms k.withConsumer = r at hmem ⊢
    obtain ⟨inode, k'⟩ := r
    have hheld : (Kern.uprobeRegister o ((k'.setHandler k.kzallocCalls h).testPrintk
        (registeringText inode (findOffset found syms) found)) inode (findOffset found syms)
        k.kzallocCalls).2.HoldsConsumer := ⟨_, hmem⟩
    dsimp only at hheld ⊢
    by_cases hret : (Kern.uprobeRegister o ((k'.setHandler k.kzallocCalls h).testPrintk
        (registeringText inode (findOffset found syms) found)) inode (findOffset found syms)
        k.kzallocCalls).1 ≠ 0
    · rw [if_pos hret]
      exact hheld.uDbfsCleanup
    · rw [if_neg hret]
      exact hheld
  · rw [if_neg hz]
    have hheld := hk.resolve_right hz
    exact Kern.HoldsConsumer.uDbfsCleanup hheld

theorem registerProbe_of_kzalloc_fails (h : Handler) (found : String) {k : Kern}
    (hk : o.kzalloc k.kzallocCalls = false) :
    registerProbe o syms h found k =
      (some (-enomem), uDbfsCleanup { k with kzallocCalls := k.kzallocCalls + 1 }) := by
  rw [registerProbe, Kern.kzalloc, hk]
  rfl

theorem runEach_holdsConsumer (o : Outcomes) (syms : List Symbol) (h : Handler) {l : List (Nat × String)} {k : Kern}
    (hk : k.HoldsConsumer ∨ o.kzalloc k.kzallocCalls = true ∧ l ≠ []) :
    (runEach (fun _ => registerProbe o syms h) l k).2.HoldsConsumer := by
  have hkeep : ∀ (_ : Nat) found k', Kern.HoldsConsumer k' →
      (registerProbe o syms h found k').2.HoldsConsumer :=
    fun _ found _ hheld => registerProbe_holdsConsumer o syms h found (Or.inl hheld)
  rcases hk with hheld | ⟨hz, hne⟩
  · exact runEach_invariant hkeep l hheld
  · obtain ⟨x, l, rfl⟩ := List.exists_cons_of_ne_nil hne
    have hfirst := registerProbe_holdsConsumer o syms h x.2 (Or.inr hz)
    rw [runEach]
    split
    · rename_i heq
      rwa [heq] at hfirst
    · rename_i heq
      rw [heq] at hfirst
      exact runEach_invariant hkeep l hfirst

/-- The registrations of a module that has something to register leave a
    consumer behind, unless already the first allocation fails. -/
theorem registerProbes_holdsConsumer (o : Outcomes) (syms : List Symbol) (m : ProbeModule)
    {k : Kern}
    (hz : o.kzalloc k.kzallocCalls = true)
    (hsome : (∃ s ∈ syms, s.Matches "_probe") ∨ m.suicide = true) :
    (m.registerProbes o syms k).2.HoldsConsumer := by
  rw [ProbeModule.registerProbes, forEachGlob_eq]
  by_cases hnone : globMatches "_probe" 0 syms = []
  · -- no symbol matches, so the one registration is that of `_probe_9`
    have hsuicide : m.suicide = true := by
      refine hsome.resolve_left fun ⟨s, hs, hmatch⟩ => ?_
      exact globMatches_eq_nil_iff.mp hnone s hs hmatch
    have hlast := registerProbe_holdsConsumer o syms .suicideHandler "_probe_9" (Or.inr hz)
    simp only [hnone, runEach, hsuicide, if_true]
    split
    · rename_i heq
      rwa [heq] at hlast
    · rename_i heq
      rwa [heq] at hlast
  · have hheld := runEach_holdsConsumer o syms m.handler (Or.inr ⟨hz, hnone⟩)
    split
    · rename_i heq
      rwa [heq] at hheld
    · rename_i k' heq
      rw [heq] at hheld
      have hlast := registerProbe_holdsConsumer o syms .suicideHandler "_probe_9"
        (Or.inl hheld)
      split
      · split
        · rename_i heq'
          rwa [heq'] at hlast
        · rename_i heq'
          rwa [heq'] at hlast
      · exact hheld

/-! ## Loading is all-or-nothing where nothing is ever allocated -/

/-- With the first allocation failing, or nothing to register, the registrations
    give everything back or take nothing. -/
theorem registerProbes_ready (m : ProbeModule) (dbgDirPath : String) (cleanup : Bool)
    (h : o.kzalloc 0 = false ∨ (¬ ∃ s ∈ syms, s.Matches "_probe") ∧ m.suicide = false) :
    m.registerProbes o syms (.ready dbgDirPath cleanup) = (0, .ready dbgDirPath cleanup) ∨
      m.registerProbes o syms (.ready dbgDirPath cleanup) =
        (-enomem, uDbfsCleanup { Kern.ready dbgDirPath cleanup with kzallocCalls := 1 }) := by
  rw [ProbeModule.registerProbes, forEachGlob_eq]
  cases hmatches : globMatches "_probe" 0 syms with
  | nil =>
      simp only [runEach]
      cases hsuicide : m.suicide with
      | false => exact Or.inl rfl
      | true =>
          have hz : o.kzalloc 0 = false := h.resolve_right fun h' => by simp [hsuicide] at h'
          rw [if_pos rfl, registerProbe_of_kzalloc_fails .suicideHandler "_probe_9" hz]
          exact Or.inr rfl
  | cons x l =>
      have hz : o.kzalloc 0 = false := by
        apply h.resolve_right
        intro hnone
        have hnil := (globMatches_eq_nil_iff (i := 0)).mpr fun s hs hmatch =>
          hnone.1 ⟨s, hs, hmatch⟩
        rw [hmatches] at hnil
        cases hnil
      rw [runEach, registerProbe_of_kzalloc_fails m.handler x.2 hz]
      exact Or.inr rfl

/-- Loading and unloading leave nothing behind exactly when loading fails
    before the print buffer is to be allocated, or the print buffer is there
    and no consumer is allocated. -/
theorem initModule_allOrNothing_iff (m : ProbeModule) (o : Outcomes) (syms : List Symbol) :
    m.AllOrNothing o syms ↔
      initUprobe o < 0 ∨ o.debugfsCreate 0 = false ∨ o.debugfsCreate 1 = false ∨
        (o.kmalloc 0 = true ∧ o.kmalloc 1 = true ∧
          (o.kzalloc 0 = false ∨ (¬ ∃ s ∈ syms, s.Matches "_probe") ∧ m.suicide = false)) := by
  rw [ProbeModule.AllOrNothing, ProbeModule.initModule]
  by_cases hinit : initUprobe o < 0
  · rw [if_pos hinit]
    exact iff_of_true ⟨fun _ => Kern.clean_init, fun h => by cases h⟩ (Or.inl hinit)
  rw [if_neg hinit]
  have hdbfs := uDbfsInit_spec o m.dbgDirPath
  generalize uDbfsInit o m.dbgDirPath .init = r at hdbfs ⊢
  obtain ⟨ret, k⟩ := r
  dsimp only at hdbfs ⊢
  -- first the directory and the data file, then the print buffer, then the probes
  by_cases hfiles : o.debugfsCreate 0 = false ∨ o.debugfsCreate 1 = false
  · rw [if_pos hfiles] at hdbfs
    obtain ⟨rfl, hclean⟩ := hdbfs
    rw [if_pos (by decide)]
    exact iff_of_true ⟨fun _ => hclean, fun h => by cases h⟩ (Or.inr (by tauto))
  rw [if_neg hfiles] at hdbfs
  by_cases hbuffer : o.kmalloc 0 = false ∨ o.kmalloc 1 = false
  · rw [if_pos hbuffer] at hdbfs
    obtain ⟨rfl, hleft⟩ := hdbfs
    rw [if_pos (by decide)]
    refine iff_of_false (fun h => ?_) ?_
    · -- the directory and the data file are still there
      have hempty := (h.1 (show (-1 : Int) ≠ 0 by decide)).dentries
      rw [hleft] at hempty
      cases hempty
    · rintro (h | h | h | ⟨h₀, h₁, -⟩)
      · exact hinit h
      · exact hfiles (Or.inl h)
      · exact hfiles (Or.inr h)
      · rcases hbuffer with h | h
        · rw [h] at h₀; cases h₀
        · rw [h] at h₁; cases h₁
  rw [if_neg hbuffer, Prod.mk.injEq] at hdbfs
  obtain ⟨rfl, rfl⟩ := hdbfs
  rw [if_neg (by decide)]
  by_cases hnothing : o.kzalloc 0 = false ∨
      (¬ ∃ s ∈ syms, s.Matches "_probe") ∧ m.suicide = false
  · refine iff_of_true ?_ (Or.inr (Or.inr (Or.inr ⟨?_, ?_, hnothing⟩)))
    · rcases registerProbes_ready m m.dbgDirPath (o.debugfsCreate 2) hnothing with h | h
      · simp only [h]
        exact ⟨fun h => absurd rfl h, fun _ => clean_uDbfsCleanup_ready _ _ 0⟩
      · simp only [h]
        exact ⟨fun _ => clean_uDbfsCleanup_ready _ _ 1, fun h => by cases h⟩
    · by_contra h
      exact hbuffer (Or.inl ((Bool.not_eq_true _).mp h))
    · by_contra h
      exact hbuffer (Or.inr ((Bool.not_eq_true _).mp h))
  · have hheld := registerProbes_holdsConsumer o syms m
      (k := .ready m.dbgDirPath (o.debugfsCreate 2))
      (by
        by_contra hz
        exact hnothing (Or.inl ((Bool.not_eq_true _).mp hz)))
      (by
        by_contra h
        rw [not_or, Bool.not_eq_true] at h
        exact hnothing (Or.inr h))
    refine iff_of_false (fun h => ?_) (by tauto)
    by_cases hret : (m.registerProbes o syms (.ready m.dbgDirPath (o.debugfsCreate 2))).1 = 0
    · exact hheld.uDbfsCleanup.not_clean (h.2 hret)
    · exact hheld.not_clean (h.1 hret)

/-- A table with one probe, and every call succeeding. -/
def oneProbe : List Symbol := [⟨"/uthread", 0x5a4, "_probe_0"⟩]

def allSucceed : Outcomes where
  kallsymsLookupName _ := true
  debugfsCreate _ := true
  kmalloc _ := true
  kzalloc _ := true
  kernPath _ _ := some 0xffff880012345678
  uprobeRegister _ := 0

/-- kthread loads and unloads, and its consumer is still registered. -/
theorem kthread_leaks :
    (ProbeModule.kthread.initModule allSucceed oneProbe .init).1 = 0 ∧
      (cleanupModule (ProbeModule.kthread.initModule allSucceed oneProbe .init).2).registered =
        [⟨some 0xffff880012345678, 0x5a4, some 0⟩] ∧
      ¬ ProbeModule.kthread.AllOrNothing allSucceed oneProbe := by
  refine ⟨by decide, by decide, fun h => ?_⟩
  have hclean := (h.2 (by decide)).registered
  revert hclean
  decide

end InitModule

end UprobeTests
