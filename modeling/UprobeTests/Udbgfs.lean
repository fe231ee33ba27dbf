/-
  UprobeTests.Udbgfs

  The set-up and tear-down of include/udbgfs.c: the debugfs directory and its
  two files, and the print buffer.

  `u_dbfs_init` has four ways to fail.  The first two give back what they
  took; when the print buffer cannot be allocated the debugfs entries stay
  behind (`uDbfsInit_spec`).
-/

import UprobeTests.KernelApi

namespace UprobeTests

/-- `set_up_print_buffer`. -/
def setUpPrintBuffer (o : Outcomes) (k : Kern) : Int × Kern :=
  match k.kmalloc o .printBuf with
  | (none, k) => (-enomem, { k with printBuf := none })
  | (some printBuf, k) =>
      match { k with printBuf := some printBuf, data := none }.kmalloc o .data with
      | (none, k) => (-enomem, k.kfree (.printBuf printBuf))
      | (some data, k) => (0, { k with data := some data })

/-- `clean_up_print_buffer`. -/
def cleanUpPrintBuffer (k : Kern) : Kern :=
  match k.printBuf, k.data with
  | some printBuf, some data => (k.kfree (.data data)).kfree (.printBuf printBuf)
  | _, _ => k

/-- `u_dbfs_init`; the result of creating `cleanup` is not looked at. -/
def uDbfsInit (o : Outcomes) (dbgDirPath : String) (k : Kern) : Int × Kern :=
  match k.debugfsCreate o (.dir dbgDirPath) with
  | (none, k) => (-1, { k with dir := none })
  | (some dir, k) =>
      match { k with dir := some dir }.debugfsCreate o (.file "data") with
      | (none, k) => (-1, { k with dataFile := none }.debugfsRemove dir)
      | (some dataFile, k) =>
          match setUpPrintBuffer o { k with dataFile := some dataFile } with
          | (ret, k) =>
              -- here neither the files nor the directory are removed
              if ret < 0 then (-1, k)
              else
                match k.debugfsCreate o (.file "cleanup") with
                | (cleanupFile, k) => (0, { k with cleanupFile := cleanupFile })

/-- `if (d) debugfs_remove(d)`. -/
def Kern.debugfsRemoveIf (k : Kern) : Option Dentry → Kern
  | some d => k.debugfsRemove d
  | none => k

/-- `u_dbfs_cleanup`. -/
def uDbfsCleanup (k : Kern) : Kern :=
  let k := k.debugfsRemoveIf k.dataFile
  let k := k.debugfsRemoveIf k.cleanupFile
  let k := k.debugfsRemoveIf k.dir
  cleanUpPrintBuffer k

/-! ## The tear-down -/

/-- A consumer of the module is allocated. -/
def Kern.HoldsConsumer (k : Kern) : Prop := ∃ n, .consumer n ∈ k.live

theorem Kern.HoldsConsumer.not_clean {k : Kern} (h : k.HoldsConsumer) : ¬ k.Clean := by
  rintro ⟨hlive, -⟩
  obtain ⟨n, hn⟩ := h
  rw [hlive] at hn
  cases hn

theorem Kern.HoldsConsumer.kfree {k : Kern} (h : k.HoldsConsumer) {a : Alloc}
    (ha : ∀ n, a ≠ .consumer n) : (k.kfree a).HoldsConsumer := by
  obtain ⟨n, hn⟩ := h
  exact ⟨n, (List.mem_erase_of_ne (ha n).symm).mpr hn⟩

theorem debugfsRemoveIf_live (k : Kern) (d : Option Dentry) :
    (k.debugfsRemoveIf d).live = k.live := by
  cases d with
  | none => rfl
  | some d => rfl

/-- No tear-down frees a consumer. -/
theorem Kern.HoldsConsumer.uDbfsCleanup {k : Kern} (h : k.HoldsConsumer) :
    (uDbfsCleanup k).HoldsConsumer := by
  rw [UprobeTests.uDbfsCleanup, cleanUpPrintBuffer]
  have hremoved : (((k.debugfsRemoveIf k.dataFile).debugfsRemoveIf
      (k.debugfsRemoveIf k.dataFile).cleanupFile).debugfsRemoveIf
      ((k.debugfsRemoveIf k.dataFile).debugfsRemoveIf
        (k.debugfsRemoveIf k.dataFile).cleanupFile).dir).HoldsConsumer := by
    rw [Kern.HoldsConsumer, debugfsRemoveIf_live, debugfsRemoveIf_live, debugfsRemoveIf_live]
    exact h
  split
  · exact (hremoved.kfree fun n => Alloc.noConfusion).kfree fun n => Alloc.noConfusion
  · exact hremoved

/-- The tear-down changes only the allocations and the debugfs entries. -/
theorem uDbfsCleanup_frame (k : Kern) :
    ∃ live dentries, uDbfsCleanup k = { k with live := live, dentries := dentries } := by
  have hremove : ∀ (k : Kern) d, ∃ dentries,
      k.debugfsRemoveIf d = { k with dentries := dentries } := by
    intro k d
    cases d with
    | none => exact ⟨_, rfl⟩
    | some d => exact ⟨_, rfl⟩
  rw [uDbfsCleanup]
  obtain ⟨_, h₁⟩ := hremove k k.dataFile
  rw [h₁]
  obtain ⟨_, h₂⟩ := hremove _ _
  rw [h₂]
  obtain ⟨_, h₃⟩ := hremove _ _
  rw [h₃, cleanUpPrintBuffer]
  split
  · exact ⟨_, _, rfl⟩
  · exact ⟨_, _, rfl⟩

/-! ## The set-up -/

/-- After a successful `u_dbfs_init`; `cleanup` says whether the third entry exists. -/
def Kern.ready (dbgDirPath : String) (cleanup : Bool) : Kern :=
  let cleanupFile := if cleanup then some (Dentry.file "cleanup") else none
  { Kern.init with
    debugfsCalls := 3
    kmallocCalls := 2
    live := [.printBuf 0, .data 1]
    dentries := [.dir dbgDirPath, .file "data"] ++ cleanupFile.toList
    dir := some (.dir dbgDirPath)
    dataFile := some (.file "data")
    cleanupFile := cleanupFile
    printBuf := some 0
    data := some 1 }

/-- The tear-down gives back what the set-up took. -/
theorem clean_uDbfsCleanup_ready (dbgDirPath : String) (cleanup : Bool) (kzallocCalls : Nat) :
    (uDbfsCleanup { Kern.ready dbgDirPath cleanup with kzallocCalls := kzallocCalls }).Clean := by
  cases cleanup with
  | true => exact ⟨rfl, rfl, rfl, rfl, by simp [uDbfsCleanup, cleanUpPrintBuffer, Kern.kfree,
      Kern.debugfsRemoveIf, Kern.debugfsRemove, Kern.ready]⟩
  | false => exact ⟨rfl, rfl, rfl, rfl, by simp [uDbfsCleanup, cleanUpPrintBuffer, Kern.kfree,
      Kern.debugfsRemoveIf, Kern.debugfsRemove, Kern.ready]⟩

/-- The four failures of `u_dbfs_init` and its success. -/
theorem uDbfsInit_spec (o : Outcomes) (dbgDirPath : String) :
    if o.debugfsCreate 0 = false ∨ o.debugfsCreate 1 = false then
      (uDbfsInit o dbgDirPath .init).1 = -1 ∧ (uDbfsInit o dbgDirPath .init).2.Clean
    else if o.kmalloc 0 = false ∨ o.kmalloc 1 = false then
      -- the directory and the data file stay behind
      (uDbfsInit o dbgDirPath .init).1 = -1 ∧
        (uDbfsInit o dbgDirPath .init).2.dentries = [.dir dbgDirPath, .file "data"]
    else uDbfsInit o dbgDirPath .init = (0, .ready dbgDirPath (o.debugfsCreate 2)) := by
  cases hdir : o.debugfsCreate 0 with
  | false =>
      rw [if_pos (Or.inl rfl)]
      simp [uDbfsInit, Kern.debugfsCreate, Kern.init, hdir]
      exact ⟨rfl, rfl, rfl, rfl, rfl⟩
  | true =>
      cases hdata : o.debugfsCreate 1 with
      | false =>
          rw [if_pos (Or.inr rfl)]
          simp [uDbfsInit, Kern.debugfsCreate, Kern.debugfsRemove, Kern.init, hdir, hdata]
          exact ⟨rfl, rfl, rfl, rfl, rfl⟩
      | true =>
          rw [if_neg (by simp)]
          cases hbuf : o.kmalloc 0 with
          | false =>
              rw [if_pos (Or.inl rfl)]
              simp [uDbfsInit, setUpPrintBuffer, Kern.debugfsCreate, Kern.kmalloc, Kern.init,
                enomem, hdir, hdata, hbuf]
          | true =>
              cases hmem : o.kmalloc 1 with
              | false =>
                  rw [if_pos (Or.inr rfl)]
                  simp [uDbfsInit, setUpPrintBuffer, Kern.debugfsCreate, Kern.kmalloc, Kern.kfree,
                    Kern.init, enomem, hdir, hdata, hbuf, hmem]
              | true =>
                  rw [if_neg (by simp)]
                  cases hcleanup : o.debugfsCreate 2 with
                  | false =>
                      simp [uDbfsInit, setUpPrintBuffer, Kern.debugfsCreate, Kern.kmalloc,
                        Kern.init, Kern.ready, hdir, hdata, hbuf, hmem, hcleanup]
                  | true =>
                      simp [uDbfsInit, setUpPrintBuffer, Kern.debugfsCreate, Kern.kmalloc,
                        Kern.init, Kern.ready, hdir, hdata, hbuf, hmem, hcleanup]

theorem uDbfsInit_of_zero {o : Outcomes} {dbgDirPath : String}
    (h : (uDbfsInit o dbgDirPath .init).1 = 0) :
    uDbfsInit o dbgDirPath .init = (0, .ready dbgDirPath (o.debugfsCreate 2)) := by
  have hspec := uDbfsInit_spec o dbgDirPath
  split at hspec
  · rw [hspec.1] at h
    exact absurd h (by decide)
  · split at hspec
    · rw [hspec.1] at h
      exact absurd h (by decide)
    · exact hspec

end UprobeTests
