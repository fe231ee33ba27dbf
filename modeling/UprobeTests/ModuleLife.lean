/-
  UprobeTests.ModuleLife

  uprobes.w/kthread.c from `init_module` to `cleanup_module`, with any number of
  reads of the data file, writes of the cleanup file and runs of `probe_handler`
  beside it.  Each access to the print buffer of include/udbgfs.c is a step of
  its own and is recorded.  A file can be opened as long as its entry is there,
  and a registered consumer can be hit.

  What the buffer contains is left open: a read may find it empty or not.  Left
  to themselves, the loader and a hit do what `init_module`, `cleanup_module`
  and `probe_handler` do (`loads_initModule`, `loads_uDbfsCleanup`,
  `handler_alone`).
-/

import UprobeTests.HitCounts
import UprobeTests.ProbeModule

namespace UprobeTests

namespace ModuleLife

open Activations HitCounts

/-! ## The system -/

/-- The accesses to `print_buf` in `test_printk`, in program order. -/
inductive PrintkUse where
  | lock
  | format
  | moveCur
  | addInBuf
  | subLeft
  | unlock
deriving DecidableEq, Repr

/-- The accesses in `read_data`: `!print_buf->bytes_in_buf`, the arguments of
    `simple_read_from_buffer`, and the copying. -/
inductive ReadUse where
  | test
  | args
  | copy
deriving DecidableEq, Repr

inductive Use where
  | testPrintk (x : PrintkUse)
  | readData (x : ReadUse)
deriving DecidableEq, Repr

/-- Where the buffer is in its life: `set_up_print_buffer` has not completed, it
    has, or `clean_up_print_buffer` has begun. -/
inductive Life where
  | notSetUp
  | setUp
  | cleanedUp
deriving DecidableEq, Repr

/-- What comes next in `init_module` or `cleanup_module`.  In `u_dbfs_cleanup`,
    `ret` is what `init_module` is going to return, `none` in `cleanup_module`. -/
inductive Position where
  | initUprobe
  | createDir
  | createDataFile (dir : Dentry)
  | removeDir (dir : Dentry)
  | allocPrintBuf
  | allocData (printBuf : Nat)
  | freePrintBuf (printBuf : Nat)
  | initPrintBuf
  | createCleanupFile
  | nextProbe (next : Nat)
  | allocConsumer (next : Nat) (found : String)
  | lookup (next : Nat) (found : String) (usp : Nat)
  | print (next : Nat) (found : String) (usp : Nat) (inode : Option Inode) (x : PrintkUse)
  | register (next : Nat) (found : String) (usp : Nat) (inode : Option Inode)
  | loaded
  | removeDataFile (ret : Option Int)
  | removeCleanupFile (ret : Option Int)
  | removeLastDir (ret : Option Int)
  | cleanUp (ret : Option Int)
  | freeData (ret : Option Int) (data printBuf : Nat)
  | freeLast (ret : Option Int) (printBuf : Nat)
  | failed
  | gone (ret : Option Int)

def Position.life : Position → Life
  | .initUprobe | .createDir | .createDataFile _ | .removeDir _ | .allocPrintBuf | .allocData _
  | .freePrintBuf _ | .initPrintBuf | .failed => .notSetUp
  | .freeData .. | .freeLast .. | .gone _ => .cleanedUp
  | _ => .setUp

/-- What `init_module` has returned. -/
def Position.result : Position → Option Int
  | .loaded => some 0
  | .failed => some (-1)
  | .gone ret => ret
  | _ => none

/-- The module, the memory of the probed program, and every use of `print_buf`
    so far with the time in its life. -/
structure ModuleState (t : Target) where
  pos : Position
  kern : Kern
  mem : ByteMem.Mem
  numProbes : BitVec t.ulongBits
  /-- `static int entry` of `write_cleanup` -/
  entry : Nat
  /-- the spinlock of the buffer -/
  locked : Bool
  uses : List (Use × Life)

/-- What the activations beside the loader are about to do. -/
inductive Act (t : Target) where
  | readArgs
  | readCopy
  | writeTest (ok : Bool)
  | writeEntry (ok : Bool)
  | writeCopy (ok : Bool)
  | handler (a : HandlerAct t)
  /-- in `test_printk`, with the texts and the part of the handler to come -/
  | print (x : PrintkUse) (text : String) (texts : List String) (next : List (HandlerAct t))

section System

variable {t : Target}

def ModuleState.life (u : ModuleState t) : Life := u.pos.life

/-- An access to `print_buf`. -/
def ModuleState.use (u : ModuleState t) (x : Use) : ModuleState t :=
  { u with uses := u.uses ++ [(x, u.life)] }

/-- The next access of `test_printk`, and where it is after that. -/
def ModuleState.testPrintk (u : ModuleState t) (text : String) :
    PrintkUse → ModuleState t × Option PrintkUse
  | .lock =>
      let v := u.use (.testPrintk .lock)
      -- while somebody holds it, spin
      if u.locked then (v, some .lock) else ({ v with locked := true }, some .format)
  | .format =>
      let v := u.use (.testPrintk .format)
      ({ v with kern := v.kern.testPrintk text }, some .moveCur)
  | .moveCur => (u.use (.testPrintk .moveCur), some .addInBuf)
  | .addInBuf => (u.use (.testPrintk .addInBuf), some .subLeft)
  | .subLeft => (u.use (.testPrintk .subLeft), some .unlock)
  | .unlock =>
      let v := u.use (.testPrintk .unlock)
      ({ v with locked := false }, none)

/-- What the handler's access functions work on; the texts are collected. -/
def ModuleState.probed (u : ModuleState t) : Probed t := ⟨⟨u.mem, [], u.numProbes⟩, 0⟩

/-- Hand over the texts one after the other, then go on with the handler. -/
def printTexts : List String → List (HandlerAct t) → List (Act t)
  | [], next => next.map .handler
  | text :: texts, next => [.print .lock text texts next]

/-- "num_probes = %ld\n". -/
def childExitText (numProbes : BitVec t.ulongBits) : String :=
  "num_probes = " ++ toString numProbes.toInt ++ "\n"

def act (u : ModuleState t) : Act t → Unit → Option (ModuleState t × List (Act t))
  | .readArgs, _ => some (u.use (.readData .args), [.readCopy])
  | .readCopy, _ => some (u.use (.readData .copy), [])
  | .writeTest ok, _ => some (u, if u.entry ≠ 0 then [] else [.writeEntry ok])
  | .writeEntry ok, _ => some ({ u with entry := u.entry + 1 }, [.writeCopy ok])
  -- `child_exit`
  | .writeCopy ok, _ => some (u, if ok then printTexts [childExitText u.numProbes] [] else [])
  | .handler a, _ =>
      (handlerAct u.probed a ()).map fun r =>
        let k := r.1.kernel
        ({ u with mem := k.mem, numProbes := k.numProbes }, printTexts k.printed r.2)
  | .print x text texts next, _ =>
      match u.testPrintk text x with
      | (u, some x) => some (u, [.print x text texts next])
      | (u, none) => some (u, printTexts texts next)

variable (o : Outcomes) (syms : List Symbol)

def ModuleState.goTo (u : ModuleState t) (pos : Position) (k : Kern) : ModuleState t :=
  { u with pos := pos, kern := k }

/-- The next step of `init_module` or `cleanup_module`. -/
def load (u : ModuleState t) : Option (ModuleState t) :=
  match u.pos with
  | .initUprobe =>
      let pos := if initUprobe o < 0 then .failed else .createDir
      some { u with numProbes := 0, pos := pos }
  | .createDir =>
      match u.kern.debugfsCreate o (.dir "kthread") with
      | (none, k) => some (u.goTo .failed { k with dir := none })
      | (some dir, k) => some (u.goTo (.createDataFile dir) { k with dir := some dir })
  | .createDataFile dir =>
      match u.kern.debugfsCreate o (.file "data") with
      | (none, k) => some (u.goTo (.removeDir dir) { k with dataFile := none })
      | (some dataFile, k) => some (u.goTo .allocPrintBuf { k with dataFile := some dataFile })
  | .removeDir dir => some (u.goTo .failed (u.kern.debugfsRemove dir))
  -- `set_up_print_buffer`
  | .allocPrintBuf =>
      match u.kern.kmalloc o .printBuf with
      | (none, k) => some (u.goTo .failed { k with printBuf := none })
      | (some printBuf, k) =>
          some (u.goTo (.allocData printBuf) { k with printBuf := some printBuf })
  | .allocData printBuf =>
      match { u.kern with data := none }.kmalloc o .data with
      | (none, k) => some (u.goTo (.freePrintBuf printBuf) k)
      | (some data, k) => some (u.goTo .initPrintBuf { k with data := some data })
  | .freePrintBuf printBuf => some (u.goTo .failed (u.kern.kfree (.printBuf printBuf)))
  | .initPrintBuf => some { u with locked := false, pos := .createCleanupFile }
  | .createCleanupFile =>
      match u.kern.debugfsCreate o (.file "cleanup") with
      | (cleanupFile, k) => some (u.goTo (.nextProbe 0) { k with cleanupFile := cleanupFile })
  -- the loop over the probes
  | .nextProbe next =>
      match globNames syms "_probe" next (strnlen "_probe" 20) with
      | none => some (u.goTo .loaded u.kern)
      | some (next, found) => some (u.goTo (.allocConsumer next found) u.kern)
  | .allocConsumer next found =>
      match u.kern.kzalloc o with
      | (none, k) => some (u.goTo (.removeDataFile (some (-enomem))) k)
      | (some usp, k) => some (u.goTo (.lookup next found usp) k)
  | .lookup next found usp =>
      match findInode o found syms u.kern with
      | (inode, k) =>
          some (u.goTo (.print next found usp inode .lock) (k.setHandler usp .probeHandler))
  | .print next found usp inode x =>
      match u.testPrintk (registeringText inode (findOffset found syms) found) x with
      | (u, some x) => some (u.goTo (.print next found usp inode x) u.kern)
      | (u, none) => some (u.goTo (.register next found usp inode) u.kern)
  | .register next found usp inode =>
      match u.kern.uprobeRegister o inode (findOffset found syms) usp with
      | (ret, k) =>
          let pos := if ret ≠ 0 then .removeDataFile (some (-1)) else .nextProbe (next + 1)
          some (u.goTo pos k)
  -- `u_dbfs_cleanup`
  | .removeDataFile ret =>
      some (u.goTo (.removeCleanupFile ret) (u.kern.debugfsRemoveIf u.kern.dataFile))
  | .removeCleanupFile ret =>
      some (u.goTo (.removeLastDir ret) (u.kern.debugfsRemoveIf u.kern.cleanupFile))
  | .removeLastDir ret => some (u.goTo (.cleanUp ret) (u.kern.debugfsRemoveIf u.kern.dir))
  -- `clean_up_print_buffer`
  | .cleanUp ret =>
      match u.kern.printBuf, u.kern.data with
      | some printBuf, some data => some (u.goTo (.freeData ret data printBuf) u.kern)
      | _, _ => some (u.goTo (.gone ret) u.kern)
  | .freeData ret data printBuf =>
      some (u.goTo (.freeLast ret printBuf) (u.kern.kfree (.data data)))
  | .freeLast ret printBuf => some (u.goTo (.gone ret) (u.kern.kfree (.printBuf printBuf)))
  | .loaded | .failed | .gone _ => none

/-- What happens beside the activations. -/
inductive Event where
  /-- `init_module` or `cleanup_module` goes on -/
  | load
  /-- `cleanup_module` is called -/
  | unload
  /-- `read_data` is called and looks at `bytes_in_buf` -/
  | read (nonEmpty : Bool)
  /-- `write_cleanup` is called; `ok` says whether its `copy_from_user` succeeds -/
  | write (ok : Bool)
  /-- a thread hits the probe of a registration -/
  | hit (r : Registration) (ok : UserAccess → Bool) (pid : BitVec 32) (regs : Regs)
  /-- the program writes to its memory -/
  | user (mem : ByteMem.Mem)

/-- The run of `probe_handler` that a hit starts. -/
def handlerStart (u : ModuleState t) (ok : UserAccess → Bool) (pid : BitVec 32) (regs : Regs) :
    HandlerAct t := .putKtid ⟨ok, pid, getFirstArg t regs u.mem⟩

def event (s : Activations (ModuleState t) (Act t)) :
    Event → Option (Activations (ModuleState t) (Act t))
  | .load => (load o syms s.shared).map fun u => ⟨u, s.acts⟩
  | .unload =>
      match s.shared.pos with
      | .loaded => some ⟨s.shared.goTo (.removeDataFile none) s.shared.kern, s.acts⟩
      | _ => none
  | .read nonEmpty =>
      if .file "data" ∈ s.shared.kern.dentries then
        some ⟨s.shared.use (.readData .test), s.acts ++ if nonEmpty then [.readArgs] else []⟩
      else none
  | .write ok =>
      if .file "cleanup" ∈ s.shared.kern.dentries then some ⟨s.shared, s.acts ++ [.writeTest ok]⟩
      else none
  | .hit r ok pid regs =>
      if r ∈ s.shared.kern.registered ∧ r.usp.map s.shared.kern.handler = some .probeHandler then
        some ⟨s.shared, s.acts ++ [.handler (handlerStart s.shared ok pid regs)]⟩
      else none
  | .user mem => some ⟨{ s.shared with mem := mem }, s.acts⟩

variable (t) in
def system : System (ModuleState t) (Act t) Unit Event where
  act := act
  main := event o syms

/-- Before `init_module`. -/
def start (mem : ByteMem.Mem) : Activations (ModuleState t) (Act t) :=
  ⟨⟨.initUprobe, .init, mem, 0, 0, false, []⟩, []⟩

end System

/-! ## The loader alone -/

section Loader

variable {t : Target} {o : Outcomes} {syms : List Symbol} {u u' : ModuleState t}

variable (o syms) in
/-- Left to itself, the loader comes to `pos` with the kernel as in `k`. -/
def Loads (u : ModuleState t) (pos : Position) (k : Kern) : Prop :=
  ∃ u', Reachable (system t o syms) .all ⟨u, []⟩ ⟨u', []⟩ ∧ u'.pos = pos ∧ u'.kern = k

theorem Loads.refl (u : ModuleState t) : Loads o syms u u.pos u.kern := ⟨u, .refl, rfl, rfl⟩

theorem reachable_of_load (h : load o syms u = some u') :
    Reachable (system t o syms) .all ⟨u, []⟩ ⟨u', []⟩ := by
  have hevent : (system t o syms).main ⟨u, []⟩ .load = some ⟨u', []⟩ :=
    Option.map_eq_some_iff.mpr ⟨u', h, rfl⟩
  exact .single (.main hevent rfl)

theorem Loads.trans {pos : Position} {k : Kern}
    (h : Reachable (system t o syms) .all ⟨u, []⟩ ⟨u', []⟩) (hrest : Loads o syms u' pos k) :
    Loads o syms u pos k := by
  obtain ⟨u'', hrun, hend⟩ := hrest
  exact ⟨u'', Relation.ReflTransGen.trans h hrun, hend⟩

theorem Loads.step {pos : Position} {k : Kern} (h : load o syms u = some u')
    (hrest : Loads o syms u' pos k) : Loads o syms u pos k := .trans (reachable_of_load h) hrest

theorem loads_cleanUpPrintBuffer {ret : Option Int} (hpos : u.pos = .cleanUp ret) :
    Loads o syms u (.gone ret) (cleanUpPrintBuffer u.kern) := by
  rw [cleanUpPrintBuffer]
  split
  · rename_i printBuf data hbuf hdata
    have hstep : load o syms u = some (u.goTo (.freeData ret data printBuf) u.kern) := by
      rw [load, hpos]
      simp only [hbuf, hdata]
    exact .step hstep (.step rfl (.step rfl (.refl _)))
  · have hstep : load o syms u = some (u.goTo (.gone ret) u.kern) := by
      rw [load, hpos]
      dsimp only
      split
      · rename_i hnone _ _ _ _ hbuf hdata
        exact absurd hdata (hnone _ _ hbuf)
      · rfl
    exact .step hstep (.refl _)

/-- `u_dbfs_cleanup`. -/
theorem loads_uDbfsCleanup {ret : Option Int} (hpos : u.pos = .removeDataFile ret) :
    Loads o syms u (.gone ret) (uDbfsCleanup u.kern) := by
  have hstep : load o syms u = some (u.goTo (.removeCleanupFile ret)
      (u.kern.debugfsRemoveIf u.kern.dataFile)) := by
    rw [load, hpos]
  exact .step hstep (.step rfl (.step rfl (loads_cleanUpPrintBuffer rfl)))

/-- The text of a turn, the lock being free. -/
theorem loads_print {next usp : Nat} {found : String} {inode : Option Inode} {pos : Position}
    {k : Kern} (hpos : u.pos = .print next found usp inode .lock) (hlocked : u.locked = false)
    (hrest : ∀ u' : ModuleState t, u'.pos = .register next found usp inode →
      u'.kern = u.kern.testPrintk (registeringText inode (findOffset found syms) found) →
      u'.locked = false → Loads o syms u' pos k) : Loads o syms u pos k := by
  obtain ⟨pos, k, mem, numProbes, entry, locked, uses⟩ := u
  cases hpos
  cases hlocked
  refine .step rfl (.step rfl (.step rfl (.step rfl (.step rfl (.step rfl ?_)))))
  exact hrest _ rfl rfl rfl

variable (o syms) in
/-- How the loader goes on from a turn of the loop over the probes. -/
def AfterTurn (next : Nat) (pos : Position) (k : Kern) : Option Int × Kern → Prop
  | (some ret, k') => pos = .gone (some ret) ∧ k = k'
  | (none, k') => ∀ u : ModuleState t, u.pos = .nextProbe next → u.kern = k' → u.locked = false →
      Loads o syms u pos k

theorem loads_register {next usp : Nat} {found : String} {inode : Option Inode} {pos : Position}
    {k : Kern} (hpos : u.pos = .register next found usp inode) (hlocked : u.locked = false)
    (hrest : AfterTurn o syms (t := t) (next + 1) pos k
      (match u.kern.uprobeRegister o inode (findOffset found syms) usp with
      | (ret, k) => if ret ≠ 0 then (some (-1), uDbfsCleanup k) else (none, k))) :
    Loads o syms u pos k := by
  cases hcall : u.kern.uprobeRegister o inode (findOffset found syms) usp with
  | mk ret k' =>
      have hstep : load o syms u = some (u.goTo
          (if ret ≠ 0 then .removeDataFile (some (-1)) else .nextProbe (next + 1)) k') := by
        rw [load, hpos]
        simp only [hcall]
      rw [hcall] at hrest
      dsimp only at hrest
      refine .step hstep ?_
      by_cases hret : ret ≠ 0
      · rw [if_pos hret] at hrest ⊢
        obtain ⟨rfl, rfl⟩ := hrest
        exact loads_uDbfsCleanup rfl
      · rw [if_neg hret] at hrest ⊢
        exact hrest _ rfl rfl hlocked

/-- One turn of the loop over the probes. -/
theorem loads_registerProbe {next : Nat} {found : String} {pos : Position} {k : Kern}
    (hpos : u.pos = .allocConsumer next found) (hlocked : u.locked = false)
    (hrest : AfterTurn o syms (t := t) (next + 1) pos k
      (registerProbe o syms .probeHandler found u.kern)) : Loads o syms u pos k := by
  rw [registerProbe] at hrest
  cases hz : u.kern.kzalloc o with
  | mk usp k' =>
      rw [hz] at hrest
      cases usp with
      | none =>
          obtain ⟨rfl, rfl⟩ := hrest
          have hstep : load o syms u = some (u.goTo (.removeDataFile (some (-enomem))) k') := by
            rw [load, hpos]
            simp only [hz]
          exact .step hstep (loads_uDbfsCleanup rfl)
      | some usp =>
          have hstep : load o syms u = some (u.goTo (.lookup next found usp) k') := by
            rw [load, hpos]
            simp only [hz]
          refine .step hstep (.step rfl (loads_print rfl hlocked ?_))
          intro u₂ hpos₂ hkern₂ hlocked₂
          apply loads_register hpos₂ hlocked₂
          rw [hkern₂]
          exact hrest

/-- Where the loop leaves the loader. -/
def Position.afterLoop : Option Int → Position
  | none => .loaded
  | some ret => .gone (some ret)

/-- The loop over the probes, from the cursor `next` on. -/
theorem loads_registerProbes {turns next : Nat} (hturns : syms.length < turns + next)
    (hpos : u.pos = .nextProbe next) (hlocked : u.locked = false) :
    match forEachGlobLoop syms "_probe" (fun _ => registerProbe o syms .probeHandler) turns next
      u.kern with
    | (ret, k) => Loads o syms u (.afterLoop ret) k := by
  induction turns generalizing next u with
  | zero =>
      have hnone : globNames syms "_probe" next (strnlen "_probe" 20) = none := by
        rw [globNames, List.drop_eq_nil_of_le (by omega)]
        rfl
      have hstep : load o syms u = some (u.goTo .loaded u.kern) := by
        rw [load, hpos]
        simp only [hnone]
      exact .step hstep (.refl _)
  | succ turns ih =>
      have hscan := globFrom_spec "_probe" next (syms.drop next)
      rw [forEachGlobLoop]
      cases hfound : globNames syms "_probe" next (strnlen "_probe" 20) with
      | none =>
          have hstep : load o syms u = some (u.goTo .loaded u.kern) := by
            rw [load, hpos]
            simp only [hfound]
          exact .step hstep (.refl _)
      | some x =>
          obtain ⟨next', found⟩ := x
          have hstep : load o syms u = some (u.goTo (.allocConsumer next' found) u.kern) := by
            rw [load, hpos]
            simp only [hfound]
          rw [globNames] at hfound
          rw [hfound] at hscan
          dsimp only
          cases hturn : registerProbe o syms .probeHandler found u.kern with
          | mk ret k =>
              cases ret with
              | some ret =>
                  refine .step hstep (loads_registerProbe rfl hlocked ?_)
                  rw [ModuleState.goTo, hturn]
                  exact ⟨rfl, rfl⟩
              | none =>
                  refine .step hstep (loads_registerProbe rfl hlocked ?_)
                  rw [ModuleState.goTo, hturn]
                  intro v hpos' hkern hlocked'
                  have hrest := ih (u := v) (by omega) hpos' hlocked'
                  rw [hkern] at hrest
                  exact hrest

variable (o syms) in
/-- The loader fails with the negative result, or comes to `pos` with the lock free. -/
def SetsUp (u : ModuleState t) (pos : Position) : Int × Kern → Prop
  | (ret, k) => (ret < 0 ∧ Loads o syms u .failed k) ∨
      (ret = 0 ∧ ∃ u', Reachable (system t o syms) .all ⟨u, []⟩ ⟨u', []⟩ ∧ u'.pos = pos ∧
        u'.kern = k ∧ u'.locked = false)

theorem setsUp_setUpPrintBuffer (hpos : u.pos = .allocPrintBuf) :
    SetsUp o syms u .createCleanupFile (setUpPrintBuffer o u.kern) := by
  rw [setUpPrintBuffer]
  cases hbuf : u.kern.kmalloc o .printBuf with
  | mk printBuf k =>
      cases printBuf with
      | none =>
          have hstep : load o syms u = some (u.goTo .failed { k with printBuf := none }) := by
            rw [load, hpos]
            simp only [hbuf]
          exact Or.inl ⟨by decide, .step hstep (.refl _)⟩
      | some printBuf =>
          have hstep : load o syms u =
              some (u.goTo (.allocData printBuf) { k with printBuf := some printBuf }) := by
            rw [load, hpos]
            simp only [hbuf]
          dsimp only
          cases hdata : { k with printBuf := some printBuf, data := none }.kmalloc o .data with
          | mk data k' =>
              cases data with
              | none =>
                  have hstep' : load o syms
                      (u.goTo (.allocData printBuf) { k with printBuf := some printBuf }) =
                      some (u.goTo (.freePrintBuf printBuf) k') := by
                    simp only [load, ModuleState.goTo, hdata]
                  exact Or.inl ⟨by decide, .step hstep (.step hstep' (.step rfl (.refl _)))⟩
              | some data =>
                  have hstep' : load o syms
                      (u.goTo (.allocData printBuf) { k with printBuf := some printBuf }) =
                      some (u.goTo .initPrintBuf { k' with data := some data }) := by
                    simp only [load, ModuleState.goTo, hdata]
                  exact Or.inr ⟨rfl, _, .trans (reachable_of_load hstep)
                    (.trans (reachable_of_load hstep') (reachable_of_load rfl)), rfl, rfl, rfl⟩

theorem setsUp_uDbfsInit (hpos : u.pos = .createDir) :
    SetsUp o syms u (.nextProbe 0) (uDbfsInit o "kthread" u.kern) := by
  rw [uDbfsInit]
  cases hdir : u.kern.debugfsCreate o (.dir "kthread") with
  | mk dir k =>
      cases dir with
      | none =>
          have hstep : load o syms u = some (u.goTo .failed { k with dir := none }) := by
            rw [load, hpos]
            simp only [hdir]
          exact Or.inl ⟨by decide, .step hstep (.refl _)⟩
      | some dir =>
          have hstep : load o syms u =
              some (u.goTo (.createDataFile dir) { k with dir := some dir }) := by
            rw [load, hpos]
            simp only [hdir]
          dsimp only
          cases hdata : { k with dir := some dir }.debugfsCreate o (.file "data") with
          | mk dataFile k' =>
              cases dataFile with
              | none =>
                  have hstep' : load o syms
                      (u.goTo (.createDataFile dir) { k with dir := some dir }) =
                      some (u.goTo (.removeDir dir) { k' with dataFile := none }) := by
                    simp only [load, ModuleState.goTo, hdata]
                  exact Or.inl ⟨by decide, .step hstep (.step hstep' (.step rfl (.refl _)))⟩
              | some dataFile =>
                  have hstep' : load o syms
                      (u.goTo (.createDataFile dir) { k with dir := some dir }) =
                      some (u.goTo .allocPrintBuf { k' with dataFile := some dataFile }) := by
                    simp only [load, ModuleState.goTo, hdata]
                  have hbegin : Reachable (system t o syms) .all ⟨u, []⟩ _ :=
                    .trans (reachable_of_load hstep) (reachable_of_load hstep')
                  have hbuf : SetsUp o syms
                      (u.goTo .allocPrintBuf { k' with dataFile := some dataFile })
                      .createCleanupFile
                      (setUpPrintBuffer o { k' with dataFile := some dataFile }) :=
                    setsUp_setUpPrintBuffer rfl
                  dsimp only
                  generalize setUpPrintBuffer o { k' with dataFile := some dataFile } = r at hbuf ⊢
                  obtain ⟨ret, k''⟩ := r
                  rcases hbuf with ⟨hret, hfails⟩ | ⟨rfl, v, hrun, hpos', rfl, hlocked⟩
                  · dsimp only
                    rw [if_pos hret]
                    exact Or.inl ⟨by decide, .trans hbegin hfails⟩
                  · have hlast : load o syms v = some (v.goTo (.nextProbe 0)
                        { (v.kern.debugfsCreate o (.file "cleanup")).2 with
                          cleanupFile := (v.kern.debugfsCreate o (.file "cleanup")).1 }) := by
                      rw [load, hpos']
                    exact Or.inr ⟨rfl, _, .trans hbegin (.trans hrun (reachable_of_load hlast)),
                      rfl, rfl, hlocked⟩

/-- Left to itself the loader does what `init_module` does. -/
theorem loads_initModule (hpos : u.pos = .initUprobe) :
    ∃ pos : Position,
      pos.result = some (ProbeModule.kthread.initModule o syms u.kern).1 ∧
        Loads o syms u pos (ProbeModule.kthread.initModule o syms u.kern).2 := by
  rw [ProbeModule.initModule]
  by_cases hinit : initUprobe o < 0
  · rw [if_pos hinit]
    have hstep : load o syms u = some { u with numProbes := 0, pos := .failed } := by
      rw [load, hpos]
      simp only [if_pos hinit]
    exact ⟨.failed, rfl, .step hstep (.refl _)⟩
  · rw [if_neg hinit]
    have hstep : load o syms u = some { u with numProbes := 0, pos := .createDir } := by
      rw [load, hpos]
      simp only [if_neg hinit]
    have hset : SetsUp o syms (t := t) { u with numProbes := 0, pos := .createDir } (.nextProbe 0)
        (uDbfsInit o ProbeModule.kthread.dbgDirPath u.kern) := setsUp_uDbfsInit rfl
    generalize uDbfsInit o ProbeModule.kthread.dbgDirPath u.kern = r at hset ⊢
    obtain ⟨ret, k⟩ := r
    dsimp only
    rcases hset with ⟨hret, hfails⟩ | ⟨rfl, v, hrun, hpos', rfl, hlocked⟩
    · rw [if_pos hret]
      exact ⟨.failed, rfl, .step hstep hfails⟩
    · have hhandler : ProbeModule.kthread.handler = .probeHandler := rfl
      rw [if_neg (by decide), ProbeModule.registerProbes, forEachGlob, hhandler]
      have hturns : syms.length < syms.length + 1 + 0 := by omega
      have hloop := loads_registerProbes (o := o) hturns hpos' hlocked
      generalize forEachGlobLoop syms "_probe" _ (syms.length + 1) 0 v.kern = r at hloop ⊢
      obtain ⟨ret, k⟩ := r
      cases ret with
      | none => exact ⟨.loaded, rfl, .step hstep (.trans hrun hloop)⟩
      | some ret => exact ⟨.gone (some ret), rfl, .step hstep (.trans hrun hloop)⟩

end Loader

/-! ## The handler without the loader -/

section Handler

variable {t : Target} (o : Outcomes) (syms : List Symbol) {u u' : ModuleState t}

/-- The same state with texts printed before. -/
def behind (k : HandlerState t) (texts : List String) : HandlerState t :=
  { k with printed := texts ++ k.printed }

/-- What `probe_handler` reads and changes. -/
def ModuleState.handlerState (u : ModuleState t) : HandlerState t :=
  ⟨u.mem, u.kern.printed, u.numProbes⟩

theorem putUser_behind (ok : Bool) (ea : Nat) (v : BitVec t.ulongBits) (k : HandlerState t)
    (texts : List String) :
    putUser ok ea v (behind k texts) = behind (putUser ok ea v k) texts := by
  cases ok with
  | false => simp [putUser, behind, HandlerState.testPrintk]
  | true => rfl

theorem getUser_behind (ok : Bool) (ea : Nat) (k : HandlerState t) (texts : List String) :
    getUser ok ea (behind k texts) = ((getUser ok ea k).1, behind (getUser ok ea k).2 texts) := by
  cases ok with
  | false => simp [getUser, behind, HandlerState.testPrintk]
  | true => rfl

theorem checkTids_behind (ktid utid : BitVec 32) (k : HandlerState t) (texts : List String) :
    checkTids ktid utid (behind k texts) = behind (checkTids ktid utid k) texts := by
  rw [checkTids, checkTids]
  split
  · simp [behind, HandlerState.testPrintk]
  · rfl

/-- A step of the handler does the same behind texts printed before. -/
theorem handlerAct_behind (k : HandlerState t) (hits hits' : Nat) (a : HandlerAct t)
    (texts : List String) :
    handlerAct ⟨behind k texts, hits'⟩ a () =
      (handlerAct ⟨k, hits⟩ a ()).map fun r => (⟨behind r.1.kernel texts, hits'⟩, r.2) := by
  cases a with
  | putKtid x => simp [handlerAct, putUser_behind]
  | getUtid x => simp [handlerAct, getUser_behind, checkTids_behind]
  | getKcount x => simp [handlerAct, getUser_behind]
  | putUcount x kcount => simp [handlerAct, putUser_behind]
  | putKcount x kcount => simp [handlerAct, putUser_behind]
  | loadNumProbes => rfl
  | storeNumProbes v => rfl

theorem reachable_of_act {a : Act t} {new : List (Act t)} (before after : List (Act t))
    (h : act u a () = some (u', new)) :
    Reachable (system t o syms) .all ⟨u, before ++ [a] ++ after⟩ ⟨u', before ++ new ++ after⟩ := by
  have hstep : Step (system t o syms) .all ⟨u, before ++ a :: after⟩ ⟨u', before ++ new ++ after⟩ :=
    .act h rfl
  rw [List.append_assoc, List.singleton_append]
  exact .single hstep

/-- The texts are handed over one after the other, the lock being free. -/
theorem reachable_of_printTexts (before after : List (Act t)) (texts : List String)
    (next : List (HandlerAct t)) (hlocked : u.locked = false) :
    ∃ u', Reachable (system t o syms) .all ⟨u, before ++ printTexts texts next ++ after⟩
        ⟨u', before ++ next.map .handler ++ after⟩ ∧
      u'.handlerState = { u.handlerState with printed := u.kern.printed ++ texts } ∧
      u'.locked = false := by
  induction texts generalizing u with
  | nil => exact ⟨u, .refl, by rw [List.append_nil]; rfl, hlocked⟩
  | cons text texts ih =>
      obtain ⟨pos, k, mem, numProbes, entry, locked, uses⟩ := u
      cases hlocked
      -- the six accesses of one call
      have hcall : ∃ uses', Reachable (system t o syms) .all
          ⟨⟨pos, k, mem, numProbes, entry, false, uses⟩,
            before ++ [.print .lock text texts next] ++ after⟩
          ⟨⟨pos, k.testPrintk text, mem, numProbes, entry, false, uses'⟩,
            before ++ printTexts texts next ++ after⟩ :=
        ⟨_, .trans (reachable_of_act o syms _ _ rfl) (.trans (reachable_of_act o syms _ _ rfl)
          (.trans (reachable_of_act o syms _ _ rfl) (.trans (reachable_of_act o syms _ _ rfl)
            (.trans (reachable_of_act o syms _ _ rfl) (reachable_of_act o syms _ _ rfl)))))⟩
      obtain ⟨uses', hcall⟩ := hcall
      obtain ⟨u', hrest, hstate, hlocked⟩ :=
        ih (u := ⟨pos, k.testPrintk text, mem, numProbes, entry, false, uses'⟩) rfl
      refine ⟨u', .trans hcall hrest, hstate.trans ?_, hlocked⟩
      simp [ModuleState.handlerState, Kern.testPrintk]

/-- Any number of handler runs do the same here as in `handlerSystem`, where a
    call of `test_printk` is part of the access it reports. -/
theorem handlers_simulated {hits : Nat} {as : List (HandlerAct t)}
    {s : Activations (Probed t) (HandlerAct t)} (hlocked : u.locked = false)
    (h : Reachable (handlerSystem t) .actsOnly ⟨⟨u.handlerState, hits⟩, as⟩ s) :
    ∃ u', Reachable (system t o syms) .all ⟨u, as.map .handler⟩ ⟨u', s.acts.map .handler⟩ ∧
      u'.handlerState = s.shared.kernel ∧ u'.locked = false := by
  induction h with
  | refl => exact ⟨u, .refl, rfl, hlocked⟩
  | tail _ hstep ih =>
      obtain ⟨v, hrun, hstate, hfree⟩ := ih
      cases hstep with
      | @act p before a after x p' new hact hg =>
          have hbehind : p = ⟨behind v.probed.kernel v.kern.printed, p.hits⟩ := by
            obtain ⟨kernel, hits⟩ := p
            cases hstate
            simp [behind, ModuleState.probed]
          replace hact : handlerAct p a () = some (p', new) := hact
          rw [hbehind, handlerAct_behind v.probed.kernel 0 p.hits a] at hact
          obtain ⟨r, hr, heq⟩ := Option.map_eq_some_iff.mp hact
          cases heq
          -- first the access, then its texts
          have haccess : act v (.handler a) () = some
              ({ v with mem := r.1.kernel.mem, numProbes := r.1.kernel.numProbes },
                printTexts r.1.kernel.printed r.2) := Option.map_eq_some_iff.mpr ⟨r, hr, rfl⟩
          have hfirst := reachable_of_act o syms (before.map .handler) (after.map .handler) haccess
          obtain ⟨v', htexts, hstate', hfree'⟩ := reachable_of_printTexts o syms
            (before.map .handler) (after.map .handler) r.1.kernel.printed r.2
            (u := { v with mem := r.1.kernel.mem, numProbes := r.1.kernel.numProbes }) hfree
          simp only [List.map_append, List.map_cons] at hrun ⊢
          rw [← List.singleton_append, ← List.append_assoc] at hrun
          exact ⟨v', .trans hrun (.trans hfirst htexts), hstate', hfree'⟩
      | main hmain hg => cases hg

/-- A hit that is left to itself does what `probe_handler` does. -/
theorem handler_alone (ok : UserAccess → Bool) (pid : BitVec 32) (regs : Regs)
    (hlocked : u.locked = false) :
    ∃ u', Reachable (system t o syms) .all ⟨u, [.handler (handlerStart u ok pid regs)]⟩ ⟨u', []⟩ ∧
      u'.handlerState = (probeHandler ok pid regs u.handlerState).1 := by
  obtain ⟨u', hrun, hstate, -⟩ := handlers_simulated o syms hlocked
    (handlerAct_alone ok pid regs u.handlerState 0)
  exact ⟨u', hrun, hstate⟩

end Handler

end ModuleLife

end UprobeTests
