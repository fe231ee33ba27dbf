/-
  UprobeTests.KernelApi

  The kernel services the test modules call, as operations on a ledger of what
  is held: allocations, registered consumers, inode and path references and
  debugfs entries.  `Outcomes` fixes which of the calls succeed; every call
  consumes the next outcome of its kind.

  The globals of include/udbgfs.c are part of the state.
-/

import Mathlib.Logic.Function.Basic

namespace UprobeTests

/-- A `struct inode *` that is not NULL. -/
abbrev Inode := BitVec 64

/-- `loff_t`. -/
abbrev Loff := BitVec 64

/-- What `usp->handler` points to; `kzalloc` leaves it NULL. -/
inductive Handler where
  | null
  | probeHandler
  | suicideHandler
deriving DecidableEq, Repr

/-- An allocation of a module, numbered within its kind. -/
inductive Alloc where
  | printBuf (n : Nat)
  | data (n : Nat)
  | consumer (n : Nat)
deriving DecidableEq, Repr

inductive Dentry where
  | dir (path : String)
  | file (name : String)
deriving DecidableEq, Repr

/-- The arguments of `uprobe_register` and `uprobe_unregister`; `none` is NULL. -/
structure Registration where
  inode : Option Inode
  offset : Loff
  usp : Option Nat
deriving DecidableEq, Repr

/-- The results of the kernel calls, by kind and number of the call. -/
structure Outcomes where
  kallsymsLookupName : String → Bool
  debugfsCreate : Nat → Bool
  kmalloc : Nat → Bool
  kzalloc : Nat → Bool
  kernPath : Nat → String → Option Inode
  uprobeRegister : Nat → Int

structure Kern where
  debugfsCalls : Nat
  kmallocCalls : Nat
  kzallocCalls : Nat
  kernPathCalls : Nat
  live : List Alloc
  handler : Nat → Handler
  /-- every call of `uprobe_register`, with the handler installed and the result -/
  registerCalls : List (Registration × Handler × Int)
  registered : List Registration
  inodeRefs : List Inode
  pathRefs : List String
  dentries : List Dentry
  dir : Option Dentry
  dataFile : Option Dentry
  cleanupFile : Option Dentry
  printBuf : Option Nat
  data : Option Nat
  /-- the texts handed to `test_printk` -/
  printed : List String

def enomem : Int := 12

def einval : Int := 22

def einprogress : Int := 115

/-- A result of `uprobe_register` that leaves the consumer registered. -/
def registerAccepted (ret : Int) : Prop := ret = 0 ∨ ret = -einprogress

instance (ret : Int) : Decidable (registerAccepted ret) :=
  inferInstanceAs (Decidable (_ ∨ _))

namespace Kern

/-- Before `init_module`. -/
def init : Kern where
  debugfsCalls := 0
  kmallocCalls := 0
  kzallocCalls := 0
  kernPathCalls := 0
  live := []
  handler _ := .null
  registerCalls := []
  registered := []
  inodeRefs := []
  pathRefs := []
  dentries := []
  dir := none
  dataFile := none
  cleanupFile := none
  printBuf := none
  data := none
  printed := []

section Calls

variable (o : Outcomes) (k : Kern)

def debugfsCreate (d : Dentry) : Option Dentry × Kern :=
  if o.debugfsCreate k.debugfsCalls then
    (some d, { k with debugfsCalls := k.debugfsCalls + 1, dentries := k.dentries ++ [d] })
  else (none, { k with debugfsCalls := k.debugfsCalls + 1 })

def debugfsRemove (d : Dentry) : Kern := { k with dentries := k.dentries.erase d }

/-- `kmalloc` for an allocation of kind `mk`. -/
def kmalloc (mk : Nat → Alloc) : Option Nat × Kern :=
  if o.kmalloc k.kmallocCalls then
    (some k.kmallocCalls,
      { k with kmallocCalls := k.kmallocCalls + 1, live := k.live ++ [mk k.kmallocCalls] })
  else (none, { k with kmallocCalls := k.kmallocCalls + 1 })

def kfree (a : Alloc) : Kern := { k with live := k.live.erase a }

/-- After an allocation by `kzalloc`: the consumer is named by the number of
    the call, and zeroed. -/
def withConsumer : Kern :=
  { k with
    kzallocCalls := k.kzallocCalls + 1
    live := k.live ++ [.consumer k.kzallocCalls]
    handler := Function.update k.handler k.kzallocCalls .null }

/-- `kzalloc(sizeof(struct uprobe_consumer),..)`. -/
def kzalloc : Option Nat × Kern :=
  if o.kzalloc k.kzallocCalls then (some k.kzallocCalls, k.withConsumer)
  else (none, { k with kzallocCalls := k.kzallocCalls + 1 })

/-- `kern_path`; on success the path is held until somebody puts it. -/
def kernPath (path : String) : Option Inode × Kern :=
  match o.kernPath k.kernPathCalls path with
  | none => (none, { k with kernPathCalls := k.kernPathCalls + 1 })
  | some inode =>
      (some inode,
        { k with kernPathCalls := k.kernPathCalls + 1, pathRefs := k.pathRefs ++ [path] })

def igrab (inode : Inode) : Kern := { k with inodeRefs := k.inodeRefs ++ [inode] }

def setHandler (usp : Nat) (h : Handler) : Kern :=
  { k with handler := Function.update k.handler usp h }

def testPrintk (text : String) : Kern := { k with printed := k.printed ++ [text] }

def uprobeRegister (inode : Option Inode) (offset : Loff) (usp : Nat) : Int × Kern :=
  let ret := o.uprobeRegister k.registerCalls.length
  let r : Registration := ⟨inode, offset, some usp⟩
  (ret, { k with
    registerCalls := k.registerCalls ++ [(r, k.handler usp, ret)]
    registered := if registerAccepted ret then k.registered ++ [r] else k.registered })

/-- `uprobe_unregister`; on a consumer that is not registered it finds nothing
    to do. -/
def uprobeUnregister (r : Registration) : Kern := { k with registered := k.registered.erase r }

end Calls

/-- The registrations `uprobe_register` has accepted so far. -/
def accepted (k : Kern) : List Registration :=
  (k.registerCalls.filter fun c => registerAccepted c.2.2).map Prod.fst

/-- A call of `uprobe_register` is entered exactly when it is accepted. -/
theorem uprobeRegister_spec (o : Outcomes) (k : Kern) (inode : Option Inode) (offset : Loff)
    (usp : Nat) :
    match k.uprobeRegister o inode offset usp with
    | (ret, k') =>
        k'.registered = (if registerAccepted ret then k.registered ++ [⟨inode, offset, some usp⟩]
          else k.registered) ∧
        k'.accepted = (if registerAccepted ret then k.accepted ++ [⟨inode, offset, some usp⟩]
          else k.accepted) ∧
        k'.kzallocCalls = k.kzallocCalls := by
  refine ⟨rfl, ?_, rfl⟩
  simp only [accepted, List.filter_append, List.map_append]
  by_cases h : registerAccepted (o.uprobeRegister k.registerCalls.length)
  · simp [h]
  · simp [h]

/-- Nothing the module has acquired is still held. -/
structure Clean (k : Kern) : Prop where
  live : k.live = []
  registered : k.registered = []
  inodeRefs : k.inodeRefs = []
  pathRefs : k.pathRefs = []
  dentries : k.dentries = []

theorem clean_init : init.Clean := ⟨rfl, rfl, rfl, rfl, rfl⟩

end Kern

/-- The lookups of `_init_uprobe`; the fallback names are those of older kernels. -/
def initUprobe (o : Outcomes) : Int :=
  if !(o.kallsymsLookupName "uprobe_register" || o.kallsymsLookupName "register_uprobe") then -1
  else if !(o.kallsymsLookupName "uprobe_unregister" ||
      o.kallsymsLookupName "unregister_uprobe") then -1
  else if !o.kallsymsLookupName "uprobe_get_swbp_addr" then -1
  else 0

/-! ## The pid and vaddr interface of uprobes.existing -/

/-- What `handler` of a `struct uprobe` or `struct uretprobe` points to. -/
inductive UprobeHandler where
  | null
  | uHandler
  | rpHandler
  | addInst
deriving DecidableEq, Repr

/-- `struct uprobe`, or a `struct uretprobe` with its `u`; `vaddr` is an
    `unsigned long` of `w` bits. -/
structure Uprobe (w : Nat) where
  pid : Int
  vaddr : BitVec w
  handler : UprobeHandler
deriving DecidableEq, Repr

/-- All fields 0. -/
def Uprobe.zero (w : Nat) : Uprobe w := ⟨0, 0, .null⟩

end UprobeTests
