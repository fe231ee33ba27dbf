/-
  UprobeTests.Blink

  uprobes.existing/blink.c and blink2.c with UPROBES_REG_CALLBACK: the handler
  `steady` registers the probe `usp_blink` at every third call while it takes
  it not to be registered, and the handler of `usp_blink` unregisters it at
  every fifth.  The two modules share their handlers; blink.c puts both probes
  on one probepoint, blink2.c puts `usp_blink` on a second one.

  A hit of a probepoint runs the handlers of the probes that are registered
  there, in the order of their registration.  What they ask of the kernel is
  deferred, and may take effect once the hit is over.
-/

import Mathlib.Algebra.Ring.Int.Defs
import Mathlib.Algebra.Ring.Nat
import UprobeTests.ProbeModule

namespace UprobeTests

namespace Blink

/-- `usp_steady` and `usp_blink`. -/
inductive Probe where
  | steady
  | blink
deriving DecidableEq, Repr

/-- A call of `register_uprobe` or `unregister_uprobe` on `usp_blink`. -/
inductive Call where
  | register
  | unregister
deriving DecidableEq, Repr

/-- The globals of the module, and the texts handed to `test_printk`. -/
structure Vars where
  ncalls : BitVec 32
  blinkRegistered : Bool
  printed : List String
deriving DecidableEq

def Vars.testPrintk (v : Vars) (text : String) : Vars :=
  { v with printed := v.printed ++ [text] }

/-- What distinguishes the modules once they are loaded: `pid` and the
    `vaddr` of the two probes. -/
structure Layout where
  pid : Int
  steadyVaddr : BitVec 64
  blinkVaddr : BitVec 64

/-- blink.c: `usp_blink.vaddr = usp_steady.vaddr;`. -/
def blinkLayout (pid : Int) (vaddr : BitVec 64) : Layout := ⟨pid, vaddr, vaddr⟩

/-- blink2.c: `find_vaddr("add")` and `find_vaddr("subtract")`. -/
def blink2Layout (pid : Int) (add subtract : BitVec 64) : Layout := ⟨pid, add, subtract⟩

def Layout.vaddr (y : Layout) : Probe → BitVec 64
  | .steady => y.steadyVaddr
  | .blink => y.blinkVaddr

/-! ## The handlers -/

section Handlers

variable (verbose : Bool)

/-- `reg_callback`, called for `usp_blink` when the kernel is done with a deferred call. -/
def regCallback (y : Layout) (reg : Bool) (result : Int) (v : Vars) : Vars :=
  if !verbose then v
  else
    let v := v.testPrintk ((if reg then "" else "un") ++ "registration of uprobe on pid " ++
      toString y.pid ++ ", vaddr " ++ formatHex y.blinkVaddr ++ " was ")
    if result = 0 then v.testPrintk "successful\n"
    else v.testPrintk ("unsuccessful; status = " ++ toString result ++ "\n")

/-- `blink`, with the call it makes. -/
def blink (v : Vars) : Vars × Option Call :=
  if v.ncalls.srem 5 = 0 then
    let v := if verbose then
        v.testPrintk ("ncalls = " ++ toString v.ncalls.toInt ++ ": Unregistering blink handler\n")
      else v
    ({ v with blinkRegistered := false }, some .unregister)
  else (v, none)

/-- `steady`, with the call it makes; `ret` is what `register_uprobe` returns. -/
def steady (ret : Int) (v : Vars) : Vars × Option Call :=
  let v := { v with ncalls := v.ncalls + 1 }
  if !v.blinkRegistered && v.ncalls.srem 3 = 0 then
    let v := if verbose then
        v.testPrintk ("ncalls = " ++ toString v.ncalls.toInt ++ ": Registering blink handler\n")
      else v
    let v := if ret ≠ -einprogress then
        v.testPrintk ("steady handler's register_uprobe() failed; returned " ++ toString ret ++
          "\n")
      else { v with blinkRegistered := true }
    (v, some .register)
  else (v, none)

/-- The probes `cleanup_module` unregisters. -/
def cleanupUnregisters (v : Vars) : List Probe :=
  .steady :: if v.blinkRegistered then [.blink] else []

end Handlers

/-! What a handler run does to the globals. -/

section HandlerSpecs

variable {verbose : Bool} {ret : Int} {v : Vars}

theorem steady_call (verbose : Bool) (ret : Int) (v : Vars) :
    (steady verbose ret v).2 =
      if v.blinkRegistered = false ∧ (v.ncalls + 1).srem 3 = 0 then some .register
      else none := by
  rw [steady]
  split
  · rename_i htest
    exact (if_pos (by simpa using htest)).symm
  · rename_i htest
    exact (if_neg (by simpa using htest)).symm

theorem steady_ncalls (verbose : Bool) (ret : Int) (v : Vars) :
    (steady verbose ret v).1.ncalls = v.ncalls + 1 := by
  rw [steady]
  split
  · dsimp only
    cases verbose <;> (split <;> rfl)
  · rfl

/-- `steady` sets the flag when a registration it asks for is deferred. -/
theorem steady_flag (verbose : Bool) (ret : Int) (v : Vars) :
    (steady verbose ret v).1.blinkRegistered =
      if (steady verbose ret v).2 = some .register ∧ ret = -einprogress then true
      else v.blinkRegistered := by
  rw [steady]
  split
  · rename_i htest
    by_cases hret : ret = -einprogress
    · simp [hret]
    · cases verbose <;> simp [hret, Vars.testPrintk]
  · rfl

theorem blink_call (verbose : Bool) (v : Vars) :
    (blink verbose v).2 = if v.ncalls.srem 5 = 0 then some .unregister else none := by
  rw [blink]
  split <;> rfl

theorem blink_ncalls (verbose : Bool) (v : Vars) : (blink verbose v).1.ncalls = v.ncalls := by
  rw [blink]
  split
  · cases verbose <;> rfl
  · rfl

theorem blink_flag (verbose : Bool) (v : Vars) :
    (blink verbose v).1.blinkRegistered =
      if (blink verbose v).2 = some .unregister then false else v.blinkRegistered := by
  rw [blink]
  split <;> rfl

/-- `reg_callback` only prints. -/
theorem regCallback_prints (verbose : Bool) (y : Layout) (reg : Bool) (result : Int)
    (v : Vars) :
    ∃ printed, regCallback verbose y reg result v = { v with printed := printed } := by
  rw [regCallback]
  cases verbose with
  | false => exact ⟨v.printed, rfl⟩
  | true =>
      by_cases hresult : result = 0
      · simp only [hresult, if_true]
        exact ⟨_, rfl⟩
      · simp only [hresult, if_false]
        exact ⟨_, rfl⟩

end HandlerSpecs

/-! ## Hits and deferred calls -/

structure State where
  vars : Vars
  /-- the registered probes, in the order of their registration -/
  registered : List Probe
  /-- the deferred calls that have not been carried out, in the order they were made -/
  pending : List Call
  /-- every call, with the value of `ncalls` it was made at -/
  calls : List (Int × Call)
deriving DecidableEq

/-- After `init_module`. -/
def State.loaded : State := ⟨⟨0, false, []⟩, [.steady], [], []⟩

section Kernel

variable (y : Layout) (verbose : Bool)

/-- Whether the kernel defers a call: it may refuse a registration, which then
    returns something other than `-EINPROGRESS`. -/
def deferred (ret : Int) : Call → Bool
  | .register => ret = -einprogress
  | .unregister => true

/-- After a handler that has left `r.1` in the globals and made the call `r.2`. -/
def State.after (s : State) (ret : Int) (r : Vars × Option Call) : State :=
  match r.2 with
  | none => { s with vars := r.1 }
  | some c =>
      { s with
        vars := r.1
        pending := if deferred ret c then s.pending ++ [c] else s.pending
        calls := s.calls ++ [(r.1.ncalls.toInt, c)] }

def State.runHandler (ret : Int) (s : State) : Probe → State
  | .steady => s.after ret (steady verbose ret s.vars)
  | .blink => s.after ret (blink verbose s.vars)

/-- The probepoint at `a` is hit. -/
def State.hit (ret : Int) (a : BitVec 64) (s : State) : State :=
  (s.registered.filter fun p => y.vaddr p = a).foldl (State.runHandler verbose ret) s

/-- The kernel carries out a deferred call; a registration takes effect when
    its `result` is 0. -/
def State.carryOut (result : Int) (s : State) (c : Call) : State :=
  match c with
  | .register =>
      { s with
        registered := if result = 0 then s.registered ++ [.blink] else s.registered
        vars := regCallback verbose y true result s.vars }
  | .unregister =>
      { s with
        registered := s.registered.erase .blink
        vars := regCallback verbose y false result s.vars }

/-- Everything pending is carried out, in order and with success. -/
def State.settle (s : State) : State :=
  s.pending.foldl (State.carryOut y verbose 0) { s with pending := [] }

/-- One iteration of a program that passes the probepoints `path`: every call
    is accepted and takes effect before the next hit. -/
def State.iteration (path : List (BitVec 64)) (s : State) : State :=
  path.foldl (fun s a => (s.hit y verbose (-einprogress) a).settle y verbose) s

/-- The first `n` iterations after `init_module`. -/
def iterations (path : List (BitVec 64)) : Nat → State
  | 0 => .loaded
  | n + 1 => (iterations path n).iteration y verbose path

end Kernel

/-! ## The calls of both modules -/

/-- The call made at `ncalls = n`. -/
def callAt (n : Nat) : Option Call :=
  if n % 15 = 3 ∨ n % 15 = 6 ∨ n % 15 = 12 then some .register
  else if n % 15 = 0 ∨ n % 15 = 5 ∨ n % 15 = 10 then some .unregister
  else none

/-- The calls up to `ncalls = n`. -/
def callsUpTo : Nat → List (Int × Call)
  | 0 => []
  | n + 1 =>
      match callAt (n + 1) with
      | none => callsUpTo n
      | some c => callsUpTo n ++ [((n + 1 : Int), c)]

/-- Whether `usp_blink` is registered after `n` iterations. -/
def registeredAfter (n : Nat) : Bool :=
  n % 15 ∈ [3, 4, 6, 7, 8, 9, 12, 13, 14]

theorem toInt_ofNat_of_lt {n : Nat} (hn : n < 2 ^ 31) : (BitVec.ofNat 32 n).toInt = (n : Int) := by
  have htoNat : (BitVec.ofNat 32 n).toNat = n := by
    rw [BitVec.toNat_ofNat, Nat.mod_eq_of_lt (by omega)]
  rw [BitVec.toInt_eq_toNat_of_lt (by omega), htoNat]

/-- A handler's test for a multiple, on the `int` it is made on. -/
theorem srem_eq_zero_iff {n m : Nat} (hn : n < 2 ^ 31) (hm : m < 2 ^ 31) :
    (BitVec.ofNat 32 n).srem (BitVec.ofNat 32 m) = 0 ↔ n % m = 0 := by
  rw [← BitVec.toInt_inj, BitVec.toInt_srem, toInt_ofNat_of_lt hn, toInt_ofNat_of_lt hm,
    ← Int.ofNat_tmod]
  exact Int.ofNat_eq_zero

/-- Everything in `s` but the texts it has printed. -/
structure At (n : Nat) (flag : Bool) (registered : List Probe) (pending : List Call)
    (calls : List (Int × Call)) (s : State) : Prop where
  ncalls : s.vars.ncalls = BitVec.ofNat 32 n
  flag : s.vars.blinkRegistered = flag
  registered : s.registered = registered
  pending : s.pending = pending
  calls : s.calls = calls

section Steps

variable (y : Layout) (verbose : Bool) {n : Nat} {flag : Bool} {registered : List Probe}
  {pending : List Call} {calls : List (Int × Call)} {s : State}

theorem At.steady_registers (h : At n false registered pending calls s) (hn : n + 1 < 2 ^ 31)
    (hthree : (n + 1) % 3 = 0) :
    At (n + 1) true registered (pending ++ [.register]) (calls ++ [((n + 1 : Int), .register)])
      (s.runHandler verbose (-einprogress) .steady) := by
  have hnext : s.vars.ncalls + 1 = BitVec.ofNat 32 (n + 1) := by
    rw [h.ncalls]
    exact (BitVec.ofNat_add n 1).symm
  have hcall : (steady verbose (-einprogress) s.vars).2 = some .register := by
    rw [steady_call, hnext, if_pos ⟨h.flag, (srem_eq_zero_iff hn (by decide)).mpr hthree⟩]
  have hncalls := (steady_ncalls verbose (-einprogress) s.vars).trans hnext
  have hflag := steady_flag verbose (-einprogress) s.vars
  rw [if_pos ⟨hcall, rfl⟩] at hflag
  have hlogged : (steady verbose (-einprogress) s.vars).1.ncalls.toInt = (n : Int) + 1 := by
    rw [hncalls, toInt_ofNat_of_lt hn]
    rfl
  rw [State.runHandler, State.after, hcall]
  exact ⟨hncalls, hflag, h.registered, by rw [← h.pending]; rfl, by rw [← hlogged, ← h.calls]⟩

theorem At.steady_passes (h : At n flag registered pending calls s)
    (hpass : flag = true ∨ (n + 1) % 3 ≠ 0) (hn : n + 1 < 2 ^ 31) :
    At (n + 1) flag registered pending calls (s.runHandler verbose (-einprogress) .steady) := by
  have hnext : s.vars.ncalls + 1 = BitVec.ofNat 32 (n + 1) := by
    rw [h.ncalls]
    exact (BitVec.ofNat_add n 1).symm
  have hcall : (steady verbose (-einprogress) s.vars).2 = none := by
    rw [steady_call, hnext, if_neg]
    rintro ⟨hflag, htest⟩
    rcases hpass with hset | hthree
    · rw [h.flag, hset] at hflag
      cases hflag
    · exact hthree ((srem_eq_zero_iff hn (by decide)).mp htest)
  have hncalls := (steady_ncalls verbose (-einprogress) s.vars).trans hnext
  have hflag := steady_flag verbose (-einprogress) s.vars
  rw [if_neg (fun hc => by rw [hcall] at hc; cases hc.1)] at hflag
  rw [State.runHandler, State.after, hcall]
  exact ⟨hncalls, hflag.trans h.flag, h.registered, h.pending, h.calls⟩

theorem At.blink_unregisters (h : At n flag registered pending calls s) (hn : n < 2 ^ 31)
    (hfive : n % 5 = 0) :
    At n false registered (pending ++ [.unregister]) (calls ++ [((n : Int), .unregister)])
      (s.runHandler verbose (-einprogress) .blink) := by
  have hcall : (blink verbose s.vars).2 = some .unregister := by
    rw [blink_call, h.ncalls]
    exact if_pos ((srem_eq_zero_iff hn (by decide)).mpr hfive)
  have hncalls := (blink_ncalls verbose s.vars).trans h.ncalls
  have hflag := blink_flag verbose s.vars
  rw [if_pos hcall] at hflag
  have hlogged : (blink verbose s.vars).1.ncalls.toInt = (n : Int) := by
    rw [hncalls, toInt_ofNat_of_lt hn]
  rw [State.runHandler, State.after, hcall]
  exact ⟨hncalls, hflag, h.registered, by rw [← h.pending]; rfl, by rw [← hlogged, ← h.calls]⟩

theorem At.blink_passes (h : At n flag registered pending calls s) (hn : n < 2 ^ 31)
    (hfive : n % 5 ≠ 0) :
    At n flag registered pending calls (s.runHandler verbose (-einprogress) .blink) := by
  have hcall : (blink verbose s.vars).2 = none := by
    rw [blink_call, h.ncalls]
    exact if_neg fun htest => hfive ((srem_eq_zero_iff hn (by decide)).mp htest)
  have hflag := blink_flag verbose s.vars
  rw [if_neg (fun hc => by rw [hcall] at hc; cases hc)] at hflag
  rw [State.runHandler, State.after, hcall]
  exact ⟨(blink_ncalls verbose s.vars).trans h.ncalls, hflag.trans h.flag, h.registered,
    h.pending, h.calls⟩

/-- What a deferred call leaves of the set of registered probes. -/
def effect (registered : List Probe) : Call → List Probe
  | .register => registered ++ [.blink]
  | .unregister => registered.erase .blink

theorem At.settle (h : At n flag registered pending calls s) :
    At n flag (pending.foldl effect registered) [] calls (s.settle y verbose) := by
  have hstep : ∀ (c : Call) (registered : List Probe) (s : State),
      At n flag registered [] calls s → At n flag (effect registered c) [] calls
        (s.carryOut y verbose 0 c) := by
    intro c registered s h
    cases c with
    | register =>
        obtain ⟨printed, hprinted⟩ := regCallback_prints verbose y true 0 s.vars
        rw [State.carryOut, hprinted]
        exact ⟨h.ncalls, h.flag, by rw [effect, ← h.registered]; rfl, h.pending, h.calls⟩
    | unregister =>
        obtain ⟨printed, hprinted⟩ := regCallback_prints verbose y false 0 s.vars
        rw [State.carryOut, hprinted]
        exact ⟨h.ncalls, h.flag, by rw [effect, ← h.registered], h.pending, h.calls⟩
  rw [State.settle, h.pending]
  have hstart : At n flag registered [] calls { s with pending := [] } :=
    ⟨h.ncalls, h.flag, h.registered, rfl, h.calls⟩
  generalize ({ s with pending := [] } : State) = s₀ at hstart
  clear h
  induction pending generalizing registered s₀ with
  | nil => exact hstart
  | cons c l ih => exact ih _ (hstep c registered s₀ hstart)

/-! The three kinds of iteration. -/

theorem callAt_register (h : callAt (n + 1) = some .register) :
    registeredAfter n = false ∧ registeredAfter (n + 1) = true ∧ (n + 1) % 3 = 0 ∧
      (n + 1) % 5 ≠ 0 := by
  have hres : (n + 1) % 15 = 3 ∨ (n + 1) % 15 = 6 ∨ (n + 1) % 15 = 12 := by
    by_contra hno
    rw [callAt, if_neg hno] at h
    split at h <;> cases h
  simp only [registeredAfter, List.mem_cons, List.not_mem_nil, or_false, decide_eq_false_iff_not,
    decide_eq_true_eq]
  omega

theorem callAt_unregister (h : callAt (n + 1) = some .unregister) :
    registeredAfter n = true ∧ registeredAfter (n + 1) = false ∧ (n + 1) % 5 = 0 := by
  have hres : (n + 1) % 15 = 0 ∨ (n + 1) % 15 = 5 ∨ (n + 1) % 15 = 10 := by
    by_contra hno
    rw [callAt, if_neg (c := _ ∨ _ ∨ _ = 10) hno] at h
    split at h <;> cases h
  simp only [registeredAfter, List.mem_cons, List.not_mem_nil, or_false, decide_eq_false_iff_not,
    decide_eq_true_eq]
  omega

theorem callAt_none (h : callAt (n + 1) = none) :
    registeredAfter (n + 1) = registeredAfter n ∧
      (registeredAfter n = true ∨ (n + 1) % 3 ≠ 0) ∧
      (registeredAfter n = true → (n + 1) % 5 ≠ 0) := by
  simp only [callAt] at h
  split at h
  · cases h
  split at h
  · cases h
  simp only [registeredAfter, List.mem_cons, List.not_mem_nil, or_false,
    decide_eq_decide, decide_eq_true_eq]
  omega

/-- `usp_steady`, and `usp_blink` when it is registered. -/
def probes (registered : Bool) : List Probe := if registered then [.steady, .blink] else [.steady]

/-- The state after `n` iterations, but for what has been printed. -/
def Settled (n : Nat) (s : State) : Prop :=
  At n (registeredAfter n) (probes (registeredAfter n)) [] (callsUpTo n) s

theorem callsUpTo_of_some {c : Call} (h : callAt (n + 1) = some c) :
    callsUpTo (n + 1) = callsUpTo n ++ [((n + 1 : Int), c)] := by
  rw [callsUpTo, h]

theorem callsUpTo_of_none (h : callAt (n + 1) = none) : callsUpTo (n + 1) = callsUpTo n := by
  rw [callsUpTo, h]

/-- In blink.c a hit runs every registered probe. -/
theorem hit_blink (ret : Int) (pid : Int) (vaddr : BitVec 64) (s : State) :
    s.hit (blinkLayout pid vaddr) verbose ret vaddr =
      s.registered.foldl (State.runHandler verbose ret) s := by
  have hall : (s.registered.filter fun p => (blinkLayout pid vaddr).vaddr p = vaddr) =
      s.registered := by
    apply List.filter_eq_self.mpr
    intro p _
    cases p <;> simp [Layout.vaddr, blinkLayout]
  rw [State.hit, hall]

/-- blink.c: the probe just registered does not fire in the same iteration. -/
theorem Settled.iteration_blink (h : Settled n s) (hn : n + 1 < 2 ^ 31) (pid : Int)
    (vaddr : BitVec 64) :
    Settled (n + 1) (s.iteration (blinkLayout pid vaddr) verbose [vaddr]) := by
  simp only [State.iteration, List.foldl_cons, List.foldl_nil, hit_blink verbose]
  rw [Settled] at h
  rw [h.registered, Settled]
  cases hcall : callAt (n + 1) with
  | none =>
      obtain ⟨hsame, hthree, hfive⟩ := callAt_none hcall
      rw [hsame, callsUpTo_of_none hcall]
      have hsteady := h.steady_passes verbose hthree hn
      cases hreg : registeredAfter n with
      | false =>
          rw [hreg] at hsteady
          exact hsteady.settle _ verbose
      | true =>
          rw [hreg] at hsteady
          exact (hsteady.blink_passes verbose hn (hfive hreg)).settle _ verbose
  | some c =>
      rw [callsUpTo_of_some hcall]
      cases c with
      | register =>
          obtain ⟨hbefore, hafter, hthree, _⟩ := callAt_register hcall
          rw [hbefore] at h ⊢
          rw [hafter]
          exact (h.steady_registers verbose hn hthree).settle _ verbose
      | unregister =>
          obtain ⟨hbefore, hafter, hfive⟩ := callAt_unregister hcall
          rw [hbefore] at h ⊢
          rw [hafter]
          exact ((h.steady_passes verbose (Or.inl rfl) hn).blink_unregisters verbose hn hfive).settle _ verbose

/-- blink2.c: it does, but not with `ncalls` a multiple of 5. -/
theorem Settled.iteration_blink2 (h : Settled n s) (hn : n + 1 < 2 ^ 31) (pid : Int)
    {add subtract : BitVec 64} (hne : add ≠ subtract) :
    Settled (n + 1) (s.iteration (blink2Layout pid add subtract) verbose [add, subtract]) := by
  have hadd : ∀ (s : State) r, s.registered = probes r →
      s.hit (blink2Layout pid add subtract) verbose (-einprogress) add =
        s.runHandler verbose (-einprogress) .steady := by
    intro s r hs
    rw [State.hit, hs]
    cases r <;> simp [probes, Layout.vaddr, blink2Layout, hne.symm]
  have hsubtract : ∀ (s : State) r, s.registered = probes r →
      s.hit (blink2Layout pid add subtract) verbose (-einprogress) subtract =
        if r then s.runHandler verbose (-einprogress) .blink else s := by
    intro s r hs
    rw [State.hit, hs]
    cases r <;> simp [probes, Layout.vaddr, blink2Layout, hne]
  simp only [State.iteration, List.foldl_cons, List.foldl_nil]
  rw [Settled] at h
  rw [hadd s _ h.registered, Settled]
  cases hcall : callAt (n + 1) with
  | none =>
      obtain ⟨hsame, hthree, hfive⟩ := callAt_none hcall
      have hfirst := (h.steady_passes verbose hthree hn).settle
        (blink2Layout pid add subtract) verbose
      rw [hsame, callsUpTo_of_none hcall, hsubtract _ _ hfirst.registered]
      split
      · rename_i hreg
        exact (hfirst.blink_passes verbose hn (hfive hreg)).settle _ verbose
      · exact hfirst.settle _ verbose
  | some c =>
      rw [callsUpTo_of_some hcall]
      cases c with
      | register =>
          obtain ⟨hbefore, hafter, hthree, hfive⟩ := callAt_register hcall
          rw [hbefore] at h
          have hfirst := (h.steady_registers verbose hn hthree).settle
            (blink2Layout pid add subtract) verbose
          rw [hafter, hsubtract _ true hfirst.registered, if_pos rfl]
          exact (hfirst.blink_passes verbose hn hfive).settle _ verbose
      | unregister =>
          obtain ⟨hbefore, hafter, hfive⟩ := callAt_unregister hcall
          rw [hbefore] at h
          have hfirst := (h.steady_passes verbose (Or.inl rfl) hn).settle
            (blink2Layout pid add subtract) verbose
          rw [hafter, hsubtract _ true hfirst.registered, if_pos rfl]
          exact (hfirst.blink_unregisters verbose hn hfive).settle _ verbose

end Steps

theorem settled_loaded : Settled 0 .loaded := ⟨rfl, rfl, rfl, rfl, rfl⟩

theorem settled_blink (verbose : Bool) (pid : Int) (vaddr : BitVec 64) {n : Nat}
    (hn : n < 2 ^ 31) : Settled n (iterations (blinkLayout pid vaddr) verbose [vaddr] n) := by
  induction n with
  | zero => exact settled_loaded
  | succ n ih => exact (ih (by omega)).iteration_blink verbose hn pid vaddr

theorem settled_blink2 (verbose : Bool) (pid : Int) {add subtract : BitVec 64}
    (hne : add ≠ subtract) {n : Nat} (hn : n < 2 ^ 31) :
    Settled n (iterations (blink2Layout pid add subtract) verbose [add, subtract] n) := by
  induction n with
  | zero => exact settled_loaded
  | succ n ih => exact (ih (by omega)).iteration_blink2 verbose hn pid hne

/-- For every number of iterations below 2^31 the two modules make the same
    calls at the same values of `ncalls`: to register at 3, 6 and 12 modulo 15,
    to unregister at 0, 5 and 10. -/
theorem blink_blink2_sameCalls (verbose verbose2 : Bool) (pid pid2 : Int)
    (vaddr add subtract : BitVec 64) (hne : add ≠ subtract) {n : Nat} (hn : n < 2 ^ 31) :
    (iterations (blinkLayout pid vaddr) verbose [vaddr] n).calls = callsUpTo n ∧
      (iterations (blink2Layout pid2 add subtract) verbose2 [add, subtract] n).calls =
        callsUpTo n :=
  ⟨(settled_blink verbose pid vaddr hn).calls, (settled_blink2 verbose2 pid2 hne hn).calls⟩

/-- The fifty iterations of the tests. -/
theorem blink_blink2_sameCalls_fifty :
    (0x80484a8 : BitVec 64) ≠ 0x80484b0 ∧ 50 < 2 ^ 31 ∧
      (iterations (blinkLayout 3243 0x80484a8) true [0x80484a8] 50).calls = callsUpTo 50 ∧
      (iterations (blink2Layout 3244 0x80484a8 0x80484b0) true [0x80484a8, 0x80484b0] 50).calls =
        callsUpTo 50 :=
  ⟨by decide, by decide, blink_blink2_sameCalls true true 3243 3244 0x80484a8 0x80484a8 0x80484b0
    (by decide) (by decide)⟩

example : callsUpTo 15 = [(3, .register), (5, .unregister), (6, .register), (10, .unregister),
    (12, .register), (15, .unregister)] := by decide

end Blink

end UprobeTests
