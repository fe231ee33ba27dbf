/-
  UprobeTests.Pong

  uprobes.existing/pong.c and pong_wa7.c with UPROBES_REG_CALLBACK: an entry
  probe and a return probe on one function, each handler of which registers
  the other probe and unregisters its own.  pong_wa7.c counts the deferred
  calls in `pending_regs`, and its `cleanup_module` waits for them.

  A handler, a deferred call in the kernel and the callback that ends it are
  activations; every access to a shared variable is an action of its own.
  From a handler a register call either fails, without a callback, or is
  deferred, and an unregister call is always deferred; a deferred call takes
  effect or fails, and then calls `reg_callback` once.  A handler may be
  entered at any time, which only adds to the runs there are.
-/

import Mathlib.Logic.Function.Basic
import UprobeTests.Lib.Activations

namespace UprobeTests

namespace Pong

open Activations

/-- `entry_probe` and `return_probe`. -/
inductive Probe where
  | entry
  | ret
deriving DecidableEq, Repr

/-- A call of `register_u[ret]probe`, or of `unregister_u[ret]probe`. -/
structure Op where
  probe : Probe
  reg : Bool
deriving DecidableEq, Repr

/-- `entry_handler` and `return_handler`. -/
inductive Handler where
  | entry
  | ret
deriving DecidableEq, Repr

/-- The calls of `entry_handler`, each followed by the write of the probe's flag. -/
def entryHandler : List Op := [⟨.ret, true⟩, ⟨.entry, false⟩]

/-- The calls of `return_handler`. -/
def returnHandler : List Op := [⟨.ret, false⟩, ⟨.entry, true⟩]

def Handler.ops : Handler → List Op
  | .entry => entryHandler
  | .ret => returnHandler

/-- Who has called `pending_reg_done`, and what is left to do after it. -/
inductive Caller where
  | handler (rest : List Op)
  | callback
deriving DecidableEq, Repr

/-- What an activation is about to do; `rest` are the calls a handler makes after `op`. -/
inductive Act where
  /-- `if (atomic_read(&cleaning_up)) return;` -/
  | test (op : Op) (rest : List Op)
  /-- `atomic_inc(&pending_regs);` -/
  | inc (op : Op) (rest : List Op)
  | call (op : Op) (rest : List Op)
  /-- the call has been deferred, the flag not yet written -/
  | flag (op : Op) (rest : List Op)
  /-- a deferred call that the kernel has not carried out -/
  | deferred (op : Op)
  /-- `atomic_dec_and_test(&pending_regs)` -/
  | dec (c : Caller)
  /-- `atomic_read(&cleaning_up)` -/
  | readCleaning (c : Caller)
  /-- `wake_up(&pending_regs_waitq);` -/
  | wakeUp (c : Caller)
deriving DecidableEq, Repr

/-- Where `cleanup_module` of pong_wa7.c stands: `test` to `sleep` are the
    `wait_event`. -/
inductive Cleanup where
  | notCalled
  | test
  | prepare
  | recheck
  | sleep
  | readFlag (p : Probe)
  | unregister (p : Probe)
  | returned
deriving DecidableEq, Repr

structure Shared where
  pendingRegs : Int
  cleaningUp : Bool
  /-- `cleanup_module` is on `pending_regs_waitq` and not runnable -/
  onQueue : Bool
  cleanup : Cleanup
  /-- is the probe registered with the kernel? -/
  registered : Probe → Bool
  /-- `entry_probe_registered` and `return_probe_registered` -/
  flag : Probe → Bool
  /-- whether the last deferred call for the probe was to register it -/
  asked : Probe → Bool
  /-- the unregister calls of `cleanup_module`, and whether the probe was registered -/
  unregisterCalls : List (Probe × Bool)

/-- After an `init_module` that has returned 0. -/
def Shared.loaded : Shared where
  pendingRegs := 0
  cleaningUp := false
  onQueue := false
  cleanup := .notCalled
  registered p := p = .entry
  flag p := p = .entry
  asked p := p = .entry
  unregisterCalls := []

section Model

/-- A handler about to make the calls `ops`; only pong_wa7.c tests `cleaning_up`. -/
def startOps (wa7 : Bool) : List Op → List Act
  | [] => []
  | op :: rest => [if wa7 then .test op rest else .call op rest]

/-- Back from `pending_reg_done`. -/
def Caller.resume : Caller → List Act
  | .handler rest => startOps true rest
  | .callback => []

/-- The next action of an activation.  `ok` says whether a register call is
    deferred or fails, and whether a deferred call takes effect or fails. -/
def act (wa7 : Bool) (u : Shared) (a : Act) (ok : Bool) : Option (Shared × List Act) :=
  match a with
  | .test op rest => some (u, if u.cleaningUp then [] else [.inc op rest])
  | .inc op rest => some ({ u with pendingRegs := u.pendingRegs + 1 }, [.call op rest])
  | .call op rest =>
      if op.reg = true ∧ ok = false then
        some (u, if wa7 then [.dec (.handler rest)] else startOps wa7 rest)
      else
        some ({ u with asked := Function.update u.asked op.probe op.reg },
          [.flag op rest, .deferred op])
  | .flag op rest =>
      some ({ u with flag := Function.update u.flag op.probe op.reg }, startOps wa7 rest)
  | .deferred op =>
      -- pong.c's callback only prints
      some (if ok then { u with registered := Function.update u.registered op.probe op.reg } else u,
        if wa7 then [.dec .callback] else [])
  | .dec c =>
      some ({ u with pendingRegs := u.pendingRegs - 1 },
        if u.pendingRegs - 1 = 0 then [.readCleaning c] else c.resume)
  | .readCleaning c => some (u, if u.cleaningUp then [.wakeUp c] else c.resume)
  | .wakeUp c => some ({ u with onQueue := false }, c.resume)

/-- The probe `cleanup_module` turns to after `p`. -/
def Cleanup.after : Probe → Cleanup
  | .entry => .readFlag .ret
  | .ret => .returned

/-- The next action of `cleanup_module` of pong_wa7.c, if it can run. -/
def cleanupModule (u : Shared) : Option Shared :=
  match u.cleanup with
  | .notCalled => some { u with cleaningUp := true, cleanup := .test }
  | .test => some { u with cleanup := if u.pendingRegs = 0 then .readFlag .entry else .prepare }
  | .prepare => some { u with onQueue := true, cleanup := .recheck }
  | .recheck =>
      some (if u.pendingRegs = 0 then { u with onQueue := false, cleanup := .readFlag .entry }
        else { u with cleanup := .sleep })
  | .sleep => if u.onQueue then none else some { u with cleanup := .prepare }
  | .readFlag p => some { u with cleanup := if u.flag p then .unregister p else .after p }
  | .unregister p =>
      some { u with
        registered := Function.update u.registered p false
        unregisterCalls := u.unregisterCalls ++ [(p, u.registered p)]
        cleanup := .after p }
  | .returned => none

/-- A step of nobody's activation. -/
inductive Main where
  | enter (h : Handler)
  | cleanup
deriving DecidableEq, Repr

end Model

/-! ## What an activation does -/

/-- What no activation touches. -/
theorem act_frame {wa7 : Bool} {u u' : Shared} {a : Act} {ok : Bool} {new : List Act}
    (h : act wa7 u a ok = some (u', new)) :
    u'.cleaningUp = u.cleaningUp ∧ u'.cleanup = u.cleanup ∧
      u'.unregisterCalls = u.unregisterCalls ∧ (u'.onQueue = true → u.onQueue = true) := by
  cases a with
  | call op rest =>
      simp only [act] at h
      split at h
      · cases h
        exact ⟨rfl, rfl, rfl, id⟩
      · cases h
        exact ⟨rfl, rfl, rfl, id⟩
  | deferred op =>
      cases h
      split
      · exact ⟨rfl, rfl, rfl, id⟩
      · exact ⟨rfl, rfl, rfl, id⟩
  | wakeUp c =>
      cases h
      exact ⟨rfl, rfl, rfl, fun h => Bool.noConfusion h⟩
  | test op rest => cases h; exact ⟨rfl, rfl, rfl, id⟩
  | inc op rest => cases h; exact ⟨rfl, rfl, rfl, id⟩
  | flag op rest => cases h; exact ⟨rfl, rfl, rfl, id⟩
  | dec c => cases h; exact ⟨rfl, rfl, rfl, id⟩
  | readCleaning c => cases h; exact ⟨rfl, rfl, rfl, id⟩

/-! ## What was last asked -/

/-- The call a deferred activation will carry out. -/
def Act.carriesOut : Act → Option Op
  | .deferred op => some op
  | _ => none

/-- The flag a handler is about to write, and the value. -/
def Act.writes : Act → Option Op
  | .flag op _ => some op
  | _ => none

/-- The probe stands as it was last asked to, or an activation is due to
    make it so; `v` may be its registration or its flag. -/
def AsAsked (due : Act → Option Op) (asked v : Probe → Bool) (acts : List Act) (p : Probe) :
    Prop :=
  v p = asked p ∨ ∃ b ∈ acts, due b = some ⟨p, asked p⟩

/-- What a step can do to `v`: the activation asks for something, which is then
    due; or it was due itself and sets `v`; or it does neither. -/
inductive Follows (due : Act → Option Op) (value : Op → Bool) (a : Act) (new : List Act)
    (asked v : Probe → Bool) : (Probe → Bool) → (Probe → Bool) → Prop where
  | asks (op : Op) {b : Act} (hb : b ∈ new) (hdue : due b = some op) (ha : due a = none) :
      Follows due value a new asked v (Function.update asked op.probe op.reg) v
  | keeps (ha : due a = none) : Follows due value a new asked v asked v
  | sets (op : Op) (ha : due a = some op) :
      Follows due value a new asked v asked (Function.update v op.probe (value op))

theorem AsAsked.mono {due : Act → Option Op} {asked v : Probe → Bool} {acts acts' : List Act}
    {p : Probe} (h : AsAsked due asked v acts p) (hsub : ∀ b ∈ acts, b ∈ acts') :
    AsAsked due asked v acts' p := by
  rcases h with hv | ⟨b, hb, hdue⟩
  · exact Or.inl hv
  · exact Or.inr ⟨b, hsub b hb, hdue⟩

/-- A value stays as asked when nobody sets it otherwise, unless somebody is
    still due to set it right. -/
theorem AsAsked.step {due : Act → Option Op} {value : Op → Bool} {a : Act} {p : Probe}
    {before after new : List Act} {asked v asked' v' : Probe → Bool}
    (h : AsAsked due asked v (before ++ a :: after) p)
    (hstep : Follows due value a new asked v asked' v')
    (hset : ∀ op, due a = some op → op.probe = p → value op = asked p ∨
      ∃ b ∈ before ++ after, due b = some ⟨p, asked p⟩) :
    AsAsked due asked' v' (before ++ new ++ after) p := by
  -- whoever was due and did not take the step still is
  have hothers : due a = none → AsAsked due asked v (before ++ new ++ after) p := by
    intro ha
    rcases h with hv | ⟨b, hb, hdue⟩
    · exact Or.inl hv
    · rcases mem_acts_iff.mp hb with rfl | hb
      · rw [ha] at hdue
        cases hdue
      · exact Or.inr ⟨b, mem_new_iff.mpr (Or.inr hb), hdue⟩
  cases hstep with
  | keeps ha => exact hothers ha
  | @asks op b hb hdue ha =>
      by_cases hp : p = op.probe
      · subst hp
        refine Or.inr ⟨b, mem_new_iff.mpr (Or.inl hb), ?_⟩
        rw [Function.update_self]
        exact hdue
      · rw [AsAsked, Function.update_of_ne hp]
        exact hothers ha
  | sets op ha =>
      by_cases hp : p = op.probe
      · subst hp
        rcases hset op ha rfl with hvalue | ⟨b, hb, hdue⟩
        · exact Or.inl (by rw [Function.update_self, hvalue])
        · exact Or.inr ⟨b, mem_new_iff.mpr (Or.inr hb), hdue⟩
      · rcases h with hv | ⟨b, hb, hdue⟩
        · exact Or.inl (by rw [Function.update_of_ne hp, hv])
        · rcases mem_acts_iff.mp hb with rfl | hb
          · rw [ha, Option.some.injEq] at hdue
            exact absurd (congrArg Op.probe hdue).symm hp
          · exact Or.inr ⟨b, mem_new_iff.mpr (Or.inr hb), hdue⟩

/-- A deferred call leaves its probe as it was last asked to be, or another
    call that does is still deferred. -/
def endsAsAsked (u : Shared) (others : List Act) (op : Op) (ok : Bool) : Bool :=
  (if ok then op.reg else u.registered op.probe) = u.asked op.probe ||
    others.any fun b => b.carriesOut = some ⟨op.probe, u.asked op.probe⟩

theorem asked_of_endsAsAsked {u : Shared} {others : List Act} {op : Op} {ok : Bool} {p : Probe}
    (h : endsAsAsked u others op ok = true) (hp : op.probe = p) :
    (if ok then op.reg else u.registered op.probe) = u.asked p ∨
      ∃ b ∈ others, b.carriesOut = some ⟨p, u.asked p⟩ := by
  subst hp
  simpa [endsAsAsked] using h

section Follows

variable {wa7 : Bool} {u u' : Shared} {a : Act} {ok : Bool} {new : List Act}

/-- A registration follows the calls that are handed over and carried out. -/
theorem act_registered (h : act wa7 u a ok = some (u', new)) :
    Follows Act.carriesOut (fun op => if ok then op.reg else u.registered op.probe) a new
      u.asked u.registered u'.asked u'.registered := by
  cases a with
  | call op rest =>
      simp only [act] at h
      split at h
      · cases h
        exact .keeps rfl
      · cases h
        exact .asks op (List.mem_cons_of_mem _ (List.mem_singleton_self _)) rfl rfl
  | deferred op =>
      simp only [act, Option.some.injEq, Prod.mk.injEq] at h
      obtain ⟨rfl, -⟩ := h
      have hsets : Follows Act.carriesOut (fun op => if ok then op.reg else u.registered op.probe)
          (.deferred op) new u.asked u.registered u.asked (Function.update u.registered op.probe
            (if ok then op.reg else u.registered op.probe)) := .sets op rfl
      cases ok with
      | true => exact hsets
      | false =>
          -- a failure leaves the probe as it was
          rw [show Function.update u.registered op.probe (if false = true then op.reg else
            u.registered op.probe) = u.registered from Function.update_eq_self _ _] at hsets
          exact hsets
  | test op rest => cases h; exact .keeps rfl
  | inc op rest => cases h; exact .keeps rfl
  | flag op rest => cases h; exact .keeps rfl
  | dec c => cases h; exact .keeps rfl
  | readCleaning c => cases h; exact .keeps rfl
  | wakeUp c => cases h; exact .keeps rfl

/-- A flag follows the calls that are handed over and the writes after them. -/
theorem act_flag (h : act wa7 u a ok = some (u', new)) :
    Follows Act.writes Op.reg a new u.asked u.flag u'.asked u'.flag := by
  cases a with
  | call op rest =>
      simp only [act] at h
      split at h
      · cases h
        exact .keeps rfl
      · cases h
        exact .asks op List.mem_cons_self rfl rfl
  | flag op rest =>
      cases h
      exact .sets op rfl
  | deferred op =>
      simp only [act, Option.some.injEq, Prod.mk.injEq] at h
      obtain ⟨rfl, -⟩ := h
      cases ok with
      | true => exact .keeps rfl
      | false => exact .keeps rfl
  | test op rest => cases h; exact .keeps rfl
  | inc op rest => cases h; exact .keeps rfl
  | dec c => cases h; exact .keeps rfl
  | readCleaning c => cases h; exact .keeps rfl
  | wakeUp c => cases h; exact .keeps rfl

end Follows

end Pong

end UprobeTests
