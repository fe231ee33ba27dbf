/-
  UprobeTests.BlinkFlag

  `blink_registered` of blink.c and blink2.c against what the kernel has
  registered, over every run of hits and completions of deferred calls.

  `steady` sets the flag when its registration is deferred, and `reg_callback`
  only prints: a registration that fails later leaves the flag set, so that
  `steady` never asks again and `cleanup_module` unregisters a probe that is
  not registered.
-/

import UprobeTests.Blink

namespace UprobeTests

namespace Blink

/-- A hit of the probepoint at `a`, where `register_uprobe` returns `ret` if it
    is called; or the kernel is done with the `i`-th deferred call. -/
inductive Event where
  | hit (a : BitVec 64) (ret : Int)
  | complete (i : Nat) (result : Int)
deriving DecidableEq, Repr

/-- `register_uprobe` called from a handler is refused or deferred, it does not
    return 0.  An unregistration always takes effect. -/
def step (y : Layout) (verbose : Bool) (s : State) : Event → Option State
  | .hit a ret => if ret = 0 then none else some (s.hit y verbose ret a)
  | .complete i result =>
      s.pending[i]?.map fun c =>
        State.carryOut y verbose result { s with pending := s.pending.eraseIdx i } c

/-- The states of the runs after `init_module` in which every event meets `cond`
    in the state it finds. -/
inductive Reached (y : Layout) (verbose : Bool) (cond : State → Event → Prop) : State → Prop where
  | loaded : Reached y verbose cond .loaded
  | step {s s' : State} (e : Event) (h : Reached y verbose cond s) (hcond : cond s e)
      (hstep : step y verbose s e = some s') : Reached y verbose cond s'

/-- The flag tells what is registered, for all who read it. -/
structure FlagRight (s : State) : Prop where
  flag : s.pending = [] → (s.vars.blinkRegistered = true ↔ .blink ∈ s.registered)
  /-- `steady` asks for a registration exactly when there is none -/
  retries : s.pending = [] → ∀ verbose ret,
    ((steady verbose ret s.vars).2 = some .register ↔
      .blink ∉ s.registered ∧ (s.vars.ncalls + 1).srem 3 = 0)
  once : s.registered.count .blink ≤ 1
  cleanup : s.pending = [] → (.blink ∈ cleanupUnregisters s.vars ↔ .blink ∈ s.registered)

/-- The deferred calls are carried out in the order they were made, and no
    registration fails as the only one that is left. -/
def Harmless (s : State) : Event → Prop
  | .hit _ _ => True
  | .complete i result => i = 0 ∧ ¬ (s.pending = [.register] ∧ result ≠ 0)

/-! ## What the pending calls come to -/

/-- Whether `usp_blink` is registered when `l` has been carried out. -/
def outlook (registered : Bool) (l : List Call) : Bool :=
  l.foldl (fun _ c => c = .register) registered

theorem outlook_append (registered : Bool) (l : List Call) (c : Call) :
    outlook registered (l ++ [c]) = decide (c = .register) := by
  rw [outlook, List.foldl_append]
  rfl

theorem outlook_of_ne_nil {l : List Call} (h : l ≠ []) (r r' : Bool) :
    outlook r l = outlook r' l := by
  cases l with
  | nil => exact absurd rfl h
  | cons c l => rfl

/-- No registration in `l` finds `usp_blink` registered. -/
def NeverTwice : Bool → List Call → Prop
  | _, [] => True
  | registered, .register :: l => registered = false ∧ NeverTwice true l
  | _, .unregister :: l => NeverTwice false l

theorem NeverTwice.append_unregister {registered : Bool} {l : List Call}
    (h : NeverTwice registered l) : NeverTwice registered (l ++ [.unregister]) := by
  induction l generalizing registered with
  | nil => trivial
  | cons c l ih =>
      cases c with
      | register => exact ⟨h.1, ih h.2⟩
      | unregister =>
          have htail : NeverTwice false l := h
          exact ih htail

theorem NeverTwice.append_register {registered : Bool} {l : List Call}
    (h : NeverTwice registered l) (hout : outlook registered l = false) :
    NeverTwice registered (l ++ [.register]) := by
  induction l generalizing registered with
  | nil => exact ⟨hout, trivial⟩
  | cons c l ih =>
      cases c with
      | register => exact ⟨h.1, ih h.2 hout⟩
      | unregister =>
          have htail : NeverTwice false l := h
          exact ih htail hout

/-- It only helps when the probe is not registered. -/
theorem NeverTwice.mono {registered : Bool} {l : List Call} (h : NeverTwice true l) :
    NeverTwice registered l := by
  cases l with
  | nil => trivial
  | cons c l =>
      cases c with
      | register => cases h.1
      | unregister => exact h

/-! ## The invariant -/

structure Inv (s : State) : Prop where
  flag : s.vars.blinkRegistered = outlook (.blink ∈ s.registered) s.pending
  order : NeverTwice (.blink ∈ s.registered) s.pending
  once : s.registered.count .blink ≤ 1

theorem Inv.loaded : Inv .loaded := ⟨rfl, trivial, by decide⟩

theorem after_of_deferred {s : State} {ret : Int} {r : Vars × Option Call} {c : Call}
    (hr : r.2 = some c) (hdeferred : deferred ret c = true) :
    s.after ret r =
      { s with
        vars := r.1
        pending := s.pending ++ [c]
        calls := s.calls ++ [(r.1.ncalls.toInt, c)] } := by
  rw [State.after, hr]
  simp only [if_pos hdeferred]

theorem after_of_refused {s : State} {ret : Int} {r : Vars × Option Call} {c : Call}
    (hr : r.2 = some c) (hrefused : deferred ret c = false) :
    s.after ret r =
      { s with vars := r.1, calls := s.calls ++ [(r.1.ncalls.toInt, c)] } := by
  rw [State.after, hr]
  simp only [hrefused, Bool.false_eq_true, if_false]

theorem after_of_none {s : State} {ret : Int} {r : Vars × Option Call} (hr : r.2 = none) :
    s.after ret r = { s with vars := r.1 } := by
  rw [State.after, hr]

theorem Inv.steady {s : State} (h : Inv s) (verbose : Bool) (ret : Int) :
    Inv (s.runHandler verbose ret .steady) := by
  have hcall := steady_call verbose ret s.vars
  have hflag := steady_flag verbose ret s.vars
  rw [State.runHandler]
  by_cases hasks : s.vars.blinkRegistered = false ∧ (s.vars.ncalls + 1).srem 3 = 0
  · rw [if_pos hasks] at hcall
    by_cases hret : ret = -einprogress
    · -- the flag says that nothing is registered once the calls before are done
      have hout : outlook (.blink ∈ s.registered) s.pending = false := by
        rw [← h.flag, hasks.1]
      rw [if_pos ⟨hcall, hret⟩] at hflag
      rw [after_of_deferred hcall (decide_eq_true hret)]
      refine ⟨?_, h.order.append_register hout, h.once⟩
      rw [outlook_append]
      exact hflag
    · rw [if_neg (fun hc => hret hc.2)] at hflag
      rw [after_of_refused hcall (decide_eq_false hret)]
      exact ⟨hflag.trans h.flag, h.order, h.once⟩
  · rw [if_neg hasks] at hcall
    rw [hcall, if_neg (fun hc => by cases hc.1)] at hflag
    rw [after_of_none hcall]
    exact ⟨hflag.trans h.flag, h.order, h.once⟩

theorem Inv.blink {s : State} (h : Inv s) (verbose : Bool) (ret : Int) :
    Inv (s.runHandler verbose ret .blink) := by
  have hcall := blink_call verbose s.vars
  have hflag := blink_flag verbose s.vars
  rw [State.runHandler]
  by_cases htest : s.vars.ncalls.srem 5 = 0
  · rw [if_pos htest] at hcall
    rw [if_pos hcall] at hflag
    rw [after_of_deferred hcall rfl]
    refine ⟨?_, h.order.append_unregister, h.once⟩
    rw [outlook_append]
    exact hflag
  · rw [if_neg htest] at hcall
    rw [hcall, if_neg (fun hc => by cases hc)] at hflag
    rw [after_of_none hcall]
    exact ⟨hflag.trans h.flag, h.order, h.once⟩

theorem Inv.hit {s : State} (h : Inv s) (y : Layout) (verbose : Bool) (ret : Int)
    (a : BitVec 64) : Inv (s.hit y verbose ret a) := by
  rw [State.hit]
  generalize s.registered.filter (fun p => y.vaddr p = a) = l
  induction l generalizing s with
  | nil => exact h
  | cons p l ih =>
      cases p with
      | steady => exact ih (h.steady verbose ret)
      | blink => exact ih (h.blink verbose ret)

/-- What one harmless completion preserves. -/
theorem Inv.complete {s s' : State} (h : Inv s) {y : Layout} {verbose : Bool} {i : Nat}
    {result : Int} (hcond : Harmless s (.complete i result))
    (hstep : step y verbose s (.complete i result) = some s') : Inv s' := by
  obtain ⟨rfl, hlast⟩ := hcond
  obtain ⟨c, hc, rfl⟩ := Option.map_eq_some_iff.mp hstep
  have hflag := h.flag
  have horder := h.order
  cases hpending : s.pending with
  | nil =>
      rw [hpending] at hc
      cases hc
  | cons c' l =>
      rw [hpending] at hc hlast hflag horder
      cases hc
      cases c with
      | register =>
          obtain ⟨printed, hprinted⟩ := regCallback_prints verbose y true result s.vars
          simp only [State.carryOut, hprinted, List.eraseIdx_cons_zero]
          have hnot : .blink ∉ s.registered := of_decide_eq_false horder.1
          by_cases hresult : result = 0
          · simp only [if_pos hresult]
            refine ⟨?_, ?_, ?_⟩
            · simpa [outlook] using hflag
            · simpa using horder.2
            · simp [List.count_append, List.count_eq_zero.mpr hnot]
          · -- a later call decides
            have hmore : l ≠ [] := fun hnil => hlast ⟨by rw [hnil], hresult⟩
            simp only [if_neg hresult]
            exact ⟨hflag.trans (outlook_of_ne_nil hmore _ _), horder.2.mono, h.once⟩
      | unregister =>
          obtain ⟨printed, hprinted⟩ := regCallback_prints verbose y false result s.vars
          simp only [State.carryOut, hprinted, List.eraseIdx_cons_zero]
          have hcount : (s.registered.erase Probe.blink).count .blink = 0 := by
            rw [List.count_erase_self]
            have := h.once
            omega
          have hgone : decide (Probe.blink ∈ s.registered.erase .blink) = false :=
            decide_eq_false (List.count_eq_zero.mp hcount)
          refine ⟨?_, ?_, by rw [hcount]; decide⟩
          · rw [hgone]
            exact hflag
          · rw [hgone]
            exact horder

theorem Inv.flagRight {s : State} (h : Inv s) : FlagRight s := by
  have hflag : s.pending = [] → (s.vars.blinkRegistered = true ↔ .blink ∈ s.registered) := by
    intro hnone
    rw [h.flag, hnone]
    exact decide_eq_true_iff
  constructor
  · exact hflag
  · intro hnone verbose ret
    rw [steady_call, ← hflag hnone]
    cases s.vars.blinkRegistered <;> simp
  · exact h.once
  · intro hnone
    rw [← hflag hnone]
    cases hset : s.vars.blinkRegistered <;> simp [cleanupUnregisters, hset]

theorem Inv.of_reached {y : Layout} {verbose : Bool} {s : State}
    (h : Reached y verbose Harmless s) : Inv s := by
  induction h with
  | loaded => exact Inv.loaded
  | step e _ hcond hstep ih =>
      cases e with
      | hit a ret =>
          rw [Blink.step] at hstep
          split at hstep
          · cases hstep
          · cases hstep
            exact ih.hit y verbose ret a
      | complete i result => exact ih.complete hcond hstep

/-- Both modules: in every run that carries out the deferred calls in order and
    in which no registration fails as the last one, the flag is right. -/
theorem flagRight_of_reached {y : Layout} {verbose : Bool} {s : State}
    (h : Reached y verbose Harmless s) : FlagRight s :=
  (Inv.of_reached h).flagRight

/-- The third hit of the steady probepoint registers `usp_blink`. -/
def thirdHit (y : Layout) : State :=
  ((State.loaded.hit y false (-einprogress) y.steadyVaddr).hit y false (-einprogress)
    y.steadyVaddr).hit y false (-einprogress) y.steadyVaddr

/-- Three hits without output, whatever the condition makes of hits. -/
theorem reached_thirdHit (y : Layout) (cond : State → Event → Prop)
    (hcond : ∀ s a ret, cond s (.hit a ret)) : Reached y false cond (thirdHit y) :=
  .step (.hit y.steadyVaddr (-einprogress)) (.step (.hit y.steadyVaddr (-einprogress))
    (.step (.hit y.steadyVaddr (-einprogress)) .loaded (hcond _ _ _) rfl) (hcond _ _ _) rfl)
    (hcond _ _ _) rfl

/-- blink2.c, with the registration asked for at the third hit carried out. -/
theorem flagRight_registered :
    Reached (blink2Layout 3243 0x80484a8 0x80484b0) false Harmless
        ((thirdHit (blink2Layout 3243 0x80484a8 0x80484b0)).settle
          (blink2Layout 3243 0x80484a8 0x80484b0) false) ∧
      FlagRight ((thirdHit (blink2Layout 3243 0x80484a8 0x80484b0)).settle
        (blink2Layout 3243 0x80484a8 0x80484b0) false) := by
  have h : Reached (blink2Layout 3243 0x80484a8 0x80484b0) false Harmless
      ((thirdHit (blink2Layout 3243 0x80484a8 0x80484b0)).settle
        (blink2Layout 3243 0x80484a8 0x80484b0) false) :=
    .step (.complete 0 0) (reached_thirdHit _ _ (fun _ _ _ => trivial))
      ⟨rfl, fun h => h.2 rfl⟩ (by decide)
  exact ⟨h, flagRight_of_reached h⟩

/-- In both modules, after the third hit has been deferred and the registration
    has failed: nothing is pending or registered, and the flag is set. -/
theorem deferredFailure_leaves_flag :
    (∃ s, Reached (blinkLayout 3243 0x80484a8) false (fun _ _ => True) s ∧ s.pending = [] ∧
      s.vars.blinkRegistered = true ∧ .blink ∉ s.registered ∧ ¬ FlagRight s) ∧
    (∃ s, Reached (blink2Layout 3243 0x80484a8 0x80484b0) false (fun _ _ => True) s ∧
      s.pending = [] ∧ s.vars.blinkRegistered = true ∧ .blink ∉ s.registered ∧
      ¬ FlagRight s) := by
  constructor
  · refine ⟨_, .step (.complete 0 (-22)) (reached_thirdHit _ _ fun _ _ _ => trivial) trivial rfl,
      by decide, by decide, by decide, ?_⟩
    intro h
    have hflag := h.flag (by decide)
    revert hflag
    decide
  · refine ⟨_, .step (.complete 0 (-22)) (reached_thirdHit _ _ fun _ _ _ => trivial) trivial rfl,
      by decide, by decide, by decide, ?_⟩
    intro h
    have hflag := h.flag (by decide)
    revert hflag
    decide

/-- The condition on failures is needed: wherever a registration fails as the
    last pending call the flag is left wrong. -/
theorem not_flagRight_of_lastFails {y : Layout} {verbose : Bool} {s s' : State} {result : Int}
    (h : Reached y verbose Harmless s) (hlast : s.pending = [.register]) (hfails : result ≠ 0)
    (hstep : step y verbose s (.complete 0 result) = some s') : ¬ FlagRight s' := by
  have hinv := Inv.of_reached h
  have hflag := hinv.flag
  have horder := hinv.order
  rw [hlast] at hflag horder
  -- set when the call was deferred, and nothing was registered
  have hset : s.vars.blinkRegistered = true := hflag
  have hnot : .blink ∉ s.registered := of_decide_eq_false horder.1
  obtain ⟨c, hc, rfl⟩ := Option.map_eq_some_iff.mp hstep
  rw [hlast] at hc
  cases hc
  obtain ⟨printed, hprinted⟩ := regCallback_prints verbose y true result s.vars
  intro hright
  simp only [State.carryOut, hprinted, hlast, List.eraseIdx_cons_zero, if_neg hfails] at hright
  exact hnot ((hright.flag rfl).mp hset)

/-- Every registration succeeds. -/
def NoneFails (_ : State) : Event → Prop
  | .hit _ _ => True
  | .complete _ result => result = 0

/-- So is the order: blink2.c registers `usp_blink` at the third hit, which is
    carried out; it asks to unregister it at the fifth and to register it at the
    sixth, and the later of these calls is carried out first. -/
theorem outOfOrder_registersTwice :
    ∃ s, Reached (blink2Layout 3243 0x80484a8 0x80484b0) false NoneFails s ∧
      s.registered.count .blink = 2 := by
  have hfifth := Reached.step (.hit 0x80484b0 (-einprogress))
    (.step (.hit 0x80484a8 (-einprogress)) (.step (.hit 0x80484a8 (-einprogress))
      (.step (.complete 0 0) (reached_thirdHit (blink2Layout 3243 0x80484a8 0x80484b0) NoneFails
        fun _ _ _ => trivial) rfl rfl) trivial rfl) trivial rfl) trivial rfl
  exact ⟨_, .step (.complete 1 0) (.step (.hit 0x80484a8 (-einprogress)) hfifth trivial rfl)
    rfl rfl, by decide⟩

end Blink

end UprobeTests
