/-
  UprobeTests.PongPasses

  Passes of a single thread through the function that pong.c or pong_wa7.c
  probes, before any rmmod.  The entry handler runs at a call when the entry
  probe is registered, the return handler at a return when the return probe
  was registered at the call; deferred calls are carried out at any time.

  Between passes, with nothing pending, one of the two probes is registered
  and the flags say which, provided that no register call fails at once for a
  probe last asked to be unregistered and that every deferred call leaves its
  probe as it was last asked to be (`oneRegistered_between_passes`).
-/

import UprobeTests.Pong

namespace UprobeTests

namespace Pong

open Activations

/-- Where the probed thread is; `armed` says whether the return probe was
    registered at the call. -/
inductive Thread where
  | outside
  /-- the entry handler is running -/
  | entering (armed : Bool)
  | inside (armed : Bool)
  /-- the return handler is running -/
  | leaving
deriving DecidableEq, Repr

/-- `last` is the handler that has been entered last; a new module is as the
    return handler leaves it. -/
structure Pass where
  shared : Shared
  thread : Thread
  last : Handler

/-- An action of the probed thread, in a handler, and not of another context. -/
def Act.ofHandler : Act → Bool
  | .deferred _ => false
  | .dec .callback => false
  | .readCleaning .callback => false
  | .wakeUp .callback => false
  | _ => true

/-- The steps of the probed thread outside the handlers. -/
inductive PassStep where
  | call
  | entered
  | ret (fires : Bool)
  | returned
deriving DecidableEq, Repr

/-- Passes through the probed function, with pong.c or pong_wa7.c loaded. -/
def passes (wa7 : Bool) : System Pass Act Bool PassStep where
  act u a ok := (act wa7 u.shared a ok).map fun r => ({ u with shared := r.1 }, r.2)
  main s m :=
    let u := s.shared
    let idle := s.acts.all fun a => !a.ofHandler
    match m, u.thread with
    | .call, .outside =>
        let armed := u.shared.registered .ret
        if u.shared.registered .entry then
          some ⟨{ u with thread := .entering armed, last := .entry },
            startOps wa7 entryHandler ++ s.acts⟩
        else some ⟨{ u with thread := .inside armed }, s.acts⟩
    | .entered, .entering armed =>
        if idle then some ⟨{ u with thread := .inside armed }, s.acts⟩ else none
    | .ret true, .inside true =>
        some ⟨{ u with thread := .leaving, last := .ret }, startOps wa7 returnHandler ++ s.acts⟩
    | .ret false, .inside armed =>
        -- an armed return that finds the probe unregistered may pass unnoticed
        if armed && u.shared.registered .ret then none
        else some ⟨{ u with thread := .outside }, s.acts⟩
    | .returned, .leaving =>
        if idle then some ⟨{ u with thread := .outside }, s.acts⟩ else none
    | _, _ => none

/-- After `init_module`. -/
def passInit : Activations Pass Act := ⟨⟨.loaded, .outside, .ret⟩, []⟩

/-- What every state between passes with nothing pending should satisfy: one
    probe is registered, the one the last handler did not unregister, and the
    flags say so. -/
structure OneRegistered (u : Pass) : Prop where
  one : u.shared.registered .entry = !u.shared.registered .ret
  flags : ∀ p, u.shared.flag p = u.shared.registered p
  alternates : u.shared.registered .entry = true ↔ u.last = .ret

/-- The condition on a step: a register call fails at once only for a probe
    that was last asked to be registered, and a deferred call leaves its probe
    as it was last asked to be, or another call that does is still deferred. -/
def asAsked : Guard Pass Act Bool PassStep where
  act u others a ok :=
    match a with
    | .call op _ => ok || !op.reg || u.shared.asked op.probe
    | .deferred op => endsAsAsked u.shared others op ok
    | _ => true
  main _ _ := true

/-! ## The running handler -/

/-- The calls a handler still has to make. -/
def Act.todo : Act → List Op
  | .test op rest => op :: rest
  | .inc op rest => op :: rest
  | .call op rest => op :: rest
  | .flag _ rest => rest
  | .dec (.handler rest) => rest
  | .readCleaning (.handler rest) => rest
  | .wakeUp (.handler rest) => rest
  | _ => []

/-- A thread in a handler. -/
def Thread.busy : Thread → Bool
  | .entering _ => true
  | .leaving => true
  | _ => false

/-- The calls `ops` of the last handler, of which `acts` is what is running:
    all of them have been made, or those before a single activation. -/
def Running (busy : Bool) (ops : List Op) (asked : Probe → Bool) : List Act → Prop
  | [] => ∀ op ∈ ops, asked op.probe = op.reg
  | [a] => busy = true ∧ ∃ made, ops = made ++ a.todo ∧
      (∀ op ∈ made, asked op.probe = op.reg) ∧
      ∀ op, a.writes = some op → asked op.probe = op.reg
  | _ => False

theorem of_writes_none {asked : Probe → Bool} {a : Act} (h : a.writes = none) :
    ∀ op, a.writes = some op → asked op.probe = op.reg := by
  intro op hop
  rw [h] at hop
  cases hop

theorem running_startOps {wa7 : Bool} {rest : List Op} {asked : Probe → Bool} (made : List Op)
    (h : ∀ op ∈ made, asked op.probe = op.reg) :
    Running true (made ++ rest) asked ((startOps wa7 rest).filter Act.ofHandler) := by
  cases rest with
  | nil => rw [List.append_nil]; exact h
  | cons op rest => cases wa7 <;> exact ⟨rfl, made, rfl, h, of_writes_none rfl⟩

theorem running_resume {made rest : List Op} {asked : Probe → Bool}
    (h : ∀ op ∈ made, asked op.probe = op.reg) :
    Running true (made ++ rest) asked ((Caller.handler rest).resume.filter Act.ofHandler) :=
  running_startOps made h

theorem nodup_probes (h : Handler) : (h.ops.map Op.probe).Nodup := by
  cases h <;> decide

/-- The next call of the running handler. -/
theorem call_running {wa7 : Bool} {u u' : Shared} {op : Op} {made rest : List Op} {ok : Bool}
    {new : List Act} (hact : act wa7 u (.call op rest) ok = some (u', new))
    (hmade : ∀ op' ∈ made, u.asked op'.probe = op'.reg)
    (hnodup : ((made ++ op :: rest).map Op.probe).Nodup)
    (hfails : ok = true ∨ op.reg = false ∨ u.asked op.probe = true) :
    Running true (made ++ op :: rest) u'.asked (new.filter Act.ofHandler) := by
  have hsnoc : made ++ op :: rest = (made ++ [op]) ++ rest := by simp
  rw [hsnoc]
  simp only [act] at hact
  split at hact
  · -- the call fails, and its probe has been asked to be registered before
    rename_i hfail
    cases hact
    have hasked : ∀ op' ∈ made ++ [op], u.asked op'.probe = op'.reg := by
      intro op' hop'
      rcases List.mem_append.mp hop' with hop' | hop'
      · exact hmade op' hop'
      · rw [List.mem_singleton.mp hop', hfail.1]
        rcases hfails with hok | hreg | hset
        · rw [hfail.2] at hok
          cases hok
        · rw [hfail.1] at hreg
          cases hreg
        · exact hset
    cases wa7 with
    | true => exact ⟨rfl, made ++ [op], rfl, hasked, of_writes_none rfl⟩
    | false => exact running_startOps _ hasked
  · cases hact
    -- the other call of the handler is for the other probe
    have hasked : ∀ op' ∈ made ++ [op],
        Function.update u.asked op.probe op.reg op'.probe = op'.reg := by
      intro op' hop'
      rcases List.mem_append.mp hop' with hop' | hop'
      · have hne : op'.probe ≠ op.probe := by
          rw [List.map_append, List.nodup_append] at hnodup
          exact hnodup.2.2 _ (List.mem_map_of_mem hop') _ (by simp)
        rw [Function.update_of_ne hne]
        exact hmade op' hop'
      · rw [List.mem_singleton.mp hop']
        exact Function.update_self _ _ _
    refine ⟨rfl, made ++ [op], rfl, hasked, fun op' hop' => ?_⟩
    cases hop'
    exact Function.update_self _ _ _

/-- An action of the running handler; `cleaning_up` is 0. -/
theorem act_running {wa7 : Bool} {u u' : Shared} {a : Act} {ok : Bool} {new : List Act}
    {h : Handler} (hact : act wa7 u a ok = some (u', new)) (ha : a.ofHandler = true)
    (hcleaning : u.cleaningUp = false)
    (hfails : ∀ op rest, a = .call op rest → ok = true ∨ op.reg = false ∨ u.asked op.probe = true)
    (hrunning : Running true h.ops u.asked [a]) :
    Running true h.ops u'.asked (new.filter Act.ofHandler) := by
  obtain ⟨-, made, hops, hmade, hwrites⟩ := hrunning
  rw [hops]
  cases a with
  | test op rest =>
      cases hact
      rw [hcleaning]
      exact ⟨rfl, made, rfl, hmade, of_writes_none rfl⟩
  | inc op rest =>
      cases hact
      exact ⟨rfl, made, rfl, hmade, of_writes_none rfl⟩
  | call op rest =>
      have hnodup := nodup_probes h
      rw [hops] at hnodup
      exact call_running hact hmade hnodup (hfails op rest rfl)
  | flag op rest =>
      cases hact
      exact running_startOps _ hmade
  | deferred op => cases ha
  | dec c =>
      cases c with
      | callback => cases ha
      | handler rest =>
          cases hact
          split
          · exact ⟨rfl, made, rfl, hmade, of_writes_none rfl⟩
          · exact running_resume hmade
  | readCleaning c =>
      cases c with
      | callback => cases ha
      | handler rest =>
          cases hact
          rw [hcleaning]
          exact running_resume hmade
  | wakeUp c =>
      cases c with
      | callback => cases ha
      | handler rest =>
          cases hact
          exact running_resume hmade

/-- The other contexts neither ask for anything nor enter a handler. -/
theorem act_others {wa7 : Bool} {u u' : Shared} {a : Act} {ok : Bool} {new : List Act}
    (hact : act wa7 u a ok = some (u', new)) (ha : a.ofHandler = false) :
    u'.asked = u.asked ∧ new.filter Act.ofHandler = [] := by
  cases a with
  | deferred op =>
      simp only [act, Option.some.injEq, Prod.mk.injEq] at hact
      obtain ⟨rfl, rfl⟩ := hact
      cases ok <;> cases wa7 <;> exact ⟨rfl, rfl⟩
  | dec c =>
      cases c with
      | handler rest => cases ha
      | callback =>
          cases hact
          refine ⟨rfl, ?_⟩
          split <;> rfl
  | readCleaning c =>
      cases c with
      | handler rest => cases ha
      | callback =>
          cases hact
          refine ⟨rfl, ?_⟩
          split <;> rfl
  | wakeUp c =>
      cases c with
      | handler rest => cases ha
      | callback =>
          cases hact
          exact ⟨rfl, rfl⟩
  | test op rest => cases ha
  | inc op rest => cases ha
  | call op rest => cases ha
  | flag op rest => cases ha

/-! ## Runs -/

/-- What holds in every state of a run whose steps are as asked. -/
structure PassInv (s : Activations Pass Act) : Prop where
  cleaning : s.shared.shared.cleaningUp = false
  registered : ∀ p, AsAsked Act.carriesOut s.shared.shared.asked s.shared.shared.registered s.acts p
  flag : ∀ p, AsAsked Act.writes s.shared.shared.asked s.shared.shared.flag s.acts p
  running : Running s.shared.thread.busy s.shared.last.ops s.shared.shared.asked
    (s.acts.filter Act.ofHandler)

theorem passInv_init : PassInv passInit where
  cleaning := rfl
  registered _ := Or.inl rfl
  flag _ := Or.inl rfl
  running := by
    show ∀ op ∈ returnHandler, Shared.loaded.asked op.probe = op.reg
    decide

/-- Where the thread is not in a handler nothing of a handler is running. -/
theorem filter_of_not_busy {ops : List Op} {asked : Probe → Bool} {acts : List Act}
    (h : Running false ops asked acts) : acts = [] ∧ ∀ op ∈ ops, asked op.probe = op.reg := by
  match acts, h with
  | [], h => exact ⟨rfl, h⟩
  | [_], h => exact absurd h.1 Bool.noConfusion

/-- An activation of a handler is the only one. -/
theorem running_split {busy : Bool} {ops : List Op} {asked : Probe → Bool}
    {before after : List Act} {a : Act} (ha : a.ofHandler = true)
    (h : Running busy ops asked ((before ++ a :: after).filter Act.ofHandler)) :
    busy = true ∧ (before ++ after).filter Act.ofHandler = [] ∧ Running true ops asked [a] := by
  rw [List.filter_append, List.filter_cons_of_pos ha] at h
  rw [List.filter_append]
  cases hb : before.filter Act.ofHandler with
  | nil =>
      rw [hb] at h
      cases hc : after.filter Act.ofHandler with
      | nil =>
          rw [hc] at h
          exact ⟨h.1, rfl, rfl, h.2⟩
      | cons c rest => rw [hc] at h; exact h.elim
  | cons b rest =>
      rw [hb] at h
      cases rest with
      | nil => exact h.elim
      | cons b' rest => exact h.elim

theorem filter_splice (before new after : List Act) :
    (before ++ new ++ after).filter Act.ofHandler =
      before.filter Act.ofHandler ++ new.filter Act.ofHandler ++ after.filter Act.ofHandler := by
  rw [List.filter_append, List.filter_append]

/-- A step of an activation. -/
theorem passInv_act {wa7 : Bool} {u : Pass} {v : Shared} {before after new : List Act} {a : Act}
    {ok : Bool} (hs : PassInv ⟨u, before ++ a :: after⟩)
    (hact : act wa7 u.shared a ok = some (v, new))
    (hg : asAsked.act u (before ++ after) a ok = true) :
    PassInv ⟨{ u with shared := v }, before ++ new ++ after⟩ := by
  obtain ⟨hcleaning, -, -, -⟩ := act_frame hact
  refine ⟨hcleaning.trans hs.cleaning, fun p => ?_, fun p => ?_, ?_⟩
  · apply (hs.registered p).step (act_registered hact)
    intro op hdue hp
    cases a with
    | deferred op' =>
        cases hdue
        exact asked_of_endsAsAsked hg hp
    | _ => cases hdue
  · -- the handler that writes has made the last call for the probe
    refine (hs.flag p).step (act_flag hact) fun op hdue hp => Or.inl ?_
    have ha : a.ofHandler = true := by
      cases a with
      | flag op' rest => rfl
      | _ => cases hdue
    obtain ⟨-, -, -, made, -, -, hwrites⟩ := running_split ha hs.running
    rw [← hp]
    exact (hwrites op hdue).symm
  · show Running u.thread.busy u.last.ops v.asked ((before ++ new ++ after).filter Act.ofHandler)
    rw [filter_splice]
    cases ha : a.ofHandler with
    | true =>
        obtain ⟨hbusy, hnone, hrunning⟩ := running_split ha hs.running
        rw [List.filter_append, List.append_eq_nil_iff] at hnone
        rw [hnone.1, hnone.2, List.nil_append, List.append_nil,
          show u.thread.busy = true from hbusy]
        refine act_running hact ha hs.cleaning (fun op rest hcall => ?_) hrunning
        rw [hcall] at hg
        simpa [asAsked, or_assoc] using hg
    | false =>
        obtain ⟨hasked, hnone⟩ := act_others hact ha
        have hrunning := hs.running
        dsimp only at hrunning
        rw [List.filter_append, List.filter_cons_of_neg (by rw [ha]; exact Bool.false_ne_true)]
          at hrunning
        rw [hnone, hasked, List.append_nil]
        exact hrunning

/-- The thread enters a handler, from where none is running. -/
theorem PassInv.enters {wa7 : Bool} {u : Pass} {acts : List Act} {thread : Thread} {h : Handler}
    (hs : PassInv ⟨u, acts⟩) (hidle : u.thread.busy = false) (hbusy : thread.busy = true) :
    PassInv ⟨{ u with thread := thread, last := h }, startOps wa7 h.ops ++ acts⟩ := by
  have hsub : ∀ b ∈ acts, b ∈ startOps wa7 h.ops ++ acts := fun b hb =>
    List.mem_append_right _ hb
  have hrunning : Running u.thread.busy _ _ _ := hs.running
  rw [hidle] at hrunning
  refine ⟨hs.cleaning, fun p => (hs.registered p).mono hsub, fun p => (hs.flag p).mono hsub, ?_⟩
  show Running thread.busy h.ops u.shared.asked ((startOps wa7 h.ops ++ acts).filter Act.ofHandler)
  rw [hbusy, List.filter_append, (filter_of_not_busy hrunning).1, List.append_nil]
  exact running_startOps [] fun op hop => absurd hop List.not_mem_nil

/-- The thread moves on where no handler is running. -/
theorem PassInv.moves {u : Pass} {acts : List Act} (thread : Thread) (hs : PassInv ⟨u, acts⟩)
    (hnone : acts.filter Act.ofHandler = []) : PassInv ⟨{ u with thread := thread }, acts⟩ := by
  refine ⟨hs.cleaning, hs.registered, hs.flag, ?_⟩
  have hrunning : Running _ _ _ (acts.filter Act.ofHandler) := hs.running
  show Running _ _ _ (acts.filter Act.ofHandler)
  rw [hnone] at hrunning ⊢
  exact hrunning

/-- A step of the probed thread outside the handlers. -/
theorem passInv_main {wa7 : Bool} {s s' : Activations Pass Act} {m : PassStep} (hs : PassInv s)
    (h : (passes wa7).main s m = some s') : PassInv s' := by
  obtain ⟨u, acts⟩ := s
  have hnone : u.thread.busy = false → acts.filter Act.ofHandler = [] := by
    intro hidle
    have hrunning : Running u.thread.busy _ _ (acts.filter Act.ofHandler) := hs.running
    rw [hidle] at hrunning
    exact (filter_of_not_busy hrunning).1
  have hdone : (acts.all fun a => !a.ofHandler) = true → acts.filter Act.ofHandler = [] := by
    intro hall
    rw [List.filter_eq_nil_iff]
    intro a ha
    have := List.all_eq_true.mp hall a ha
    simpa using this
  simp only [passes] at h
  split at h
  · rename_i hthread
    have hidle : u.thread.busy = false := by rw [hthread]; rfl
    split at h
    · cases h
      exact hs.enters (h := .entry) hidle rfl
    · cases h
      exact hs.moves _ (hnone hidle)
  · split at h
    · rename_i hall
      cases h
      exact hs.moves _ (hdone hall)
    · cases h
  · rename_i hthread
    cases h
    exact hs.enters (h := .ret) (by rw [hthread]; rfl) rfl
  · rename_i hthread
    split at h
    · cases h
    · cases h
      exact hs.moves _ (hnone (by rw [hthread]; rfl))
  · split at h
    · rename_i hall
      cases h
      exact hs.moves _ (hdone hall)
    · cases h
  · cases h

theorem passInv_step {wa7 : Bool} {s s' : Activations Pass Act} (hs : PassInv s)
    (hstep : Step (passes wa7) asAsked s s') : PassInv s' := by
  cases hstep with
  | act h hg =>
      obtain ⟨⟨v, new⟩, hact, heq⟩ := Option.map_eq_some_iff.mp h
      cases heq
      exact passInv_act hs hact hg
  | main h hg => exact passInv_main hs h

/-- What has been asked once a handler is through. -/
theorem asked_of_ops {h : Handler} {asked : Probe → Bool}
    (hasked : ∀ op ∈ h.ops, asked op.probe = op.reg) :
    asked .entry = decide (h = .ret) ∧ asked .ret = decide (h = .entry) := by
  cases h with
  | entry => exact ⟨hasked ⟨.entry, false⟩ (by decide), hasked ⟨.ret, true⟩ (by decide)⟩
  | ret => exact ⟨hasked ⟨.entry, true⟩ (by decide), hasked ⟨.ret, false⟩ (by decide)⟩

/-- In a run whose steps are as asked, between passes and with nothing pending,
    exactly one probe is registered, the flags say which, and it is the one
    whose handler did not run last. -/
theorem oneRegistered_between_passes {wa7 : Bool} {s : Activations Pass Act}
    (h : Reachable (passes wa7) asAsked passInit s) (hthread : s.shared.thread = .outside)
    (hpending : ∀ a ∈ s.acts, ∀ op, a.carriesOut ≠ some op) : OneRegistered s.shared := by
  have hinv := h.invariant passInv_init fun _ _ => passInv_step
  have hrunning := hinv.running
  rw [hthread] at hrunning
  obtain ⟨hnone, hasked⟩ := filter_of_not_busy hrunning
  have hregistered : ∀ p, s.shared.shared.registered p = s.shared.shared.asked p := fun p =>
    (hinv.registered p).resolve_right fun ⟨a, ha, hdue⟩ => hpending a ha _ hdue
  have hflag : ∀ p, s.shared.shared.flag p = s.shared.shared.asked p := by
    refine fun p => (hinv.flag p).resolve_right fun ⟨a, ha, hdue⟩ => ?_
    -- only a handler writes a flag
    have hof := List.filter_eq_nil_iff.mp hnone a ha
    cases a with
    | flag op rest => exact hof rfl
    | _ => cases hdue
  obtain ⟨hentry, hret⟩ := asked_of_ops hasked
  refine ⟨?_, fun p => (hflag p).trans (hregistered p).symm, ?_⟩
  · rw [hregistered, hregistered, hentry, hret]
    cases s.shared.last with
    | entry => rfl
    | ret => rfl
  · rw [hregistered, hentry]
    exact decide_eq_true_iff

/-- After a pass of pong.c in which the entry handler's calls are carried out. -/
theorem oneRegistered_after_swap : ∃ s, Reachable (passes false) asAsked passInit s ∧
    OneRegistered s.shared ∧ s.shared.last = .entry := by
  obtain ⟨s, hrun, hs⟩ := exists_reachable_of_execAll (S := passes false) (G := asAsked)
    (s := passInit)
    [.main .call, .act 0 true, .act 0 true, .act 0 true, .act 0 true, .main .entered,
      .act 0 true, .act 0 true, .main (.ret false)]
    (fun s => s.acts.isEmpty && s.shared.thread = .outside && s.shared.last = .entry) (by decide)
  simp only [Bool.and_eq_true, List.isEmpty_iff, decide_eq_true_eq] at hs
  obtain ⟨⟨hacts, hthread⟩, hlast⟩ := hs
  refine ⟨s, hrun, oneRegistered_between_passes hrun hthread ?_, hlast⟩
  rw [hacts]
  exact fun a ha => absurd ha List.not_mem_nil

/-- A run that ends between passes with no probe registered. -/
theorem not_oneRegistered_of_run {wa7 : Bool} (h : ∃ s, Reachable (passes wa7) .all passInit s ∧
      (s.acts.isEmpty && s.shared.thread = .outside && !s.shared.shared.registered .entry &&
        !s.shared.shared.registered .ret) = true) :
    ∃ s, Reachable (passes wa7) .all passInit s ∧ s.shared.thread = .outside ∧ s.acts = [] ∧
      ¬ OneRegistered s.shared := by
  obtain ⟨s, hrun, hs⟩ := h
  simp only [Bool.and_eq_true, List.isEmpty_iff, decide_eq_true_eq, Bool.not_eq_true'] at hs
  obtain ⟨⟨⟨hacts, hthread⟩, hentry⟩, hret⟩ := hs
  refine ⟨s, hrun, hthread, hacts, fun hregistered => ?_⟩
  have hone := hregistered.one
  rw [hentry, hret] at hone
  cases hone

/-- Registering the return probe fails at once: the entry handler unregisters
    its own probe all the same, in pong.c and in pong_wa7.c. -/
theorem noneRegistered_after_failure :
    (∃ s, Reachable (passes false) .all passInit s ∧ s.shared.thread = .outside ∧ s.acts = [] ∧
      ¬ OneRegistered s.shared) ∧
    ∃ s, Reachable (passes true) .all passInit s ∧ s.shared.thread = .outside ∧ s.acts = [] ∧
      ¬ OneRegistered s.shared := by
  constructor
  · exact not_oneRegistered_of_run (exists_reachable_of_execAll
      [.main .call, .act 0 false, .act 0 true, .act 0 true, .main .entered, .act 0 true,
        .main (.ret false)] _ (by decide))
  · -- the same run, in which `cleaning_up` is also read and the calls counted
    exact not_oneRegistered_of_run (exists_reachable_of_execAll
      [.main .call, .act 0 true, .act 0 true, .act 0 false, .act 0 true, .act 0 true,
        .act 0 true, .act 0 true, .act 0 true, .act 0 true, .main .entered, .act 0 true,
        .act 0 true, .act 0 true, .main (.ret false)] _ (by decide))

end Pong

end UprobeTests
