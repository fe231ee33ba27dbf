/-
  UprobeTests.PongWa7

  What pong_wa7.c's counter and its `wait_event` are good for, over every
  interleaving of handlers, deferred calls, callbacks and `cleanup_module`.

  The counter is exact and no wake-up is lost (`pendingRegs_exact`).  That
  `cleanup_module` leaves nothing behind holds in the runs whose steps meet
  `inOrder`: the counter says nothing of a deferred call that fails, of flags
  written in another order than the calls were made, or of a handler between
  its test of `cleaning_up` and its increment (`cleanup_leaves_nothing`).
-/

import UprobeTests.Pong

namespace UprobeTests

namespace Pong

open Activations

/-- pong_wa7.c. -/
def pongWa7 : System Shared Act Bool Main where
  act := act true
  main s m :=
    match m with
    | .enter h => some ⟨s.shared, startOps true h.ops ++ s.acts⟩
    | .cleanup => (cleanupModule s.shared).map fun u => ⟨u, s.acts⟩

/-- Loaded, and nothing going on. -/
def init : Activations Shared Act := ⟨.loaded, []⟩

/-! ## The counter -/

/-- A handler that has incremented the counter, and whose call has not been
    made or has failed and is not yet accounted. -/
def Act.notHandedOver : Act → Bool
  | .call _ _ => true
  | .dec (.handler _) => true
  | _ => false

/-- A deferred call whose callback has not decremented the counter. -/
def Act.callbackDue : Act → Bool
  | .deferred _ => true
  | .dec .callback => true
  | _ => false

/-- An activation of `pending_reg_done` that has still to issue its `wake_up`. -/
def Act.willWake (cleaningUp : Bool) : Act → Bool
  | .readCleaning _ => cleaningUp
  | .wakeUp _ => true
  | _ => false

/-- What an activation has added to the counter. -/
def Act.owes (a : Act) : Int := if a.notHandedOver || a.callbackDue then 1 else 0

/-- What is at stake while `cleanup_module` waits. -/
structure CountInv (s : Activations Shared Act) : Prop where
  count : s.shared.pendingRegs = (s.acts.map Act.owes).sum
  cleaning : s.shared.cleanup ≠ .notCalled → s.shared.cleaningUp = true
  wake : s.shared.cleanup = .sleep → s.shared.onQueue = true → s.shared.pendingRegs = 0 →
    ∃ a ∈ s.acts, a.willWake s.shared.cleaningUp = true

theorem owes_nonneg (a : Act) : 0 ≤ a.owes := by
  rw [Act.owes]
  split
  · exact Int.zero_le_ofNat 1
  · exact Int.le_refl 0

theorem sum_owes_nonneg (acts : List Act) : 0 ≤ (acts.map Act.owes).sum := by
  induction acts with
  | nil => exact Int.le_refl 0
  | cons a acts ih =>
      rw [List.map_cons, List.sum_cons]
      exact Int.add_nonneg (owes_nonneg a) ih

theorem owes_startOps (ops : List Op) : ((startOps true ops).map Act.owes).sum = 0 := by
  cases ops with
  | nil => rfl
  | cons op rest => rfl

theorem owes_resume (c : Caller) : (c.resume.map Act.owes).sum = 0 := by
  cases c with
  | handler rest => exact owes_startOps rest
  | callback => rfl

/-- The counter follows what the activations owe, on each of its five paths. -/
theorem act_owes {u u' : Shared} {a : Act} {ok : Bool} {new : List Act}
    (h : act true u a ok = some (u', new)) :
    u'.pendingRegs + a.owes = u.pendingRegs + (new.map Act.owes).sum := by
  cases a with
  | test op rest =>
      simp only [act, Option.some.injEq, Prod.mk.injEq] at h
      obtain ⟨rfl, rfl⟩ := h
      split <;> rfl
  | inc op rest =>
      simp only [act, Option.some.injEq, Prod.mk.injEq] at h
      obtain ⟨rfl, rfl⟩ := h
      exact Int.add_zero _
  | call op rest =>
      -- a failed call is still owed, a deferred one by its callback
      simp only [act] at h
      split at h
      · simp only [if_true, Option.some.injEq, Prod.mk.injEq] at h
        obtain ⟨rfl, rfl⟩ := h
        rfl
      · simp only [Option.some.injEq, Prod.mk.injEq] at h
        obtain ⟨rfl, rfl⟩ := h
        rfl
  | flag op rest =>
      simp only [act, Option.some.injEq, Prod.mk.injEq] at h
      obtain ⟨rfl, rfl⟩ := h
      rw [owes_startOps]
      rfl
  | deferred op =>
      simp only [act, if_true, Option.some.injEq, Prod.mk.injEq] at h
      obtain ⟨rfl, rfl⟩ := h
      split <;> rfl
  | dec c =>
      simp only [act, Option.some.injEq, Prod.mk.injEq] at h
      obtain ⟨rfl, rfl⟩ := h
      have howes : (Act.dec c).owes = 1 := by cases c <;> rfl
      have hnew : ((if u.pendingRegs - 1 = 0 then [Act.readCleaning c]
          else c.resume).map Act.owes).sum = 0 := by
        split
        · rfl
        · exact owes_resume c
      rw [howes, hnew, Int.add_zero]
      exact Int.sub_add_cancel _ _
  | readCleaning c =>
      simp only [act, Option.some.injEq, Prod.mk.injEq] at h
      obtain ⟨rfl, rfl⟩ := h
      split
      · rfl
      · rw [owes_resume]
        rfl
  | wakeUp c =>
      simp only [act, Option.some.injEq, Prod.mk.injEq] at h
      obtain ⟨rfl, rfl⟩ := h
      rw [owes_resume]
      rfl

/-- A decrement to 0 leaves somebody who will issue a `wake_up`, and whoever
    was about to still is, or has done it. -/
theorem act_wake {u u' : Shared} {a : Act} {ok : Bool} {new : List Act}
    (h : act true u a ok = some (u', new)) (hnonneg : 0 ≤ u.pendingRegs)
    (hcleaning : u.cleaningUp = true) (hqueue : u'.onQueue = true) (hzero : u'.pendingRegs = 0) :
    (∃ b ∈ new, b.willWake true = true) ∨ (u.pendingRegs = 0 ∧ a.willWake true = false) := by
  cases a with
  | test op rest => cases h; exact Or.inr ⟨hzero, rfl⟩
  | inc op rest =>
      cases h
      have : u.pendingRegs + 1 = 0 := hzero
      omega
  | call op rest =>
      simp only [act] at h
      split at h
      · cases h; exact Or.inr ⟨hzero, rfl⟩
      · cases h; exact Or.inr ⟨hzero, rfl⟩
  | flag op rest => cases h; exact Or.inr ⟨hzero, rfl⟩
  | deferred op =>
      cases h
      split at hzero
      · exact Or.inr ⟨hzero, rfl⟩
      · exact Or.inr ⟨hzero, rfl⟩
  | dec c =>
      cases h
      have hdec : u.pendingRegs - 1 = 0 := hzero
      rw [if_pos hdec]
      exact Or.inl ⟨_, List.mem_singleton_self _, rfl⟩
  | readCleaning c =>
      cases h
      rw [if_pos hcleaning]
      exact Or.inl ⟨_, List.mem_singleton_self _, rfl⟩
  | wakeUp c =>
      cases h
      exact Bool.noConfusion hqueue

/-- `cleanup_module` only reads the counter, and it goes to sleep only after
    it has set `cleaning_up` and read that something is pending. -/
theorem cleanupModule_count {u u' : Shared} (h : cleanupModule u = some u') :
    u'.pendingRegs = u.pendingRegs ∧
      (u'.cleaningUp = true ∨ (u'.cleaningUp = u.cleaningUp ∧ u.cleanup ≠ .notCalled)) ∧
      (u'.cleanup = .sleep → u'.pendingRegs ≠ 0) := by
  rw [cleanupModule] at h
  split at h
  · cases h
    exact ⟨rfl, Or.inl rfl, fun h => Cleanup.noConfusion h⟩
  · rename_i hc
    cases h
    refine ⟨rfl, Or.inr ⟨rfl, by rw [hc]; exact Cleanup.noConfusion⟩, fun h => ?_⟩
    dsimp only at h
    split at h <;> cases h
  · rename_i hc
    cases h
    exact ⟨rfl, Or.inr ⟨rfl, by rw [hc]; exact Cleanup.noConfusion⟩,
      fun h => Cleanup.noConfusion h⟩
  · rename_i hc
    -- the second look at the counter
    split at h
    · cases h
      exact ⟨rfl, Or.inr ⟨rfl, by rw [hc]; exact Cleanup.noConfusion⟩,
        fun h => Cleanup.noConfusion h⟩
    · rename_i hpending
      cases h
      exact ⟨rfl, Or.inr ⟨rfl, by rw [hc]; exact Cleanup.noConfusion⟩, fun _ => hpending⟩
  · rename_i hc
    split at h
    · cases h
    · cases h
      exact ⟨rfl, Or.inr ⟨rfl, by rw [hc]; exact Cleanup.noConfusion⟩,
        fun h => Cleanup.noConfusion h⟩
  · rename_i p hc
    cases h
    refine ⟨rfl, Or.inr ⟨rfl, by rw [hc]; exact Cleanup.noConfusion⟩, fun h => ?_⟩
    dsimp only at h
    split at h
    · cases h
    · cases p <;> cases h
  · rename_i p hc
    cases h
    refine ⟨rfl, Or.inr ⟨rfl, by rw [hc]; exact Cleanup.noConfusion⟩, fun h => ?_⟩
    cases p <;> cases h
  · cases h

theorem countInv_init : CountInv init := ⟨rfl, fun h => absurd rfl h, fun h => nomatch h⟩

theorem countInv_step {G : Guard Shared Act Bool Main} {s s' : Activations Shared Act}
    (hs : CountInv s) (hstep : Step pongWa7 G s s') : CountInv s' := by
  cases hstep with
  | @act u before a after ok u' new h hg =>
      obtain ⟨hcleaning, hcleanup, -, hqueue⟩ := act_frame h
      have hnonneg : 0 ≤ u.pendingRegs := by
        rw [hs.count]
        exact sum_owes_nonneg _
      refine ⟨?_, ?_, ?_⟩
      · have hcount : u.pendingRegs = _ := hs.count
        have howes := act_owes h
        rw [sum_step Act.owes before after new a]
        dsimp only at hcount ⊢
        omega
      · dsimp only
        rw [hcleaning, hcleanup]
        exact hs.cleaning
      · dsimp only
        intro hsleep hqueued hzero
        rw [hcleanup] at hsleep
        have hup : u.cleaningUp = true := hs.cleaning (by rw [hsleep]; exact Cleanup.noConfusion)
        rw [hcleaning, hup]
        rcases act_wake h hnonneg hup hqueued hzero with ⟨b, hb, hwake⟩ | ⟨hzero', ha⟩
        · exact ⟨b, mem_new_iff.mpr (Or.inl hb), hwake⟩
        · -- somebody else was about to
          obtain ⟨b, hb, hwake⟩ := hs.wake hsleep (hqueue hqueued) hzero'
          rcases mem_acts_iff.mp hb with rfl | hb
          · rw [show (Activations.mk u _).shared.cleaningUp = true from hup, ha] at hwake
            cases hwake
          · rw [show (Activations.mk u _).shared.cleaningUp = true from hup] at hwake
            exact ⟨b, mem_new_iff.mpr (Or.inr hb), hwake⟩
  | @main s m s' h hg =>
      cases m with
      | enter hd =>
          obtain rfl : _ = s' := Option.some.inj h
          refine ⟨?_, hs.cleaning, fun hsleep hqueued hzero => ?_⟩
          · rw [List.map_append, List.sum_append, owes_startOps, Int.zero_add]
            exact hs.count
          · obtain ⟨b, hb, hwake⟩ := hs.wake hsleep hqueued hzero
            exact ⟨b, List.mem_append_right _ hb, hwake⟩
      | cleanup =>
          obtain ⟨u', hu, rfl⟩ := Option.map_eq_some_iff.mp h
          obtain ⟨hpending, hcleaning, hsleep⟩ := cleanupModule_count hu
          refine ⟨hpending.trans hs.count, fun _ => ?_, fun h hqueued hzero => ?_⟩
          · rcases hcleaning with hup | ⟨hsame, hcalled⟩
            · exact hup
            · exact hsame.trans (hs.cleaning hcalled)
          · exact absurd hzero (hsleep h)

/-- In every reachable state `pending_regs` is the number of handlers that
    have incremented it for a call not yet made or failed and not yet
    accounted, plus the number of deferred calls whose callback has not yet
    decremented it; and `cleanup_module` does not sleep with `pending_regs` 0
    unless somebody has still to issue a `wake_up`. -/
theorem pendingRegs_exact {s : Activations Shared Act} (h : Reachable pongWa7 .all init s) :
    0 ≤ s.shared.pendingRegs ∧
      s.shared.pendingRegs = s.acts.countP Act.notHandedOver + s.acts.countP Act.callbackDue ∧
      (s.shared.cleanup = .sleep → s.shared.onQueue = true → s.shared.pendingRegs = 0 →
        ∃ a ∈ s.acts, a.willWake s.shared.cleaningUp = true) := by
  have hinv := h.invariant countInv_init fun _ _ => countInv_step
  refine ⟨?_, ?_, hinv.wake⟩
  · rw [hinv.count]
    exact sum_owes_nonneg _
  · rw [hinv.count]
    induction s.acts with
    | nil => rfl
    | cons a acts ih =>
        rw [List.map_cons, List.sum_cons, ih, List.countP_cons, List.countP_cons]
        -- nobody owes twice
        cases a with
        | dec c => cases c <;> simp [Act.owes, Act.notHandedOver, Act.callbackDue] <;> omega
        | call op rest => simp [Act.owes, Act.notHandedOver, Act.callbackDue]; omega
        | deferred op => simp [Act.owes, Act.notHandedOver, Act.callbackDue]; omega
        | test op rest => simp [Act.owes, Act.notHandedOver, Act.callbackDue]
        | inc op rest => simp [Act.owes, Act.notHandedOver, Act.callbackDue]
        | flag op rest => simp [Act.owes, Act.notHandedOver, Act.callbackDue]
        | readCleaning c => simp [Act.owes, Act.notHandedOver, Act.callbackDue]
        | wakeUp c => simp [Act.owes, Act.notHandedOver, Act.callbackDue]

/-- One handler has counted and not yet called, and `cleanup_module` sleeps. -/
theorem pendingRegs_exact_asleep : ∃ s, Reachable pongWa7 .all init s ∧
    s.shared.cleanup = .sleep ∧
    s.shared.pendingRegs = s.acts.countP Act.notHandedOver + s.acts.countP Act.callbackDue := by
  obtain ⟨s, hs, hsleep⟩ := exists_reachable_of_execAll (S := pongWa7) (G := .all) (s := init)
    [.main (.enter .entry), .act 0 true, .act 0 true, .main .cleanup, .main .cleanup,
      .main .cleanup, .main .cleanup] (fun s => s.shared.cleanup == .sleep) (by decide)
  exact ⟨s, hs, by simpa using hsleep, (pendingRegs_exact hs).2.1⟩

/-! ## What cleanup_module leaves -/

/-- A handler between its test of `cleaning_up` and its increment. -/
def Act.aboutToCount : Act → Bool
  | .inc _ _ => true
  | _ => false

/-- The condition on a step of a run: a deferred call leaves its probe as it
    was last asked to be, or another call that does is still deferred; the same
    of the writes to the flags; `wait_event` does not find the counter at 0
    while a handler is about to increment it; and `cleanup_module` does not
    test a flag that a handler is about to write. -/
def inOrder : Guard Shared Act Bool Main where
  act u others a ok :=
    match a with
    | .deferred op => endsAsAsked u others op ok
    | .flag op _ =>
        op.reg = u.asked op.probe ||
          others.any fun b => b.writes = some ⟨op.probe, u.asked op.probe⟩
    | _ => true
  main s m :=
    match m, s.shared.cleanup with
    | .cleanup, .test => s.shared.pendingRegs ≠ 0 || s.acts.all fun b => !b.aboutToCount
    | .cleanup, .recheck => s.shared.pendingRegs ≠ 0 || s.acts.all fun b => !b.aboutToCount
    | .cleanup, .readFlag p => s.acts.all fun b => b.writes.all fun op => op.probe ≠ p
    | _, _ => true

/-- The flag of the probe has not been tested yet. -/
def Cleanup.toCome : Cleanup → Probe → Bool
  | .unregister .entry, p => p = .ret
  | .readFlag .ret, p => p = .ret
  | .unregister .ret, _ => false
  | .returned, _ => false
  | _, _ => true

/-- `cleanup_module` is done with the probe. -/
def Cleanup.gone : Cleanup → Probe → Bool
  | .readFlag .ret, p => p = .entry
  | .unregister .ret, p => p = .entry
  | .returned, _ => true
  | _, _ => false

/-- The `wait_event` is over. -/
def Cleanup.waited : Cleanup → Bool
  | .readFlag _ => true
  | .unregister _ => true
  | .returned => true
  | _ => false

/-- An activation that will call nothing once `cleaning_up` is set. -/
def Act.quiet : Act → Bool
  | .test _ _ => true
  | .flag _ _ => true
  | .readCleaning _ => true
  | .wakeUp _ => true
  | _ => false

/-- What carries a run in order to the end of `cleanup_module`. -/
structure OrderInv (s : Activations Shared Act) : Prop where
  counted : CountInv s
  registered : ∀ p, s.shared.cleanup.toCome p = true →
    AsAsked Act.carriesOut s.shared.asked s.shared.registered s.acts p
  flag : ∀ p, s.shared.cleanup.toCome p = true →
    AsAsked Act.writes s.shared.asked s.shared.flag s.acts p
  quiet : s.shared.cleanup.waited = true → ∀ a ∈ s.acts, a.quiet = true
  visited : ∀ p, s.shared.cleanup = .unregister p → s.shared.registered p = true
  gone : ∀ p, s.shared.cleanup.gone p = true → s.shared.registered p = false
  calls : ∀ c ∈ s.shared.unregisterCalls, c.2 = true

theorem orderInv_init : OrderInv init where
  counted := countInv_init
  registered _ _ := Or.inl rfl
  flag _ _ := Or.inl rfl
  quiet h := nomatch h
  visited _ h := nomatch h
  gone _ h := nomatch h
  calls _ h := absurd h List.not_mem_nil

theorem quiet_startOps (ops : List Op) : ∀ a ∈ startOps true ops, a.quiet = true := by
  cases ops with
  | nil => exact fun a h => nomatch h
  | cons op rest =>
      intro a h
      rw [List.mem_singleton.mp h]
      rfl

theorem quiet_resume (c : Caller) : ∀ a ∈ c.resume, a.quiet = true := by
  cases c with
  | handler rest => exact quiet_startOps rest
  | callback => exact fun a h => nomatch h

/-- Once `cleaning_up` is set a quiet activation stays so, asks for nothing
    and carries out nothing. -/
theorem act_quiet {u u' : Shared} {a : Act} {ok : Bool} {new : List Act}
    (h : act true u a ok = some (u', new)) (hcleaning : u.cleaningUp = true)
    (ha : a.quiet = true) :
    (∀ b ∈ new, b.quiet = true) ∧ u'.registered = u.registered := by
  cases a with
  | test op rest =>
      cases h
      rw [if_pos hcleaning]
      exact ⟨fun _ hb => absurd hb List.not_mem_nil, rfl⟩
  | flag op rest =>
      cases h
      exact ⟨quiet_startOps rest, rfl⟩
  | readCleaning c =>
      cases h
      rw [if_pos hcleaning]
      exact ⟨fun b hb => by rw [List.mem_singleton.mp hb]; rfl, rfl⟩
  | wakeUp c =>
      cases h
      exact ⟨quiet_resume c, rfl⟩
  | inc op rest => cases ha
  | call op rest => cases ha
  | deferred op => cases ha
  | dec c => cases ha

theorem not_notCalled_of_waited {c : Cleanup} (h : c.waited = true) : c ≠ .notCalled := by
  rintro rfl
  cases h

theorem waited_of_gone {c : Cleanup} {p : Probe} (h : c.gone p = true) : c.waited = true := by
  cases c with
  | readFlag p => rfl
  | unregister p => rfl
  | returned => rfl
  | notCalled => cases h
  | test => cases h
  | prepare => cases h
  | recheck => cases h
  | sleep => cases h

/-- The guard on a deferred call, for the probe it is about. -/
theorem inOrder_deferred {u : Shared} {others : List Act} {a : Act} {ok : Bool} {p : Probe}
    (hg : inOrder.act u others a ok = true) (op : Op) (hdue : a.carriesOut = some op)
    (hp : op.probe = p) : (if ok then op.reg else u.registered op.probe) = u.asked p ∨
      ∃ b ∈ others, b.carriesOut = some ⟨p, u.asked p⟩ := by
  cases a with
  | deferred op' =>
      cases hdue
      exact asked_of_endsAsAsked hg hp
  | _ => cases hdue

/-- The guard on the write of a flag. -/
theorem inOrder_flag {u : Shared} {others : List Act} {a : Act} {ok : Bool} {p : Probe}
    (hg : inOrder.act u others a ok = true) (op : Op) (hdue : a.writes = some op)
    (hp : op.probe = p) :
    op.reg = u.asked p ∨ ∃ b ∈ others, b.writes = some ⟨p, u.asked p⟩ := by
  cases a with
  | flag op' rest =>
      cases hdue
      subst hp
      simpa [inOrder] using hg
  | _ => cases hdue

/-- A step of an activation. -/
theorem orderInv_act {u u' : Shared} {before after new : List Act} {a : Act} {ok : Bool}
    (hs : OrderInv ⟨u, before ++ a :: after⟩) (h : act true u a ok = some (u', new))
    (hg : inOrder.act u (before ++ after) a ok = true) :
    OrderInv ⟨u', before ++ new ++ after⟩ := by
  obtain ⟨-, hcleanup, hcalls, -⟩ := act_frame h
  have hquiet : u.cleanup.waited = true →
      (∀ b ∈ new, b.quiet = true) ∧ u'.registered = u.registered := fun hw =>
    act_quiet h (hs.counted.cleaning (not_notCalled_of_waited hw))
      (hs.quiet hw a (mem_acts_iff.mpr (Or.inl rfl)))
  refine ⟨countInv_step (G := .all) hs.counted (.act h rfl), ?_, ?_, ?_, ?_, ?_, ?_⟩
  · intro p hp
    dsimp only at hp
    rw [hcleanup] at hp
    exact (hs.registered p hp).step (act_registered h) (inOrder_deferred hg)
  · intro p hp
    dsimp only at hp
    rw [hcleanup] at hp
    exact (hs.flag p hp).step (act_flag h) (inOrder_flag hg)
  · intro hw
    dsimp only at hw
    rw [hcleanup] at hw
    exact forall_acts_step (hs.quiet hw) (fun _ => (hquiet hw).1) fun _ _ hb => hb
  · intro p hp
    dsimp only at hp ⊢
    rw [hcleanup] at hp
    rw [(hquiet (by rw [hp]; rfl)).2]
    exact hs.visited p hp
  · intro p hp
    dsimp only at hp ⊢
    rw [hcleanup] at hp
    rw [(hquiet (waited_of_gone hp)).2]
    exact hs.gone p hp
  · dsimp only
    rw [hcalls]
    exact hs.calls

/-- With the counter at 0 nothing is owed. -/
theorem owes_eq_zero_of_sum {acts : List Act} (h : (acts.map Act.owes).sum = 0) :
    ∀ a ∈ acts, a.owes = 0 := by
  induction acts with
  | nil => exact fun a ha => absurd ha List.not_mem_nil
  | cons a acts ih =>
      rw [List.map_cons, List.sum_cons] at h
      have ha := owes_nonneg a
      have hacts := sum_owes_nonneg acts
      exact List.forall_mem_cons.mpr ⟨by omega, ih (by omega)⟩

/-- The `wait_event` ends with nobody left who will call anything. -/
theorem quiet_of_zero {s : Activations Shared Act} (hs : CountInv s)
    (hzero : s.shared.pendingRegs = 0)
    (hg : s.shared.pendingRegs ≠ 0 || s.acts.all fun b => !b.aboutToCount) :
    ∀ a ∈ s.acts, a.quiet = true := by
  intro a ha
  have howes := owes_eq_zero_of_sum (hs.count.symm.trans hzero) a ha
  have hcount : a.aboutToCount = false := by
    simp only [hzero, ne_eq, not_true_eq_false, decide_false, Bool.false_or, List.all_eq_true,
      Bool.not_eq_true'] at hg
    exact hg a ha
  cases a with
  | test op rest => rfl
  | flag op rest => rfl
  | readCleaning c => rfl
  | wakeUp c => rfl
  | inc op rest => cases hcount
  | call op rest => cases howes
  | deferred op => cases howes
  | dec c => cases c <;> cases howes

/-- While `cleanup_module` waits, its steps touch nothing of the probes. -/
theorem OrderInv.waits {u : Shared} {acts : List Act} {onQueue cleaningUp : Bool} {c : Cleanup}
    (hs : OrderInv ⟨u, acts⟩) (hold : u.cleanup.waited = false)
    (hcounted : CountInv ⟨{ u with cleaningUp := cleaningUp, onQueue := onQueue, cleanup := c },
      acts⟩)
    (hnew : c.waited = false ∨ c = .readFlag .entry ∧ ∀ a ∈ acts, a.quiet = true) :
    OrderInv ⟨{ u with cleaningUp := cleaningUp, onQueue := onQueue, cleanup := c }, acts⟩ := by
  have htoCome : ∀ p, u.cleanup.toCome p = true := by
    intro p
    cases hc : u.cleanup with
    | readFlag p' => rw [hc] at hold; cases hold
    | unregister p' => rw [hc] at hold; cases hold
    | returned => rw [hc] at hold; cases hold
    | _ => rfl
  have hgone : ∀ p, c.gone p = true → u.registered p = false := by
    intro p hp
    rcases hnew with hnew | ⟨rfl, -⟩
    · rw [waited_of_gone hp] at hnew
      cases hnew
    · cases hp
  refine ⟨hcounted, fun p _ => hs.registered p (htoCome p), fun p _ => hs.flag p (htoCome p),
    fun hw => ?_, fun p hp => ?_, hgone, hs.calls⟩
  · rcases hnew with hnew | ⟨-, hquiet⟩
    · rw [show c.waited = true from hw] at hnew
      cases hnew
    · exact hquiet
  · rcases hnew with hnew | ⟨rfl, -⟩
    · rw [show c = .unregister p from hp] at hnew
      cases hnew
    · cases hp

/-- At the test of a flag that nobody is about to write, the flag is right. -/
theorem OrderInv.flag_eq_registered {u : Shared} {acts : List Act} {p : Probe}
    (hs : OrderInv ⟨u, acts⟩) (hc : u.cleanup = .readFlag p)
    (hg : acts.all fun b => b.writes.all fun op => op.probe ≠ p) :
    u.flag p = u.registered p := by
  have hw : u.cleanup.waited = true := by rw [hc]; rfl
  have hp : u.cleanup.toCome p = true := by rw [hc]; cases p <;> rfl
  have hregistered : u.registered p = u.asked p := by
    apply (hs.registered p hp).resolve_right
    rintro ⟨b, hb, hdue⟩
    have hquiet := hs.quiet hw b hb
    cases b with
    | deferred op => cases hquiet
    | _ => cases hdue
  have hflag : u.flag p = u.asked p := by
    apply (hs.flag p hp).resolve_right
    rintro ⟨b, hb, hdue⟩
    have := List.all_eq_true.mp hg b hb
    rw [hdue] at this
    simp at this
  rw [hregistered, hflag]

theorem toCome_unregister {p q : Probe} (h : (Cleanup.unregister p).toCome q = true) :
    (Cleanup.readFlag p).toCome q = true := by
  cases p <;> cases q <;> first | rfl | cases h

theorem toCome_after {p q : Probe} (h : (Cleanup.after p).toCome q = true) :
    (Cleanup.unregister p).toCome q = true ∧ q ≠ p := by
  cases p <;> cases q <;> first | exact ⟨rfl, Probe.noConfusion⟩ | cases h

theorem gone_unregister {p q : Probe} :
    (Cleanup.unregister p).gone q = (Cleanup.readFlag p).gone q := by
  cases p <;> cases q <;> rfl

theorem gone_after {p q : Probe} (h : (Cleanup.after p).gone q = true) :
    q = p ∨ (Cleanup.unregister p).gone q = true := by
  cases p <;> cases q <;> first | exact Or.inl rfl | exact Or.inr rfl | cases h

/-- The test of a flag. -/
theorem OrderInv.readsFlag {u : Shared} {acts : List Act} {p : Probe} (hs : OrderInv ⟨u, acts⟩)
    (hc : u.cleanup = .readFlag p) (hg : acts.all fun b => b.writes.all fun op => op.probe ≠ p)
    (hcounted : CountInv
      ⟨{ u with cleanup := if u.flag p then .unregister p else .after p }, acts⟩) :
    OrderInv ⟨{ u with cleanup := if u.flag p then .unregister p else .after p }, acts⟩ := by
  have hflag := hs.flag_eq_registered hc hg
  have hquiet := hs.quiet (by rw [hc]; rfl)
  by_cases hset : u.flag p = true
  · -- the flag says registered, and it is right
    simp only [hset, if_true] at hcounted ⊢
    refine ⟨hcounted, fun q hq => ?_, fun q hq => ?_, fun _ => hquiet, fun q hq => ?_,
      fun q hq => ?_, hs.calls⟩
    · exact hs.registered q (by rw [hc]; exact toCome_unregister hq)
    · exact hs.flag q (by rw [hc]; exact toCome_unregister hq)
    · obtain rfl : p = q := Cleanup.unregister.inj hq
      exact hflag.symm.trans hset
    · exact hs.gone q (by rw [hc, ← gone_unregister]; exact hq)
  · simp only [hset, if_false, Bool.false_eq_true] at hcounted ⊢
    refine ⟨hcounted, fun q hq => ?_, fun q hq => ?_, fun _ => hquiet, fun q hq => ?_,
      fun q hq => ?_, hs.calls⟩
    · exact hs.registered q (by rw [hc]; exact toCome_unregister (toCome_after hq).1)
    · exact hs.flag q (by rw [hc]; exact toCome_unregister (toCome_after hq).1)
    · cases p <;> cases hq
    · rcases gone_after hq with rfl | hgone
      · exact hflag.symm.trans (Bool.eq_false_iff.mpr hset)
      · exact hs.gone q (by rw [hc, ← gone_unregister]; exact hgone)

/-- The unregister call after a flag that is set. -/
theorem OrderInv.unregisters {u : Shared} {acts : List Act} {p : Probe} (hs : OrderInv ⟨u, acts⟩)
    (hc : u.cleanup = .unregister p)
    (hcounted : CountInv ⟨{ u with
      registered := Function.update u.registered p false
      unregisterCalls := u.unregisterCalls ++ [(p, u.registered p)]
      cleanup := .after p }, acts⟩) :
    OrderInv ⟨{ u with
      registered := Function.update u.registered p false
      unregisterCalls := u.unregisterCalls ++ [(p, u.registered p)]
      cleanup := .after p }, acts⟩ := by
  have hvisited := hs.visited p hc
  refine ⟨hcounted, fun q hq => ?_, fun q hq => ?_, fun _ => hs.quiet (by rw [hc]; rfl),
    fun q hq => ?_, fun q hq => ?_, fun c hcall => ?_⟩
  · have hold := hs.registered q (by rw [hc]; exact (toCome_after hq).1)
    rw [AsAsked]
    dsimp only
    rw [Function.update_of_ne (toCome_after hq).2]
    exact hold
  · exact hs.flag q (by rw [hc]; exact (toCome_after hq).1)
  · cases p <;> cases hq
  · by_cases hqp : q = p
    · subst hqp
      exact Function.update_self _ _ _
    · have hgone := (gone_after hq).resolve_left hqp
      refine (Function.update_of_ne hqp _ _).trans (hs.gone q ?_)
      rw [hc]
      exact hgone
  · rcases List.mem_append.mp hcall with hold | hnew
    · exact hs.calls c hold
    · rw [List.mem_singleton.mp hnew]
      exact hvisited

/-- A step of `cleanup_module`. -/
theorem orderInv_cleanup {u u' : Shared} {acts : List Act} (hs : OrderInv ⟨u, acts⟩)
    (h : cleanupModule u = some u') (hg : inOrder.main ⟨u, acts⟩ .cleanup = true) :
    OrderInv ⟨u', acts⟩ := by
  have hcounted : CountInv ⟨u', acts⟩ := countInv_step (G := .all) hs.counted
    (.main (m := .cleanup) (by simp [pongWa7, h]) rfl)
  simp only [inOrder] at hg
  rw [cleanupModule] at h
  split at h
  · rename_i hc
    cases h
    exact hs.waits (by rw [hc]; rfl) hcounted (Or.inl rfl)
  · rename_i hc
    rw [hc] at hg
    cases h
    apply hs.waits (by rw [hc]; rfl) hcounted
    by_cases hzero : u.pendingRegs = 0
    · rw [if_pos hzero]
      exact Or.inr ⟨rfl, quiet_of_zero hs.counted hzero hg⟩
    · rw [if_neg hzero]
      exact Or.inl rfl
  · rename_i hc
    cases h
    exact hs.waits (by rw [hc]; rfl) hcounted (Or.inl rfl)
  · rename_i hc
    rw [hc] at hg
    split at h
    · rename_i hzero
      cases h
      exact hs.waits (by rw [hc]; rfl) hcounted
        (Or.inr ⟨rfl, quiet_of_zero hs.counted hzero hg⟩)
    · cases h
      exact hs.waits (by rw [hc]; rfl) hcounted (Or.inl rfl)
  · rename_i hc
    split at h
    · cases h
    · cases h
      exact hs.waits (by rw [hc]; rfl) hcounted (Or.inl rfl)
  · rename_i p hc
    rw [hc] at hg
    cases h
    exact hs.readsFlag hc hg hcounted
  · rename_i p hc
    cases h
    exact hs.unregisters hc hcounted
  · cases h

theorem orderInv_step {s s' : Activations Shared Act} (hs : OrderInv s)
    (hstep : Step pongWa7 inOrder s s') : OrderInv s' := by
  cases hstep with
  | act h hg => exact orderInv_act hs h hg
  | @main s m s' h hg =>
      cases m with
      | cleanup =>
          obtain ⟨u', hu, rfl⟩ := Option.map_eq_some_iff.mp h
          exact orderInv_cleanup hs hu hg
      | enter hd =>
          have hcounted := countInv_step (G := .all) hs.counted (.main h rfl)
          obtain rfl : _ = s' := Option.some.inj h
          -- the handler that is entered stands before its first test
          have hsub : ∀ b ∈ s.acts, b ∈ startOps true hd.ops ++ s.acts := fun b hb =>
            List.mem_append_right _ hb
          refine ⟨hcounted, fun p hp => (hs.registered p hp).mono hsub,
            fun p hp => (hs.flag p hp).mono hsub, fun hw a ha => ?_, hs.visited, hs.gone, hs.calls⟩
          rcases List.mem_append.mp ha with hnew | hold
          · exact quiet_startOps hd.ops a hnew
          · exact hs.quiet hw a hold

/-! ## After cleanup_module -/

/-- `cleanup_module` has returned, and nothing is left of the probes. -/
structure Over (s : Activations Shared Act) : Prop where
  returned : s.shared.cleanup = .returned
  cleaning : s.shared.cleaningUp = true
  quiet : ∀ a ∈ s.acts, a.quiet = true
  registered : ∀ p, s.shared.registered p = false

theorem over_step {s s' : Activations Shared Act} (hs : Over s)
    (hstep : Step pongWa7 .all s s') : Over s' := by
  cases hstep with
  | @act u before a after o u' new h hg =>
      obtain ⟨hcleaning, hcleanup, -, -⟩ := act_frame h
      obtain ⟨hnew, hregistered⟩ :=
        act_quiet h hs.cleaning (hs.quiet a (mem_acts_iff.mpr (Or.inl rfl)))
      refine ⟨hcleanup.trans hs.returned, hcleaning.trans hs.cleaning, ?_, ?_⟩
      · exact forall_acts_step hs.quiet (fun _ => hnew) fun _ _ hb => hb
      · dsimp only
        rw [hregistered]
        exact hs.registered
  | @main s m s' h hg =>
      cases m with
      | cleanup =>
          obtain ⟨u', hu, rfl⟩ := Option.map_eq_some_iff.mp h
          rw [cleanupModule, hs.returned] at hu
          cases hu
      | enter hd =>
          obtain rfl : _ = s' := Option.some.inj h
          refine ⟨hs.returned, hs.cleaning, fun a ha => ?_, hs.registered⟩
          rcases List.mem_append.mp ha with hnew | hold
          · exact quiet_startOps hd.ops a hnew
          · exact hs.quiet a hold

/-- What `cleanup_module` should leave when it returns: no deferred call and no
    callback that has not been counted, neither probe registered now or in any
    later state, and no unregister call for a probe that was not registered. -/
structure LeavesNothing (s : Activations Shared Act) : Prop where
  nothingPending : ∀ a ∈ s.acts, a.callbackDue = false
  registered : ∀ p, s.shared.registered p = false
  later : ∀ s', Reachable pongWa7 .all s s' → ∀ p, s'.shared.registered p = false
  calls : ∀ c ∈ s.shared.unregisterCalls, c.2 = true

/-- In a run whose steps are in order `cleanup_module` leaves nothing behind. -/
theorem cleanup_leaves_nothing {s : Activations Shared Act}
    (h : Reachable pongWa7 inOrder init s) (hret : s.shared.cleanup = .returned) :
    LeavesNothing s := by
  have hinv := h.invariant orderInv_init fun _ _ => orderInv_step
  have hquiet := hinv.quiet (by rw [hret]; rfl)
  have hover : Over s := ⟨hret, hinv.counted.cleaning (by rw [hret]; exact Cleanup.noConfusion),
    hquiet, fun p => hinv.gone p (by rw [hret]; rfl)⟩
  refine ⟨fun a ha => ?_, hover.registered, fun s' hs' => ?_, hinv.calls⟩
  · have := hquiet a ha
    cases a with
    | deferred op => cases this
    | dec c => cases this
    | _ => rfl
  · exact (hs'.invariant hover fun _ _ => over_step).registered

/-- One pass of the entry handler, its two calls carried out, and an rmmod. -/
theorem cleanup_leaves_nothing_once : ∃ s, Reachable pongWa7 inOrder init s ∧
    s.shared.unregisterCalls = [(.ret, true)] ∧ LeavesNothing s := by
  obtain ⟨s, hs, hret⟩ := exists_reachable_of_execAll (S := pongWa7) (G := inOrder) (s := init)
    [.main (.enter .entry), .act 0 true, .act 0 true, .act 0 true, .act 0 true, .act 1 true,
      .act 1 true, .act 1 true, .act 0 true, .act 0 true, .act 0 true, .act 0 true, .act 0 true,
      .act 0 true, .act 0 true, .main .cleanup, .main .cleanup, .main .cleanup, .main .cleanup,
      .main .cleanup]
    (fun s => s.shared.cleanup == .returned && s.shared.unregisterCalls == [(.ret, true)])
    (by decide)
  simp only [Bool.and_eq_true, beq_iff_eq] at hret
  exact ⟨s, hs, hret.2, cleanup_leaves_nothing hs hret.1⟩

/-- The deferred registration of the return probe fails; `cleanup_module`
    finds its flag set and unregisters a probe that is not registered. -/
theorem cleanup_unregisters_unregistered : ∃ s, Reachable pongWa7 .all init s ∧
    s.shared.cleanup = .returned ∧ s.shared.unregisterCalls = [(.ret, false)] ∧
    ¬ LeavesNothing s := by
  obtain ⟨s, hs, hret⟩ := exists_reachable_of_execAll (S := pongWa7) (G := .all) (s := init)
    [.main (.enter .entry), .act 0 true, .act 0 true, .act 0 true, .act 0 true, .act 1 false,
      .act 1 true, .act 1 true, .act 0 true, .act 0 true, .act 0 true, .act 0 true, .act 0 true,
      .act 0 true, .act 0 true, .main .cleanup, .main .cleanup, .main .cleanup, .main .cleanup,
      .main .cleanup]
    (fun s => s.shared.cleanup == .returned && s.shared.unregisterCalls == [(.ret, false)])
    (by decide)
  simp only [Bool.and_eq_true, beq_iff_eq] at hret
  refine ⟨s, hs, hret.1, hret.2, fun hleaves => ?_⟩
  have := hleaves.calls (.ret, false) (by rw [hret.2]; exact List.mem_singleton_self _)
  cases this

end Pong

end UprobeTests
