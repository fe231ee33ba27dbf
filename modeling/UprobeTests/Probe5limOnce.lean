/-
  UprobeTests.Probe5limOnce

  How often probe5lim.c unregisters its probe.  The flag `registered` is
  cleared after the call, by the handler only, and nothing keeps the others from
  finding it set meanwhile.  So there is a single call in the runs in which
  nobody else takes the decision between a decision and the clearing
  (`unregisters_once`), and whoever does makes a second one
  (`two_calls_of_forbidden`).
-/

import UprobeTests.Probe5lim

namespace UprobeTests

namespace Probe5lim

open Activations

/-! ## The condition -/

/-- `add_inst` has found `registered` set and the limit reached, and has not
    cleared the flag. -/
def AddInst.decided : AddInst → Bool
  | .printUnregistering | .unregisterUprobe | .clearRegistered => true
  | _ => false

/-- `cleanup_module` has tested `registered`. -/
def Position.tested : Position → Bool
  | .unregisterUprobe | .uDbfsCleanup | .gone => true
  | _ => false

/-- A handler finds the limit reached only while `registered` is set, no other
    handler has taken the decision and not cleared it, and `cleanup_module` has
    not tested it; and `cleanup_module` finds it set only while no handler has. -/
def guard (t : Target) : Guard (State t) AddInst Unit Event where
  act u others a _ :=
    match a with
    | .readNcalls =>
        !u.limitReached || (u.registered && !others.any AddInst.decided && !u.pos.tested)
    | _ => true
  main s e :=
    match e with
    | .load =>
        match s.shared.pos with
        | .testRegistered => !s.shared.registered || !s.acts.any AddInst.decided
        | _ => true
    | _ => true

variable {t : Target} {sc : Scenario t} {s s' : Activations (State t) AddInst}
variable {u u' : State t} {a : AddInst} {l new : List AddInst}
variable {G : Guard (State t) AddInst Unit Event}

/-! ## One call -/

/-- Between `init_module` and the test in `cleanup_module`. -/
def Position.live : Position → Bool
  | .loaded | .testRegistered => true
  | _ => false

/-- `add_inst` has taken the decision and has still to make the call. -/
def AddInst.willCall : AddInst → Bool
  | .printUnregistering | .unregisterUprobe => true
  | _ => false

/-- How far the unregistration is, and the handler that has decided on it. -/
inductive Phase (u : State t) : List AddInst → Prop where
  | early (hpos : u.pos.late = false) (hcalls : u.unregisterCalls = []) : Phase u []
  | idle (hpos : u.pos.live = true) (hset : u.registered = true)
      (hcalls : u.unregisterCalls = []) : Phase u []
  | decided (a : AddInst) (ha : a.willCall = true) (hpos : u.pos.live = true)
      (hset : u.registered = true) (hcalls : u.unregisterCalls = []) : Phase u [a]
  | called (hpos : u.pos.live = true) (hset : u.registered = true)
      (hcalls : u.unregisterCalls.length = 1) : Phase u [.clearRegistered]
  | cleared (hpos : u.pos.live = true) (hset : u.registered = false)
      (hcalls : u.unregisterCalls.length = 1) : Phase u []
  | unregister (hpos : u.pos = .unregisterUprobe) (hcalls : u.unregisterCalls = []) : Phase u []
  | through (hpos : u.pos = .uDbfsCleanup ∨ u.pos = .gone) (hcalls : u.unregisterCalls.length = 1) :
      Phase u []

theorem Phase.length_le (h : Phase u l) : l.length ≤ 1 := by
  cases h with
  | decided => exact Nat.le_refl 1
  | called => exact Nat.le_refl 1
  | _ => exact Nat.zero_le 1

/-- Only three of the globals matter. -/
theorem Phase.congr (h : Phase u l) (hpos : u'.pos = u.pos) (hset : u'.registered = u.registered)
    (hcalls : u'.unregisterCalls = u.unregisterCalls) : Phase u' l := by
  cases h with
  | early h₁ h₂ => exact .early (hpos ▸ h₁) (hcalls ▸ h₂)
  | idle h₁ h₂ h₃ => exact .idle (hpos ▸ h₁) (hset ▸ h₂) (hcalls ▸ h₃)
  | decided a ha h₁ h₂ h₃ => exact .decided a ha (hpos ▸ h₁) (hset ▸ h₂) (hcalls ▸ h₃)
  | called h₁ h₂ h₃ => exact .called (hpos ▸ h₁) (hset ▸ h₂) (hcalls ▸ h₃)
  | cleared h₁ h₂ h₃ => exact .cleared (hpos ▸ h₁) (hset ▸ h₂) (hcalls ▸ h₃)
  | unregister h₁ h₂ => exact .unregister (hpos ▸ h₁) (hcalls ▸ h₂)
  | through h₁ h₂ => exact .through (hpos ▸ h₁) (hcalls ▸ h₂)

theorem Position.late_of_live {pos : Position} (h : pos.live = true) : pos.late = true := by
  cases pos with
  | loaded => rfl
  | testRegistered => rfl
  | _ => cases h

theorem Position.late_of_tested {pos : Position} (h : pos.tested = true) : pos.late = true := by
  cases pos with
  | unregisterUprobe => rfl
  | uDbfsCleanup => rfl
  | gone => rfl
  | _ => cases h

theorem Position.not_tested_of_live {pos : Position} (h : pos.live = true) :
    pos.tested = false := by
  cases pos with
  | loaded => rfl
  | testRegistered => rfl
  | _ => cases h

/-- Before the flag is set there is nothing. -/
theorem Phase.of_not_late (h : Phase u l) (hpos : u.pos.late = false) :
    l = [] ∧ u.unregisterCalls = [] := by
  have hlive : u.pos.live ≠ true := by
    intro hlive
    rw [Position.late_of_live hlive] at hpos
    cases hpos
  cases h with
  | early _ hcalls => exact ⟨rfl, hcalls⟩
  | idle h _ _ => exact absurd h hlive
  | decided _ _ h _ _ => exact absurd h hlive
  | called h _ _ => exact absurd h hlive
  | cleared h _ _ => exact absurd h hlive
  | unregister h _ =>
      rw [h] at hpos
      cases hpos
  | through h _ => rcases h with h | h <;> (rw [h] at hpos; cases hpos)

/-- Once `cleanup_module` has tested the flag nobody else is at it. -/
theorem Phase.of_tested (h : Phase u l) (hpos : u.pos.tested = true) :
    l = [] ∧ ((u.pos = .unregisterUprobe ∧ u.unregisterCalls = []) ∨
      ((u.pos = .uDbfsCleanup ∨ u.pos = .gone) ∧ u.unregisterCalls.length = 1)) := by
  have hlive : u.pos.live ≠ true := by
    intro hlive
    rw [Position.not_tested_of_live hlive] at hpos
    cases hpos
  cases h with
  | early h _ =>
      rw [Position.late_of_tested hpos] at h
      cases h
  | idle h _ _ => exact absurd h hlive
  | decided _ _ h _ _ => exact absurd h hlive
  | called h _ _ => exact absurd h hlive
  | cleared h _ _ => exact absurd h hlive
  | unregister h hcalls => exact ⟨rfl, Or.inl ⟨h, hcalls⟩⟩
  | through h hcalls => exact ⟨rfl, Or.inr ⟨h, hcalls⟩⟩

/-- In between the flag says whether the call has been made or decided on. -/
theorem Phase.of_live (h : Phase u l) (hpos : u.pos.live = true) :
    (u.registered = true ∧ (l = [] → u.unregisterCalls = [])) ∨
      (u.registered = false ∧ l = [] ∧ u.unregisterCalls.length = 1) := by
  cases h with
  | early h _ =>
      rw [Position.late_of_live hpos] at h
      cases h
  | idle _ hset hcalls => exact Or.inl ⟨hset, fun _ => hcalls⟩
  | decided _ _ _ hset hcalls => exact Or.inl ⟨hset, fun _ => hcalls⟩
  | called _ hset _ => exact Or.inl ⟨hset, fun hnil => by cases hnil⟩
  | cleared _ hset hcalls => exact Or.inr ⟨hset, rfl, hcalls⟩
  | unregister h _ =>
      rw [h] at hpos
      cases hpos
  | through h _ => rcases h with h | h <;> (rw [h] at hpos; cases hpos)

/-- The handler that has decided goes on to the call and the clearing. -/
theorem Phase.act_decided (h : Phase u [a]) (hact : act sc u a () = some (u', new)) :
    Phase u' (new.filter AddInst.decided) := by
  generalize hl : [a] = l at h
  cases h with
  | decided b hb hpos hset hcalls =>
      cases hl
      cases a with
      | printUnregistering =>
          cases hact
          exact .decided _ rfl hpos hset hcalls
      | unregisterUprobe =>
          cases hact
          refine .called hpos hset ?_
          rw [hcalls]
          rfl
      | _ => cases hb
  | called hpos hset hcalls =>
      cases hl
      cases hact
      exact .cleared hpos rfl hcalls
  | _ => cases hl

/-- A handler that has not decided changes nothing, or decides: then the flag is
    set, nobody else has decided, and `cleanup_module` has not tested it. -/
theorem Phase.act_undecided (h : Phase u l) (hact : act sc u a () = some (u', new))
    (ha : a.decided = false) (hset : u.registered = true → u.pos.late = true)
    (hguard : a = .readNcalls → u.limitReached = true →
      u.registered = true ∧ l = [] ∧ u.pos.tested = false) :
    (new.filter AddInst.decided = [] ∧ Phase u' l) ∨
      (l = [] ∧ Phase u' (new.filter AddInst.decided)) := by
  cases a with
  | print =>
      cases hact
      exact Or.inl ⟨rfl, h.congr rfl rfl rfl⟩
  | loadNcalls =>
      cases hact
      exact Or.inl ⟨rfl, h⟩
  | storeNcalls v =>
      cases hact
      exact Or.inl ⟨rfl, h.congr rfl rfl rfl⟩
  | readRegistered =>
      cases hact
      refine Or.inl ⟨?_, h⟩
      split <;> rfl
  | readNcalls =>
      cases hact
      by_cases hreached : u.limitReached = true
      · rw [if_pos hreached]
        obtain ⟨hregistered, rfl, htested⟩ := hguard rfl hreached
        refine Or.inr ⟨rfl, ?_⟩
        cases h with
        | early hpos _ =>
            rw [hset hregistered] at hpos
            cases hpos
        | idle hpos hset hcalls => exact .decided _ rfl hpos hset hcalls
        | cleared _ hcleared _ =>
            rw [hcleared] at hregistered
            cases hregistered
        | unregister hpos _ =>
            rw [hpos] at htested
            cases htested
        | through hpos _ => rcases hpos with hpos | hpos <;> (rw [hpos] at htested; cases htested)
      · rw [if_neg hreached]
        exact Or.inl ⟨rfl, h⟩
  | printUnregistering => cases ha
  | unregisterUprobe => cases ha
  | clearRegistered => cases ha

/-- A step of `init_module` or `cleanup_module`. -/
theorem Phase.load (h : Phase u l) (hs : LoadSpec u u')
    (hguard : u.pos = .testRegistered → u.registered = true → l = []) : Phase u' l := by
  cases hs with
  | uDbfsInit pos kern hpos hnext =>
      obtain ⟨rfl, hcalls⟩ := h.of_not_late (by rw [hpos]; rfl)
      refine .early ?_ hcalls
      rcases hnext with rfl | rfl
      · rfl
      · rfl
  | setUp usp limit kern hpos =>
      obtain ⟨rfl, hcalls⟩ := h.of_not_late (by rw [hpos]; rfl)
      exact .early rfl hcalls
  | registerUprobe pos kern hpos hnext =>
      obtain ⟨rfl, hcalls⟩ := h.of_not_late (by rw [hpos]; rfl)
      refine .early ?_ hcalls
      rcases hnext with rfl | rfl
      · rfl
      · rfl
  | setRegistered hpos =>
      obtain ⟨rfl, hcalls⟩ := h.of_not_late (by rw [hpos]; rfl)
      exact .idle rfl rfl hcalls
  | testRegistered pos hpos hnext =>
      rcases h.of_live (by rw [hpos]; rfl) with ⟨hset, hcalls⟩ | ⟨hset, rfl, hcalls⟩
      · -- no handler is on its way to the call
        rw [if_pos hset] at hnext
        obtain rfl := hguard hpos hset
        exact .unregister hnext (hcalls rfl)
      · rw [hset, if_neg Bool.false_ne_true] at hnext
        exact .through (Or.inl hnext) hcalls
  | unregisterUprobe hpos =>
      -- the first call, and the handlers make none after it
      obtain ⟨rfl, ⟨-, hcalls⟩ | ⟨hlater, -⟩⟩ := h.of_tested (by rw [hpos]; rfl)
      · refine .through (Or.inl rfl) ?_
        rw [hcalls]
        rfl
      · rw [hpos] at hlater
        rcases hlater with hlater | hlater <;> cases hlater
  | uDbfsCleanup kern hpos =>
      obtain ⟨rfl, ⟨hbefore, -⟩ | ⟨-, hcalls⟩⟩ := h.of_tested (by rw [hpos]; rfl)
      · rw [hpos] at hbefore
        cases hbefore
      · exact .through (Or.inr rfl) hcalls

/-- The call of `cleanup_module` as such does nothing. -/
theorem Phase.unload {pos : Position} (h : Phase u l) (hlive : u.pos.live = true)
    (hlive' : pos.live = true) : Phase { u with pos := pos } l := by
  cases h with
  | early hpos _ =>
      rw [Position.late_of_live hlive] at hpos
      cases hpos
  | idle _ hset hcalls => exact .idle hlive' hset hcalls
  | decided a ha _ hset hcalls => exact .decided a ha hlive' hset hcalls
  | called _ hset hcalls => exact .called hlive' hset hcalls
  | cleared _ hset hcalls => exact .cleared hlive' hset hcalls
  | unregister hpos _ =>
      rw [hpos] at hlive
      cases hlive
  | through hpos _ => rcases hpos with hpos | hpos <;> (rw [hpos] at hlive; cases hlive)

theorem Phase.step (h : Phase s.shared (s.acts.filter AddInst.decided)) (hsound : Sound s)
    (hs : Step (system sc) (guard t) s s') :
    Phase s'.shared (s'.acts.filter AddInst.decided) := by
  cases hs with
  | @act u before a after o u' new hact hg =>
      dsimp only at h ⊢
      rcases picked_cases rfl h.length_le with ⟨ha, hothers⟩ | ⟨-, hpicked, hothers⟩
      · -- a handler that has not decided, beside one that may have
        rw [← hothers] at h
        have hguard : a = .readNcalls → u.limitReached = true → u.registered = true ∧
            (before ++ after).filter AddInst.decided = [] ∧ u.pos.tested = false := by
          rintro rfl hreached
          simp only [guard, hreached, Bool.not_true, Bool.false_or, Bool.and_eq_true,
            Bool.not_eq_true', List.any_eq_false] at hg
          exact ⟨hg.1.1, List.filter_eq_nil_iff.mpr hg.1.2, hg.2⟩
        rcases h.act_undecided hact ha hsound.registered hguard with ⟨hnew, hphase⟩ |
          ⟨halone, hphase⟩
        · rw [picked_new_of_others rfl hnew]
          exact hphase
        · rw [picked_new_of_alone halone]
          exact hphase
      · -- the one that has decided
        rw [hpicked] at h
        rw [picked_new_of_alone hothers]
        exact h.act_decided hact
  | @main s e s' he hg =>
      cases e with
      | load =>
          obtain ⟨u, hload, rfl⟩ := Option.map_eq_some_iff.mp he
          refine h.load (load_spec hload) fun hpos hset => ?_
          simp only [guard, hpos, hset, Bool.not_true, Bool.false_or, Bool.not_eq_true',
            List.any_eq_false] at hg
          exact List.filter_eq_nil_iff.mpr hg
      | unload =>
          obtain ⟨hpos, rfl⟩ := event_unload he
          exact h.unload (by rw [hpos]; rfl) rfl
      | hit =>
          -- a new handler has not decided anything
          obtain ⟨-, rfl⟩ := event_hit he
          rw [List.filter_append]
          exact (List.append_nil _).symm ▸ h

theorem sound_phase (h : Reachable (system sc) (guard t) (start sc) s) :
    Sound s ∧ Phase s.shared (s.acts.filter AddInst.decided) := by
  refine h.invariant (I := fun s => Sound s ∧ Phase s.shared (s.acts.filter AddInst.decided))
    ⟨sound_start, .early rfl rfl⟩ ?_
  rintro s s' ⟨hsound, hphase⟩ hstep
  exact ⟨hsound.step hstep, hphase.step hsound hstep⟩

/-- In the runs in which nobody takes the decision while another one has, there
    is never a second call of `unregister_uprobe`, there has been one when the
    module is gone, and no handler makes it before `limit` hits are counted. -/
theorem unregisters_once (h : Reachable (system sc) (guard t) (start sc) s) :
    s.shared.unregisterCalls.length ≤ 1 ∧
      (s.shared.pos = .gone → s.shared.unregisterCalls.length = 1) ∧
      ∀ n : Nat, .addInst n ∈ s.shared.unregisterCalls → s.shared.limit.toInt ≤ n := by
  obtain ⟨hsound, hphase⟩ := sound_phase h
  refine ⟨?_, fun hgone => ?_, hsound.called⟩
  · generalize s.acts.filter AddInst.decided = l at hphase
    cases hphase with
    | early _ hcalls => rw [hcalls]; exact Nat.zero_le 1
    | idle _ _ hcalls => rw [hcalls]; exact Nat.zero_le 1
    | decided _ _ _ _ hcalls => rw [hcalls]; exact Nat.zero_le 1
    | called _ _ hcalls => exact Nat.le_of_eq hcalls
    | cleared _ _ hcalls => exact Nat.le_of_eq hcalls
    | unregister _ hcalls => rw [hcalls]; exact Nat.zero_le 1
    | through _ hcalls => exact Nat.le_of_eq hcalls
  · obtain ⟨-, ⟨hbefore, -⟩ | ⟨-, hcalls⟩⟩ := hphase.of_tested (by rw [hgone]; rfl)
    · rw [hgone] at hbefore
      cases hbefore
    · exact hcalls

/-- `limit=1`, and every call succeeds. -/
def limitOne : Scenario .i386 where
  pid := 3243
  verbose := true
  vaddr := 0
  limit := 1
  kern := ⟨fun _ => true, fun _ => true, fun _ => true, fun _ => true, fun _ _ => none, fun _ => 0⟩
  registerUprobe := 0

/-- `init_module`. -/
def loading : List (Choice Unit Event) := List.replicate 4 (.main .load)

/-- `cleanup_module` when the flag is clear. -/
def unloading : List (Choice Unit Event) := .main .unload :: List.replicate 2 (.main .load)

/-- The next steps of the `i`-th handler. -/
def steps (n i : Nat) : List (Choice Unit Event) := List.replicate n (.act i ())

/-- One hit before the module goes. -/
theorem unregisters_once_oneHit :
    ∃ s, Reachable (system limitOne) (guard .i386) (start limitOne) s ∧ s.shared.pos = .gone ∧
      s.shared.unregisterCalls.length = 1 := by
  obtain ⟨s, h, hs⟩ := exists_reachable_of_execAll (S := system limitOne) (G := guard .i386)
    (s := start limitOne) (loading ++ [.main .hit] ++ steps 8 0 ++ unloading)
    (fun s => s.shared.pos == .gone) (by decide)
  rw [beq_iff_eq] at hs
  exact ⟨s, h, hs, (unregisters_once h).2.1 hs⟩

/-- Two handlers that both find the flag set, and a handler and `cleanup_module`
    that do. -/
theorem unregisters_twice :
    (∃ s, Reachable (system limitOne) .all (start limitOne) s ∧ s.acts = [] ∧
      s.shared.pos = .gone ∧ s.shared.unregisterCalls = [.addInst 2, .addInst 2]) ∧
    ∃ s, Reachable (system limitOne) .all (start limitOne) s ∧ s.acts = [] ∧
      s.shared.pos = .gone ∧ s.shared.unregisterCalls = [.addInst 1, .cleanupModule] := by
  constructor
  · obtain ⟨s, h, hs⟩ := exists_reachable_of_execAll (S := system limitOne) (G := .all)
      (s := start limitOne)
      (loading ++ [.main .hit, .main .hit] ++ steps 5 0 ++ steps 5 1 ++ steps 6 0 ++ unloading)
      (fun s => s.acts.isEmpty && s.shared.pos == .gone &&
        s.shared.unregisterCalls == [.addInst 2, .addInst 2]) (by decide)
    simp only [Bool.and_eq_true, List.isEmpty_iff, beq_iff_eq] at hs
    exact ⟨s, h, hs.1.1, hs.1.2, hs.2⟩
  · obtain ⟨s, h, hs⟩ := exists_reachable_of_execAll (S := system limitOne) (G := .all)
      (s := start limitOne)
      (loading ++ [.main .hit] ++ steps 7 0 ++ [.main .unload, .main .load] ++ steps 1 0 ++
        [.main .load, .main .load])
      (fun s => s.acts.isEmpty && s.shared.pos == .gone &&
        s.shared.unregisterCalls == [.addInst 1, .cleanupModule]) (by decide)
    simp only [Bool.and_eq_true, List.isEmpty_iff, beq_iff_eq] at hs
    exact ⟨s, h, hs.1.1, hs.1.2, hs.2⟩

/-! ## Two calls -/

/-- The calls that have been made or decided on. -/
def committed (s : Activations (State t) AddInst) : Nat :=
  s.shared.unregisterCalls.length + s.acts.countP AddInst.willCall +
    if s.shared.pos = .unregisterUprobe then 1 else 0

theorem act_committed (h : act sc u a () = some (u', new)) :
    u'.pos = u.pos ∧ u.unregisterCalls.length + [a].countP AddInst.willCall ≤
      u'.unregisterCalls.length + new.countP AddInst.willCall := by
  cases a with
  | readRegistered =>
      cases h
      exact ⟨rfl, Nat.le_add_right _ _⟩
  | readNcalls =>
      cases h
      exact ⟨rfl, Nat.le_add_right _ _⟩
  | unregisterUprobe =>
      cases h
      exact ⟨rfl, by rw [List.length_append]; exact Nat.le_refl _⟩
  | _ =>
      cases h
      exact ⟨rfl, Nat.le_refl _⟩

theorem load_committed (h : LoadSpec u u') :
    (u.unregisterCalls.length + if u.pos = .unregisterUprobe then 1 else 0) ≤
      u'.unregisterCalls.length + if u'.pos = .unregisterUprobe then 1 else 0 := by
  cases h with
  | unregisterUprobe hpos =>
      rw [if_pos hpos, List.length_append]
      exact Nat.le_add_right _ _
  | uDbfsInit pos kern hpos hnext =>
      rw [hpos]
      exact Nat.le_add_right _ _
  | setUp usp limit kern hpos =>
      rw [hpos]
      exact Nat.le_add_right _ _
  | registerUprobe pos kern hpos hnext =>
      rw [hpos]
      exact Nat.le_add_right _ _
  | setRegistered hpos =>
      rw [hpos]
      exact Nat.le_add_right _ _
  | testRegistered pos hpos hnext =>
      rw [hpos]
      exact Nat.le_add_right _ _
  | uDbfsCleanup kern hpos =>
      rw [hpos]
      exact Nat.le_add_right _ _

/-- No step takes a decision back. -/
theorem committed_step (hs : Step (system sc) G s s') : committed s ≤ committed s' := by
  cases hs with
  | @act u before a after o u' new hact hg =>
      obtain ⟨hpos, hle⟩ := act_committed hact
      simp only [committed, hpos, List.countP_append, List.countP_cons, List.countP_nil] at hle ⊢
      omega
  | @main s e s' he hg =>
      cases e with
      | load =>
          obtain ⟨u, hload, rfl⟩ := Option.map_eq_some_iff.mp he
          have hle := load_committed (load_spec hload)
          simp only [committed] at hle ⊢
          omega
      | unload =>
          obtain ⟨hpos, rfl⟩ := event_unload he
          simp [committed, hpos]
      | hit =>
          obtain ⟨-, rfl⟩ := event_hit he
          simp [committed, AddInst.willCall]

theorem countP_willCall (acts : List AddInst) :
    acts.countP AddInst.willCall = (acts.filter AddInst.decided).countP AddInst.willCall := by
  rw [List.countP_filter]
  apply List.countP_congr
  intro a _
  cases a <;> simp [AddInst.willCall, AddInst.decided]

/-- Once the flag has been set a call is made or decided on, unless the condition
    lets a handler decide. -/
theorem Phase.one_le_committed (h : Phase s.shared (s.acts.filter AddInst.decided))
    (hlate : s.shared.pos.late = true)
    (hnot : ¬ (s.shared.registered = true ∧ s.acts.filter AddInst.decided = [] ∧
      s.shared.pos.tested = false)) : 1 ≤ committed s := by
  rw [committed, countP_willCall]
  generalize s.acts.filter AddInst.decided = l at h hnot ⊢
  cases h with
  | early hpos _ =>
      rw [hlate] at hpos
      cases hpos
  | idle hpos hset _ => exact absurd ⟨hset, rfl, Position.not_tested_of_live hpos⟩ hnot
  | decided a ha _ _ _ =>
      rw [List.countP_singleton, if_pos ha]
      omega
  | called _ _ hcalls => omega
  | cleared _ _ hcalls => omega
  | unregister hpos _ =>
      rw [if_pos hpos]
      omega
  | through _ hcalls => omega

/-- A step that the condition rules out decides on a second call. -/
theorem two_le_committed (h : Reachable (system sc) (guard t) (start sc) s)
    (hs : Step (system sc) (guard t).compl s s') : 2 ≤ committed s' := by
  obtain ⟨hsound, hphase⟩ := sound_phase h
  cases hs with
  | @act u before a after o u' new hact hg =>
      cases a with
      | readNcalls =>
          simp only [Guard.compl, guard, Bool.not_eq_true', Bool.or_eq_false_iff,
            Bool.not_eq_false', Bool.and_eq_false_iff, List.any_eq_true] at hg
          obtain ⟨hreached, hcase⟩ := hg
          have hlate := hsound.acts .readNcalls (mem_acts_iff.mpr (Or.inl rfl))
          have hone := hphase.one_le_committed hlate ?_
          · replace hact : act sc u .readNcalls o = some (u', new) := hact
            rw [act, if_pos hreached] at hact
            cases hact
            simp only [committed, List.countP_append, List.countP_cons, List.countP_nil,
              AddInst.willCall, Bool.false_eq_true, if_false, if_true] at hone ⊢
            omega
          · rintro ⟨hset, hnobody, htested⟩
            dsimp only at hset hnobody htested
            rcases hcase with (hunset | ⟨b, hb, hin⟩) | hpos
            · rw [hset] at hunset
              cases hunset
            · have hmem : b ∈ (before ++ .readNcalls :: after).filter AddInst.decided :=
                List.mem_filter.mpr ⟨mem_acts_iff.mpr (Or.inr hb), hin⟩
              rw [hnobody] at hmem
              cases hmem
            · rw [htested] at hpos
              cases hpos
      | _ => cases hg
  | @main s e s' he hg =>
      cases e with
      | load =>
          simp only [Guard.compl, guard] at hg
          split at hg
          · rename_i hpos
            simp only [Bool.not_eq_true', Bool.or_eq_false_iff, Bool.not_eq_false',
              List.any_eq_true] at hg
            obtain ⟨hset, b, hb, hin⟩ := hg
            have hone := hphase.one_le_committed (by rw [hpos]; rfl) ?_
            · obtain ⟨u, hload, rfl⟩ := Option.map_eq_some_iff.mp he
              rw [load, hpos] at hload
              simp only [hset, if_true] at hload
              cases hload
              rw [committed, hpos, if_neg Position.noConfusion] at hone
              rw [committed, if_pos rfl]
              exact Nat.succ_le_succ hone
            · rintro ⟨-, hnobody, -⟩
              have hmem := List.mem_filter.mpr ⟨hb, hin⟩
              rw [hnobody] at hmem
              cases hmem
          · cases hg
      | unload => cases hg
      | hit => cases hg

/-- After such a step there are two calls or more when all has come to an end. -/
theorem two_calls_of_forbidden {s'' : Activations (State t) AddInst}
    (h : Reachable (system sc) (guard t) (start sc) s)
    (hs : Step (system sc) (guard t).compl s s') (hrest : Reachable (system sc) G s' s'')
    (hdone : s''.acts = []) (hgone : s''.shared.pos = .gone) :
    2 ≤ s''.shared.unregisterCalls.length := by
  have hend : 2 ≤ committed s'' :=
    hrest.invariant (two_le_committed h hs) fun _ _ hle hstep =>
      Nat.le_trans hle (committed_step hstep)
  rw [committed, hdone, hgone, if_neg Position.noConfusion] at hend
  exact hend

end Probe5lim

end UprobeTests
