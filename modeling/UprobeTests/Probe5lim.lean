/-
  UprobeTests.Probe5lim

  uprobes.existing/probe5lim.c from `init_module` to `cleanup_module`, with any
  number of threads that hit the probe.  `add_inst` unregisters the probe once
  `limit` hits are counted, `cleanup_module` does unless that has happened, and
  the flag `registered` is there to tell them; every access to it and to
  `ncalls` is a step of its own.

  A hit is counted before the test, so no handler unregisters too early, in any
  run (`handlers_wait_for_limit`).
-/

import UprobeTests.Lib.Activations
import UprobeTests.ProbeModule
import UprobeTests.Uinfo

namespace UprobeTests

namespace Probe5lim

open Activations

/-! ## The system -/

/-- The module parameters and the results of the calls. -/
structure Scenario (t : Target) where
  pid : Int
  verbose : Bool
  vaddr : BitVec t.ulongBits
  limit : BitVec t.ulongBits
  kern : Outcomes
  registerUprobe : Int

/-- What comes next in `init_module` or `cleanup_module`. -/
inductive Position where
  | uDbfsInit
  | setUp
  | registerUprobe
  | setRegistered
  | loaded
  | testRegistered
  | unregisterUprobe
  | uDbfsCleanup
  | gone
  | failed
deriving DecidableEq, Repr

/-- What a run of `add_inst` is about to do. -/
inductive AddInst where
  | print
  | loadNcalls
  | storeNcalls (v : BitVec 32)
  | readRegistered
  | readNcalls
  | printUnregistering
  | unregisterUprobe
  | clearRegistered
deriving DecidableEq, Repr

/-- A call of `unregister_uprobe`; a handler's with the number of hits that had
    been counted. -/
inductive Caller where
  | addInst (counted : Nat)
  | cleanupModule
deriving DecidableEq, Repr

/-- The globals of the module; `counted` is how often `ncalls` has been
    incremented. -/
structure State (t : Target) where
  pos : Position
  kern : Kern
  usp : Uprobe t.ulongBits
  limit : BitVec t.ulongBits
  ncalls : BitVec 32
  registered : Bool
  counted : Nat
  unregisterCalls : List Caller

section System

variable {t : Target} (sc : Scenario t)

def start : Activations (State t) AddInst where
  shared := ⟨.uDbfsInit, .init, ⟨0, 0x080484a8, .addInst⟩, sc.limit, 0, false, 0, []⟩
  acts := []

/-- "...egistering uprobe on pid %d, vaddr %#lx\n". -/
def registeringText (what : String) (u : Uprobe t.ulongBits) : String :=
  what ++ " uprobe on pid " ++ toString u.pid ++ ", vaddr " ++ formatHex (u.vaddr.setWidth 64) ++
    "\n"

/-- `ncalls >= limit`, in the type of `limit`. -/
def State.limitReached (u : State t) : Bool := u.limit.sle (u.ncalls.signExtend t.ulongBits)

/-- The steps of `add_inst`. -/
def act (u : State t) : AddInst → Unit → Option (State t × List AddInst)
  | .print, _ =>
      let kern := if sc.verbose then u.kern.testPrintk "add() called\n" else u.kern
      some ({ u with kern := kern }, [.loadNcalls])
  | .loadNcalls, _ => some (u, [.storeNcalls u.ncalls])
  | .storeNcalls v, _ =>
      some ({ u with ncalls := v + 1, counted := u.counted + 1 }, [.readRegistered])
  | .readRegistered, _ => some (u, if u.registered then [.readNcalls] else [])
  | .readNcalls, _ => some (u, if u.limitReached then [.printUnregistering] else [])
  | .printUnregistering, _ =>
      let kern := u.kern.testPrintk (registeringText "Unregistering" u.usp)
      some ({ u with kern := kern }, [.unregisterUprobe])
  | .unregisterUprobe, _ =>
      some ({ u with unregisterCalls := u.unregisterCalls ++ [.addInst u.counted] },
        [.clearRegistered])
  | .clearRegistered, _ => some ({ u with registered := false }, [])

/-- The next step of `init_module` or `cleanup_module`. -/
def load (u : State t) : Option (State t) :=
  match u.pos with
  | .uDbfsInit =>
      match uDbfsInit sc.kern "probe5lim" u.kern with
      | (ret, kern) => some { u with pos := if ret ≠ 0 then .failed else .setUp, kern := kern }
  | .setUp =>
      let vaddr := if sc.vaddr ≠ 0 then sc.vaddr else u.usp.vaddr
      let usp := { u.usp with pid := sc.pid, vaddr := vaddr }
      let limit := if u.limit = 0 then 100 else u.limit
      let kern := u.kern.testPrintk (registeringText "Registering" usp)
      some { u with pos := .registerUprobe, usp := usp, limit := limit, kern := kern }
  | .registerUprobe =>
      if sc.registerUprobe ≠ 0 then some { u with pos := .failed, kern := uDbfsCleanup u.kern }
      else some { u with pos := .setRegistered }
  | .setRegistered => some { u with pos := .loaded, registered := true }
  | .testRegistered =>
      some { u with pos := if u.registered then .unregisterUprobe else .uDbfsCleanup }
  | .unregisterUprobe =>
      some { u with
        pos := .uDbfsCleanup
        unregisterCalls := u.unregisterCalls ++ [.cleanupModule] }
  | .uDbfsCleanup => some { u with pos := .gone, kern := uDbfsCleanup u.kern }
  | .loaded | .gone | .failed => none

/-- From the registration to the end of the module; an unregistration may be
    deferred, and hits go on. -/
def Position.probed : Position → Bool
  | .setRegistered | .loaded | .testRegistered | .unregisterUprobe | .uDbfsCleanup => true
  | _ => false

/-- What happens beside the handlers. -/
inductive Event where
  /-- `init_module` or `cleanup_module` goes on -/
  | load
  /-- `cleanup_module` is called -/
  | unload
  | hit
deriving DecidableEq, Repr

def event (s : Activations (State t) AddInst) : Event → Option (Activations (State t) AddInst)
  | .load => (load sc s.shared).map fun u => ⟨u, s.acts⟩
  | .unload =>
      match s.shared.pos with
      | .loaded => some ⟨{ s.shared with pos := .testRegistered }, s.acts⟩
      | _ => none
  | .hit => if s.shared.pos.probed then some ⟨s.shared, s.acts ++ [.print]⟩ else none

def system : System (State t) AddInst Unit Event where
  act := act sc
  main := event sc

end System

variable {t : Target} {sc : Scenario t} {s s' : Activations (State t) AddInst}
variable {u u' : State t} {a : AddInst} {l new : List AddInst}

theorem event_unload (h : (system sc).main s .unload = some s') :
    s.shared.pos = .loaded ∧ s' = ⟨{ s.shared with pos := .testRegistered }, s.acts⟩ := by
  simp only [system, event] at h
  split at h
  · rename_i hpos
    exact ⟨hpos, (Option.some.inj h).symm⟩
  · cases h

theorem event_hit (h : (system sc).main s .hit = some s') :
    s.shared.pos.probed = true ∧ s' = ⟨s.shared, s.acts ++ [.print]⟩ := by
  simp only [system, event] at h
  split at h
  · rename_i hprobed
    exact ⟨hprobed, (Option.some.inj h).symm⟩
  · cases h

/-! ## What holds in every run -/

/-- `registered` has been set. -/
def Position.late : Position → Bool
  | .loaded | .testRegistered | .unregisterUprobe | .uDbfsCleanup | .gone => true
  | _ => false

/-- What is known of a handler: the value it has loaded, that it can have found
    `registered` set, and that the limit was reached when it took the decision. -/
def AddInst.Within (u : State t) : AddInst → Prop
  | .storeNcalls v => v.toNat ≤ u.counted
  | .readNcalls => u.pos.late = true
  | .printUnregistering | .unregisterUprobe | .clearRegistered =>
      u.pos.late = true ∧ u.limit.toInt ≤ u.counted
  | _ => True

/-- The hits that have been counted bound `ncalls`, and they had reached the
    limit at every call by a handler. -/
structure Sound (s : Activations (State t) AddInst) : Prop where
  ncalls : s.shared.ncalls.toNat ≤ s.shared.counted
  acts : ∀ a ∈ s.acts, a.Within s.shared
  called : ∀ n : Nat, .addInst n ∈ s.shared.unregisterCalls → s.shared.limit.toInt ≤ n
  registered : s.shared.registered = true → s.shared.pos.late = true
  quiet : s.shared.pos = .uDbfsInit ∨ s.shared.pos = .setUp →
    s.acts = [] ∧ s.shared.unregisterCalls = []

theorem toInt_le_toNat (v : BitVec 32) : v.toInt ≤ v.toNat := by
  rw [BitVec.toInt_eq_toNat_cond]
  split <;> omega

theorem toNat_add_one_le (v : BitVec 32) : (v + 1).toNat ≤ v.toNat + 1 := by
  rw [BitVec.toNat_add]
  exact Nat.mod_le _ _

/-- The comparison of `ncalls` with `limit` is that of their values. -/
theorem limitReached_iff : u.limitReached = true ↔ u.limit.toInt ≤ u.ncalls.toInt := by
  rw [State.limitReached, BitVec.sle_iff_toInt_le, BitVec.toInt_signExtend_of_le t.le_ulongBits]

theorem AddInst.Within.mono (h : a.Within u) (hlimit : u'.limit = u.limit)
    (hcounted : u.counted ≤ u'.counted) (hlate : u.pos.late = true → u'.pos.late = true) :
    a.Within u' := by
  have hdecided : u.pos.late = true ∧ u.limit.toInt ≤ u.counted →
      u'.pos.late = true ∧ u'.limit.toInt ≤ u'.counted := by
    rintro ⟨hpos, hle⟩
    refine ⟨hlate hpos, ?_⟩
    rw [hlimit]
    omega
  cases a with
  | storeNcalls v => exact Nat.le_trans h hcounted
  | readNcalls => exact hlate h
  | printUnregistering => exact hdecided h
  | unregisterUprobe => exact hdecided h
  | clearRegistered => exact hdecided h
  | _ => trivial

/-- What a step of `add_inst` does to the counts. -/
structure ActSpec (u u' : State t) (new : List AddInst) : Prop where
  pos : u'.pos = u.pos
  limit : u'.limit = u.limit
  counted : u.counted ≤ u'.counted
  ncalls : u'.ncalls.toNat ≤ u'.counted
  registered : u'.registered = true → u.registered = true
  new : ∀ b ∈ new, b.Within u'
  called : ∀ n : Nat, .addInst n ∈ u'.unregisterCalls →
    .addInst n ∈ u.unregisterCalls ∨ u.limit.toInt ≤ n

theorem act_spec (h : act sc u a () = some (u', new)) (hncalls : u.ncalls.toNat ≤ u.counted)
    (hregistered : u.registered = true → u.pos.late = true) (ha : a.Within u) :
    ActSpec u u' new := by
  have hnil : ∀ b ∈ ([] : List AddInst), b.Within u := fun b hb => absurd hb List.not_mem_nil
  have hone : ∀ {c : AddInst} {v : State t}, c.Within v → ∀ b ∈ [c], b.Within v := by
    intro c v hc b hb
    rw [List.mem_singleton.mp hb]
    exact hc
  cases a with
  | print =>
      cases h
      exact ⟨rfl, rfl, Nat.le_refl _, hncalls, id, hone trivial, fun n => Or.inl⟩
  | loadNcalls =>
      cases h
      exact ⟨rfl, rfl, Nat.le_refl _, hncalls, id, hone hncalls, fun n => Or.inl⟩
  | storeNcalls v =>
      cases h
      have hle : v.toNat ≤ u.counted := ha
      have hnext := Nat.le_trans (toNat_add_one_le v) (Nat.succ_le_succ hle)
      exact ⟨rfl, rfl, Nat.le_succ _, hnext, id, hone trivial, fun n => Or.inl⟩
  | readRegistered =>
      cases h
      refine ⟨rfl, rfl, Nat.le_refl _, hncalls, id, ?_, fun n => Or.inl⟩
      split
      · rename_i hset
        exact hone (hregistered hset)
      · exact hnil
  | readNcalls =>
      cases h
      refine ⟨rfl, rfl, Nat.le_refl _, hncalls, id, ?_, fun n => Or.inl⟩
      split
      · rename_i hreached
        have hlimit := limitReached_iff.mp hreached
        have hle := toInt_le_toNat u.ncalls
        exact hone ⟨ha, by omega⟩
      · exact hnil
  | printUnregistering =>
      cases h
      exact ⟨rfl, rfl, Nat.le_refl _, hncalls, id, hone ha, fun n => Or.inl⟩
  | unregisterUprobe =>
      cases h
      refine ⟨rfl, rfl, Nat.le_refl _, hncalls, id, hone ha, fun n hn => ?_⟩
      rcases List.mem_append.mp hn with hn | hn
      · exact Or.inl hn
      · cases List.mem_singleton.mp hn
        exact Or.inr ha.2
  | clearRegistered =>
      cases h
      exact ⟨rfl, rfl, Nat.le_refl _, hncalls, fun hset => absurd hset Bool.false_ne_true, hnil,
        fun n => Or.inl⟩

/-- The steps of `init_module` and `cleanup_module`. -/
inductive LoadSpec (u : State t) : State t → Prop where
  | uDbfsInit (pos : Position) (kern : Kern) (hpos : u.pos = .uDbfsInit)
      (hnext : pos = .failed ∨ pos = .setUp) : LoadSpec u { u with pos := pos, kern := kern }
  | setUp (usp : Uprobe t.ulongBits) (limit : BitVec t.ulongBits) (kern : Kern)
      (hpos : u.pos = .setUp) :
      LoadSpec u { u with pos := .registerUprobe, usp := usp, limit := limit, kern := kern }
  | registerUprobe (pos : Position) (kern : Kern) (hpos : u.pos = .registerUprobe)
      (hnext : pos = .failed ∨ pos = .setRegistered) :
      LoadSpec u { u with pos := pos, kern := kern }
  | setRegistered (hpos : u.pos = .setRegistered) :
      LoadSpec u { u with pos := .loaded, registered := true }
  | testRegistered (pos : Position) (hpos : u.pos = .testRegistered)
      (hnext : pos = if u.registered then .unregisterUprobe else .uDbfsCleanup) :
      LoadSpec u { u with pos := pos }
  | unregisterUprobe (hpos : u.pos = .unregisterUprobe) :
      LoadSpec u { u with
        pos := .uDbfsCleanup
        unregisterCalls := u.unregisterCalls ++ [.cleanupModule] }
  | uDbfsCleanup (kern : Kern) (hpos : u.pos = .uDbfsCleanup) :
      LoadSpec u { u with pos := .gone, kern := kern }

theorem load_spec (h : load sc u = some u') : LoadSpec u u' := by
  rw [load] at h
  split at h
  · rename_i hpos
    generalize uDbfsInit sc.kern "probe5lim" u.kern = r at h
    obtain ⟨ret, kern⟩ := r
    cases h
    exact .uDbfsInit _ kern hpos (ite_eq_or_eq _ _ _)
  · rename_i hpos
    cases h
    exact .setUp _ _ _ hpos
  · rename_i hpos
    split at h
    · cases h
      exact .registerUprobe _ _ hpos (Or.inl rfl)
    · cases h
      exact .registerUprobe _ u.kern hpos (Or.inr rfl)
  · rename_i hpos
    cases h
    exact .setRegistered hpos
  · rename_i hpos
    cases h
    exact .testRegistered _ hpos rfl
  · rename_i hpos
    cases h
    exact .unregisterUprobe hpos
  · rename_i hpos
    cases h
    exact .uDbfsCleanup _ hpos
  · cases h
  · cases h
  · cases h

/-- A step that leaves the counts alone, to a later position. -/
theorem Sound.moves (h : Sound s) (hlimit : u.limit = s.shared.limit)
    (hncalls : u.ncalls = s.shared.ncalls) (hcounted : u.counted = s.shared.counted)
    (hcalls : ∀ n : Nat, .addInst n ∈ u.unregisterCalls → .addInst n ∈ s.shared.unregisterCalls)
    (hregistered : u.registered = true → s.shared.registered = true ∨ u.pos.late = true)
    (hlate : s.shared.pos.late = true → u.pos.late = true)
    (hpos : u.pos ≠ .uDbfsInit ∧ u.pos ≠ .setUp) : Sound ⟨u, s.acts⟩ where
  ncalls := by
    dsimp only
    rw [hncalls, hcounted]
    exact h.ncalls
  acts a ha := (h.acts a ha).mono hlimit (Nat.le_of_eq hcounted.symm) hlate
  called n hn := by
    dsimp only
    rw [hlimit]
    exact h.called n (hcalls n hn)
  registered hset := (hregistered hset).elim (fun hold => hlate (h.registered hold)) id
  quiet hearly := absurd hearly (not_or.mpr hpos)

theorem Sound.load (h : Sound s) (hs : LoadSpec s.shared u) : Sound ⟨u, s.acts⟩ := by
  -- nobody is there before the parameters are set
  have hunset : s.shared.pos.late = false → s.shared.registered ≠ true := by
    intro hpos hset
    rw [h.registered hset] at hpos
    cases hpos
  have hnobody : s.shared.pos = .uDbfsInit ∨ s.shared.pos = .setUp → ∀ v : State t,
      ∀ b ∈ s.acts, b.Within v := by
    intro hpos v b hb
    rw [(h.quiet hpos).1] at hb
    cases hb
  cases hs with
  | uDbfsInit pos kern hpos hnext =>
      exact ⟨h.ncalls, hnobody (Or.inl hpos) _, h.called,
        fun hset => absurd hset (hunset (by rw [hpos]; rfl)), fun _ => h.quiet (Or.inl hpos)⟩
  | setUp usp limit kern hpos =>
      refine ⟨h.ncalls, hnobody (Or.inr hpos) _, fun n hn => ?_,
        fun hset => absurd hset (hunset (by rw [hpos]; rfl)), fun hnext => ?_⟩
      · rw [(h.quiet (Or.inr hpos)).2] at hn
        cases hn
      · rcases hnext with hnext | hnext <;> cases hnext
  | registerUprobe pos kern hpos hnext =>
      refine h.moves rfl rfl rfl (fun _ => id) Or.inl (fun hlate => ?_) ?_
      · rw [hpos] at hlate
        cases hlate
      · rcases hnext with rfl | rfl
        · exact ⟨Position.noConfusion, Position.noConfusion⟩
        · exact ⟨Position.noConfusion, Position.noConfusion⟩
  | setRegistered hpos =>
      exact h.moves rfl rfl rfl (fun _ => id) (fun _ => Or.inr rfl) (fun _ => rfl)
        ⟨Position.noConfusion, Position.noConfusion⟩
  | testRegistered pos hpos hnext =>
      rw [hnext]
      split
      · exact h.moves rfl rfl rfl (fun _ => id) Or.inl (fun _ => rfl)
          ⟨Position.noConfusion, Position.noConfusion⟩
      · exact h.moves rfl rfl rfl (fun _ => id) Or.inl (fun _ => rfl)
          ⟨Position.noConfusion, Position.noConfusion⟩
  | unregisterUprobe hpos =>
      refine h.moves rfl rfl rfl (fun n hn => ?_) Or.inl (fun _ => rfl)
        ⟨Position.noConfusion, Position.noConfusion⟩
      rcases List.mem_append.mp hn with hn | hn
      · exact hn
      · cases List.mem_singleton.mp hn
  | uDbfsCleanup kern hpos =>
      exact h.moves rfl rfl rfl (fun _ => id) Or.inl (fun _ => rfl)
        ⟨Position.noConfusion, Position.noConfusion⟩

variable {G : Guard (State t) AddInst Unit Event}

theorem Sound.step (h : Sound s) (hs : Step (system sc) G s s') : Sound s' := by
  cases hs with
  | @act u before a after o u' new hact hg =>
      have hspec := act_spec hact h.ncalls h.registered (h.acts a (mem_acts_iff.mpr (Or.inl rfl)))
      have hlate : u.pos.late = true → u'.pos.late = true := fun hpos => hspec.pos ▸ hpos
      refine ⟨hspec.ncalls, ?_, fun n hn => ?_, fun hset => ?_, fun hearly => ?_⟩
      · exact forall_acts_step h.acts (fun _ => hspec.new) fun b _ hb =>
          hb.mono hspec.limit hspec.counted hlate
      · dsimp only
        rw [hspec.limit]
        exact (hspec.called n hn).elim (h.called n) id
      · exact hlate (h.registered (hspec.registered hset))
      · rw [hspec.pos] at hearly
        exact absurd (h.quiet hearly).1 (by simp)
  | @main s e s' he hg =>
      cases e with
      | load =>
          obtain ⟨u, hload, rfl⟩ := Option.map_eq_some_iff.mp he
          exact h.load (load_spec hload)
      | unload =>
          obtain ⟨-, rfl⟩ := event_unload he
          exact h.moves rfl rfl rfl (fun _ => id) Or.inl (fun _ => rfl)
            ⟨Position.noConfusion, Position.noConfusion⟩
      | hit =>
          obtain ⟨hprobed, rfl⟩ := event_hit he
          refine ⟨h.ncalls, fun b hb => ?_, h.called, h.registered, fun hearly => ?_⟩
          · rcases List.mem_append.mp hb with hb | hb
            · exact h.acts b hb
            · cases List.mem_singleton.mp hb
              trivial
          · -- before the registration the probe cannot be hit
            rcases hearly with hpos | hpos
            · rw [hpos] at hprobed
              cases hprobed
            · rw [hpos] at hprobed
              cases hprobed

theorem sound_start : Sound (start sc) :=
  ⟨Nat.le_refl _, fun _ ha => absurd ha List.not_mem_nil, fun _ hn => absurd hn List.not_mem_nil,
    fun hset => absurd hset Bool.false_ne_true, fun _ => ⟨rfl, rfl⟩⟩

/-- A handler calls `unregister_uprobe` only when at least `limit` hits have been
    counted, in any run. -/
theorem handlers_wait_for_limit (h : Reachable (system sc) G (start sc) s) {n : Nat}
    (hn : .addInst n ∈ s.shared.unregisterCalls) : s.shared.limit.toInt ≤ n :=
  (h.invariant sound_start fun _ _ hs => hs.step).called n hn

end Probe5lim

end UprobeTests
