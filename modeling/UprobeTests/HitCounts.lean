/-
  UprobeTests.HitCounts

  The totals the expected files compare: `num_probes` of u_mod_common.h, which
  `probe_handler` increments, and `ncalls` of uprobes.existing/probe5.c, which
  `add_inst` increments, with any number of probed threads.

  Each handler run is an activation that makes its user accesses and texts one
  at a time.  The `++` at its end is a load and a store with nothing to keep
  two of them apart, so the totals are right in the runs in which no two
  overlap.
-/

import UprobeTests.Lib.Increments
import UprobeTests.ProbeHandler

namespace UprobeTests

namespace HitCounts

open Activations

/-! ## num_probes -/

section ProbeHandler

variable (t : Target)

/-- A hit: which user accesses succeed, `current->pid`, and the slot passed as
    first argument. -/
structure Hit where
  ok : UserAccess → Bool
  pid : BitVec 32
  slot : Nat

/-- What a run of `probe_handler` is about to do. -/
inductive HandlerAct where
  | putKtid (x : Hit)
  | getUtid (x : Hit)
  | getKcount (x : Hit)
  | putUcount (x : Hit) (kcount : BitVec t.ulongBits)
  | putKcount (x : Hit) (kcount : BitVec t.ulongBits)
  | loadNumProbes
  | storeNumProbes (v : BitVec t.ulongBits)

/-- The kernel, and the number of hits so far. -/
structure Probed where
  kernel : HandlerState t
  hits : Nat

variable {t}

def handlerAct (u : Probed t) : HandlerAct t → Unit → Option (Probed t × List (HandlerAct t))
  | .putKtid x, _ =>
      let k := putUser (x.ok .putKtid) (effectiveAddr t t.ktidOff x.slot)
        (x.pid.signExtend t.ulongBits) u.kernel
      some ({ u with kernel := k }, [.getUtid x])
  | .getUtid x, _ =>
      let (utidWord, k) := getUser (x.ok .getUtid) (effectiveAddr t t.utidOff x.slot) u.kernel
      some ({ u with kernel := checkTids x.pid (utidWord.setWidth 32) k }, [.getKcount x])
  | .getKcount x, _ =>
      let (kcount, k) := getUser (x.ok .getKcount) (effectiveAddr t t.kcountOff x.slot) u.kernel
      let next := if kcount = -1 then .putUcount x kcount else .putKcount x kcount
      some ({ u with kernel := k }, [next])
  | .putUcount x kcount, _ =>
      let k := putUser (x.ok .putUcount) (effectiveAddr t t.ucountOff x.slot) kcount u.kernel
      some ({ u with kernel := k }, [.putKcount x kcount])
  | .putKcount x kcount, _ =>
      let k := putUser (x.ok .putKcount) (effectiveAddr t t.kcountOff x.slot) (kcount + 1) u.kernel
      some ({ u with kernel := k }, [.loadNumProbes])
  | .loadNumProbes, _ => some (u, [.storeNumProbes u.kernel.numProbes])
  | .storeNumProbes v, _ => some ({ u with kernel := { u.kernel with numProbes := v + 1 } }, [])

/-- A thread with the registers `regs` hits a probe. -/
def handlerHit (s : Activations (Probed t) (HandlerAct t)) (ok : UserAccess → Bool)
    (pid : BitVec 32) (regs : Regs) : Activations (Probed t) (HandlerAct t) :=
  ⟨{ s.shared with hits := s.shared.hits + 1 },
    s.acts ++ [.putKtid ⟨ok, pid, getFirstArg t regs s.shared.kernel.mem⟩]⟩

variable (t) in
def handlerSystem : System (Probed t) (HandlerAct t) Unit
    ((UserAccess → Bool) × BitVec 32 × Regs) where
  act := handlerAct
  main s m := some (handlerHit s m.1 m.2.1 m.2.2)

/-- Before the first hit. -/
def Probed.start (mem : ByteMem.Mem) : Activations (Probed t) (HandlerAct t) :=
  ⟨⟨⟨mem, [], 0⟩, 0⟩, []⟩

/-- Left to itself, a run of the activation does what `probe_handler` does. -/
theorem handlerAct_alone (ok : UserAccess → Bool) (pid : BitVec 32) (regs : Regs)
    (k : HandlerState t) (hits : Nat) :
    Reachable (handlerSystem t) .actsOnly ⟨⟨k, hits⟩, [.putKtid ⟨ok, pid, getFirstArg t regs k.mem⟩]⟩
      ⟨⟨(probeHandler ok pid regs k).1, hits⟩, []⟩ := by
  rw [probeHandler]
  dsimp only
  generalize getFirstArg t regs k.mem = slot
  have hputKtid : handlerAct ⟨k, hits⟩ (.putKtid ⟨ok, pid, slot⟩) () =
      some (⟨putUser (ok .putKtid) (effectiveAddr t t.ktidOff slot) (pid.signExtend t.ulongBits) k,
        hits⟩, [.getUtid ⟨ok, pid, slot⟩]) := rfl
  generalize putUser (ok .putKtid) _ _ k = k₁ at hputKtid ⊢
  have hgetUtid : handlerAct ⟨k₁, hits⟩ (.getUtid ⟨ok, pid, slot⟩) () =
      some (⟨checkTids pid
        ((getUser (ok .getUtid) (effectiveAddr t t.utidOff slot) k₁).1.setWidth 32)
        (getUser (ok .getUtid) (effectiveAddr t t.utidOff slot) k₁).2, hits⟩,
        [.getKcount ⟨ok, pid, slot⟩]) := rfl
  generalize checkTids pid _ _ = k₂ at hgetUtid ⊢
  have hgetKcount : handlerAct ⟨k₂, hits⟩ (.getKcount ⟨ok, pid, slot⟩) () =
      some (⟨(getUser (ok .getKcount) (effectiveAddr t t.kcountOff slot) k₂).2, hits⟩,
        [if (getUser (ok .getKcount) (effectiveAddr t t.kcountOff slot) k₂).1 = -1 then
          .putUcount ⟨ok, pid, slot⟩ (getUser (ok .getKcount) (effectiveAddr t t.kcountOff slot) k₂).1
        else
          .putKcount ⟨ok, pid, slot⟩
            (getUser (ok .getKcount) (effectiveAddr t t.kcountOff slot) k₂).1]) := rfl
  generalize getUser (ok .getKcount) _ k₂ = r at hgetKcount ⊢
  obtain ⟨kcount, k₃⟩ := r
  dsimp only at hgetKcount ⊢
  -- from the store of `kcount` on
  have hlast : ∀ k₄ : HandlerState t, Reachable (handlerSystem t) .actsOnly
      ⟨⟨k₄, hits⟩, [.putKcount ⟨ok, pid, slot⟩ kcount]⟩
      ⟨⟨{ putUser (ok .putKcount) (effectiveAddr t t.kcountOff slot) (kcount + 1) k₄ with
        numProbes := (putUser (ok .putKcount) (effectiveAddr t t.kcountOff slot) (kcount + 1)
          k₄).numProbes + 1 }, hits⟩, []⟩ := by
    intro k₄
    exact .trans (reachable_alone (o := ()) rfl) (.trans (reachable_alone (o := ()) rfl)
      (reachable_alone (o := ()) rfl))
  refine .trans (reachable_alone (o := ()) hputKtid) (.trans (reachable_alone (o := ()) hgetUtid)
    (.trans (reachable_alone (o := ()) hgetKcount) ?_))
  by_cases hfirst : kcount = -1
  · rw [if_pos hfirst, if_pos hfirst]
    exact .trans (reachable_alone (o := ()) rfl) (hlast _)
  · rw [if_neg hfirst, if_neg hfirst]
    exact hlast _

def HandlerAct.role : HandlerAct t → Role t.ulongBits
  | .loadNumProbes => .load
  | .storeNumProbes v => .store v
  | _ => .before

theorem putUser_numProbes (ok : Bool) (ea : Nat) (v : BitVec t.ulongBits) (k : HandlerState t) :
    (putUser ok ea v k).numProbes = k.numProbes := by
  cases ok <;> rfl

theorem getUser_numProbes (ok : Bool) (ea : Nat) (k : HandlerState t) :
    (getUser ok ea k).2.numProbes = k.numProbes := by
  cases ok <;> rfl

theorem checkTids_numProbes (ktid utid : BitVec 32) (k : HandlerState t) :
    (checkTids ktid utid k).numProbes = k.numProbes := by
  rw [checkTids]
  split <;> rfl

variable (t) in
/-- `num_probes++` as the increment of a run of `probe_handler`. -/
def numProbesIncrements : Increments (handlerSystem t) t.ulongBits where
  counter u := u.kernel.numProbes
  entered u := u.hits
  role := HandlerAct.role
  act_before {u a o u' new} h hrole := by
    cases a with
    | putKtid x =>
        cases h
        exact ⟨putUser_numProbes _ _ _ _, rfl, _, rfl, Or.inl rfl⟩
    | getUtid x =>
        cases h
        exact ⟨(checkTids_numProbes _ _ _).trans (getUser_numProbes _ _ _), rfl, _, rfl, Or.inl rfl⟩
    | getKcount x =>
        cases h
        refine ⟨getUser_numProbes _ _ _, rfl, _, rfl, Or.inl ?_⟩
        split <;> rfl
    | putUcount x kcount =>
        cases h
        exact ⟨putUser_numProbes _ _ _ _, rfl, _, rfl, Or.inl rfl⟩
    | putKcount x kcount =>
        cases h
        exact ⟨putUser_numProbes _ _ _ _, rfl, _, rfl, Or.inr rfl⟩
    | loadNumProbes => cases hrole
    | storeNumProbes v => cases hrole
  act_load {u a o u' new} h hrole := by
    cases a with
    | loadNumProbes =>
        cases h
        exact ⟨rfl, rfl, _, rfl, rfl⟩
    | _ => cases hrole
  act_store {u a o u' new v} h hrole := by
    cases a with
    | storeNumProbes v' =>
        cases hrole
        cases h
        exact ⟨rfl, rfl, rfl⟩
    | _ => cases hrole
  main {s m s'} h := by
    cases h
    exact ⟨rfl, rfl, _, rfl, Or.inl rfl⟩

end ProbeHandler

/-! ## ncalls -/

section AddInst

/-- What a run of `add_inst` is about to do. -/
inductive AddAct where
  | print
  | loadNcalls
  | storeNcalls (v : BitVec 32)
deriving DecidableEq

/-- The globals of probe5.c, the texts handed to `test_printk`, and the number
    of hits so far. -/
structure Probe5 where
  ncalls : BitVec 32
  printed : List String
  hits : Nat
deriving DecidableEq

def Probe5.start : Activations Probe5 AddAct := ⟨⟨0, [], 0⟩, []⟩

variable (verbose : Bool)

def addAct (u : Probe5) : AddAct → Unit → Option (Probe5 × List AddAct)
  | .print, _ =>
      let printed := if verbose then u.printed ++ ["add() called\n"] else u.printed
      some ({ u with printed := printed }, [.loadNcalls])
  | .loadNcalls, _ => some (u, [.storeNcalls u.ncalls])
  | .storeNcalls v, _ => some ({ u with ncalls := v + 1 }, [])

def addSystem : System Probe5 AddAct Unit Unit where
  act := addAct verbose
  main s _ := some ⟨{ s.shared with hits := s.shared.hits + 1 }, s.acts ++ [.print]⟩

def AddAct.role : AddAct → Role 32
  | .print => .before
  | .loadNcalls => .load
  | .storeNcalls v => .store v

/-- `ncalls++` as the increment of a run of `add_inst`. -/
def ncallsIncrements : Increments (addSystem verbose) 32 where
  counter u := u.ncalls
  entered u := u.hits
  role := AddAct.role
  act_before {u a o u' new} h hrole := by
    cases a with
    | print =>
        cases h
        exact ⟨rfl, rfl, _, rfl, Or.inr rfl⟩
    | _ => cases hrole
  act_load {u a o u' new} h hrole := by
    cases a with
    | loadNcalls =>
        cases h
        exact ⟨rfl, rfl, _, rfl, rfl⟩
    | _ => cases hrole
  act_store {u a o u' new v} h hrole := by
    cases a with
    | storeNcalls v' =>
        cases hrole
        cases h
        exact ⟨rfl, rfl, rfl⟩
    | _ => cases hrole
  main {s m s'} h := by
    cases h
    exact ⟨rfl, rfl, _, rfl, Or.inl rfl⟩

end AddInst

/-! ## The totals -/

/-- No handler loads `num_probes` while another is about to store it. -/
def numProbesGuard (t : Target) : Guard (Probed t) (HandlerAct t) Unit
    ((UserAccess → Bool) × BitVec 32 × Regs) := (numProbesIncrements t).oneAtATime

/-- No handler loads `ncalls` while another is about to store it. -/
def ncallsGuard (verbose : Bool) : Guard Probe5 AddAct Unit Unit :=
  (ncallsIncrements verbose).oneAtATime

theorem numProbes_eq_hits {t : Target} {mem : ByteMem.Mem}
    {s : Activations (Probed t) (HandlerAct t)}
    (h : Reachable (handlerSystem t) (numProbesGuard t) (Probed.start mem) s) (hdone : s.acts = [])
    (hlt : s.shared.hits < 2 ^ t.ulongBits) :
    s.shared.kernel.numProbes.toNat = s.shared.hits := by
  have hcounter : s.shared.kernel.numProbes = BitVec.ofNat t.ulongBits s.shared.hits :=
    Increments.counter_eq_entered (C := numProbesIncrements t) h rfl rfl hdone
  rw [hcounter, BitVec.toNat_ofNat, Nat.mod_eq_of_lt hlt]

theorem ncalls_eq_hits {verbose : Bool} {s : Activations Probe5 AddAct}
    (h : Reachable (addSystem verbose) (ncallsGuard verbose) Probe5.start s) (hdone : s.acts = [])
    (hlt : s.shared.hits < 2 ^ 31) : s.shared.ncalls.toInt = s.shared.hits := by
  have hcounter : s.shared.ncalls = BitVec.ofNat 32 s.shared.hits :=
    Increments.counter_eq_entered (C := ncallsIncrements verbose) h rfl rfl hdone
  have htoNat : (BitVec.ofNat 32 s.shared.hits).toNat = s.shared.hits := by
    rw [BitVec.toNat_ofNat, Nat.mod_eq_of_lt (by omega)]
  rw [hcounter, BitVec.toInt_eq_toNat_of_lt (by omega), htoNat]

/-- In the runs without such an overlap the totals are the numbers of handler
    runs, when all have ended and as long as the counter is wide enough. -/
theorem totals_eq_hits {t : Target} {mem : ByteMem.Mem} {verbose : Bool}
    {s : Activations (Probed t) (HandlerAct t)} {s' : Activations Probe5 AddAct}
    (h : Reachable (handlerSystem t) (numProbesGuard t) (Probed.start mem) s)
    (h' : Reachable (addSystem verbose) (ncallsGuard verbose) Probe5.start s') :
    (s.acts = [] → s.shared.hits < 2 ^ t.ulongBits →
      s.shared.kernel.numProbes.toNat = s.shared.hits) ∧
    (s'.acts = [] → s'.shared.hits < 2 ^ 31 → s'.shared.ncalls.toInt = s'.shared.hits) :=
  ⟨numProbes_eq_hits h, ncalls_eq_hits h'⟩

/-- One hit from entry to end. -/
def oneHit : List (Choice Unit ((UserAccess → Bool) × BitVec 32 × Regs)) :=
  [.main (fun _ => true, 7, ⟨4096, 0⟩), .act 0 (), .act 0 (), .act 0 (), .act 0 (), .act 0 (),
    .act 0 ()]

/-- Two hits one after the other, in either module. -/
theorem totals_eq_hits_oneAfterOther :
    (∃ s, Reachable (handlerSystem .x86_64) (numProbesGuard .x86_64) (Probed.start fun _ => 0) s ∧
      s.shared.hits = 2 ∧ s.shared.kernel.numProbes.toNat = s.shared.hits) ∧
    ∃ s, Reachable (addSystem true) (ncallsGuard true) Probe5.start s ∧
      s.shared.hits = 2 ∧ s.shared.ncalls.toInt = s.shared.hits := by
  obtain ⟨s, h, hs⟩ := exists_reachable_of_execAll (S := handlerSystem .x86_64)
    (G := numProbesGuard .x86_64) (s := Probed.start fun _ => 0) (oneHit ++ oneHit)
    (fun s => s.acts.isEmpty && s.shared.hits == 2) (by decide)
  obtain ⟨s', h', hs'⟩ := exists_reachable_of_execAll (S := addSystem true)
    (G := ncallsGuard true) (s := Probe5.start)
    [.main (), .act 0 (), .act 0 (), .act 0 (), .main (), .act 0 (), .act 0 (), .act 0 ()]
    (fun s => s.acts.isEmpty && s.shared.hits == 2) (by decide)
  rw [Bool.and_eq_true, List.isEmpty_iff, beq_iff_eq] at hs hs'
  obtain ⟨htotal, htotal'⟩ := totals_eq_hits h h'
  exact ⟨⟨s, h, hs.2, htotal hs.1 (by rw [hs.2]; decide)⟩,
    ⟨s', h', hs'.2, htotal' hs'.1 (by rw [hs'.2]; decide)⟩⟩

/-- Two threads that hit `_probe_0` at the same time. -/
def overlap : List (Choice Unit ((UserAccess → Bool) × BitVec 32 × Regs)) :=
  [.main (fun _ => true, 7, ⟨4096, 0⟩), .main (fun _ => true, 8, ⟨8192, 0⟩), .act 0 (), .act 0 (),
    .act 0 (), .act 0 (), .act 1 (), .act 1 (), .act 1 (), .act 1 (), .act 0 (), .act 1 (),
    .act 0 (), .act 0 ()]

/-- Two handler runs that have both ended, and a total of 1, in either module. -/
theorem overlap_loses_increment :
    (∃ s, Reachable (handlerSystem .x86_64) .all (Probed.start fun _ => 0) s ∧ s.acts = [] ∧
      s.shared.hits = 2 ∧ s.shared.kernel.numProbes.toNat = 1) ∧
    ∃ s, Reachable (addSystem false) .all Probe5.start s ∧ s.acts = [] ∧
      s.shared.hits = 2 ∧ s.shared.ncalls.toInt = 1 := by
  constructor
  · obtain ⟨s, h, hs⟩ := exists_reachable_of_execAll (S := handlerSystem .x86_64) (G := .all)
      (s := Probed.start fun _ => 0) overlap
      (fun s => s.acts.isEmpty && s.shared.hits == 2 && s.shared.kernel.numProbes == 1)
      (by decide)
    rw [Bool.and_eq_true, Bool.and_eq_true, List.isEmpty_iff, beq_iff_eq, beq_iff_eq] at hs
    exact ⟨s, h, hs.1.1, hs.1.2, by rw [hs.2]; decide⟩
  · obtain ⟨s, h, hs⟩ := exists_reachable_of_execAll (S := addSystem false) (G := .all)
      (s := Probe5.start) [.main (), .main (), .act 0 (), .act 1 (), .act 0 (), .act 1 (),
        .act 0 (), .act 0 ()]
      (fun s => s.acts.isEmpty && s.shared.hits == 2 && s.shared.ncalls == 1) (by decide)
    rw [Bool.and_eq_true, Bool.and_eq_true, List.isEmpty_iff, beq_iff_eq, beq_iff_eq] at hs
    exact ⟨s, h, hs.1.1, hs.1.2, by rw [hs.2]; decide⟩

/-- The condition is needed: one overlapping load and the total stays too small. -/
theorem numProbes_lt_hits_of_overlap {t : Target} {mem : ByteMem.Mem} {u : Probed t}
    {before after : List (HandlerAct t)} {v : BitVec t.ulongBits}
    {s : Activations (Probed t) (HandlerAct t)}
    (h₁ : Reachable (handlerSystem t) .all (Probed.start mem) ⟨u, before ++ .loadNumProbes :: after⟩)
    (hother : .storeNumProbes v ∈ before ++ after)
    (h₂ : Reachable (handlerSystem t) .all
      ⟨u, before ++ [.storeNumProbes u.kernel.numProbes] ++ after⟩ s)
    (hdone : s.acts = []) (hlt : s.shared.hits < 2 ^ t.ulongBits) :
    s.shared.kernel.numProbes.toNat < s.shared.hits :=
  Increments.counter_lt_entered_of_overlap (C := numProbesIncrements t) (o := ()) h₁ rfl rfl
    ⟨_, hother, v, rfl⟩ h₂ rfl rfl hdone hlt

theorem ncalls_lt_hits_of_overlap {verbose : Bool} {u : Probe5} {before after : List AddAct}
    {v : BitVec 32} {s : Activations Probe5 AddAct}
    (h₁ : Reachable (addSystem verbose) .all Probe5.start ⟨u, before ++ .loadNcalls :: after⟩)
    (hother : .storeNcalls v ∈ before ++ after)
    (h₂ : Reachable (addSystem verbose) .all ⟨u, before ++ [.storeNcalls u.ncalls] ++ after⟩ s)
    (hdone : s.acts = []) (hlt : s.shared.hits < 2 ^ 32) :
    s.shared.ncalls.toNat < s.shared.hits :=
  Increments.counter_lt_entered_of_overlap (C := ncallsIncrements verbose) (o := ()) h₁ rfl rfl
    ⟨_, hother, v, rfl⟩ h₂ rfl rfl hdone hlt

end HitCounts

end UprobeTests
