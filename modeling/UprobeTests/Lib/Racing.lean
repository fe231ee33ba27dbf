/-
  UprobeTests.Lib.Racing

  Threads that each make calls one after the other, where a call is an
  activation that increments a counter (`Increments`).  Their runs are the races
  of `UprobeTests.Lib.Race`, step by step and in both directions (`forward`,
  `backward`), so the counters they can end with are known (`totals_iff`).
-/

import UprobeTests.Lib.Increments
import UprobeTests.Lib.Race

namespace UprobeTests.Racing

open Activations

variable {σ α ω μ : Type}

/-- For each thread what it is about to do: the calls to come, and in front of
    them the activation of the call it is in. -/
structure Threads (σ α μ : Type) where
  shared : σ
  threads : List (List (μ ⊕ α))

/-- A thread begins its next call, or takes a step of the one it is in. -/
inductive Step (S : System σ α ω μ) : Threads σ α μ → Threads σ α μ → Prop where
  | call {u before m rest after u' new} (h : S.main ⟨u, []⟩ m = some ⟨u', new⟩) :
      Step S ⟨u, before ++ (.inl m :: rest) :: after⟩
        ⟨u', before ++ (new.map .inr ++ rest) :: after⟩
  | act {u before a rest after o u' new} (h : S.act u a o = some (u', new)) :
      Step S ⟨u, before ++ (.inr a :: rest) :: after⟩
        ⟨u', before ++ (new.map .inr ++ rest) :: after⟩

/-- Before the first call. -/
def start (u : σ) (calls : List (List μ)) : Threads σ α μ := ⟨u, calls.map (List.map .inl)⟩

def Reachable (S : System σ α ω μ) (s s' : Threads σ α μ) : Prop :=
  Relation.ReflTransGen (Step S) s s'

/-- All calls have been made and are over. -/
def Threads.Finished (s : Threads σ α μ) : Prop := ∀ τ ∈ s.threads, τ = []

/-- Calls can always be begun and carried on, and come to an end. -/
structure Enabled (S : System σ α ω μ) : Prop where
  main : ∀ u m, ∃ s', S.main ⟨u, []⟩ m = some s'
  act : ∀ u a, ∃ o r, S.act u a o = some r
  ends : ∀ a, Acc S.Follows a

variable {S : System σ α ω μ} {w : Nat} (C : Increments S w)

/-- Calls end when every step lowers the rank. -/
theorem acc_of_rank {rank : α → Nat} (h : ∀ u a o u' new, S.act u a o = some (u', new) →
    ∀ b ∈ new, rank b < rank a) (a : α) : Acc S.Follows a := by
  have hsub : Subrelation S.Follows (InvImage (· < ·) rank) := by
    rintro b a ⟨u, o, u', new, hact, hb⟩
    exact h u a o u' new hact b hb
  exact hsub.accessible ((InvImage.wf rank Nat.lt_wfRel.wf).apply a)

/-! ## Threads as racers -/

/-- The increments not begun, and the value loaded for the one in progress. -/
def view : List (μ ⊕ α) → Nat × Option Nat
  | [] => (0, none)
  | .inl _ :: rest => (rest.length + 1, none)
  | .inr a :: rest =>
      match C.role a with
      | .store v => (rest.length, some v.toNat)
      | .before => (rest.length + 1, none)
      | .load => (rest.length + 1, none)

def core (r : Race.Racer) : Nat × Option Nat := (r.left, r.loaded)

/-- The threads are the racers, and the counter is the same. -/
structure Sim (s : Threads σ α μ) (r : Race.State) : Prop where
  counter : (C.counter s.shared).toNat = r.counter
  racers : r.racers.map core = (s.threads.map (view C) : List (Nat × Option Nat))
  later : ∀ τ ∈ s.threads, ∀ x ∈ τ.tail, x.isLeft = true

variable {C}

theorem view_of_later {τ : List (μ ⊕ α)} (h : ∀ x ∈ τ, x.isLeft = true) :
    view C τ = (τ.length, none) := by
  cases τ with
  | nil => rfl
  | cons x rest =>
      cases x with
      | inl m => rfl
      | inr a => cases h _ List.mem_cons_self

/-- A call in front of its increment. -/
theorem view_fresh {b : α} (rest : List (μ ⊕ α)) (hb : C.role b = .before ∨ C.role b = .load) :
    view C (.inr b :: rest) = (rest.length + 1, none) := by
  rcases hb with hb | hb <;> rw [view, hb]

theorem view_store {b : α} {rest : List (μ ⊕ α)} {v : BitVec w} (hb : C.role b = .store v) :
    view C (.inr b :: rest) = (rest.length, some v.toNat) := by
  rw [view, hb]

theorem eq_nil_of_view {τ : List (μ ⊕ α)} (h : view C τ = (0, none)) : τ = [] := by
  cases τ with
  | nil => rfl
  | cons x rest =>
      cases x with
      | inl m => cases h
      | inr a =>
          rw [view] at h
          split at h <;> simp at h

/-- The racer of a thread, beside those of the others. -/
theorem Sim.split {u : σ} {before after : List (List (μ ⊕ α))} {τ : List (μ ⊕ α)} {r : Race.State}
    (h : Sim C ⟨u, before ++ τ :: after⟩ r) :
    ∃ racer rest, r.racers = racer ::ₘ rest ∧ core racer = view C τ ∧
      rest.map core = ((before ++ after).map (view C) : List (Nat × Option Nat)) := by
  classical
  have hracers : r.racers.map core =
      view C τ ::ₘ (((before ++ after).map (view C) : List _) : Multiset (Nat × Option Nat)) := by
    rw [h.racers, Multiset.cons_coe, Multiset.coe_eq_coe, List.map_append, List.map_cons,
      List.map_append]
    exact List.perm_middle
  obtain ⟨racer, hmem, hcore, hrest⟩ := (Multiset.map_eq_cons core _ _ _).mpr hracers
  exact ⟨racer, _, (Multiset.cons_erase hmem).symm, hcore, hrest⟩

/-- A thread that has moved on, and its racer. -/
theorem Sim.join (u : σ) (racer : Race.Racer) {before after : List (List (μ ⊕ α))}
    {τ : List (μ ⊕ α)} {rest : Multiset Race.Racer}
    (hrest : rest.map core = ((before ++ after).map (view C) : List (Nat × Option Nat)))
    (hcore : core racer = view C τ)
    (hlater : ∀ τ' ∈ before ++ τ :: after, ∀ x ∈ τ'.tail, x.isLeft = true) :
    Sim C ⟨u, before ++ τ :: after⟩ ⟨(C.counter u).toNat, racer ::ₘ rest⟩ := by
  refine ⟨rfl, ?_, hlater⟩
  rw [Multiset.map_cons, hrest, hcore, Multiset.cons_coe, Multiset.coe_eq_coe, List.map_append,
    List.map_append, List.map_cons]
  exact List.perm_middle.symm

theorem later_of_split {before after : List (List (μ ⊕ α))} {x : μ ⊕ α} {rest τ : List (μ ⊕ α)}
    (h : ∀ τ' ∈ before ++ (x :: rest) :: after, ∀ y ∈ τ'.tail, y.isLeft = true)
    (hτ : ∀ y ∈ τ.tail, y ∈ rest) :
    ∀ τ' ∈ before ++ τ :: after, ∀ y ∈ τ'.tail, y.isLeft = true := by
  intro τ' hτ' y hy
  rcases mem_acts_iff.mp hτ' with rfl | hτ'
  · exact h _ (mem_acts_iff.mpr (Or.inl rfl)) y (hτ y hy)
  · exact h τ' (mem_acts_iff.mpr (Or.inr hτ')) y hy

/-! ## Every step is one of the race, or none -/

theorem forward {vs : Multiset Nat} (hvs : vs.sum < 2 ^ w) {s s' : Threads σ α μ} {r : Race.State}
    (hinv : Race.Inv vs r) (h : Sim C s r) (hs : Step S s s') :
    ∃ r', Race.Steps r r' ∧ Sim C s' r' := by
  have hcounter := h.counter
  have hlater := h.later
  cases hs with
  | @call u before m rest after u' new hm =>
      obtain ⟨hc, -, b, hnew, hb⟩ := C.main hm
      obtain rfl : new = [b] := hnew
      obtain ⟨racer, racers, hr, hcore, hrest⟩ := h.split
      have hsim := Sim.join u' racer hrest (hcore.trans (view_fresh rest hb).symm)
        (later_of_split hlater fun y hy => hy)
      rw [hc, hcounter, ← hr] at hsim
      exact ⟨r, .refl, hsim⟩
  | @act u before a rest after o u' new ha =>
      obtain ⟨racer, racers, hr, hcore, hrest⟩ := h.split
      obtain ⟨c, rs⟩ := r
      obtain rfl : rs = racer ::ₘ racers := hr
      obtain rfl : (C.counter u).toNat = c := hcounter
      cases hrole : C.role a with
      | before =>
          obtain ⟨hc, -, b, rfl, hb⟩ := C.act_before ha hrole
          have hview := (view_fresh rest (Or.inl hrole)).trans (view_fresh rest hb).symm
          have hsim := Sim.join u' racer hrest (hcore.trans hview)
            (later_of_split hlater fun y hy => hy)
          rw [hc] at hsim
          exact ⟨_, .refl, hsim⟩
      | load =>
          obtain ⟨hc, -, b, rfl, hb⟩ := C.act_load ha hrole
          obtain ⟨made, left, loaded⟩ := racer
          rw [view_fresh rest (Or.inr hrole)] at hcore
          obtain ⟨rfl, rfl⟩ := Prod.mk.inj hcore
          have hsim := Sim.join u' ⟨made, rest.length, some (C.counter u).toNat⟩
            hrest (view_store hb).symm (later_of_split hlater fun y hy => hy)
          rw [hc] at hsim
          exact ⟨_, .single (.load _ made rest.length racers), hsim⟩
      | store v =>
          obtain ⟨hc, -, rfl⟩ := C.act_store ha hrole
          obtain ⟨made, left, loaded⟩ := racer
          rw [view_store hrole] at hcore
          obtain ⟨rfl, rfl⟩ := Prod.mk.inj hcore
          have hrestLater : ∀ x ∈ rest, x.isLeft = true :=
            hlater (.inr a :: rest) (mem_acts_iff.mpr (Or.inl rfl))
          have hsim := Sim.join u' ⟨made + 1, rest.length, none⟩ hrest
            (view_of_later hrestLater).symm
            (later_of_split hlater fun y hy => List.mem_of_mem_tail hy)
          have hstep := Race.Step.store (C.counter u).toNat made rest.length v.toNat racers
          -- the value stored is no more than the increments there are
          have hmade := (hinv.step hstep).made_le
          have hcounter' := (hinv.step hstep).counter
          have hlt : v.toNat < vs.sum := by
            show v.toNat + 1 ≤ vs.sum
            exact Nat.le_trans hcounter' hmade
          rw [hc, Increments.toNat_add_one hlt hvs] at hsim
          exact ⟨_, .single hstep, hsim⟩

/-! ## Every step of the race can be taken -/

/-- A call that has not come to its increment comes to it. -/
theorem reaches_load (he : Enabled S) {b : α} (hb : C.role b = .before ∨ C.role b = .load) (u : σ)
    (before after : List (List (μ ⊕ α))) (rest : List (μ ⊕ α)) :
    ∃ u' a, C.counter u' = C.counter u ∧ C.role a = .load ∧
      Reachable S ⟨u, before ++ (.inr b :: rest) :: after⟩
        ⟨u', before ++ (.inr a :: rest) :: after⟩ := by
  induction he.ends b generalizing u with
  | intro b _ ih =>
      rcases hb with hb | hb
      · obtain ⟨o, ⟨u', new⟩, hact⟩ := he.act u b
        obtain ⟨hc, -, b', rfl, hb'⟩ := C.act_before hact hb
        obtain ⟨u'', a, hc', ha, hrun⟩ := ih b' ⟨u, o, u', _, hact, List.mem_cons_self⟩ hb' u'
        exact ⟨u'', a, hc'.trans hc, ha, .head (.act hact) hrun⟩
      · exact ⟨u, b, rfl, hb, .refl⟩

/-- So does a call that has not been begun. -/
theorem reaches_load_of_view (he : Enabled S) {τ : List (μ ⊕ α)} {k : Nat}
    (hview : view C τ = (k + 1, none)) (u : σ) (before after : List (List (μ ⊕ α))) :
    ∃ u' a, C.counter u' = C.counter u ∧ C.role a = .load ∧ τ.tail.length = k ∧
      Reachable S ⟨u, before ++ τ :: after⟩ ⟨u', before ++ (.inr a :: τ.tail) :: after⟩ := by
  cases τ with
  | nil => cases hview
  | cons x rest =>
      cases x with
      | inl m =>
          obtain ⟨⟨u₁, new⟩, hmain⟩ := he.main u m
          obtain ⟨hc, -, b, hnew, hb⟩ := C.main hmain
          obtain rfl : new = [b] := hnew
          obtain ⟨u', a, hc', ha, hrun⟩ := reaches_load he hb u₁ before after rest
          refine ⟨u', a, hc'.trans hc, ha, ?_, .head (.call hmain) hrun⟩
          exact Nat.succ.inj (Prod.mk.inj hview).1
      | inr b =>
          -- the thread has loaded nothing, so it is not about to store
          have hb : C.role b = .before ∨ C.role b = .load := by
            cases hrole : C.role b with
            | before => exact Or.inl rfl
            | load => exact Or.inr rfl
            | store v =>
                rw [view_store hrole] at hview
                cases (Prod.mk.inj hview).2
          obtain ⟨u', a, hc, ha, hrun⟩ := reaches_load he hb u before after rest
          rw [view_fresh rest hb] at hview
          exact ⟨u', a, hc, ha, Nat.succ.inj (Prod.mk.inj hview).1, hrun⟩

/-- The thread of a racer, among the others. -/
theorem Sim.thread {s : Threads σ α μ} {c : Nat} {racer : Race.Racer} {rest : Multiset Race.Racer}
    (h : Sim C s ⟨c, racer ::ₘ rest⟩) :
    ∃ u before τ after, s = ⟨u, before ++ τ :: after⟩ ∧ (C.counter u).toNat = c ∧
      view C τ = core racer ∧
      rest.map core = ((before ++ after).map (view C) : List (Nat × Option Nat)) := by
  obtain ⟨u, threads⟩ := s
  have hracers := h.racers
  rw [Multiset.map_cons] at hracers
  have hmem : core racer ∈ threads.map (view C) := by
    rw [← Multiset.mem_coe, ← hracers]
    exact Multiset.mem_cons_self _ _
  obtain ⟨τ, hτ, hview⟩ := List.mem_map.mp hmem
  obtain ⟨before, after, rfl⟩ := List.append_of_mem hτ
  refine ⟨u, before, τ, after, rfl, h.counter, hview, ?_⟩
  have hperm : ((before ++ τ :: after).map (view C) : List _).Perm
      (view C τ :: (before ++ after).map (view C)) := by
    rw [List.map_append, List.map_cons, List.map_append]
    exact List.perm_middle
  rw [Multiset.coe_eq_coe.mpr hperm, hview, ← Multiset.cons_coe] at hracers
  exact (Multiset.cons_inj_right _).mp hracers

theorem backward (he : Enabled S) {vs : Multiset Nat} (hvs : vs.sum < 2 ^ w) {s : Threads σ α μ}
    {r r' : Race.State} (hinv : Race.Inv vs r) (h : Sim C s r) (hs : Race.Step r r') :
    ∃ s', Reachable S s s' ∧ Sim C s' r' := by
  have hinv' := hinv.step hs
  cases hs with
  | load c made left racers =>
      obtain ⟨u, before, τ, after, rfl, hcounter, hview, hrest⟩ := h.thread
      obtain ⟨u₁, a, hc, ha, hlen, hrun⟩ := reaches_load_of_view he hview u before after
      obtain ⟨o, ⟨u', new⟩, hact⟩ := he.act u₁ a
      obtain ⟨hc', -, b, rfl, hb⟩ := C.act_load hact ha
      have hlater : ∀ τ' ∈ before ++ (.inr b :: τ.tail) :: after, ∀ x ∈ τ'.tail,
          x.isLeft = true := by
        intro τ' hτ' x hx
        rcases mem_acts_iff.mp hτ' with rfl | hτ'
        · exact h.later τ (mem_acts_iff.mpr (Or.inl rfl)) x hx
        · exact h.later τ' (mem_acts_iff.mpr (Or.inr hτ')) x hx
      have hsim := Sim.join u' ⟨made, left, some c⟩ hrest
        (by rw [view_store hb, hlen, hc, hcounter]; rfl) hlater
      rw [hc', hc, hcounter] at hsim
      exact ⟨_, hrun.tail (.act hact), hsim⟩
  | store c made left v racers =>
      obtain ⟨u, before, τ, after, rfl, hcounter, hview, hrest⟩ := h.thread
      -- a thread that has loaded has its store in front
      obtain ⟨a, rest, x, rfl, ha, hlen, rfl⟩ : ∃ a rest x, τ = .inr a :: rest ∧
          C.role a = .store x ∧ rest.length = left ∧ x.toNat = v := by
        cases τ with
        | nil => cases hview
        | cons y rest =>
            cases y with
            | inl m => cases (Prod.mk.inj hview).2
            | inr a =>
                cases hrole : C.role a with
                | before =>
                    rw [view_fresh rest (Or.inl hrole)] at hview
                    cases (Prod.mk.inj hview).2
                | load =>
                    rw [view_fresh rest (Or.inr hrole)] at hview
                    cases (Prod.mk.inj hview).2
                | store x =>
                    rw [view_store hrole] at hview
                    obtain ⟨hlen, hx⟩ := Prod.mk.inj hview
                    exact ⟨a, rest, x, rfl, hrole, hlen, Option.some.inj hx⟩
      obtain ⟨o, ⟨u', new⟩, hact⟩ := he.act u a
      obtain ⟨hc, -, rfl⟩ := C.act_store hact ha
      have hrestLater : ∀ y ∈ rest, y.isLeft = true :=
        h.later (.inr a :: rest) (mem_acts_iff.mpr (Or.inl rfl))
      have hsim := Sim.join u' ⟨made + 1, left, none⟩ hrest
        (by rw [view_of_later hrestLater, hlen]; rfl)
        (later_of_split h.later fun y hy => List.mem_of_mem_tail hy)
      have hlt : x.toNat < vs.sum := Nat.le_trans hinv'.counter hinv'.made_le
      rw [hc, Increments.toNat_add_one hlt hvs] at hsim
      exact ⟨_, .single (.act hact), hsim⟩

/-! ## Whole runs -/

theorem sim_start {u : σ} (calls : List (List μ)) (hzero : C.counter u = 0) :
    Sim C (start u calls) (Race.start (calls.map List.length : List Nat)) := by
  have hinl (call : List μ) : ∀ x ∈ call.map (Sum.inl : μ → μ ⊕ α), x.isLeft = true := by
    intro x hx
    obtain ⟨m, -, rfl⟩ := List.mem_map.mp hx
    rfl
  refine ⟨?_, ?_, ?_⟩
  · show (C.counter u).toNat = 0
    rw [hzero]
    exact BitVec.toNat_zero
  · rw [Race.start, start, Multiset.map_map, List.map_map, Multiset.map_coe, List.map_map]
    refine congrArg _ (List.map_congr_left fun call _ => ?_)
    have hview : view C (call.map (Sum.inl : μ → μ ⊕ α)) = (call.length, none) := by
      rw [view_of_later (hinl call), List.length_map]
    exact hview.symm
  · intro τ hτ x hx
    obtain ⟨call, -, rfl⟩ := List.mem_map.mp hτ
    exact hinl call x (List.mem_of_mem_tail hx)

theorem Sim.finished_iff {s : Threads σ α μ} {r : Race.State} (h : Sim C s r) :
    s.Finished ↔ r.Finished := by
  have hracers : (∀ x ∈ r.racers.map core, x = (0, none)) ↔
      ∀ x ∈ s.threads.map (view C), x = (0, none) := by
    rw [h.racers]
    rfl
  rw [Multiset.forall_mem_map_iff, List.forall_mem_map] at hracers
  constructor
  · intro hfin racer hracer
    have hcore := hracers.mpr (fun τ hτ => by rw [hfin τ hτ]; rfl) racer hracer
    exact Prod.mk.inj hcore
  · intro hfin τ hτ
    apply eq_nil_of_view (C := C)
    apply hracers.mp (fun racer hracer => ?_) τ hτ
    obtain ⟨hleft, hloaded⟩ := hfin racer hracer
    rw [core, hleft, hloaded]

variable {u : σ} {calls : List (List μ)}

theorem forward_run (hzero : C.counter u = 0)
    (hlt : (calls.map List.length).sum < 2 ^ w) {s : Threads σ α μ}
    (h : Reachable S (start u calls) s) :
    ∃ r, Race.Reachable (calls.map List.length : List Nat) r ∧ Sim C s r := by
  induction h with
  | refl => exact ⟨_, .refl, sim_start calls hzero⟩
  | tail _ hs ih =>
      obtain ⟨r, hrun, hsim⟩ := ih
      obtain ⟨r', hsteps, hsim'⟩ := forward (by rwa [Multiset.sum_coe]) hrun.inv hsim hs
      exact ⟨r', Relation.ReflTransGen.trans hrun hsteps, hsim'⟩

theorem backward_run (he : Enabled S) (hzero : C.counter u = 0)
    (hlt : (calls.map List.length).sum < 2 ^ w) {r : Race.State}
    (h : Race.Reachable (calls.map List.length : List Nat) r) :
    ∃ s, Reachable S (start u calls) s ∧ Sim C s r := by
  induction h with
  | refl => exact ⟨_, .refl, sim_start calls hzero⟩
  | tail hrun hs ih =>
      obtain ⟨s, hreach, hsim⟩ := ih
      obtain ⟨s', hsteps, hsim'⟩ := backward he (by rwa [Multiset.sum_coe])
        (Race.Reachable.inv hrun) hsim hs
      exact ⟨s', hreach.trans hsteps, hsim'⟩

/-- The counters that the runs of the threads can end with. -/
theorem totals_iff (he : Enabled S) (hzero : C.counter u = 0)
    (hlt : (calls.map List.length).sum < 2 ^ w) (m : Nat) :
    (∃ s, Reachable S (start u calls) s ∧ s.Finished ∧ (C.counter s.shared).toNat = m) ↔
      Race.least (calls.map List.length : List Nat) ≤ m ∧ m ≤ (calls.map List.length).sum := by
  rw [← Multiset.sum_coe, ← Race.ends_iff]
  constructor
  · rintro ⟨s, hrun, hfin, hm⟩
    obtain ⟨r, hrun', hsim⟩ := forward_run hzero hlt hrun
    exact ⟨r, hrun', hsim.finished_iff.mp hfin, hsim.counter.symm.trans hm⟩
  · rintro ⟨r, hrun, hfin, hm⟩
    obtain ⟨s, hrun', hsim⟩ := backward_run he hzero hlt hrun
    exact ⟨s, hrun', hsim.finished_iff.mpr hfin, hsim.counter.trans hm⟩

end UprobeTests.Racing
