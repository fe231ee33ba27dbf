/-
  UprobeTests.Lib.Race

  Racers that increment a shared counter, each a number of times, by a load and
  a later store of the value loaded plus one.  They are in no order, and between
  a load and its store any of the others may take steps.

  The counters such a race can end with are known exactly (`ends_iff`): all from
  the number of increments down to `least`, which is 2, or 1 where some racer
  makes a single increment.
-/

import Mathlib.Logic.Relation
import Mathlib.Algebra.BigOperators.Group.Multiset.Basic
import Mathlib.Algebra.Order.BigOperators.Group.Multiset
import Mathlib.Algebra.Order.Group.Nat

namespace UprobeTests.Race

/-- `made` increments are behind the racer and `left` have not been begun. -/
structure Racer where
  made : Nat
  left : Nat
  /-- what has been loaded for the increment in progress -/
  loaded : Option Nat

namespace Racer

/-- The increment in progress. -/
def begun (r : Racer) : Nat := if r.loaded.isSome then 1 else 0

def total (r : Racer) : Nat := r.made + r.left + r.begun

/-- All increments are made. -/
def Done (r : Racer) : Prop := r.left = 0 ∧ r.loaded = none

end Racer

structure State where
  counter : Nat
  racers : Multiset Racer

inductive Step : State → State → Prop where
  | load (c made left : Nat) (rest : Multiset Racer) :
      Step ⟨c, ⟨made, left + 1, none⟩ ::ₘ rest⟩ ⟨c, ⟨made, left, some c⟩ ::ₘ rest⟩
  | store (c made left v : Nat) (rest : Multiset Racer) :
      Step ⟨c, ⟨made, left, some v⟩ ::ₘ rest⟩ ⟨v + 1, ⟨made + 1, left, none⟩ ::ₘ rest⟩

/-- One racer for each number, which is how often it increments. -/
def start (vs : Multiset Nat) : State := ⟨0, vs.map fun v => ⟨0, v, none⟩⟩

def Reachable (vs : Multiset Nat) (s : State) : Prop := Relation.ReflTransGen Step (start vs) s

def State.Finished (s : State) : Prop := ∀ r ∈ s.racers, r.Done

/-- Some race ends with `m`. -/
def Ends (vs : Multiset Nat) (m : Nat) : Prop :=
  ∃ s, Reachable vs s ∧ s.Finished ∧ s.counter = m

/-- The smallest counter: nothing is lost where there are not two to race. -/
def least (vs : Multiset Nat) : Nat :=
  if (vs.filter (0 < ·)).card ≤ 1 then vs.sum else if 1 ∈ vs then 1 else 2

/-! ## What a step keeps -/

/-- The increments stored so far. -/
def State.made (s : State) : Nat := (s.racers.map Racer.made).sum

/-- No value is ahead of the increments stored, and a racer that has stored one
    has seen it. -/
structure Inv (vs : Multiset Nat) (s : State) : Prop where
  totals : s.racers.map Racer.total = vs
  counter : s.counter ≤ s.made
  loaded : ∀ r ∈ s.racers, ∀ x, r.loaded = some x → x ≤ s.made
  counter_pos : ∀ r ∈ s.racers, 0 < r.made → 0 < s.counter
  loaded_pos : ∀ r ∈ s.racers, 0 < r.made → ∀ x, r.loaded = some x → 0 < x

theorem Inv.start (vs : Multiset Nat) : Inv vs (start vs) := by
  refine ⟨?_, Nat.zero_le _, ?_, ?_, ?_⟩
  · rw [Race.start, Multiset.map_map]
    apply (Multiset.map_congr rfl fun v _ => ?_).trans (Multiset.map_id' vs)
    simp [Racer.total, Racer.begun]
  all_goals
    intro r hr
    obtain ⟨v, -, rfl⟩ := Multiset.mem_map.mp hr
  · exact fun x hx => absurd hx nofun
  · exact fun h => absurd h (Nat.lt_irrefl 0)
  · exact fun h => absurd h (Nat.lt_irrefl 0)

theorem made_cons (c : Nat) (r : Racer) (rest : Multiset Racer) :
    State.made ⟨c, r ::ₘ rest⟩ = r.made + (rest.map Racer.made).sum := by
  rw [State.made, Multiset.map_cons, Multiset.sum_cons]

theorem Inv.step {vs : Multiset Nat} {s s' : State} (h : Inv vs s) (hs : Step s s') :
    Inv vs s' := by
  obtain ⟨htotals, hcounter, hloaded, hpos, hpos'⟩ := h
  cases hs with
  | load c made left rest =>
      simp only [made_cons, Multiset.map_cons, Multiset.forall_mem_cons] at *
      refine ⟨?_, ?_, ?_, ?_, ?_⟩
      · rw [← htotals]
        simp [Racer.total, Racer.begun, Nat.add_assoc]
      · rw [made_cons]
        exact hcounter
      · simp only [made_cons, Multiset.forall_mem_cons]
        refine ⟨fun x hx => ?_, hloaded.2⟩
        obtain rfl := Option.some.inj hx
        exact hcounter
      · simp only [Multiset.forall_mem_cons]
        exact hpos
      · simp only [Multiset.forall_mem_cons]
        refine ⟨fun hmade x hx => ?_, hpos'.2⟩
        obtain rfl := Option.some.inj hx
        exact hpos.1 hmade
  | store c made left v rest =>
      simp only [made_cons, Multiset.map_cons, Multiset.forall_mem_cons] at *
      -- what was loaded is not ahead of the stores made, and this is one more of them
      have hv := hloaded.1 v rfl
      refine ⟨?_, ?_, ?_, ?_, ?_⟩
      · rw [← htotals]
        simp [Racer.total, Racer.begun, Nat.add_right_comm]
      · rw [made_cons]
        show v + 1 ≤ made + 1 + _
        omega
      · simp only [made_cons, Multiset.forall_mem_cons]
        refine ⟨fun x hx => absurd hx nofun, fun r hr x hx => ?_⟩
        have := hloaded.2 r hr x hx
        omega
      · exact fun _ _ _ => Nat.succ_pos v
      · simp only [Multiset.forall_mem_cons]
        exact ⟨fun _ x hx => absurd hx nofun, hpos'.2⟩

theorem Reachable.inv {vs : Multiset Nat} {s : State} (h : Reachable vs s) : Inv vs s := by
  induction h with
  | refl => exact .start vs
  | tail _ hs ih => exact ih.step hs

theorem Inv.made_le {vs : Multiset Nat} {s : State} (h : Inv vs s) : s.made ≤ vs.sum := by
  rw [← h.totals, State.made]
  apply Multiset.sum_map_le_sum_map
  intro r _
  simp only [Racer.total]
  omega

theorem Inv.made_of_finished {vs : Multiset Nat} {s : State} (h : Inv vs s)
    (hfin : s.Finished) : s.made = vs.sum ∧ ∀ r ∈ s.racers, r.total = r.made := by
  have htotal : ∀ r ∈ s.racers, r.total = r.made := by
    intro r hr
    obtain ⟨hleft, hloaded⟩ := hfin r hr
    simp [Racer.total, Racer.begun, hleft, hloaded]
  refine ⟨?_, htotal⟩
  rw [← h.totals, State.made, Multiset.map_congr rfl htotal]

/-! ## The bounds -/

/-- Two of the racers have increments to make. -/
theorem exists_two {vs : Multiset Nat} (h : ¬ (vs.filter (0 < ·)).card ≤ 1) :
    ∃ a b rest, vs = (a + 1) ::ₘ (b + 1) ::ₘ rest := by
  have hcard : 1 < (vs.filter (0 < ·)).card := Nat.lt_of_not_le h
  have hsplit := Multiset.filter_add_not (0 < ·) vs
  obtain ⟨a, ha⟩ := Multiset.card_pos_iff_exists_mem.mp (Nat.lt_trans Nat.one_pos hcard)
  obtain ⟨t, ht⟩ := Multiset.exists_cons_of_mem ha
  rw [ht, Multiset.card_cons] at hcard
  obtain ⟨b, hb⟩ := Multiset.card_pos_iff_exists_mem.mp (Nat.lt_of_succ_lt_succ hcard)
  obtain ⟨u, rfl⟩ := Multiset.exists_cons_of_mem hb
  have hapos : 0 < a := Multiset.of_mem_filter ha
  have hbpos : 0 < b := by
    apply Multiset.of_mem_filter (s := vs)
    rw [ht]
    exact Multiset.mem_cons_of_mem hb
  obtain ⟨a, rfl⟩ := Nat.exists_eq_add_of_lt hapos
  obtain ⟨b, rfl⟩ := Nat.exists_eq_add_of_lt hbpos
  rw [ht, Multiset.cons_add, Multiset.cons_add, Nat.zero_add, Nat.zero_add] at hsplit
  exact ⟨a, b, _, hsplit.symm⟩

/-- With a single racer nothing is lost. -/
structure Alone (s : State) : Prop where
  counter : s.counter = s.made
  loaded : ∀ r ∈ s.racers, ∀ x, r.loaded = some x → x = s.made

theorem Alone.step {vs : Multiset Nat} (hvs : (vs.filter (0 < ·)).card ≤ 1) {s s' : State}
    (hinv : Inv vs s) (h : Alone s) (hs : Step s s') : Alone s' := by
  obtain ⟨hcounter, hloaded⟩ := h
  cases hs with
  | load c made left rest =>
      simp only [made_cons, Multiset.forall_mem_cons] at hcounter hloaded
      refine ⟨?_, ?_⟩
      · rw [made_cons]
        exact hcounter
      · simp only [made_cons, Multiset.forall_mem_cons]
        refine ⟨fun x hx => ?_, hloaded.2⟩
        obtain rfl := Option.some.inj hx
        exact hcounter
  | store c made left v rest =>
      simp only [made_cons, Multiset.forall_mem_cons] at hcounter hloaded
      have hv := hloaded.1 v rfl
      refine ⟨?_, ?_⟩
      · rw [made_cons]
        show v + 1 = made + 1 + _
        omega
      · simp only [Multiset.forall_mem_cons]
        refine ⟨fun x hx => absurd hx nofun, fun r hr x hx => ?_⟩
        -- a second one between load and store would be a second one that races
        exfalso
        obtain ⟨rest', rfl⟩ := Multiset.exists_cons_of_mem hr
        have htotals := hinv.totals
        simp only [Multiset.map_cons] at htotals
        have hr' : 0 < r.total := by
          simp [Racer.total, Racer.begun, hx]
        have hone : 0 < Racer.total ⟨made, left, some v⟩ := by
          simp [Racer.total, Racer.begun]
        rw [← htotals, Multiset.filter_cons_of_pos _ hone, Multiset.filter_cons_of_pos _ hr',
          Multiset.card_cons, Multiset.card_cons] at hvs
        omega

theorem Reachable.alone {vs : Multiset Nat} (hvs : (vs.filter (0 < ·)).card ≤ 1) {s : State}
    (h : Reachable vs s) : Alone s := by
  induction h with
  | refl =>
      refine ⟨by simp [start, State.made], fun r hr x hx => ?_⟩
      obtain ⟨v, -, rfl⟩ := Multiset.mem_map.mp hr
      cases hx
  | tail hrun hs ih => exact ih.step hvs (Reachable.inv hrun) hs

/-- Where nobody makes a single increment, the last to store has stored before, and
    so has not loaded 0. -/
theorem two_le_of_step {vs : Multiset Nat} (hone : 1 ∉ vs) {s s' : State} (hinv : Inv vs s)
    (hs : Step s s') (hfin : s'.Finished) : 2 ≤ s'.counter := by
  cases hs with
  | load c made left rest => exact absurd (hfin _ (Multiset.mem_cons_self _ _)).2 nofun
  | store c made left v rest =>
      have hleft : left = 0 := (hfin _ (Multiset.mem_cons_self _ _)).1
      have htotal : Racer.total ⟨made, left, some v⟩ ≠ 1 := by
        intro htotal
        apply hone
        rw [← hinv.totals, ← htotal]
        exact Multiset.mem_map_of_mem _ (Multiset.mem_cons_self _ _)
      simp only [Racer.total, Racer.begun, hleft] at htotal
      have hmade : 0 < made := by
        simp at htotal
        omega
      have hv := hinv.loaded_pos _ (Multiset.mem_cons_self _ _) hmade v rfl
      show 2 ≤ v + 1
      omega

theorem Ends.bounds {vs : Multiset Nat} {m : Nat} (h : Ends vs m) :
    least vs ≤ m ∧ m ≤ vs.sum := by
  obtain ⟨s, hrun, hfin, rfl⟩ := h
  have hinv := hrun.inv
  obtain ⟨hmade, htotal⟩ := hinv.made_of_finished hfin
  refine ⟨?_, hmade ▸ hinv.counter⟩
  rw [least]
  split
  next hvs => exact (hmade ▸ (hrun.alone hvs).counter).ge
  next hvs =>
    obtain ⟨a, b, rest, hsplit⟩ := exists_two hvs
    split
    next =>
      -- somebody has stored something
      have hmem : a + 1 ∈ s.racers.map Racer.total := by
        rw [hinv.totals, hsplit]
        exact Multiset.mem_cons_self _ _
      obtain ⟨r, hr, hra⟩ := Multiset.mem_map.mp hmem
      exact hinv.counter_pos r hr (by rw [← htotal r hr, hra]; exact Nat.succ_pos a)
    next hone =>
      rcases Relation.ReflTransGen.cases_tail hrun with rfl | ⟨s₁, hrun₁, hs⟩
      · rw [hsplit] at hmade
        simp [start, State.made] at hmade
        omega
      · exact two_le_of_step hone (Reachable.inv hrun₁) hs hfin

/-! ## Every counter between the bounds -/

/-- From the one state to the other. -/
abbrev Steps (s s' : State) : Prop := Relation.ReflTransGen Step s s'

def State.add (s : State) (others : Multiset Racer) : State := ⟨s.counter, s.racers + others⟩

/-- What some racers do, they do beside the others. -/
theorem Step.add {s s' : State} (h : Step s s') (others : Multiset Racer) :
    Step (s.add others) (s'.add others) := by
  cases h with
  | load c made left rest =>
      rw [State.add, State.add, Multiset.cons_add, Multiset.cons_add]
      exact .load c made left _
  | store c made left v rest =>
      rw [State.add, State.add, Multiset.cons_add, Multiset.cons_add]
      exact .store c made left v _

theorem Steps.add {c c' : Nat} {rs rs' : Multiset Racer} (h : Steps ⟨c, rs⟩ ⟨c', rs'⟩)
    (others : Multiset Racer) : Steps ⟨c, rs + others⟩ ⟨c', rs' + others⟩ :=
  Relation.ReflTransGen.lift (State.add · others) (fun _ _ hs => hs.add others) _ _ h

theorem Steps.cons {c c' : Nat} {rs rs' : Multiset Racer} (h : Steps ⟨c, rs⟩ ⟨c', rs'⟩)
    (r : Racer) : Steps ⟨c, r ::ₘ rs⟩ ⟨c', r ::ₘ rs'⟩ := by
  rw [← Multiset.singleton_add, ← Multiset.singleton_add, Multiset.add_comm, Multiset.add_comm {r}]
  exact h.add {r}

/-- A racer between two increments. -/
def idle (made left : Nat) : Racer := ⟨made, left, none⟩

/-- It makes `k` increments with nobody in between. -/
theorem steps_idle (c made left k : Nat) (rest : Multiset Racer) :
    Steps ⟨c, idle made (left + k) ::ₘ rest⟩ ⟨c + k, idle (made + k) left ::ₘ rest⟩ := by
  induction k generalizing c made with
  | zero => exact .refl
  | succ k ih =>
      have hload := Step.load c made (left + k) rest
      have hstore := Step.store c made (left + k) c rest
      have hrest := ih (c + 1) (made + 1)
      rw [Nat.add_assoc c, Nat.add_assoc made, Nat.add_comm 1 k] at hrest
      exact .head hload (.head hstore hrest)

/-- Racers that have done `k` increments of all they have to make. -/
theorem steps_some (vs : Multiset Nat) (c k : Nat) (hk : k ≤ vs.sum) :
    ∃ rs : Multiset (Nat × Nat), (rs.map Prod.snd).sum + k = vs.sum ∧
      Steps ⟨c, vs.map (idle 0)⟩ ⟨c + k, rs.map fun r => idle r.1 r.2⟩ := by
  induction vs using Multiset.induction generalizing c k with
  | empty =>
      obtain rfl : k = 0 := by simpa using hk
      exact ⟨0, rfl, .refl⟩
  | cons v vs ih =>
      rw [Multiset.sum_cons] at hk
      -- as many as it has, and the others make what is left
      obtain ⟨rs, hsum, hsteps⟩ := ih (c + min k v) (k - min k v) (by omega)
      refine ⟨(min k v, v - min k v) ::ₘ rs, ?_, ?_⟩
      · rw [Multiset.map_cons, Multiset.sum_cons, Multiset.sum_cons]
        omega
      · have hfirst := steps_idle c 0 (v - min k v) (min k v) (vs.map (idle 0))
        rw [Nat.sub_add_cancel (Nat.min_le_right k v), Nat.zero_add] at hfirst
        rw [Multiset.map_cons, Multiset.map_cons]
        have hk' : c + min k v + (k - min k v) = c + k := by omega
        rw [hk'] at hsteps
        exact hfirst.trans (hsteps.cons _)

/-- Idle racers come to an end one after the other. -/
theorem steps_finish (rs : Multiset (Nat × Nat)) (c : Nat) :
    ∃ rs' : Multiset Nat, Steps ⟨c, rs.map fun r => idle r.1 r.2⟩
      ⟨c + (rs.map Prod.snd).sum, rs'.map (idle · 0)⟩ := by
  induction rs using Multiset.induction generalizing c with
  | empty => exact ⟨0, .refl⟩
  | cons r rs ih =>
      obtain ⟨made, left⟩ := r
      obtain ⟨rs', hsteps⟩ := ih (c + left)
      have hfirst := steps_idle c made 0 left (rs.map fun r => idle r.1 r.2)
      rw [Nat.zero_add] at hfirst
      refine ⟨(made + left) ::ₘ rs', ?_⟩
      rw [Multiset.map_cons, Multiset.map_cons, Multiset.map_cons, Multiset.sum_cons,
        ← Nat.add_assoc]
      exact hfirst.trans (hsteps.cons _)

theorem finished_idle (c : Nat) (rs : Multiset Nat) :
    State.Finished ⟨c, rs.map (idle · 0)⟩ := by
  intro r hr
  obtain ⟨made, -, rfl⟩ := Multiset.mem_map.mp hr
  exact ⟨rfl, rfl⟩

/-- A race that has come to idle racers ends with what these add. -/
theorem ends_of_steps {vs : Multiset Nat} {c : Nat} {rs : Multiset (Nat × Nat)}
    (h : Steps (start vs) ⟨c, rs.map fun r => idle r.1 r.2⟩) :
    Ends vs (c + (rs.map Prod.snd).sum) := by
  obtain ⟨rs', hsteps⟩ := steps_finish rs c
  exact ⟨_, h.trans hsteps, finished_idle _ rs', rfl⟩

theorem ends_sum (vs : Multiset Nat) : Ends vs vs.sum := by
  have hstart : Steps (start vs) ⟨0, (vs.map fun v => (0, v)).map fun r => idle r.1 r.2⟩ := by
    rw [Multiset.map_map]
    exact .refl
  have h := ends_of_steps hstart
  rw [Multiset.map_map, Nat.zero_add] at h
  have hsum : (vs.map (Prod.snd ∘ fun v => (0, v))).sum = vs.sum := congrArg _ (Multiset.map_id' vs)
  rwa [hsum] at h

/-- The only increment of a racer, begun first and made last, undoes all others. -/
theorem ends_one (rest : Multiset Nat) : Ends (1 ::ₘ rest) 1 := by
  obtain ⟨rs, hsum, hsteps⟩ := steps_some rest 0 rest.sum (Nat.le_refl _)
  obtain ⟨rs', hfin⟩ := steps_finish rs (0 + rest.sum)
  have hload := Step.load 0 0 0 (rest.map (idle 0))
  have hstore := Step.store (0 + rest.sum + (rs.map Prod.snd).sum) 0 0 0 (rs'.map (idle · 0))
  refine ⟨_, .head ?_ ((Steps.cons (hsteps.trans hfin) ⟨0, 0, some 0⟩).tail hstore), ?_, rfl⟩
  · rw [start, Multiset.map_cons]
    exact hload
  · have hfinished := finished_idle 1 (1 ::ₘ rs')
    rwa [Multiset.map_cons] at hfinished

/-- Two racers that each begin an increment before the other stores: what is made
    in between, `j₁` and `j₂` the first time and `j₃` the second, is lost. -/
theorem ends_two (a b j₁ j₂ j₃ : Nat) (rest : Multiset Nat) (h₁ : j₁ ≤ rest.sum) :
    Ends ((a + j₃ + 1) ::ₘ (b + j₂ + 1) ::ₘ rest) (2 + (a + (b + (rest.sum - j₁)))) := by
  obtain ⟨rs, hsum, hrest⟩ := steps_some rest 0 j₁ h₁
  generalize hX : (rs.map fun r => idle r.1 r.2) = X at hrest
  have hload : Steps (start ((a + j₃ + 1) ::ₘ (b + j₂ + 1) ::ₘ rest))
      ⟨0, ⟨0, a + j₃, some 0⟩ ::ₘ idle 0 (b + 1 + j₂) ::ₘ rest.map (idle 0)⟩ := by
    rw [start, Multiset.map_cons, Multiset.map_cons, Nat.add_right_comm b]
    exact .single (.load 0 0 (a + j₃) _)
  have hlost : Steps ⟨0, ⟨0, a + j₃, some 0⟩ ::ₘ idle 0 (b + 1 + j₂) ::ₘ rest.map (idle 0)⟩
      ⟨0 + j₁ + j₂, ⟨0, a + j₃, some 0⟩ ::ₘ idle (0 + j₂) (b + 1) ::ₘ X⟩ :=
    ((hrest.cons _).cons _).trans ((steps_idle (0 + j₁) 0 (b + 1) j₂ X).cons _)
  have hstore : Steps ⟨0 + j₁ + j₂, ⟨0, a + j₃, some 0⟩ ::ₘ idle (0 + j₂) (b + 1) ::ₘ X⟩
      ⟨1, idle 1 (a + j₃) ::ₘ ⟨0 + j₂, b, some 1⟩ ::ₘ X⟩ :=
    .head (.store _ 0 (a + j₃) 0 _) (Steps.cons (.single (.load 1 (0 + j₂) b X)) _)
  have hagain : Steps ⟨1, idle 1 (a + j₃) ::ₘ ⟨0 + j₂, b, some 1⟩ ::ₘ X⟩
      ⟨2, idle (1 + j₃) a ::ₘ idle (0 + j₂ + 1) b ::ₘ X⟩ :=
    (steps_idle 1 1 a j₃ _).trans (Steps.cons (.single (.store _ (0 + j₂) b 1 X)) _)
  have hidle : Steps (start ((a + j₃ + 1) ::ₘ (b + j₂ + 1) ::ₘ rest))
      ⟨2, ((1 + j₃, a) ::ₘ (0 + j₂ + 1, b) ::ₘ rs).map fun r => idle r.1 r.2⟩ := by
    rw [Multiset.map_cons, Multiset.map_cons, hX]
    exact ((hload.trans hlost).trans hstore).trans hagain
  have hends := ends_of_steps hidle
  have hleft : (rs.map Prod.snd).sum = rest.sum - j₁ := by omega
  rwa [Multiset.map_cons, Multiset.map_cons, Multiset.sum_cons, Multiset.sum_cons, hleft] at hends

/-- The counters a race can end with. -/
theorem ends_iff (vs : Multiset Nat) (m : Nat) : Ends vs m ↔ least vs ≤ m ∧ m ≤ vs.sum := by
  refine ⟨Ends.bounds, ?_⟩
  rintro ⟨hle, hm⟩
  rw [least] at hle
  split at hle
  next =>
    obtain rfl := Nat.le_antisymm hle hm
    exact ends_sum vs
  next hvs =>
    by_cases hone : m = 1
    · subst hone
      split at hle
      next hmem =>
        obtain ⟨rest, rfl⟩ := Multiset.exists_cons_of_mem hmem
        exact ends_one rest
      next => omega
    · have htwo : 2 ≤ m := by
        split at hle <;> omega
      obtain ⟨a, b, rest, rfl⟩ := exists_two hvs
      rw [Multiset.sum_cons, Multiset.sum_cons] at hm
      -- how many increments get lost, and when
      obtain ⟨lost, hlost⟩ : ∃ lost, a + 1 + (b + 1 + rest.sum) = m + lost :=
        ⟨_, (Nat.add_sub_cancel' hm).symm⟩
      have hends := ends_two (a - min a lost) (b - min b (lost - min a lost))
        (lost - min a lost - min b (lost - min a lost)) (min b (lost - min a lost)) (min a lost)
        rest (by omega)
      have ha : a - min a lost + min a lost + 1 = a + 1 := by omega
      have hb : b - min b (lost - min a lost) + min b (lost - min a lost) + 1 = b + 1 := by omega
      have hm : 2 + (a - min a lost + (b - min b (lost - min a lost) +
          (rest.sum - (lost - min a lost - min b (lost - min a lost))))) = m := by
        omega
      rwa [ha, hb, hm] at hends

end UprobeTests.Race
