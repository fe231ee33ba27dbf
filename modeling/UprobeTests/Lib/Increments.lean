/-
  UprobeTests.Lib.Increments

  Activations that each add one to a shared counter by a load and, later, a
  store of the value loaded plus one.  Nothing else writes the counter.

  When no load is made while another activation is between its load and its
  store, the counter tells how often it has been incremented
  (`counter_eq_entered`).  One load made there is enough to lose an increment
  for good (`counter_lt_entered_of_overlap`).
-/

import UprobeTests.Lib.Activations

namespace UprobeTests

namespace Activations

/-- Where an activation stands: it has not come to its increment, or it is next
    to load the counter, or it has loaded `v`. -/
inductive Role (w : Nat) where
  | before
  | load
  | store (v : BitVec w)

namespace Role

variable {w : Nat}

def isStore : Role w → Bool
  | .store _ => true
  | _ => false

/-- The stores of a role. -/
def stores : Role w → Int
  | .store _ => 1
  | _ => 0

end Role

/-- A system of activations on a `w`-bit counter; `entered` counts the
    activations there have been.  Each of them makes one increment and ends
    with it. -/
structure Increments {σ α ω μ : Type} (S : System σ α ω μ) (w : Nat) where
  counter : σ → BitVec w
  entered : σ → Nat
  role : α → Role w
  act_before : ∀ {u a o u' new}, S.act u a o = some (u', new) → role a = .before →
    counter u' = counter u ∧ entered u' = entered u ∧
      ∃ b, new = [b] ∧ (role b = .before ∨ role b = .load)
  act_load : ∀ {u a o u' new}, S.act u a o = some (u', new) → role a = .load →
    counter u' = counter u ∧ entered u' = entered u ∧ ∃ b, new = [b] ∧ role b = .store (counter u)
  act_store : ∀ {u a o u' new v}, S.act u a o = some (u', new) → role a = .store v →
    counter u' = v + 1 ∧ entered u' = entered u ∧ new = []
  main : ∀ {s m s'}, S.main s m = some s' →
    counter s'.shared = counter s.shared ∧ entered s'.shared = entered s.shared + 1 ∧
      ∃ b, s'.acts = s.acts ++ [b] ∧ (role b = .before ∨ role b = .load)

namespace Increments

variable {σ α ω μ : Type} {S : System σ α ω μ} {w : Nat} (C : Increments S w)

/-- No load while another activation is between its load and its store. -/
def oneAtATime : Guard σ α ω μ where
  act _ others a _ :=
    match C.role a with
    | .load => others.all fun b => !(C.role b).isStore
    | _ => true
  main _ _ := true

/-- How many of the activations are between load and store. -/
def stores (l : List α) : Int := (l.map fun a => (C.role a).stores).sum

/-- How many increments have been made. -/
def done (s : Activations σ α) : Int := C.entered s.shared - s.acts.length

variable {C}

theorem stores_step (before after new : List α) (a : α) :
    C.stores (before ++ new ++ after) =
      C.stores (before ++ a :: after) - (C.role a).stores + C.stores new :=
  sum_step (fun a => (C.role a).stores) before after new a

theorem stores_nonneg (l : List α) : 0 ≤ C.stores l := by
  induction l with
  | nil => exact Int.le_refl 0
  | cons a l ih =>
      have ha : 0 ≤ (C.role a).stores := by
        cases C.role a with
        | before => exact Int.le_refl 0
        | load => exact Int.le_refl 0
        | store v => exact Int.le_of_lt Int.one_pos
      simp only [stores, List.map_cons, List.sum_cons] at ih ⊢
      omega

theorem stores_pos {l : List α} {a : α} {v : BitVec w} (ha : a ∈ l) (hrole : C.role a = .store v) :
    1 ≤ C.stores l := by
  obtain ⟨before, after, rfl⟩ := List.append_of_mem ha
  have hrest := stores_nonneg (C := C) (before ++ after)
  have hsplit := stores_step (C := C) before after [] a
  rw [hrole, List.append_nil] at hsplit
  simp only [Role.stores, stores, List.map_nil, List.sum_nil] at hsplit hrest ⊢
  omega

theorem stores_eq_zero {l : List α} (h : ∀ a ∈ l, (C.role a).isStore = false) :
    C.stores l = 0 := by
  induction l with
  | nil => rfl
  | cons a l ih =>
      have ha : (C.role a).stores = 0 := by
        have hnot := h a List.mem_cons_self
        cases hrole : C.role a with
        | before => rfl
        | load => rfl
        | store v =>
            rw [hrole] at hnot
            cases hnot
      have hl := ih fun b hb => h b (List.mem_cons_of_mem a hb)
      simp only [stores, List.map_cons, List.sum_cons] at hl ⊢
      rw [ha, hl]
      rfl

theorem exists_store_of_pos {l : List α} (h : 1 ≤ C.stores l) :
    ∃ a ∈ l, ∃ v, C.role a = .store v := by
  by_contra hnone
  have hzero : C.stores l = 0 := by
    apply stores_eq_zero
    intro a ha
    cases hrole : C.role a with
    | before => rfl
    | load => rfl
    | store v => exact absurd ⟨a, ha, v, hrole⟩ hnone
  omega

theorem stores_singleton (a : α) : C.stores [a] = (C.role a).stores := by
  simp [stores]

theorem done_act {u u' : σ} (before after new : List α) (a : α)
    (he : C.entered u' = C.entered u) :
    C.done ⟨u', before ++ new ++ after⟩ = C.done ⟨u, before ++ a :: after⟩ + 1 - new.length := by
  simp only [done, he, List.length_append, List.length_cons]
  omega

/-! ## What a step does -/

/-- What a step does to the counter and to the activations that have loaded it. -/
inductive Effect (C : Increments S w) (G : Guard σ α ω μ) (s s' : Activations σ α) : Prop where
  | quiet (hcounter : C.counter s'.shared = C.counter s.shared) (hdone : C.done s' = C.done s)
      (hentered : C.entered s.shared ≤ C.entered s'.shared)
      (hacts : ∀ b v, C.role b = .store v → (b ∈ s'.acts ↔ b ∈ s.acts))
      (hstores : C.stores s'.acts = C.stores s.acts)
  | load {before after : List α} {a b : α} {o : ω} (hacts : s.acts = before ++ a :: after)
      (hacts' : s'.acts = before ++ [b] ++ after) (ha : C.role a = .load)
      (hb : C.role b = .store (C.counter s.shared)) (hg : G.act s.shared (before ++ after) a o = true)
      (hcounter : C.counter s'.shared = C.counter s.shared) (hdone : C.done s' = C.done s)
      (hentered : C.entered s'.shared = C.entered s.shared)
  | store {before after : List α} {a : α} {v : BitVec w} (hacts : s.acts = before ++ a :: after)
      (hacts' : s'.acts = before ++ after) (ha : C.role a = .store v)
      (hcounter : C.counter s'.shared = v + 1) (hdone : C.done s' = C.done s + 1)
      (hentered : C.entered s'.shared = C.entered s.shared)

/-- A new activation, or one that has not come to its increment, has loaded nothing. -/
theorem not_store {b : α} (hb : C.role b = .before ∨ C.role b = .load) :
    (C.role b).stores = 0 ∧ ∀ v, C.role b ≠ .store v := by
  rcases hb with hb | hb <;> (rw [hb]; exact ⟨rfl, fun _ h => by cases h⟩)

theorem effect_of_step (C : Increments S w) {G : Guard σ α ω μ} {s s' : Activations σ α}
    (hs : Step S G s s') : C.Effect G s s' := by
  cases hs with
  | main hm _ =>
      obtain ⟨u, acts⟩ := s
      obtain ⟨u', acts'⟩ := s'
      obtain ⟨hc, he, b, rfl, hb⟩ := C.main hm
      obtain ⟨hzero, hnot⟩ := not_store hb
      have hadd := stores_step (C := C) acts [] [] b
      have hempty : C.stores [] = 0 := rfl
      simp only [List.append_nil, hzero] at hadd
      dsimp only at hc he
      refine .quiet hc ?_ (by dsimp only; omega) ?_ (by dsimp only; omega)
      · simp only [done, he, List.length_append, List.length_singleton]
        omega
      · intro b' v hv
        have hne : b' ≠ b := fun heq => hnot v (heq ▸ hv)
        simp [hne]
  | @act u before a after o u' new hact hg =>
      have hsplit := stores_step (C := C) before after new a
      cases hrole : C.role a with
      | before =>
          obtain ⟨hc, he, b, rfl, hb⟩ := C.act_before hact hrole
          obtain ⟨hzero, hnot⟩ := not_store hb
          have hdone := done_act before after [b] a he
          rw [List.length_singleton] at hdone
          rw [hrole, stores_singleton, hzero] at hsplit
          simp only [Role.stores] at hsplit
          refine .quiet hc (by omega) (Nat.le_of_eq he.symm) ?_ (by dsimp only; omega)
          intro b' v hv
          have hne : b' ≠ b := fun heq => hnot v (heq ▸ hv)
          have hne' : b' ≠ a := fun heq => by rw [heq, hrole] at hv; cases hv
          simp [hne, hne']
      | load =>
          obtain ⟨hc, he, b, rfl, hb⟩ := C.act_load hact hrole
          have hdone := done_act before after [b] a he
          rw [List.length_singleton] at hdone
          exact .load rfl rfl hrole hb hg hc (by omega) he
      | store v =>
          obtain ⟨hc, he, rfl⟩ := C.act_store hact hrole
          have hdone := done_act before after [] a he
          rw [List.length_nil] at hdone
          exact .store rfl (by rw [List.append_nil]) hrole hc (by omega) he

/-! ## Loads that do not overlap -/

/-- Nothing has been lost. -/
structure Exact (C : Increments S w) (s : Activations σ α) : Prop where
  counter : C.counter s.shared = BitVec.ofInt w (C.done s)
  loaded : ∀ a ∈ s.acts, ∀ v, C.role a = .store v → v = C.counter s.shared
  stores : C.stores s.acts ≤ 1

theorem Exact.step {s s' : Activations σ α} (h : C.Exact s) (hs : Step S C.oneAtATime s s') :
    C.Exact s' := by
  obtain ⟨hcounter, hloaded, hstores⟩ := h
  cases C.effect_of_step hs with
  | quiet hc hdone _ hacts hsame =>
      refine ⟨by rw [hc, hdone, hcounter], ?_, by rw [hsame]; exact hstores⟩
      intro a ha v hv
      exact (hloaded a ((hacts a v hv).mp ha) v hv).trans hc.symm
  | @load before after a b o hacts hacts' ha hb hg hc hdone _ =>
      -- the guard: nobody else is between load and store
      have hothers : ∀ b' ∈ before ++ after, (C.role b').isStore = false := by
        simp only [oneAtATime, ha, List.all_eq_true, Bool.not_eq_true'] at hg
        exact hg
      refine ⟨by rw [hc, hdone, hcounter], ?_, ?_⟩
      · rw [hacts']
        intro b' hb' v hv
        rcases mem_new_iff.mp hb' with hb' | hb'
        · rw [List.mem_singleton.mp hb', hb] at hv
          cases hv
          exact hc.symm
        · have hnot := hothers b' hb'
          rw [hv] at hnot
          cases hnot
      · have hnone : C.stores (before ++ [] ++ after) = 0 := by
          rw [List.append_nil]
          exact stores_eq_zero hothers
        have hwith := stores_step (C := C) before after [b] a
        have hwithout := stores_step (C := C) before after [] a
        rw [stores_singleton, hb] at hwith
        rw [hnone] at hwithout
        have hempty : C.stores [] = 0 := rfl
        simp only [ha, Role.stores] at hwith hwithout
        rw [hacts']
        omega
  | @store before after a v hacts hacts' ha hc hdone _ =>
      have hv : v = C.counter s.shared :=
        hloaded a (by rw [hacts]; exact mem_acts_iff.mpr (Or.inl rfl)) v ha
      have hwithout := stores_step (C := C) before after [] a
      have hempty : C.stores [] = 0 := rfl
      rw [ha, ← hacts, List.append_nil] at hwithout
      simp only [Role.stores] at hwithout
      refine ⟨?_, ?_, by rw [hacts']; omega⟩
      · rw [hc, hdone, hv, hcounter, BitVec.ofInt_add]
        rfl
      · -- whoever else had loaded the counter would be a second one
        rw [hacts']
        intro b hb v' hv'
        have hpos := stores_pos hb hv'
        omega

/-- Runs without overlapping loads end with every increment in the counter. -/
theorem counter_eq_entered {init s : Activations σ α} (h : Reachable S C.oneAtATime init s)
    (hnone : init.acts = []) (hzero : C.counter init.shared = BitVec.ofNat w (C.entered init.shared))
    (hdone : s.acts = []) : C.counter s.shared = BitVec.ofNat w (C.entered s.shared) := by
  have hend : ∀ s : Activations σ α, s.acts = [] → C.done s = C.entered s.shared := by
    intro s hs
    simp [done, hs]
  have hexact : C.Exact s := by
    refine h.invariant ⟨?_, ?_, ?_⟩ fun _ _ hs hstep => hs.step hstep
    · rw [hzero, hend init hnone, BitVec.ofInt_natCast]
    · intro a ha
      rw [hnone] at ha
      cases ha
    · rw [hnone]
      exact Int.le_of_lt Int.one_pos
  rw [hexact.counter, hend s hdone, BitVec.ofInt_natCast]

/-! ## Loads that overlap -/

/-- No value is ahead of the increments made, and one that has kept up with them
    is what the counter holds. -/
structure Bounded (C : Increments S w) (s : Activations σ α) : Prop where
  counter : (C.counter s.shared).toNat ≤ C.done s
  loaded : ∀ a ∈ s.acts, ∀ v, C.role a = .store v →
    v.toNat ≤ C.done s ∧ (v.toNat = C.done s → (C.counter s.shared).toNat = C.done s)

/-- An increment is lost, or will be: the counter is behind, or a value that is
    about to be stored, or there are two of these. -/
def Lost (C : Increments S w) (s : Activations σ α) : Prop :=
  (C.counter s.shared).toNat < C.done s ∨
    (∃ a ∈ s.acts, ∃ v, C.role a = .store v ∧ v.toNat < C.done s) ∨ 2 ≤ C.stores s.acts

/-- A store of a value that is not ahead does not wrap. -/
theorem toNat_add_one {v : BitVec w} {n : Nat} (hv : v.toNat < n) (hn : n < 2 ^ w) :
    (v + 1).toNat = v.toNat + 1 := by
  have hone : (1 : BitVec w).toNat = 1 := by
    show (BitVec.ofNat w 1).toNat = 1
    rw [BitVec.toNat_ofNat, Nat.mod_eq_of_lt (by omega)]
  rw [BitVec.toNat_add, hone, Nat.mod_eq_of_lt (by omega)]

/-- A value that is about to be stored is one behind the increments there can be. -/
theorem Bounded.toNat_store {s : Activations σ α} {before after : List α} {a : α} {v : BitVec w}
    (h : C.Bounded s) (hacts : s.acts = before ++ a :: after) (ha : C.role a = .store v)
    (hlt : C.entered s.shared < 2 ^ w) : (v + 1).toNat = v.toNat + 1 := by
  have hv := h.2 a (by rw [hacts]; exact mem_acts_iff.mpr (Or.inl rfl)) v ha
  have hroom : C.done s < C.entered s.shared := by
    rw [done, hacts, List.length_append, List.length_cons]
    omega
  exact toNat_add_one (n := C.entered s.shared) (by omega) hlt

theorem Bounded.step {G : Guard σ α ω μ} {s s' : Activations σ α} (h : C.Bounded s)
    (hs : Step S G s s') (hlt : C.entered s'.shared < 2 ^ w) : C.Bounded s' := by
  obtain ⟨hcounter, hloaded⟩ := h
  cases C.effect_of_step hs with
  | quiet hc hdone _ hacts _ =>
      refine ⟨by rw [hc, hdone]; exact hcounter, ?_⟩
      intro a ha v hv
      rw [hc, hdone]
      exact hloaded a ((hacts a v hv).mp ha) v hv
  | @load before after a b o hacts hacts' ha hb _ hc hdone _ =>
      refine ⟨by rw [hc, hdone]; exact hcounter, ?_⟩
      rw [hc, hdone, hacts']
      intro b' hb' v hv
      rcases mem_new_iff.mp hb' with hb' | hb'
      · rw [List.mem_singleton.mp hb', hb] at hv
        cases hv
        exact ⟨hcounter, fun heq => heq⟩
      · exact hloaded b' (by rw [hacts]; exact mem_acts_iff.mpr (Or.inr hb')) v hv
  | @store before after a v hacts hacts' ha hc hdone hentered =>
      have hv := hloaded a (by rw [hacts]; exact mem_acts_iff.mpr (Or.inl rfl)) v ha
      have hsucc := Bounded.toNat_store ⟨hcounter, hloaded⟩ hacts ha (hentered ▸ hlt)
      refine ⟨by rw [hc, hdone, hsucc]; omega, ?_⟩
      -- the others loaded before this store
      rw [hacts']
      intro b hb v' hv'
      have hb := hloaded b (by rw [hacts]; exact mem_acts_iff.mpr (Or.inr hb)) v' hv'
      rw [hdone]
      exact ⟨by omega, fun heq => by omega⟩

theorem Lost.step {G : Guard σ α ω μ} {s s' : Activations σ α} (h : C.Lost s)
    (hbounded : C.Bounded s) (hs : Step S G s s') (hlt : C.entered s'.shared < 2 ^ w) :
    C.Lost s' := by
  obtain ⟨hcounter, hloaded⟩ := hbounded
  cases C.effect_of_step hs with
  | quiet hc hdone _ hacts hsame =>
      rw [Lost, hc, hdone, hsame]
      rcases h with h | ⟨a, ha, v, hv, hbehind⟩ | h
      · exact Or.inl h
      · exact Or.inr (Or.inl ⟨a, (hacts a v hv).mpr ha, v, hv, hbehind⟩)
      · exact Or.inr (Or.inr h)
  | @load before after a b o hacts hacts' ha hb _ hc hdone _ =>
      rw [Lost, hc, hdone, hacts']
      rcases h with h | ⟨a', ha', v, hv, hbehind⟩ | h
      · exact Or.inl h
      · -- the load is not the step of the one that is behind
        rw [hacts] at ha'
        rcases mem_acts_iff.mp ha' with rfl | ha'
        · rw [ha] at hv
          cases hv
        · exact Or.inr (Or.inl ⟨a', mem_new_iff.mpr (Or.inr ha'), v, hv, hbehind⟩)
      · have hwith := stores_step (C := C) before after [b] a
        rw [stores_singleton, hb, ha, ← hacts] at hwith
        simp only [Role.stores] at hwith
        exact Or.inr (Or.inr (by omega))
  | @store before after a v hacts hacts' ha hc hdone hentered =>
      have hv := hloaded a (by rw [hacts]; exact mem_acts_iff.mpr (Or.inl rfl)) v ha
      have hsucc := Bounded.toNat_store ⟨hcounter, hloaded⟩ hacts ha (hentered ▸ hlt)
      by_cases hbehind : (v.toNat : Int) < C.done s
      · -- this store puts the counter behind
        exact Or.inl (by rw [hc, hdone, hsucc]; omega)
      · -- this one has kept up, so another has not, or is left behind by this store
        have hsame := hv.2 (by omega)
        have hother : ∃ b ∈ before ++ after, ∃ v', C.role b = .store v' := by
          rcases h with h | ⟨a', ha', v', hv', hbehind'⟩ | h
          · omega
          · rw [hacts] at ha'
            rcases mem_acts_iff.mp ha' with rfl | ha'
            · rw [ha] at hv'
              cases hv'
              exact absurd hbehind' hbehind
            · exact ⟨a', ha', v', hv'⟩
          · have hwithout := stores_step (C := C) before after [] a
            have hempty : C.stores [] = 0 := rfl
            rw [ha, ← hacts, List.append_nil] at hwithout
            simp only [Role.stores] at hwithout
            exact exists_store_of_pos (by omega)
        obtain ⟨b, hb, v', hv'⟩ := hother
        have hle := (hloaded b (by rw [hacts]; exact mem_acts_iff.mpr (Or.inr hb)) v' hv').1
        rw [Lost, hacts']
        exact Or.inr (Or.inl ⟨b, hb, v', hv', by omega⟩)

theorem entered_le_of_step {G : Guard σ α ω μ} {s s' : Activations σ α} (hs : Step S G s s') :
    C.entered s.shared ≤ C.entered s'.shared := by
  cases C.effect_of_step hs with
  | quiet _ _ hentered _ _ => exact hentered
  | load _ _ _ _ _ _ _ hentered => exact Nat.le_of_eq hentered.symm
  | store _ _ _ _ _ hentered => exact Nat.le_of_eq hentered.symm

/-- A load made while another activation is between its load and its store loses
    an increment in every run that goes on to the end, short of a wrap-around. -/
theorem counter_lt_entered_of_overlap {init s : Activations σ α} {u u' : σ} {a : α}
    {before after new : List α} {o : ω} (h₁ : Reachable S .all init ⟨u, before ++ a :: after⟩)
    (hact : S.act u a o = some (u', new)) (hload : C.role a = .load)
    (hother : ∃ b ∈ before ++ after, ∃ v, C.role b = .store v)
    (h₂ : Reachable S .all ⟨u', before ++ new ++ after⟩ s) (hnone : init.acts = [])
    (hzero : C.counter init.shared = BitVec.ofNat w (C.entered init.shared))
    (hdone : s.acts = []) (hlt : C.entered s.shared < 2 ^ w) :
    (C.counter s.shared).toNat < C.entered s.shared := by
  have hfirst : C.entered u < 2 ^ w → C.Bounded ⟨u, before ++ a :: after⟩ := by
    refine h₁.invariant (I := fun s => C.entered s.shared < 2 ^ w → C.Bounded s) ?_ ?_
    · intro hsmall
      refine ⟨?_, ?_⟩
      · rw [hzero, BitVec.toNat_ofNat, Nat.mod_eq_of_lt hsmall, done, hnone]
        exact Int.le_of_eq (Int.sub_zero _).symm
      · intro b hb
        rw [hnone] at hb
        cases hb
    · intro s s' hs hstep hsmall
      exact (hs (Nat.lt_of_le_of_lt (entered_le_of_step (C := C) hstep) hsmall)).step hstep hsmall
  have hsecond : C.entered s.shared < 2 ^ w → C.Bounded s ∧ C.Lost s := by
    refine h₂.invariant (I := fun s => C.entered s.shared < 2 ^ w → C.Bounded s ∧ C.Lost s) ?_ ?_
    · intro hsmall
      have hstep : Step S .all ⟨u, before ++ a :: after⟩ ⟨u', before ++ new ++ after⟩ :=
        .act hact rfl
      obtain ⟨hc, he, b, rfl, hb⟩ := C.act_load hact hload
      refine ⟨(hfirst (he ▸ hsmall)).step hstep hsmall, Or.inr (Or.inr ?_)⟩
      -- the one that loads and the one that has loaded
      obtain ⟨b', hb', v, hv⟩ := hother
      have hpos := stores_pos hb' hv
      have hwith := stores_step (C := C) before after [b] a
      have hwithout := stores_step (C := C) before after [] a
      have hempty : C.stores [] = 0 := rfl
      rw [stores_singleton, hb] at hwith
      rw [List.append_nil] at hwithout
      simp only [hload, Role.stores] at hwith hwithout
      dsimp only
      omega
    · intro s s' hs hstep hsmall
      obtain ⟨hbounded, hlost⟩ :=
        hs (Nat.lt_of_le_of_lt (entered_le_of_step (C := C) hstep) hsmall)
      exact ⟨hbounded.step hstep hsmall, hlost.step hbounded hstep hsmall⟩
  have hend : C.done s = C.entered s.shared := by
    rw [done, hdone]
    exact Int.sub_zero _
  rcases (hsecond hlt).2 with h | ⟨a, ha, -⟩ | h
  · omega
  · rw [hdone] at ha
    cases ha
  · rw [hdone] at h
    cases h

end Increments

end Activations

end UprobeTests
