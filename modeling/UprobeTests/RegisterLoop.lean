/-
  UprobeTests.RegisterLoop

  The registration loop of kthread, kdie, kexec, kfork_thread,
  kfork_and_defunc and kunreg, copied by hand from module to module: what it
  asks of `uprobe_register`, in terms of the symbol table and of the outcomes
  of the kernel's calls alone (`Implements`).

  The loop runs over the entries of the table, but it looks the inode and the
  offset up by the entry's name, and so takes those of the first entry of that
  name; and it does not look at whether the inode was found.
-/

import UprobeTests.Kunreg

namespace UprobeTests

/-- Where the copies differ. -/
structure RegisterLoop where
  handler : Handler
  /-- the results of `uprobe_register` after which the loop goes on -/
  goesOn : Int → Bool
  /-- returned when `kzalloc` fails -/
  outOfMemory : Int
  /-- returned when `uprobe_register` fails -/
  refused : Int

/-- The loop of `init_module`. -/
def ProbeModule.loop (m : ProbeModule) : RegisterLoop :=
  ⟨m.handler, fun ret => ret = 0, -enomem, -1⟩

/-- The loop of `register_all`. -/
def Kunreg.loop : RegisterLoop := ⟨.probeHandler, fun ret => registerAccepted ret, 0, 0⟩

section Loop

variable (o : Outcomes) (syms : List Symbol) (c : RegisterLoop)

/-- The arguments of `uprobe_register` for the symbol `found`, with the consumer
    of the `z`-th `kzalloc` and the `p`-th call of `kern_path`. -/
def place (found : String) (z p : Nat) : Registration :=
  ⟨(firstNamed found syms).bind fun e => o.kernPath p e.path, findOffset found syms, some z⟩

/-- The calls of `uprobe_register` for the symbols `names`, where `z`, `p` and
    `r` calls of `kzalloc`, `kern_path` and `uprobe_register` were made before. -/
def RegisterLoop.calls : List String → Nat → Nat → Nat → List (Registration × Handler × Int)
  | [], _, _, _ => []
  | found :: names, z, p, r =>
      if o.kzalloc z then
        (place o syms found z p, c.handler, o.uprobeRegister r) ::
          if c.goesOn (o.uprobeRegister r) then calls names (z + 1) (p + 1) (r + 1) else []
      else []

/-- How the loop ends; `none` when it gets to the end of the table. -/
def RegisterLoop.result : List String → Nat → Nat → Option Int
  | [], _, _ => none
  | _ :: names, z, r =>
      if o.kzalloc z then
        if c.goesOn (o.uprobeRegister r) then result names (z + 1) (r + 1) else some c.refused
      else some c.outOfMemory

/-- One turn of a copy of the loop, on a state whose kernel part is `kern`. -/
structure Implements {S : Type} (kern : S → Kern) (body : String → S → Option Int × S) : Prop where
  outOfMemory : ∀ found s, o.kzalloc (kern s).kzallocCalls = false →
    (body found s).1 = some c.outOfMemory ∧
      (kern (body found s).2).registerCalls = (kern s).registerCalls
  turn : ∀ found s, (∃ e, firstNamed found syms = some e) →
    o.kzalloc (kern s).kzallocCalls = true →
    (kern (body found s).2).registerCalls = (kern s).registerCalls ++
      [(place o syms found (kern s).kzallocCalls (kern s).kernPathCalls, c.handler,
        o.uprobeRegister (kern s).registerCalls.length)] ∧
    if c.goesOn (o.uprobeRegister (kern s).registerCalls.length) then
      (body found s).1 = none ∧
        (kern (body found s).2).kzallocCalls = (kern s).kzallocCalls + 1 ∧
        (kern (body found s).2).kernPathCalls = (kern s).kernPathCalls + 1
    else (body found s).1 = some c.refused

variable {o syms c}

/-- A copy that implements the loop turn by turn makes its calls and ends as it does. -/
theorem Implements.runEach {S : Type} {kern : S → Kern} {body : String → S → Option Int × S}
    (h : Implements o syms c kern body) (l : List (Nat × String))
    (hl : ∀ x ∈ l, ∃ e, firstNamed x.2 syms = some e) (s : S) :
    (runEach (fun _ => body) l s).1 =
        c.result o (l.map Prod.snd) (kern s).kzallocCalls (kern s).registerCalls.length ∧
      (kern (runEach (fun _ => body) l s).2).registerCalls =
        (kern s).registerCalls ++ c.calls o syms (l.map Prod.snd) (kern s).kzallocCalls
          (kern s).kernPathCalls (kern s).registerCalls.length := by
  induction l generalizing s with
  | nil => exact ⟨rfl, (List.append_nil _).symm⟩
  | cons x l ih =>
      obtain ⟨hx, hl⟩ := List.forall_mem_cons.mp hl
      rw [UprobeTests.runEach, List.map_cons, RegisterLoop.result, RegisterLoop.calls]
      by_cases hz : o.kzalloc (kern s).kzallocCalls = true
      · rw [if_pos hz, if_pos hz]
        obtain ⟨hcalls, hturn⟩ := h.turn x.2 s hx hz
        by_cases hon : c.goesOn (o.uprobeRegister (kern s).registerCalls.length) = true
        · rw [if_pos hon] at hturn
          rw [if_pos hon, if_pos hon]
          obtain ⟨hnone, hkz, hkp⟩ := hturn
          generalize body x.2 s = r at hcalls hnone hkz hkp ⊢
          obtain ⟨stop, s'⟩ := r
          dsimp only at hcalls hnone hkz hkp ⊢
          subst hnone
          -- the rest of the turns, from the counters this one leaves
          have hrest := ih hl s'
          rw [hkz, hkp, hcalls, List.length_append, List.length_singleton] at hrest
          refine ⟨hrest.1, hrest.2.trans ?_⟩
          rw [List.append_assoc, List.singleton_append]
        · rw [if_neg hon] at hturn
          rw [if_neg hon, if_neg hon]
          generalize body x.2 s = r at hcalls hturn ⊢
          obtain ⟨stop, s'⟩ := r
          dsimp only at hcalls hturn ⊢
          subst hturn
          exact ⟨rfl, hcalls⟩
      · rw [if_neg hz, if_neg hz]
        obtain ⟨hstop, hcalls⟩ := h.outOfMemory x.2 s (Bool.not_eq_true _ ▸ hz)
        generalize body x.2 s = r at hcalls hstop ⊢
        obtain ⟨stop, s'⟩ := r
        dsimp only at hcalls hstop ⊢
        subst hstop
        exact ⟨rfl, by rw [hcalls, List.append_nil]⟩

/-! ## The copies -/

/-- What a turn that gets its consumer does up to and including the call of
    `uprobe_register`, in every copy. -/
theorem register_found (o : Outcomes) {syms : List Symbol} {found : String}
    (h : ∃ e, firstNamed found syms = some e) (handler : Handler) (text : String) (k : Kern) :
    match findInode o found syms k.withConsumer with
    | (inode, k') =>
        match ((k'.setHandler k.kzallocCalls handler).testPrintk text).uprobeRegister o inode
            (findOffset found syms) k.kzallocCalls with
        | (ret, k'') =>
            ret = o.uprobeRegister k.registerCalls.length ∧
              k''.registerCalls = k.registerCalls ++
                [(place o syms found k.kzallocCalls k.kernPathCalls, handler, ret)] ∧
              k''.kzallocCalls = k.kzallocCalls + 1 ∧ k''.kernPathCalls = k.kernPathCalls + 1 := by
  obtain ⟨e, he⟩ := h
  obtain ⟨hinode, hpaths⟩ := findInode_of_firstNamed o he k.withConsumer
  have hplace : place o syms found k.kzallocCalls k.kernPathCalls =
      ⟨(findInode o found syms k.withConsumer).1, findOffset found syms, some k.kzallocCalls⟩ := by
    rw [place, he, hinode]
    rfl
  obtain ⟨_, _, _, hframe⟩ := findInode_frame o found syms k.withConsumer
  have hkz : (findInode o found syms k.withConsumer).2.kzallocCalls = k.kzallocCalls + 1 := by
    rw [hframe]
    rfl
  have hcalls : (findInode o found syms k.withConsumer).2.registerCalls = k.registerCalls := by
    rw [hframe]
    rfl
  rw [hplace]
  generalize findInode o found syms k.withConsumer = r at hpaths hkz hcalls ⊢
  obtain ⟨inode, k'⟩ := r
  dsimp only [Kern.setHandler, Kern.testPrintk, Kern.uprobeRegister] at hpaths hkz hcalls ⊢
  rw [Function.update_self, hcalls]
  exact ⟨rfl, rfl, hkz, hpaths⟩

theorem uDbfsCleanup_registerCalls (k : Kern) :
    (uDbfsCleanup k).registerCalls = k.registerCalls := by
  obtain ⟨_, _, hframe⟩ := uDbfsCleanup_frame k
  rw [hframe]

/-- The body of `init_module`'s loop. -/
theorem implements_registerProbe (o : Outcomes) (syms : List Symbol) (m : ProbeModule) :
    Implements o syms m.loop (fun k => k) (registerProbe o syms m.handler) where
  outOfMemory found k hz := by
    rw [registerProbe_of_kzalloc_fails m.handler found hz]
    exact ⟨rfl, uDbfsCleanup_registerCalls _⟩
  turn found k hfound hz := by
    have hcall := register_found o hfound m.handler (registeringText
      (findInode o found syms k.withConsumer).1 (findOffset found syms) found) k
    rw [registerProbe, Kern.kzalloc, if_pos hz]
    dsimp only at hcall ⊢
    generalize Kern.uprobeRegister _ _ _ _ _ = r at hcall ⊢
    obtain ⟨ret, k'⟩ := r
    dsimp only at hcall ⊢
    obtain ⟨rfl, hcalls, hkz, hpaths⟩ := hcall
    by_cases hret : o.uprobeRegister k.registerCalls.length = 0
    · have hon : m.loop.goesOn (o.uprobeRegister k.registerCalls.length) = true :=
        decide_eq_true hret
      rw [if_neg (not_not.mpr hret), if_pos hon]
      exact ⟨hcalls, rfl, hkz, hpaths⟩
    · have hoff : ¬ m.loop.goesOn (o.uprobeRegister k.registerCalls.length) = true :=
        fun hon => hret (of_decide_eq_true hon)
      rw [if_pos hret, if_neg hoff]
      exact ⟨(uDbfsCleanup_registerCalls _).trans hcalls, rfl⟩

/-- The body of `register_all`'s loop. -/
theorem implements_registerOne (o : Outcomes) (syms : List Symbol) :
    Implements o syms Kunreg.loop Kunreg.kern (Kunreg.registerOne o syms) where
  outOfMemory found s hz := by
    rw [Kunreg.registerOne, Kern.kzalloc, hz]
    exact ⟨rfl, rfl⟩
  turn found s hfound hz := by
    have hcall := register_found o hfound .probeHandler (registeringText
      (findInode o found syms s.kern.withConsumer).1 (findOffset found syms) found) s.kern
    rw [Kunreg.registerOne, Kern.kzalloc, if_pos hz]
    dsimp only at hcall ⊢
    generalize Kern.uprobeRegister _ _ _ _ _ = r at hcall ⊢
    obtain ⟨ret, k'⟩ := r
    dsimp only at hcall ⊢
    obtain ⟨rfl, hcalls, hkz, hpaths⟩ := hcall
    by_cases hret : registerAccepted (o.uprobeRegister s.kern.registerCalls.length)
    · have hon : Kunreg.loop.goesOn (o.uprobeRegister s.kern.registerCalls.length) = true :=
        decide_eq_true hret
      rw [if_neg (fun h => hret.elim h.1 h.2), if_pos hon]
      exact ⟨hcalls, rfl, hkz, hpaths⟩
    · have hoff : ¬ Kunreg.loop.goesOn (o.uprobeRegister s.kern.registerCalls.length) = true :=
        fun hon => hret (of_decide_eq_true hon)
      rw [registerAccepted, not_or] at hret
      rw [if_pos hret, if_neg hoff]
      exact ⟨hcalls, rfl⟩

/-! ## The calls of the two loops -/

/-- The names of the entries the loop visits. -/
def probeNames (syms : List Symbol) : List String :=
  (syms.filter fun s => s.Matches "_probe").map Symbol.name

/-- Every name the loop visits is in the table. -/
theorem exists_firstNamed_of_globMatches (glob : String) (syms : List Symbol) :
    ∀ x ∈ globMatches glob 0 syms, ∃ e, firstNamed x.2 syms = some e := by
  rintro ⟨next, found⟩ hx
  obtain ⟨_, s, hs, rfl, _⟩ := mem_globMatches.mp hx
  exact exists_firstNamed (List.mem_of_getElem? hs)

/-- A module without the extra registration of `_probe_9`. -/
theorem registerProbes_calls (o : Outcomes) (syms : List Symbol) {m : ProbeModule}
    (hm : m.suicide = false) (k : Kern) :
    (m.registerProbes o syms k).1 =
        (m.loop.result o (probeNames syms) k.kzallocCalls k.registerCalls.length).getD 0 ∧
      (m.registerProbes o syms k).2.registerCalls = k.registerCalls ++
        m.loop.calls o syms (probeNames syms) k.kzallocCalls k.kernPathCalls
          k.registerCalls.length := by
  have hloop := (implements_registerProbe o syms m).runEach (globMatches "_probe" 0 syms)
    (exists_firstNamed_of_globMatches "_probe" syms) k
  rw [globMatches_map_snd] at hloop
  rw [ProbeModule.registerProbes, forEachGlob_eq, hm]
  generalize UprobeTests.runEach _ (globMatches "_probe" 0 syms) k = r at hloop ⊢
  obtain ⟨stop, k'⟩ := r
  dsimp only at hloop
  rw [probeNames, ← hloop.1]
  cases stop with
  | none => exact ⟨rfl, hloop.2⟩
  | some ret => exact ⟨rfl, hloop.2⟩

theorem registerAll_calls (o : Outcomes) (syms : List Symbol) (s : Kunreg) :
    (Kunreg.registerAll o syms s).2.kern.registerCalls = s.kern.registerCalls ++
      Kunreg.loop.calls o syms (probeNames syms) s.kern.kzallocCalls s.kern.kernPathCalls
        s.kern.registerCalls.length := by
  have hloop := (implements_registerOne o syms).runEach (globMatches "_probe" 0 syms)
    (exists_firstNamed_of_globMatches "_probe" syms) { s with numRegProbes := 0 }
  rw [globMatches_map_snd] at hloop
  rw [Kunreg.registerAll, forEachGlob_eq]
  generalize UprobeTests.runEach _ (globMatches "_probe" 0 syms) _ = r at hloop ⊢
  obtain ⟨stop, s'⟩ := r
  cases stop with
  | none => exact hloop.2
  | some ret => exact hloop.2

/-! ## Whose inode and offset a call gets -/

/-- The `j`-th turn gets to its call of `uprobe_register`. -/
def RegisterLoop.Reaches (c : RegisterLoop) (o : Outcomes) (z r j : Nat) : Prop :=
  (∀ i ≤ j, o.kzalloc (z + i) = true) ∧ ∀ i < j, c.goesOn (o.uprobeRegister (r + i)) = true

theorem reaches_zero {z r : Nat} : c.Reaches o z r 0 ↔ o.kzalloc z = true := by
  constructor
  · intro h
    exact h.1 0 (Nat.le_refl 0)
  · intro h
    refine ⟨?_, fun i hi => absurd hi (Nat.not_lt_zero i)⟩
    intro i hi
    rw [Nat.le_zero.mp hi]
    exact h

theorem reaches_succ {z r j : Nat} :
    c.Reaches o z r (j + 1) ↔ o.kzalloc z = true ∧ c.goesOn (o.uprobeRegister r) = true ∧
      c.Reaches o (z + 1) (r + 1) j := by
  constructor
  · rintro ⟨hkz, hon⟩
    refine ⟨hkz 0 (Nat.zero_le _), hon 0 (Nat.succ_pos j), ?_, ?_⟩
    · intro i hi
      rw [show z + 1 + i = z + (i + 1) by omega]
      exact hkz (i + 1) (by omega)
    · intro i hi
      rw [show r + 1 + i = r + (i + 1) by omega]
      exact hon (i + 1) (by omega)
  · rintro ⟨hkz, hon, hkz', hon'⟩
    constructor
    · intro i hi
      cases i with
      | zero => exact hkz
      | succ i =>
          rw [show z + (i + 1) = z + 1 + i by omega]
          exact hkz' i (by omega)
    · intro i hi
      cases i with
      | zero => exact hon
      | succ i =>
          rw [show r + (i + 1) = r + 1 + i by omega]
          exact hon' i (by omega)

/-- The `j`-th call is the one of the `j`-th turn, if that turn gets so far. -/
theorem RegisterLoop.getElem?_calls (c : RegisterLoop) (o : Outcomes) (syms : List Symbol)
    (names : List String) (z p r j : Nat) (x : Registration × Handler × Int) :
    (c.calls o syms names z p r)[j]? = some x ↔
      ∃ found, names[j]? = some found ∧ c.Reaches o z r j ∧
        x = (place o syms found (z + j) (p + j), c.handler, o.uprobeRegister (r + j)) := by
  induction names generalizing z p r j with
  | nil => simp [RegisterLoop.calls]
  | cons found names ih =>
      rw [RegisterLoop.calls]
      by_cases hz : o.kzalloc z = true
      · rw [if_pos hz]
        cases j with
        | zero =>
            simp only [List.getElem?_cons_zero, Option.some.injEq, reaches_zero, hz, true_and,
              Nat.add_zero, exists_eq_left', eq_comm]
        | succ j =>
            rw [List.getElem?_cons_succ, List.getElem?_cons_succ, reaches_succ]
            by_cases hon : c.goesOn (o.uprobeRegister r) = true
            · rw [if_pos hon, ih, Nat.add_right_comm z 1 j, Nat.add_right_comm p 1 j,
                Nat.add_right_comm r 1 j]
              simp only [hz, hon, true_and, Nat.add_assoc]
            · rw [if_neg hon]
              simp [hon]
      · have hnot : ¬ c.Reaches o z r j := fun h => hz (h.1 0 (Nat.zero_le j))
        rw [if_neg hz]
        simp [hnot]

/-- The entries the loop visits. -/
def probeEntries (syms : List Symbol) : List Symbol := syms.filter fun s => s.Matches "_probe"

/-- Between the states `k` and `k'` before and after the loop every entry whose
    turn comes to it is registered at its own place, and `uprobe_register` is
    never called without an inode. -/
structure RegistersOwnPlaces (o : Outcomes) (syms : List Symbol) (c : RegisterLoop)
    (k k' : Kern) : Prop where
  own : ∀ j s, (probeEntries syms)[j]? = some s →
    c.Reaches o k.kzallocCalls k.registerCalls.length j →
    ∃ x inode, (k'.registerCalls.drop k.registerCalls.length)[j]? = some x ∧
      o.kernPath (k.kernPathCalls + j) s.path = some inode ∧
      x.1.inode = some inode ∧ x.1.offset = s.offset
  resolved : ∀ x ∈ k'.registerCalls.drop k.registerCalls.length, x.1.inode ≠ none

/-- The entry of every turn that gets to its call shares its offset with the
    first entry of the same name, and the paths of both lead to one inode. -/
def OwnPlacesFound (o : Outcomes) (syms : List Symbol) (c : RegisterLoop) (k : Kern) : Prop :=
  ∀ j s, (probeEntries syms)[j]? = some s →
    c.Reaches o k.kzallocCalls k.registerCalls.length j →
    ∃ e inode, firstNamed s.name syms = some e ∧ e.offset = s.offset ∧
      o.kernPath (k.kernPathCalls + j) s.path = some inode ∧
      o.kernPath (k.kernPathCalls + j) e.path = some inode

theorem registersOwnPlaces_of_calls {k k' : Kern}
    (h : k'.registerCalls = k.registerCalls ++ c.calls o syms (probeNames syms) k.kzallocCalls
      k.kernPathCalls k.registerCalls.length) :
    RegistersOwnPlaces o syms c k k' ↔ OwnPlacesFound o syms c k := by
  have hnew : k'.registerCalls.drop k.registerCalls.length =
      c.calls o syms (probeNames syms) k.kzallocCalls k.kernPathCalls k.registerCalls.length := by
    rw [h, List.drop_left]
  -- the `j`-th call, by the entry of the turn
  have hcall : ∀ j x, (k'.registerCalls.drop k.registerCalls.length)[j]? = some x ↔
      ∃ s, (probeEntries syms)[j]? = some s ∧
        c.Reaches o k.kzallocCalls k.registerCalls.length j ∧
        x = (place o syms s.name (k.kzallocCalls + j) (k.kernPathCalls + j), c.handler,
          o.uprobeRegister (k.registerCalls.length + j)) := by
    intro j x
    rw [hnew, RegisterLoop.getElem?_calls, probeNames, List.getElem?_map]
    constructor
    · rintro ⟨found, hfound, hrest⟩
      obtain ⟨s, hs, rfl⟩ := Option.map_eq_some_iff.mp hfound
      exact ⟨s, hs, hrest⟩
    · rintro ⟨s, hs, hrest⟩
      exact ⟨s.name, Option.map_eq_some_iff.mpr ⟨s, hs, rfl⟩, hrest⟩
  constructor
  · intro hown j s hs hreaches
    obtain ⟨e, he⟩ := exists_firstNamed (List.mem_filter.mp (List.mem_of_getElem? hs)).1
    obtain ⟨x, inode, hx, hpath, hinode, hoffset⟩ := hown.own j s hs hreaches
    rw [(hcall j _).mpr ⟨s, hs, hreaches, rfl⟩] at hx
    cases hx
    rw [place, he] at hinode
    rw [place, findOffset_of_firstNamed he] at hoffset
    exact ⟨e, inode, he, hoffset, hpath, hinode⟩
  · intro hfound
    constructor
    · intro j s hs hreaches
      obtain ⟨e, inode, he, hoffset, hpath, hinode⟩ := hfound j s hs hreaches
      refine ⟨_, inode, (hcall j _).mpr ⟨s, hs, hreaches, rfl⟩, hpath, ?_, ?_⟩
      · rw [place, he]
        exact hinode
      · rw [place, findOffset_of_firstNamed he]
        exact hoffset
    · intro x hx
      obtain ⟨j, hj⟩ := List.mem_iff_getElem?.mp hx
      obtain ⟨s, hs, hreaches, rfl⟩ := (hcall j x).mp hj
      obtain ⟨e, inode, he, -, -, hinode⟩ := hfound j s hs hreaches
      have hsome : (place o syms s.name (k.kzallocCalls + j) (k.kernPathCalls + j)).inode =
          some inode := by
        rw [place, he]
        exact hinode
      rw [hsome]
      exact Option.some_ne_none inode

/-- kthread, kdie, kexec and kfork_thread, and kunreg's `register_all` in any
    state, register every entry at its own place exactly when the first entry
    of its name is at that place too and the place is found. -/
theorem registersOwnPlaces_iff (o : Outcomes) (syms : List Symbol) :
    (∀ m ∈ [ProbeModule.kthread, .kdie, .kexec, .kforkThread], ∀ k,
      (RegistersOwnPlaces o syms m.loop k (m.registerProbes o syms k).2 ↔
        OwnPlacesFound o syms m.loop k)) ∧
    ∀ s : Kunreg, (RegistersOwnPlaces o syms Kunreg.loop s.kern (Kunreg.registerAll o syms s).2.kern ↔
      OwnPlacesFound o syms Kunreg.loop s.kern) := by
  constructor
  · intro m hm k
    have hsuicide : m.suicide = false := by
      simp only [List.mem_cons, List.not_mem_nil, or_false] at hm
      rcases hm with rfl | rfl | rfl | rfl <;> rfl
    exact registersOwnPlaces_of_calls (registerProbes_calls o syms hsuicide k).2
  · intro s
    exact registersOwnPlaces_of_calls (registerAll_calls o syms s)

/-- Two static functions of one name in one program. -/
def twoStatics : List Symbol :=
  [⟨"/uthread", 0x5a4, "_probe_0"⟩, ⟨"/uthread", 0x6b8, "_probe_0"⟩]

/-- All calls succeed, but no path is found. -/
def noPathFound : Outcomes := { allSucceed with kernPath := fun _ _ => none }

/-- kthread and kunreg put both probes on the first of the two functions, and
    register a probe whose file does not exist with a NULL inode. -/
theorem registers_otherPlaces :
    (ProbeModule.kthread.registerProbes allSucceed twoStatics .init).2.registered =
      [⟨some 0xffff880012345678, 0x5a4, some 0⟩, ⟨some 0xffff880012345678, 0x5a4, some 1⟩] ∧
    (ProbeModule.kthread.registerProbes noPathFound oneProbe .init).2.registered =
      [⟨none, 0x5a4, some 0⟩] ∧
    ¬ RegistersOwnPlaces allSucceed twoStatics ProbeModule.kthread.loop .init
      (ProbeModule.kthread.registerProbes allSucceed twoStatics .init).2 ∧
    ¬ RegistersOwnPlaces noPathFound oneProbe ProbeModule.kthread.loop .init
      (ProbeModule.kthread.registerProbes noPathFound oneProbe .init).2 ∧
    ¬ RegistersOwnPlaces allSucceed twoStatics Kunreg.loop .init
      (Kunreg.registerAll allSucceed twoStatics (.loaded .init)).2.kern := by
  refine ⟨by decide, by decide, ?_, ?_, ?_⟩
  · intro h
    obtain ⟨x, inode, hx, -, -, hoffset⟩ := h.own 1 ⟨"/uthread", 0x6b8, "_probe_0"⟩ (by decide)
      ⟨fun _ _ => rfl, fun _ _ => rfl⟩
    cases hx
    revert hoffset
    decide
  · intro h
    exact h.resolved (⟨none, 0x5a4, some 0⟩, .probeHandler, 0) (by decide) rfl
  · intro h
    obtain ⟨x, inode, hx, -, -, hoffset⟩ := h.own 1 ⟨"/uthread", 0x6b8, "_probe_0"⟩ (by decide)
      ⟨fun _ _ => rfl, fun _ _ => rfl⟩
    cases hx
    revert hoffset
    decide

/-! ## The copies beside each other -/

/-- The modules whose `init_module` has nothing but the loop. -/
def copies : List ProbeModule := [.kthread, .kforkThread, .kdie, .kexec, .kforkAndDefunc]

/-- The arguments of a call of `uprobe_register` but for the consumer's address:
    inode, offset and handler. -/
def triple (x : Registration × Handler × Int) : Option Inode × Loff × Handler :=
  (x.1.inode, x.1.offset, x.2.1)

/-- The modules make the same calls of `uprobe_register`, all of them with
    `probe_handler`, and their `init_module` returns the same. -/
structure SameLoops (o : Outcomes) (syms : List Symbol) (ms : List ProbeModule) : Prop where
  calls : ∀ m ∈ ms, ∀ m' ∈ ms,
    (m.initModule o syms .init).2.registerCalls.map triple =
      (m'.initModule o syms .init).2.registerCalls.map triple
  handler : ∀ m ∈ ms, ∀ x ∈ (m.initModule o syms .init).2.registerCalls, x.2.1 = .probeHandler
  result : ∀ m ∈ ms, ∀ m' ∈ ms, (m.initModule o syms .init).1 = (m'.initModule o syms .init).1

/-- `init_module` does not get to the loop. -/
def FailsBefore (o : Outcomes) : Prop :=
  initUprobe o < 0 ∨ o.debugfsCreate 0 = false ∨ o.debugfsCreate 1 = false ∨
    o.kmalloc 0 = false ∨ o.kmalloc 1 = false

instance (o : Outcomes) : Decidable (FailsBefore o) := inferInstanceAs (Decidable (_ ∨ _))

theorem debugfsCreate_registerCalls (o : Outcomes) (k : Kern) (d : Dentry) :
    (k.debugfsCreate o d).2.registerCalls = k.registerCalls := by
  rw [Kern.debugfsCreate]
  split <;> rfl

theorem kmalloc_registerCalls (o : Outcomes) (k : Kern) (mk : Nat → Alloc) :
    (k.kmalloc o mk).2.registerCalls = k.registerCalls := by
  rw [Kern.kmalloc]
  split <;> rfl

theorem setUpPrintBuffer_registerCalls (o : Outcomes) (k : Kern) :
    (setUpPrintBuffer o k).2.registerCalls = k.registerCalls := by
  have hbuf := kmalloc_registerCalls o k .printBuf
  rw [setUpPrintBuffer]
  split
  · rename_i heq
    rw [heq] at hbuf
    exact hbuf
  · rename_i printBuf k' heq
    rw [heq] at hbuf
    have hdata := kmalloc_registerCalls o { k' with printBuf := some printBuf, data := none } .data
    split
    · rename_i heq'
      rw [heq'] at hdata
      exact hdata.trans hbuf
    · rename_i heq'
      rw [heq'] at hdata
      exact hdata.trans hbuf

theorem uDbfsInit_registerCalls (o : Outcomes) (dbgDirPath : String) (k : Kern) :
    (uDbfsInit o dbgDirPath k).2.registerCalls = k.registerCalls := by
  have hdir := debugfsCreate_registerCalls o k (.dir dbgDirPath)
  rw [uDbfsInit]
  split
  · rename_i heq
    rw [heq] at hdir
    exact hdir
  · rename_i dir k₁ heq
    rw [heq] at hdir
    have hdata := debugfsCreate_registerCalls o { k₁ with dir := some dir } (.file "data")
    split
    · rename_i heq'
      rw [heq'] at hdata
      exact hdata.trans hdir
    · rename_i dataFile k₂ heq'
      rw [heq'] at hdata
      have hbuf := setUpPrintBuffer_registerCalls o { k₂ with dataFile := some dataFile }
      generalize setUpPrintBuffer o { k₂ with dataFile := some dataFile } = r at hbuf ⊢
      obtain ⟨ret, k₃⟩ := r
      dsimp only at hbuf ⊢
      have hcleanup := debugfsCreate_registerCalls o k₃ (.file "cleanup")
      split
      · exact hbuf.trans (hdata.trans hdir)
      · exact hcleanup.trans (hbuf.trans (hdata.trans hdir))

theorem initModule_of_failsBefore (h : FailsBefore o) (m : ProbeModule) :
    (m.initModule o syms .init).1 = -1 ∧ (m.initModule o syms .init).2.registerCalls = [] := by
  rw [ProbeModule.initModule]
  by_cases hinit : initUprobe o < 0
  · rw [if_pos hinit]
    exact ⟨rfl, rfl⟩
  · have hcalls := uDbfsInit_registerCalls o m.dbgDirPath .init
    have hfails : (uDbfsInit o m.dbgDirPath .init).1 = -1 := by
      have hspec := uDbfsInit_spec o m.dbgDirPath
      split at hspec
      · exact hspec.1
      · rename_i hfiles
        have hbuffer : o.kmalloc 0 = false ∨ o.kmalloc 1 = false := by
          rcases h with h | h | h | h
          · exact absurd h hinit
          · exact absurd (Or.inl h) hfiles
          · exact absurd (Or.inr h) hfiles
          · exact h
        rw [if_pos hbuffer] at hspec
        exact hspec.1
    rw [if_neg hinit]
    generalize uDbfsInit o m.dbgDirPath .init = r at hcalls hfails ⊢
    obtain ⟨ret, k⟩ := r
    dsimp only at hcalls hfails ⊢
    subst hfails
    exact ⟨rfl, hcalls⟩

/-- Once it gets there, it does what the loop does. -/
theorem initModule_of_not_failsBefore (h : ¬ FailsBefore o) {m : ProbeModule}
    (hm : m.suicide = false) :
    (m.initModule o syms .init).1 = (m.loop.result o (probeNames syms) 0 0).getD 0 ∧
      (m.initModule o syms .init).2.registerCalls =
        m.loop.calls o syms (probeNames syms) 0 0 0 := by
  rw [FailsBefore, not_or] at h
  have hready : uDbfsInit o m.dbgDirPath .init =
      (0, .ready m.dbgDirPath (o.debugfsCreate 2)) := by
    have hspec := uDbfsInit_spec o m.dbgDirPath
    rw [if_neg (by tauto), if_neg (by tauto)] at hspec
    exact hspec
  rw [ProbeModule.initModule, if_neg h.1, hready]
  exact registerProbes_calls o syms hm (.ready m.dbgDirPath (o.debugfsCreate 2))

/-- The loop of a copy that installs another handler. -/
def RegisterLoop.install (c : RegisterLoop) (handler : Handler) : RegisterLoop :=
  { c with handler := handler }

theorem RegisterLoop.result_install (c : RegisterLoop) (handler : Handler) (o : Outcomes)
    (names : List String) (z r : Nat) :
    (c.install handler).result o names z r = c.result o names z r := by
  induction names generalizing z r with
  | nil => rfl
  | cons found names ih =>
      rw [RegisterLoop.result, RegisterLoop.result, ih]
      rfl

theorem RegisterLoop.calls_handler (c : RegisterLoop) (o : Outcomes) (syms : List Symbol)
    (names : List String) (z p r : Nat) :
    ∀ x ∈ c.calls o syms names z p r, x.2.1 = c.handler := by
  intro x hx
  obtain ⟨j, hj⟩ := List.mem_iff_getElem?.mp hx
  obtain ⟨_, _, _, rfl⟩ := (c.getElem?_calls o syms names z p r j x).mp hj
  rfl

theorem RegisterLoop.calls_eq_nil_iff (c : RegisterLoop) (o : Outcomes) (syms : List Symbol)
    (names : List String) (z p r : Nat) :
    c.calls o syms names z p r = [] ↔ names = [] ∨ o.kzalloc z = false := by
  cases names with
  | nil => simp [RegisterLoop.calls]
  | cons found names =>
      rw [RegisterLoop.calls]
      cases hz : o.kzalloc z with
      | false => simp
      | true => simp

/-- Of the five modules only kfork_and_defunc leaves the handler NULL. -/
theorem loop_of_mem_copies {m : ProbeModule} (hm : m ∈ copies) :
    m.suicide = false ∧
      m.loop = ProbeModule.kthread.loop.install m.handler := by
  simp only [copies, List.mem_cons, List.not_mem_nil, or_false] at hm
  rcases hm with rfl | rfl | rfl | rfl | rfl <;> exact ⟨rfl, rfl⟩

theorem sameLoops_of_no_call (h : ∀ m ∈ copies, (m.initModule o syms .init).2.registerCalls = [])
    (hresult : ∀ m ∈ copies, ∀ m' ∈ copies,
      (m.initModule o syms .init).1 = (m'.initModule o syms .init).1) :
    SameLoops o syms copies where
  calls m hm m' hm' := by rw [h m hm, h m' hm']
  handler m hm x hx := by
    rw [h m hm] at hx
    cases hx
  result := hresult

/-- The five modules return the same whatever happens. -/
theorem initModule_result (o : Outcomes) (syms : List Symbol) {m m' : ProbeModule}
    (hm : m ∈ copies) (hm' : m' ∈ copies) :
    (m.initModule o syms .init).1 = (m'.initModule o syms .init).1 := by
  by_cases h : FailsBefore o
  · rw [(initModule_of_failsBefore h m).1, (initModule_of_failsBefore h m').1]
  · obtain ⟨hsuicide, hloop⟩ := loop_of_mem_copies hm
    obtain ⟨hsuicide', hloop'⟩ := loop_of_mem_copies hm'
    rw [(initModule_of_not_failsBefore h hsuicide).1, (initModule_of_not_failsBefore h hsuicide').1,
      hloop, hloop', RegisterLoop.result_install, RegisterLoop.result_install]

/-- The copies agree exactly when they make no call at all. -/
theorem sameLoops_iff (o : Outcomes) (syms : List Symbol) :
    SameLoops o syms copies ↔
      FailsBefore o ∨ (∀ s ∈ syms, ¬ s.Matches "_probe") ∨ o.kzalloc 0 = false := by
  have hresult : ∀ m ∈ copies, ∀ m' ∈ copies,
      (m.initModule o syms .init).1 = (m'.initModule o syms .init).1 :=
    fun m hm m' hm' => initModule_result o syms hm hm'
  have hnames : probeNames syms = [] ↔ ∀ s ∈ syms, ¬ s.Matches "_probe" := by
    simp [probeNames, List.filter_eq_nil_iff]
  by_cases hbefore : FailsBefore o
  · exact iff_of_true (sameLoops_of_no_call
      (fun m _ => (initModule_of_failsBefore hbefore m).2) hresult) (Or.inl hbefore)
  have hcalls : ∀ m ∈ copies, (m.initModule o syms .init).2.registerCalls =
      m.loop.calls o syms (probeNames syms) 0 0 0 := by
    intro m hm
    exact (initModule_of_not_failsBefore hbefore (loop_of_mem_copies hm).1).2
  constructor
  · intro h
    right
    -- the calls of kfork_and_defunc have no handler
    have hnone : ProbeModule.kforkAndDefunc.loop.calls o syms (probeNames syms) 0 0 0 = [] := by
      apply List.eq_nil_iff_forall_not_mem.mpr
      intro x hx
      have hnull := RegisterLoop.calls_handler _ o syms _ 0 0 0 x hx
      have hmem : ProbeModule.kforkAndDefunc ∈ copies := by decide
      rw [← hcalls _ hmem] at hx
      have hinstalled := h.handler _ hmem x hx
      rw [hnull] at hinstalled
      cases hinstalled
    rwa [RegisterLoop.calls_eq_nil_iff, hnames] at hnone
  · rintro (h | h)
    · exact absurd h hbefore
    · refine sameLoops_of_no_call (fun m hm => ?_) hresult
      rw [hcalls m hm, RegisterLoop.calls_eq_nil_iff, hnames]
      exact h

/-- The other four agree whatever happens. -/
theorem sameLoops_without_kforkAndDefunc (o : Outcomes) (syms : List Symbol) :
    SameLoops o syms [.kthread, .kforkThread, .kdie, .kexec] := by
  have hcopy : ∀ m ∈ [ProbeModule.kthread, .kforkThread, .kdie, .kexec],
      m ∈ copies ∧ m.loop = ProbeModule.kthread.loop := by
    intro m hm
    simp only [List.mem_cons, List.not_mem_nil, or_false] at hm
    rcases hm with rfl | rfl | rfl | rfl <;> exact ⟨by decide, rfl⟩
  have hcalls : ∀ m ∈ [ProbeModule.kthread, .kforkThread, .kdie, .kexec],
      (m.initModule o syms .init).2.registerCalls =
        if FailsBefore o then []
        else ProbeModule.kthread.loop.calls o syms (probeNames syms) 0 0 0 := by
    intro m hm
    split
    · rename_i hbefore
      exact (initModule_of_failsBefore hbefore m).2
    · rename_i hbefore
      rw [← (hcopy m hm).2]
      exact (initModule_of_not_failsBefore hbefore (loop_of_mem_copies (hcopy m hm).1).1).2
  constructor
  · intro m hm m' hm'
    rw [hcalls m hm, hcalls m' hm']
  · intro m hm x hx
    rw [hcalls m hm] at hx
    split at hx
    · cases hx
    · exact RegisterLoop.calls_handler _ o syms _ 0 0 0 x hx
  · intro m hm m' hm'
    exact initModule_result o syms (hcopy m hm).1 (hcopy m' hm').1

/-- With one probe, kthread installs `probe_handler` and kfork_and_defunc nothing. -/
theorem kforkAndDefunc_differs :
    (ProbeModule.kthread.initModule allSucceed oneProbe .init).2.registerCalls.map triple =
      [(some 0xffff880012345678, 0x5a4, .probeHandler)] ∧
    (ProbeModule.kforkAndDefunc.initModule allSucceed oneProbe .init).2.registerCalls.map triple =
      [(some 0xffff880012345678, 0x5a4, .null)] ∧
    ¬ SameLoops allSucceed oneProbe copies := by
  refine ⟨by decide, by decide, fun h => ?_⟩
  have hsame := h.calls .kthread (by decide) .kforkAndDefunc (by decide)
  revert hsame
  decide

end Loop

end UprobeTests
