/-
  UprobeTests.BufferUses

  When `print_buf` is used in the life of kthread.  The data file is there
  before `set_up_print_buffer` is called and stays when it fails,
  `u_dbfs_cleanup` waits for nobody, and no consumer is ever unregistered.  So
  the buffer is used within its lifetime in the runs in which nobody falls into
  one of these windows (`uses_inside`), and every step into one of them leads to
  a use outside (`outside_of_forbidden`).
-/

import UprobeTests.ModuleLife

namespace UprobeTests

namespace ModuleLife

open Activations HitCounts

/-! ## The condition -/

section Condition

variable {t : Target}

/-- The handler's next access fails, or finds that the tids differ. -/
def reports (u : ModuleState t) : HandlerAct t → Bool
  | .putKtid x => !x.ok .putKtid
  | .getUtid x =>
      let utid := ByteMem.load u.mem (effectiveAddr t t.utidOff x.slot) t.ulongBytes
      !x.ok .getUtid || x.pid ≠ (BitVec.ofNat t.ulongBits utid).setWidth 32
  | .getKcount x => !x.ok .getKcount
  | .putUcount x _ => !x.ok .putUcount
  | .putKcount x _ => !x.ok .putKcount
  | .loadNumProbes | .storeNumProbes _ => false

/-- The next step of the activation goes into `test_printk`. -/
def Act.callsTestPrintk (u : ModuleState t) : Act t → Bool
  | .writeCopy ok => ok
  | .handler a => reports u a
  | _ => false

/-- The activation is between two accesses to `print_buf`. -/
def Act.usesBuffer : Act t → Bool
  | .readArgs | .readCopy | .print .. => true
  | _ => false

variable (t) in
/-- No read begins and no handler run or cleanup write has something to report
    while the buffer is not set up, and `clean_up_print_buffer` begins only when
    nobody is in `read_data` or `test_printk`. -/
def guard : Guard (ModuleState t) (Act t) Unit Event where
  act u _ a _ := u.life == .setUp || !a.callsTestPrintk u
  main s e :=
    match e with
    | .read _ => s.shared.life == .setUp
    | .load =>
        match s.shared.pos with
        | .cleanUp _ => s.acts.all fun a => !a.usesBuffer
        | _ => true
    | _ => true

end Condition

/-! ## What a step does to the uses -/

section Steps

variable {t : Target} {o : Outcomes} {syms : List Symbol} {u u' : ModuleState t}

theorem testPrintk_pos (u : ModuleState t) (text : String) (x : PrintkUse) :
    (u.testPrintk text x).1.pos = u.pos := by
  cases x with
  | lock =>
      rw [ModuleState.testPrintk]
      split <;> rfl
  | _ => rfl

theorem testPrintk_uses (u : ModuleState t) (text : String) (x : PrintkUse) :
    (u.testPrintk text x).1.uses = u.uses ++ [(.testPrintk x, u.life)] := by
  cases x with
  | lock =>
      rw [ModuleState.testPrintk]
      split <;> rfl
  | _ => rfl

theorem printed_putUser_eq_nil_iff {ok : Bool} {ea : Nat} {v : BitVec t.ulongBits} :
    (putUser ok ea v u.probed.kernel).printed = [] ↔ (!ok) = false := by
  cases ok <;> simp [putUser, HandlerState.testPrintk, ModuleState.probed]

theorem printed_getUser_eq_nil_iff {ok : Bool} {ea : Nat} :
    (getUser ok ea u.probed.kernel).2.printed = [] ↔ (!ok) = false := by
  cases ok <;> simp [getUser, HandlerState.testPrintk, ModuleState.probed]

theorem printed_checkTids_eq_nil_iff {ktid utid : BitVec 32} {k : HandlerState t} :
    (checkTids ktid utid k).printed = [] ↔ ktid = utid ∧ k.printed = [] := by
  rw [checkTids]
  split
  · rename_i hne
    simp [HandlerState.testPrintk, hne]
  · rename_i heq
    rw [ne_eq, not_not] at heq
    rw [and_iff_right heq]

/-- A step of the handler collects a text exactly when it has something to report. -/
theorem printed_eq_nil_iff {a : HandlerAct t} {r : Probed t × List (HandlerAct t)}
    (h : handlerAct u.probed a () = some r) : r.1.kernel.printed = [] ↔ reports u a = false := by
  cases a with
  | putKtid x =>
      cases h
      exact printed_putUser_eq_nil_iff
  | getUtid x =>
      cases h
      rw [reports, Bool.or_eq_false_iff, decide_eq_false_iff_not, ne_eq, not_not, and_comm]
      refine printed_checkTids_eq_nil_iff.trans ?_
      generalize x.ok .getUtid = ok
      cases ok with
      | false => exact iff_of_false (fun h => List.cons_ne_nil _ _ h.2) (fun h => by cases h.2)
      | true => exact and_congr_right' (iff_of_true rfl rfl)
  | getKcount x =>
      cases h
      exact printed_getUser_eq_nil_iff
  | putUcount x kcount =>
      cases h
      exact printed_putUser_eq_nil_iff
  | putKcount x kcount =>
      cases h
      exact printed_putUser_eq_nil_iff
  | loadNumProbes =>
      cases h
      exact iff_of_true rfl rfl
  | storeNumProbes v =>
      cases h
      exact iff_of_true rfl rfl

/-- A call of `test_printk` is about to take the lock. -/
theorem usesBuffer_printTexts {texts : List String} {next : List (HandlerAct t)} {b : Act t}
    (hb : b ∈ printTexts texts next) : b.usesBuffer = true ↔ texts ≠ [] := by
  cases texts with
  | nil =>
      obtain ⟨a, -, rfl⟩ := List.mem_map.mp hb
      simp [Act.usesBuffer]
  | cons text texts =>
      rw [printTexts, List.mem_singleton] at hb
      simp [hb, Act.usesBuffer]

/-- What a step of an activation does: it uses the buffer if it is between two
    accesses, and only then, and gets there only by a call of `test_printk`. -/
theorem act_spec {a : Act t} {new : List (Act t)} (h : act u a () = some (u', new)) :
    u'.pos = u.pos ∧
      (if a.usesBuffer then ∃ x, u'.uses = u.uses ++ [(x, u.life)] else u'.uses = u.uses) ∧
      ∀ b ∈ new, b.usesBuffer = true → a.usesBuffer = true ∨ a.callsTestPrintk u = true := by
  cases a with
  | readArgs =>
      cases h
      exact ⟨rfl, ⟨_, rfl⟩, fun b hb _ => Or.inl rfl⟩
  | readCopy =>
      cases h
      exact ⟨rfl, ⟨_, rfl⟩, fun b hb _ => Or.inl rfl⟩
  | writeTest ok =>
      cases h
      refine ⟨rfl, rfl, fun b hb huse => ?_⟩
      split at hb
      · cases hb
      · rw [List.mem_singleton.mp hb] at huse
        cases huse
  | writeEntry ok =>
      cases h
      refine ⟨rfl, rfl, fun b hb huse => ?_⟩
      rw [List.mem_singleton.mp hb] at huse
      cases huse
  | writeCopy ok =>
      cases h
      refine ⟨rfl, rfl, fun b hb huse => Or.inr ?_⟩
      cases ok with
      | false => cases hb
      | true => rfl
  | handler a =>
      obtain ⟨r, hr, heq⟩ := Option.map_eq_some_iff.mp h
      cases heq
      refine ⟨rfl, rfl, fun b hb huse => Or.inr ?_⟩
      by_contra hquiet
      exact (usesBuffer_printTexts hb).mp huse
        ((printed_eq_nil_iff hr).mpr ((Bool.not_eq_true _).mp hquiet))
  | print x text texts next =>
      have hpos := testPrintk_pos u text x
      have huses := testPrintk_uses u text x
      rw [act] at h
      split at h
      · rename_i heq
        rw [heq] at hpos huses
        cases h
        exact ⟨hpos, ⟨_, huses⟩, fun b hb _ => Or.inl rfl⟩
      · rename_i heq
        rw [heq] at hpos huses
        cases h
        exact ⟨hpos, ⟨_, huses⟩, fun b hb _ => Or.inl rfl⟩

/-- What a step of the loader does: it uses the buffer only while that is set up,
    and ends that time only at the beginning of `clean_up_print_buffer`. -/
structure LoadSpec (u u' : ModuleState t) : Prop where
  uses : u'.uses = u.uses ∨ u.life = .setUp ∧ ∃ x, u'.uses = u.uses ++ [(x, u.life)]
  life : u.life = .setUp → u'.life = .setUp ∨ ∃ ret, u.pos = .cleanUp ret

theorem LoadSpec.before (h : u.life = .notSetUp) (huses : u'.uses = u.uses) : LoadSpec u u' :=
  ⟨Or.inl huses, fun hlife => absurd (h.symm.trans hlife) (by decide)⟩

theorem LoadSpec.after (h : u.life = .cleanedUp) (huses : u'.uses = u.uses) : LoadSpec u u' :=
  ⟨Or.inl huses, fun hlife => absurd (h.symm.trans hlife) (by decide)⟩

theorem LoadSpec.within (huses : u'.uses = u.uses) (h : u'.life = .setUp) : LoadSpec u u' :=
  ⟨Or.inl huses, fun _ => Or.inl h⟩

theorem load_spec (h : load o syms u = some u') : LoadSpec u u' := by
  have hlife : u.life = u.pos.life := rfl
  rw [load] at h
  cases hpos : u.pos with
  | initUprobe =>
      rw [hpos] at h hlife
      cases h
      exact .before hlife rfl
  | createDir =>
      rw [hpos] at h hlife
      dsimp only at h
      split at h
      · cases h
        exact .before hlife rfl
      · cases h
        exact .before hlife rfl
  | createDataFile dir =>
      rw [hpos] at h hlife
      dsimp only at h
      split at h
      · cases h
        exact .before hlife rfl
      · cases h
        exact .before hlife rfl
  | removeDir dir =>
      rw [hpos] at h hlife
      cases h
      exact .before hlife rfl
  | allocPrintBuf =>
      rw [hpos] at h hlife
      dsimp only at h
      split at h
      · cases h
        exact .before hlife rfl
      · cases h
        exact .before hlife rfl
  | allocData printBuf =>
      rw [hpos] at h hlife
      dsimp only at h
      split at h
      · cases h
        exact .before hlife rfl
      · cases h
        exact .before hlife rfl
  | freePrintBuf printBuf =>
      rw [hpos] at h hlife
      cases h
      exact .before hlife rfl
  | initPrintBuf =>
      rw [hpos] at h hlife
      cases h
      exact .before hlife rfl
  | createCleanupFile =>
      rw [hpos] at h
      cases h
      exact .within rfl rfl
  | nextProbe next =>
      rw [hpos] at h
      dsimp only at h
      split at h
      · cases h
        exact .within rfl rfl
      · cases h
        exact .within rfl rfl
  | allocConsumer next found =>
      rw [hpos] at h
      dsimp only at h
      split at h
      · cases h
        exact .within rfl rfl
      · cases h
        exact .within rfl rfl
  | lookup next found usp =>
      rw [hpos] at h
      cases h
      exact .within rfl rfl
  | print next found usp inode x =>
      rw [hpos] at h hlife
      have huses := testPrintk_uses u (registeringText inode (findOffset found syms) found) x
      dsimp only at h
      split at h
      · rename_i heq
        rw [heq] at huses
        cases h
        exact ⟨Or.inr ⟨hlife, _, huses⟩, fun _ => Or.inl rfl⟩
      · rename_i heq
        rw [heq] at huses
        cases h
        exact ⟨Or.inr ⟨hlife, _, huses⟩, fun _ => Or.inl rfl⟩
  | register next found usp inode =>
      rw [hpos] at h
      cases h
      refine .within rfl ?_
      simp only [ModuleState.life, ModuleState.goTo]
      split <;> rfl
  | loaded =>
      rw [hpos] at h
      cases h
  | removeDataFile ret =>
      rw [hpos] at h
      cases h
      exact .within rfl rfl
  | removeCleanupFile ret =>
      rw [hpos] at h
      cases h
      exact .within rfl rfl
  | removeLastDir ret =>
      rw [hpos] at h
      cases h
      exact .within rfl rfl
  | cleanUp ret =>
      rw [hpos] at h
      dsimp only at h
      split at h
      · cases h
        exact ⟨Or.inl rfl, fun _ => Or.inr ⟨ret, hpos⟩⟩
      · cases h
        exact ⟨Or.inl rfl, fun _ => Or.inr ⟨ret, hpos⟩⟩
  | freeData ret data printBuf =>
      rw [hpos] at h hlife
      cases h
      exact .after hlife rfl
  | freeLast ret printBuf =>
      rw [hpos] at h hlife
      cases h
      exact .after hlife rfl
  | failed =>
      rw [hpos] at h
      cases h
  | gone ret =>
      rw [hpos] at h
      cases h

end Steps

/-! ## Uses within the lifetime -/

section Inside

variable {t : Target} {o : Outcomes} {syms : List Symbol} {mem : ByteMem.Mem}
  {s s' : Activations (ModuleState t) (Act t)}

/-- Every use so far was one of a buffer that is set up, and whoever is between
    two uses has it set up. -/
structure Inside (s : Activations (ModuleState t) (Act t)) : Prop where
  uses : ∀ x ∈ s.shared.uses, x.2 = .setUp
  acts : ∀ a ∈ s.acts, a.usesBuffer = true → s.shared.life = .setUp

theorem forall_uses_append {uses : List (Use × Life)} {x : Use} {life : Life}
    (huses : ∀ y ∈ uses, y.2 = .setUp) (hlife : life = .setUp) :
    ∀ y ∈ uses ++ [(x, life)], y.2 = .setUp := by
  intro y hy
  rcases List.mem_append.mp hy with hy | hy
  · exact huses y hy
  · rw [List.mem_singleton.mp hy]
    exact hlife

theorem Inside.act {u u' : ModuleState t} {before after new : List (Act t)} {a : Act t}
    (h : Inside ⟨u, before ++ a :: after⟩) (hact : ModuleLife.act u a () = some (u', new))
    (hg : (guard t).act u (before ++ after) a () = true) :
    Inside ⟨u', before ++ new ++ after⟩ := by
  obtain ⟨hpos, huses, hnew⟩ := act_spec hact
  have hlife : u'.life = u.life := congrArg Position.life hpos
  have hmem : a ∈ before ++ a :: after := mem_acts_iff.mpr (Or.inl rfl)
  refine ⟨?_, ?_⟩
  · split at huses
    · rename_i hin
      obtain ⟨x, huses⟩ := huses
      dsimp only
      rw [huses]
      exact forall_uses_append h.uses (h.acts a hmem hin)
    · dsimp only
      rw [huses]
      exact h.uses
  · refine forall_acts_step h.acts ?_ ?_
    · -- nobody starts to use the buffer while it is not set up
      intro hin b hb hin'
      rw [hlife]
      rcases hnew b hb hin' with hin | hcalls
      · exact h.acts a hmem hin
      · simpa [guard, hcalls] using hg
    · intro b hb hkeep hin'
      rw [hlife]
      exact hkeep hin'

/-- A new activation that has not yet come to the buffer. -/
theorem Inside.enters (h : Inside s) {u : ModuleState t} (huses : u.uses = s.shared.uses)
    (hpos : u.pos = s.shared.pos) {a : Act t} (ha : a.usesBuffer = false) :
    Inside ⟨u, s.acts ++ [a]⟩ := by
  have hlife : u.life = s.shared.life := congrArg Position.life hpos
  refine ⟨huses ▸ h.uses, fun b hb hin => ?_⟩
  rcases List.mem_append.mp hb with hb | hb
  · exact hlife.trans (h.acts b hb hin)
  · rw [List.mem_singleton.mp hb, ha] at hin
    cases hin

theorem Inside.load (h : Inside s) {u : ModuleState t} (hload : load o syms s.shared = some u)
    (hg : (guard t).main s .load = true) : Inside ⟨u, s.acts⟩ := by
  have hspec := load_spec hload
  refine ⟨?_, fun a ha hin => ?_⟩
  · rcases hspec.uses with huses | ⟨hlife, x, huses⟩
    · exact huses ▸ h.uses
    · dsimp only
      rw [huses]
      exact forall_uses_append h.uses hlife
  · rcases hspec.life (h.acts a ha hin) with hlife | ⟨ret, hpos⟩
    · exact hlife
    · -- `clean_up_print_buffer` begins: nobody is using the buffer
      simp only [guard, hpos, List.all_eq_true] at hg
      have hout := hg a ha
      rw [hin] at hout
      cases hout

theorem Inside.event {e : Event} (h : Inside s) (he : event o syms s e = some s')
    (hg : (guard t).main s e = true) : Inside s' := by
  cases e with
  | load =>
      obtain ⟨u, hload, rfl⟩ := Option.map_eq_some_iff.mp he
      exact h.load hload hg
  | unload =>
      rw [ModuleLife.event] at he
      split at he
      · cases he
        exact ⟨h.uses, fun _ _ _ => rfl⟩
      · cases he
  | read nonEmpty =>
      have hlife : s.shared.life = .setUp := by simpa [guard] using hg
      rw [ModuleLife.event] at he
      split at he
      · cases he
        exact ⟨forall_uses_append h.uses hlife, fun _ _ _ => hlife⟩
      · cases he
  | write ok =>
      rw [ModuleLife.event] at he
      split at he
      · cases he
        exact h.enters rfl rfl rfl
      · cases he
  | hit r ok pid regs =>
      rw [ModuleLife.event] at he
      split at he
      · cases he
        exact h.enters rfl rfl rfl
      · cases he
  | user mem =>
      cases he
      exact ⟨h.uses, h.acts⟩

theorem inside (h : Reachable (system t o syms) (guard t) (start mem) s) : Inside s := by
  apply h.invariant
  · exact ⟨fun _ hx => absurd hx List.not_mem_nil, fun _ ha => absurd ha List.not_mem_nil⟩
  · intro s s' hs hstep
    cases hstep with
    | act hact hg => exact hs.act hact hg
    | main he hg => exact hs.event he hg

/-- In the runs that keep to the condition the buffer is used within its lifetime. -/
theorem uses_inside (h : Reachable (system t o syms) (guard t) (start mem) s) :
    ∀ x ∈ s.shared.uses, x.2 = .setUp := (inside h).uses

/-- A step of `init_module` or `cleanup_module`. -/
def loads (n : Nat) : List (Choice Unit Event) := List.replicate n (.main .load)

/-- A thread hits the one probe of `oneProbe`, with access to its slot or not. -/
def hitProbe0 (ok : Bool) : Choice Unit Event :=
  .main (.hit ⟨some 0xffff880012345678, 0x5a4, some 0⟩ (fun _ => ok) 7 ⟨4096, 0⟩)

/-- The module is loaded, a probe is hit and the tids differ, the data file is
    read and the cleanup file written, and the module is unloaded before that
    run of the handler ends. -/
theorem uses_inside_wholeLife :
    ∃ s, Reachable (system .x86_64 allSucceed oneProbe) (guard .x86_64) (start fun _ => 0) s ∧
      s.shared.life = .cleanedUp ∧ s.acts = [] ∧ s.shared.uses.length = 27 ∧
      ∀ x ∈ s.shared.uses, x.2 = .setUp := by
  obtain ⟨s, h, hs⟩ := exists_reachable_of_execAll (S := system .x86_64 allSucceed oneProbe)
    (G := guard .x86_64) (s := start fun _ => 0)
    (loads 18 ++ hitProbe0 true :: .act 0 () :: .act 0 () :: List.replicate 12 (.act 0 ()) ++
      [.main (.read true), .act 1 (), .act 1 ()] ++ .main (.write true) ::
      List.replicate 9 (.act 1 ()) ++ .main .unload :: loads 6 ++ List.replicate 4 (.act 0 ()))
    (fun s => s.shared.life == .cleanedUp && s.acts.isEmpty && s.shared.uses.length == 27)
    (by decide)
  rw [Bool.and_eq_true, Bool.and_eq_true, beq_iff_eq, List.isEmpty_iff, beq_iff_eq] at hs
  exact ⟨s, h, hs.1.1, hs.1.2, hs.2, uses_inside h⟩

/-- A read between the creation of the data file and `set_up_print_buffer`, a
    read after that has failed, and a hit of the probe that is still registered
    after the module is unloaded. -/
theorem outside_windows :
    (∃ s, Reachable (system .x86_64 allSucceed oneProbe) .all (start fun _ => 0) s ∧
      (.readData .test, .notSetUp) ∈ s.shared.uses) ∧
    (∃ s, Reachable (system .x86_64 { allSucceed with kmalloc _ := false } oneProbe) .all
        (start fun _ => 0) s ∧
      s.shared.pos.result = some (-1) ∧ (.readData .test, .notSetUp) ∈ s.shared.uses) ∧
    ∃ s, Reachable (system .x86_64 allSucceed oneProbe) .all (start fun _ => 0) s ∧
      (.testPrintk .lock, .cleanedUp) ∈ s.shared.uses := by
  refine ⟨?_, ?_, ?_⟩
  · obtain ⟨s, h, hs⟩ := exists_reachable_of_execAll (S := system .x86_64 allSucceed oneProbe)
      (G := .all) (s := start fun _ => 0) (loads 3 ++ [.main (.read true)])
      (fun s => s.shared.uses.contains (.readData .test, .notSetUp)) (by decide)
    exact ⟨s, h, List.contains_iff_mem.mp hs⟩
  · obtain ⟨s, h, hs⟩ := exists_reachable_of_execAll
      (S := system .x86_64 { allSucceed with kmalloc _ := false } oneProbe)
      (G := .all) (s := start fun _ => 0) (loads 4 ++ [.main (.read true)])
      (fun s => s.shared.pos.result == some (-1) &&
        s.shared.uses.contains (.readData .test, .notSetUp)) (by decide)
    rw [Bool.and_eq_true, beq_iff_eq] at hs
    exact ⟨s, h, hs.1, List.contains_iff_mem.mp hs.2⟩
  · obtain ⟨s, h, hs⟩ := exists_reachable_of_execAll (S := system .x86_64 allSucceed oneProbe)
      (G := .all) (s := start fun _ => 0)
      (loads 18 ++ .main .unload :: loads 6 ++ [hitProbe0 false, .act 0 (), .act 0 ()])
      (fun s => s.shared.uses.contains (.testPrintk .lock, .cleanedUp)) (by decide)
    exact ⟨s, h, List.contains_iff_mem.mp hs⟩

/-! ## The condition leaves out nothing else -/

/-- Whoever is between two uses makes the next one. -/
theorem outside_of_usesBuffer {a : Act t} (ha : a ∈ s.acts) (hin : a.usesBuffer = true)
    (hlife : s.shared.life ≠ .setUp) :
    ∃ s', Step (system t o syms) .all s s' ∧ ∃ x ∈ s'.shared.uses, x.2 ≠ .setUp := by
  obtain ⟨u, acts⟩ := s
  obtain ⟨before, after, rfl⟩ := List.append_of_mem ha
  have hsome : ∃ r, act u a () = some r := by
    cases a with
    | readArgs => exact ⟨_, rfl⟩
    | readCopy => exact ⟨_, rfl⟩
    | print x text texts next =>
        rw [act]
        split
        · exact ⟨_, rfl⟩
        · exact ⟨_, rfl⟩
    | writeTest ok => cases hin
    | writeEntry ok => cases hin
    | writeCopy ok => cases hin
    | handler a => cases hin
  obtain ⟨⟨u', new⟩, hact⟩ := hsome
  obtain ⟨-, huses, -⟩ := act_spec hact
  rw [if_pos hin] at huses
  obtain ⟨x, huses⟩ := huses
  refine ⟨⟨u', before ++ new ++ after⟩, .act hact rfl, (x, u.life), ?_, hlife⟩
  dsimp only
  rw [huses]
  exact List.mem_append_right _ (List.mem_singleton_self _)

/-- Whoever has something to report goes into `test_printk`. -/
theorem exists_usesBuffer_of_calls {u u' : ModuleState t} {a : Act t} {new : List (Act t)}
    (h : act u a () = some (u', new)) (hcalls : a.callsTestPrintk u = true) :
    ∃ b ∈ new, b.usesBuffer = true := by
  have hprint : ∀ {texts : List String} {next : List (HandlerAct t)}, texts ≠ [] →
      ∃ b ∈ printTexts texts next, b.usesBuffer = true := by
    intro texts next hne
    obtain ⟨text, texts, rfl⟩ := List.exists_cons_of_ne_nil hne
    exact ⟨_, List.mem_singleton_self _, rfl⟩
  cases a with
  | readArgs => cases hcalls
  | readCopy => cases hcalls
  | writeTest ok => cases hcalls
  | writeEntry ok => cases hcalls
  | writeCopy ok =>
      rw [Act.callsTestPrintk] at hcalls
      subst hcalls
      cases h
      exact hprint (List.cons_ne_nil _ _)
  | handler a =>
      obtain ⟨r, hr, heq⟩ := Option.map_eq_some_iff.mp h
      cases heq
      apply hprint
      intro hnil
      rw [printed_eq_nil_iff hr] at hnil
      exact absurd (hcalls.symm.trans hnil) (by decide)
  | print x text texts next => cases hcalls

/-- After any step that the condition forbids, a use outside the lifetime has
    been made or is the next thing one of the activations does. -/
theorem outside_of_forbidden (h : Step (system t o syms) (guard t).compl s s') :
    ∃ s'', Reachable (system t o syms) .all s' s'' ∧ ∃ x ∈ s''.shared.uses, x.2 ≠ .setUp := by
  cases h with
  | @act u before a after x u' new hact hg =>
      simp only [Guard.compl, guard, Bool.not_eq_true', Bool.or_eq_false_iff, beq_eq_false_iff_ne,
        Bool.not_eq_false'] at hg
      obtain ⟨hlife, hcalls⟩ := hg
      obtain ⟨b, hb, hin⟩ := exists_usesBuffer_of_calls hact hcalls
      have hlife' : u'.life ≠ .setUp := by
        rw [ModuleState.life, (act_spec hact).1]
        exact hlife
      obtain ⟨s'', hstep, hx⟩ := outside_of_usesBuffer (o := o)
        (s := ⟨u', before ++ new ++ after⟩) (mem_new_iff.mpr (Or.inl hb)) hin hlife'
      exact ⟨s'', .single hstep, hx⟩
  | @main s e s' he hg =>
      cases e with
      | read nonEmpty =>
          have hlife : s.shared.life ≠ .setUp := by simpa [Guard.compl, guard] using hg
          replace he : event o syms s (.read nonEmpty) = some s' := he
          rw [event] at he
          split at he
          · cases he
            exact ⟨_, .refl, _, List.mem_append_right _ (List.mem_singleton_self _), hlife⟩
          · cases he
      | load =>
          simp only [Guard.compl, guard] at hg
          split at hg
          · rename_i ret hpos
            simp only [Bool.not_eq_true', List.all_eq_false] at hg
            obtain ⟨a, ha, hin⟩ := hg
            obtain ⟨u, hload, rfl⟩ := Option.map_eq_some_iff.mp he
            -- the buffer is no longer set up, and `a` has a use to come
            have hlife : u.life ≠ .setUp := by
              rw [load, hpos] at hload
              dsimp only at hload
              split at hload
              · cases hload
                exact Life.noConfusion
              · cases hload
                exact Life.noConfusion
            obtain ⟨s'', hstep, hx⟩ := outside_of_usesBuffer (o := o)
              (s := ⟨u, s.acts⟩) ha (by simpa using hin) hlife
            exact ⟨s'', .single hstep, hx⟩
          · cases hg
      | unload => cases hg
      | write ok => cases hg
      | hit r ok pid regs => cases hg
      | user mem => cases hg

end Inside

end ModuleLife

end UprobeTests
