/-
  UprobeTests.WriteCleanup

  Any number of writes of the cleanup file.  `write_cleanup` of
  include/udbgfs.c runs the module's `child_exit` behind `static int entry`,
  which it tests and increments one after the other, and before a copy that can
  fail.

  So the summary is printed once in the runs in which no write comes between
  the test and the end of the copy of another one, and none after a copy has
  failed (`runsOnce`).  Every write that does can lead to two summaries, or
  returns its count when there is none (`not_runsOnce_of_forbidden`).
-/

import UprobeTests.Lib.Activations
import UprobeTests.KernelApi

namespace UprobeTests

namespace WriteCleanup

open Activations

variable {μ : Type}

/-! ## The system -/

/-- What a call of `write_cleanup` with third argument `count` is about to do. -/
inductive Writer where
  | test (count : Nat)
  | loadEntry (count : Nat)
  | storeEntry (count : Nat) (v : BitVec 32)
  | copy (count : Nat)
  /-- in `child_exit`, which comes to its line `i` -/
  | childExit (count i : Nat)
deriving DecidableEq, Repr

/-- `data` is what the module counts.  `started` and `finished` are the calls of
    `child_exit` that were made and that have returned, `printed` their texts;
    `returned` has the argument and the result of every write so far. -/
structure Cleanup (μ : Type) where
  data : μ
  entry : BitVec 32
  started : Nat
  finished : Nat
  printed : List String
  returned : List (Nat × Int)

def Cleanup.start (data : μ) : Activations (Cleanup μ) Writer := ⟨⟨data, 0, 0, 0, [], []⟩, []⟩

def Cleanup.ret (u : Cleanup μ) (count : Nat) (ret : Int) : Cleanup μ :=
  { u with returned := u.returned ++ [(count, ret)] }

/-- `sizeof(buf)`. -/
def bufSize : Nat := 32

section System

variable (childExit : List (μ → String))

/-- The steps of `write_cleanup`; `left` is the result of `copy_from_user`, the
    number of bytes it could not copy.  The module's `child_exit` is the list of
    its calls of `test_printk`. -/
def act (u : Cleanup μ) : Writer → Nat → Option (Cleanup μ × List Writer)
  | .test count, _ =>
      if u.entry ≠ 0 then some (u.ret count count, []) else some (u, [.loadEntry count])
  | .loadEntry count, _ => some (u, [.storeEntry count u.entry])
  | .storeEntry count v, _ => some ({ u with entry := v + 1 }, [.copy count])
  | .copy count, left =>
      if left ≤ min count (bufSize - 1) then
        if left ≠ 0 then some (u.ret count (-einval), [])
        else some ({ u with started := u.started + 1 }, [.childExit count 0])
      else none
  | .childExit count i, _ =>
      match childExit[i]? with
      | some text =>
          some ({ u with printed := u.printed ++ [text u.data] }, [.childExit count (i + 1)])
      | none => some ({ u with finished := u.finished + 1 }.ret count count, [])

/-- What happens beside the writers that are on their way. -/
inductive Event (μ : Type) where
  | write (count : Nat)
  /-- the handlers go on counting -/
  | count (data : μ)

def system : System (Cleanup μ) Writer Nat (Event μ) where
  act := act childExit
  main s e :=
    match e with
    | .write count => some ⟨s.shared, s.acts ++ [.test count]⟩
    | .count data => some ⟨{ s.shared with data := data }, s.acts⟩

end System

/-- Between its test of `entry` and the end of its copy. -/
def Writer.entering : Writer → Bool
  | .loadEntry _ | .storeEntry .. | .copy _ => true
  | _ => false

def Writer.inChildExit : Writer → Bool
  | .childExit .. => true
  | _ => false

/-- `child_exit` is called at most once, and no write returns its count before
    it has been run or is being run. -/
structure RunsOnce (s : Activations (Cleanup μ) Writer) : Prop where
  started_le : s.shared.started ≤ 1
  of_returned : (∃ r ∈ s.shared.returned, r.2 = r.1) → s.shared.started = 1 ∧
    (s.shared.finished = 1 ∨ ∃ a ∈ s.acts, a.inChildExit = true)

/-- No write tests `entry` while another one is between its own test and the end
    of its copy, or after one has failed. -/
def guard : Guard (Cleanup μ) Writer Nat (Event μ) where
  act u others a _ :=
    match a with
    | .test _ => !others.any Writer.entering && !u.returned.any fun r => r.2 == -einval
    | _ => true
  main _ _ := true

/-! ## What a step does -/

/-- Past the test of `entry`. -/
def Writer.inside : Writer → Bool
  | .test _ => false
  | _ => true

theorem inside_of_entering {a : Writer} (h : a.entering = true) : a.inside = true := by
  cases a with
  | test count => cases h
  | _ => rfl

/-- Nothing has come of any write yet. -/
structure Cleanup.Untouched (u : Cleanup μ) : Prop where
  started : u.started = 0
  finished : u.finished = 0
  printed : u.printed = []
  returned : u.returned = []

variable (childExit : List (μ → String)) in
/-- How far the one shot is, and the writer that is inside. -/
inductive Phase (u : Cleanup μ) : List Writer → Prop where
  | unused (hentry : u.entry = 0) (huntouched : u.Untouched) : Phase u []
  | load (count : Nat) (hentry : u.entry = 0) (huntouched : u.Untouched) :
      Phase u [.loadEntry count]
  | store (count : Nat) (hentry : u.entry = 0) (huntouched : u.Untouched) :
      Phase u [.storeEntry count 0]
  | copy (count : Nat) (hentry : u.entry ≠ 0) (huntouched : u.Untouched) : Phase u [.copy count]
  | failed (count : Nat) (hentry : u.entry ≠ 0) (hstarted : u.started = 0)
      (hreturned : u.returned = [(count, -einval)]) : Phase u []
  | running (count : Nat) (hentry : u.entry ≠ 0) (hstarted : u.started = 1)
      (hfinished : u.finished = 0) (hreturned : ∀ r ∈ u.returned, r.2 = r.1)
      (hle : u.printed.length ≤ childExit.length) : Phase u [.childExit count u.printed.length]
  | finished (hentry : u.entry ≠ 0) (hstarted : u.started = 1) (hfinished : u.finished = 1)
      (hreturned : ∀ r ∈ u.returned, r.2 = r.1)
      (hprinted : u.printed.length = childExit.length) : Phase u []

variable {childExit : List (μ → String)} {u u' : Cleanup μ} {l new : List Writer} {n : Nat}

theorem Phase.length_le (h : Phase childExit u l) : l.length ≤ 1 := by
  cases h with
  | unused => exact Nat.zero_le 1
  | failed => exact Nat.zero_le 1
  | finished => exact Nat.zero_le 1
  | _ => exact Nat.le_refl 1

/-- What the handlers count does not matter. -/
theorem Phase.data (h : Phase childExit u l) (data : μ) :
    Phase childExit { u with data := data } l := by
  cases h with
  | unused hentry hu => exact .unused hentry ⟨hu.1, hu.2, hu.3, hu.4⟩
  | load count hentry hu => exact .load count hentry ⟨hu.1, hu.2, hu.3, hu.4⟩
  | store count hentry hu => exact .store count hentry ⟨hu.1, hu.2, hu.3, hu.4⟩
  | copy count hentry hu => exact .copy count hentry ⟨hu.1, hu.2, hu.3, hu.4⟩
  | failed count hentry hstarted hreturned => exact .failed count hentry hstarted hreturned
  | running count hentry hstarted hfinished hreturned hle =>
      exact .running (u := { u with data := data }) count hentry hstarted hfinished hreturned hle
  | finished hentry hstarted hfinished hreturned hprinted =>
      exact .finished hentry hstarted hfinished hreturned hprinted

/-- Returning its count is in order once `child_exit` is under way. -/
theorem forall_returned {returned : List (Nat × Int)} (h : ∀ r ∈ returned, r.2 = (r.1 : Int))
    (count : Nat) : ∀ r ∈ returned ++ [(count, (count : Int))], r.2 = (r.1 : Int) := by
  intro r hr
  rcases List.mem_append.mp hr with hr | hr
  · exact h r hr
  · rw [List.mem_singleton.mp hr]

/-- A test with nobody on the way in and no failure behind. -/
theorem Phase.test (h : Phase childExit u l) {count : Nat}
    (hact : act childExit u (.test count) n = some (u', new))
    (hentering : ∀ b ∈ l, b.entering = false) (hfailed : ∀ r ∈ u.returned, r.2 ≠ -einval) :
    (new = [] ∧ Phase childExit u' l) ∨
      (l = [] ∧ Phase childExit u' (new.filter Writer.inside)) := by
  have hnobody : ∀ b : Writer, b.entering = true → b ∉ l := by
    intro b hb hmem
    rw [hentering b hmem] at hb
    cases hb
  cases h with
  | unused hentry hu =>
      -- the first one goes in
      rw [act, if_neg (not_not.mpr hentry)] at hact
      cases hact
      exact Or.inr ⟨rfl, .load count hentry hu⟩
  | load c hentry hu => exact absurd List.mem_cons_self (hnobody _ rfl)
  | store c hentry hu => exact absurd List.mem_cons_self (hnobody _ rfl)
  | copy c hentry hu => exact absurd List.mem_cons_self (hnobody _ rfl)
  | failed c hentry hstarted hreturned =>
      rw [hreturned] at hfailed
      exact absurd rfl (hfailed (c, -einval) List.mem_cons_self)
  | running c hentry hstarted hfinished hreturned hle =>
      -- `entry` is set, and the write returns its count meanwhile
      rw [act, if_pos hentry] at hact
      cases hact
      exact Or.inl ⟨rfl, .running (u := u.ret count count) c hentry hstarted hfinished
        (forall_returned hreturned count) hle⟩
  | finished hentry hstarted hfinished hreturned hprinted =>
      rw [act, if_pos hentry] at hact
      cases hact
      exact Or.inl ⟨rfl, .finished hentry hstarted hfinished (forall_returned hreturned count)
        hprinted⟩

/-- A step of the writer that is inside. -/
theorem Phase.inside {a : Writer} (h : Phase childExit u [a])
    (hact : act childExit u a n = some (u', new)) :
    Phase childExit u' (new.filter Writer.inside) := by
  generalize hl : [a] = l at h
  cases h with
  | unused => cases hl
  | failed => cases hl
  | finished => cases hl
  | load count hentry hu =>
      cases hl
      cases hact
      rw [hentry]
      exact .store count hentry hu
  | store count hentry hu =>
      cases hl
      cases hact
      have hone : (0 : BitVec 32) + 1 ≠ 0 := by decide
      exact .copy (u := { u with entry := 0 + 1 }) count hone ⟨hu.1, hu.2, hu.3, hu.4⟩
  | copy count hentry hu =>
      cases hl
      rw [act] at hact
      split at hact
      · split at hact
        · -- the shot is gone without a summary
          cases hact
          refine .failed count hentry hu.started ?_
          rw [Cleanup.ret, hu.returned]
          rfl
        · -- `child_exit` is called, at its first line
          cases hact
          have hlines : u.printed.length = 0 := by
            rw [hu.printed]
            rfl
          have hrun : Phase childExit { u with started := u.started + 1 }
              [.childExit count u.printed.length] := by
            refine .running (u := { u with started := u.started + 1 }) count hentry ?_ hu.finished
              ?_ ?_
            · rw [hu.started]
            · rw [hu.returned]
              exact fun r hr => absurd hr List.not_mem_nil
            · rw [hlines]
              exact Nat.zero_le _
          rw [hlines] at hrun
          exact hrun
      · cases hact
  | running count hentry hstarted hfinished hreturned hle =>
      cases hl
      rw [act] at hact
      split at hact
      · rename_i text htext
        cases hact
        have hlt := (List.getElem?_eq_some_iff.mp htext).1
        have hrun : Phase childExit { u with printed := u.printed ++ [text u.data] }
            [.childExit count (u.printed ++ [text u.data]).length] :=
          .running (u := { u with printed := u.printed ++ [text u.data] }) count hentry hstarted
            hfinished hreturned (by rw [List.length_append]; exact hlt)
        rw [List.length_append] at hrun
        exact hrun
      · rename_i hnone
        cases hact
        have hge := List.getElem?_eq_none_iff.mp hnone
        refine .finished (u := { u with finished := u.finished + 1 }.ret count count) hentry
          hstarted ?_ (forall_returned hreturned count) (Nat.le_antisymm hle hge)
        rw [Cleanup.ret, hfinished]

/-! ## Runs -/

theorem phase_step {s s' : Activations (Cleanup μ) Writer}
    (h : Phase childExit s.shared (s.acts.filter Writer.inside))
    (hs : Step (system childExit) guard s s') :
    Phase childExit s'.shared (s'.acts.filter Writer.inside) := by
  cases hs with
  | @act u before a after left u' new hact hg =>
      rcases picked_cases rfl h.length_le with ⟨ha, hothers⟩ | ⟨ha, hpicked, hothers⟩
      · -- the test of another write
        cases a with
        | test count =>
            simp only [guard, Bool.and_eq_true, Bool.not_eq_true', List.any_eq_false,
              beq_iff_eq] at hg
            dsimp only at h ⊢
            rw [← hothers] at h
            have hentering : ∀ b ∈ (before ++ after).filter Writer.inside, b.entering = false :=
              fun b hb => Bool.eq_false_iff.mpr (hg.1 b (List.mem_filter.mp hb).1)
            rcases h.test (n := left) hact hentering hg.2 with ⟨rfl, hphase⟩ | ⟨halone, hphase⟩
            · rw [List.append_nil]
              exact hphase
            · rw [picked_new_of_alone halone]
              exact hphase
        | _ => cases ha
      · -- the writer that is inside goes on
        dsimp only at h ⊢
        rw [hpicked] at h
        rw [picked_new_of_alone hothers]
        exact h.inside hact
  | @main s e s' he hg =>
      cases e with
      | write count =>
          cases he
          rw [List.filter_append]
          simpa [Writer.inside] using h
      | count data =>
          cases he
          exact h.data data

theorem phase_start (data : μ) :
    Phase childExit (Cleanup.start data).shared ((Cleanup.start data).acts.filter Writer.inside) :=
  .unused rfl ⟨rfl, rfl, rfl, rfl⟩

theorem phase {data : μ} {s : Activations (Cleanup μ) Writer}
    (h : Reachable (system childExit) guard (Cleanup.start data) s) :
    Phase childExit s.shared (s.acts.filter Writer.inside) :=
  h.invariant (phase_start data) fun _ _ => phase_step

theorem Phase.once {s : Activations (Cleanup μ) Writer}
    (h : Phase childExit s.shared (s.acts.filter Writer.inside)) : RunsOnce s := by
  have hnone : s.shared.Untouched → RunsOnce s := by
    intro hu
    refine ⟨by rw [hu.started]; exact Nat.zero_le 1, ?_⟩
    rw [hu.returned]
    rintro ⟨r, hr, -⟩
    exact absurd hr List.not_mem_nil
  generalize hl : s.acts.filter Writer.inside = l at h
  cases h with
  | unused hentry hu => exact hnone hu
  | load count hentry hu => exact hnone hu
  | store count hentry hu => exact hnone hu
  | copy count hentry hu => exact hnone hu
  | failed count hentry hstarted hreturned =>
      refine ⟨by rw [hstarted]; exact Nat.zero_le 1, ?_⟩
      rw [hreturned]
      rintro ⟨r, hr, hcount⟩
      rw [List.mem_singleton.mp hr, einval] at hcount
      dsimp only at hcount
      omega
  | running count hentry hstarted hfinished hreturned hle =>
      refine ⟨Nat.le_of_eq hstarted, fun _ => ⟨hstarted, Or.inr ?_⟩⟩
      have hmem : Writer.childExit count s.shared.printed.length ∈ s.acts.filter Writer.inside := by
        rw [hl]
        exact List.mem_cons_self
      exact ⟨_, (List.mem_filter.mp hmem).1, rfl⟩
  | finished hentry hstarted hfinished hreturned hprinted =>
      exact ⟨Nat.le_of_eq hstarted, fun _ => ⟨hstarted, Or.inl hfinished⟩⟩

/-- In the runs in which no write tests `entry` too early or after a failure,
    `child_exit` runs at most once, and has been run or is being run when a
    write has returned its count. -/
theorem runsOnce {data : μ} {s : Activations (Cleanup μ) Writer}
    (h : Reachable (system childExit) guard (Cleanup.start data) s) : RunsOnce s :=
  (phase h).once

/-! ## probe6.c -/

/-- The functions of `probes[]`. -/
def fnames : List String := ["add", "bye", "adios", "au_revoir", "auf_wiedersehen", "arrivederci"]

/-- `child_exit`; the data of the module are the counters `ncalls` of its table. -/
def probe6ChildExit : List ((Nat → Int) → String) :=
  fnames.mapIdx fun i fname ncalls =>
    "probe6 " ++ fname ++ "=" ++ toString (ncalls i) ++ " calls\n"

/-- A write from its test to the end of its copy. -/
def enter (i left : Nat) : List (Choice Nat (Event μ)) :=
  [.act i 0, .act i 0, .act i 0, .act i left]

/-- `child_exit` of probe6.c and the return. -/
def leave (i : Nat) : List (Choice Nat (Event μ)) := List.replicate 7 (.act i 0)

/-- A write that runs `child_exit`, and then another one. -/
theorem runsOnce_twoWrites :
    ∃ s, Reachable (system probe6ChildExit) guard (Cleanup.start fun _ => 1) s ∧
      s.shared.returned = [(1, 1), (5, 5)] ∧ s.shared.started = 1 := by
  obtain ⟨s, h, hs⟩ := exists_reachable_of_execAll (S := system probe6ChildExit) (G := guard)
    (s := Cleanup.start fun _ => 1)
    ([.main (.write 1)] ++ enter 0 0 ++ leave 0 ++ [.main (.write 5), .act 0 0])
    (fun s => s.shared.returned == [(1, 1), (5, 5)]) (by decide)
  rw [beq_iff_eq] at hs
  refine ⟨s, h, hs, ((runsOnce h).of_returned ?_).1⟩
  rw [hs]
  exact ⟨_, List.mem_cons_self, rfl⟩

/-- A write whose copy fails and then one that returns its count, and no summary;
    and two writes that both find `entry` 0, and two summaries. -/
theorem writes_lose_or_double :
    (∃ s, Reachable (system probe6ChildExit) .all (Cleanup.start fun _ => 1) s ∧ s.acts = [] ∧
      s.shared.returned = [(5, -22), (5, 5)] ∧ s.shared.started = 0 ∧ ¬ RunsOnce s) ∧
    ∃ s, Reachable (system probe6ChildExit) .all (Cleanup.start fun _ => 1) s ∧ s.acts = [] ∧
      s.shared.returned = [(5, 5), (5, 5)] ∧ s.shared.started = 2 ∧ ¬ RunsOnce s := by
  constructor
  · obtain ⟨s, h, hs⟩ := exists_reachable_of_execAll (S := system probe6ChildExit) (G := .all)
      (s := Cleanup.start fun _ => 1)
      ([.main (.write 5)] ++ enter 0 5 ++ [.main (.write 5), .act 0 0])
      (fun s => s.acts.isEmpty && s.shared.returned == [(5, -22), (5, 5)] &&
        s.shared.started == 0) (by decide)
    simp only [Bool.and_eq_true, List.isEmpty_iff, beq_iff_eq] at hs
    obtain ⟨⟨hacts, hreturned⟩, hstarted⟩ := hs
    refine ⟨s, h, hacts, hreturned, hstarted, fun hone => ?_⟩
    have hsome := (hone.of_returned ⟨(5, 5), by rw [hreturned]; decide, rfl⟩).1
    rw [hstarted] at hsome
    cases hsome
  · obtain ⟨s, h, hs⟩ := exists_reachable_of_execAll (S := system probe6ChildExit) (G := .all)
      (s := Cleanup.start fun _ => 1)
      ([.main (.write 5), .main (.write 5), .act 1 0] ++ enter 0 0 ++
        [.act 1 0, .act 1 0, .act 1 0] ++ leave 1 ++ leave 0)
      (fun s => s.acts.isEmpty && s.shared.returned == [(5, 5), (5, 5)] &&
        s.shared.started == 2) (by decide)
    simp only [Bool.and_eq_true, List.isEmpty_iff, beq_iff_eq] at hs
    obtain ⟨⟨hacts, hreturned⟩, hstarted⟩ := hs
    refine ⟨s, h, hacts, hreturned, hstarted, fun hone => ?_⟩
    have hle := hone.started_le
    rw [hstarted] at hle
    exact absurd hle (by decide)

/-! ## The condition -/

/-- When in such a run a write has returned its count and nobody is in
    `child_exit` any more, the summary is complete and nothing is in it twice. -/
theorem summary_complete {data : μ} {s : Activations (Cleanup μ) Writer}
    (h : Reachable (system childExit) guard (Cleanup.start data) s)
    (hreturned : ∃ r ∈ s.shared.returned, r.2 = r.1)
    (hnobody : ∀ a ∈ s.acts, a.inChildExit = false) :
    s.shared.printed.length = childExit.length := by
  obtain ⟨hstarted, hrun⟩ := (phase h).once.of_returned hreturned
  have hfinished : s.shared.finished = 1 := by
    rcases hrun with hfinished | ⟨a, ha, hin⟩
    · exact hfinished
    · rw [hnobody a ha] at hin
      cases hin
  have hnot : ¬ s.shared.Untouched := fun hu => by
    rw [hu.started] at hstarted
    cases hstarted
  have hphase := phase h
  generalize s.acts.filter Writer.inside = l at hphase
  cases hphase with
  | unused _ hu => exact absurd hu hnot
  | load _ _ hu => exact absurd hu hnot
  | store _ _ hu => exact absurd hu hnot
  | copy _ _ hu => exact absurd hu hnot
  | failed _ _ hzero _ =>
      rw [hzero] at hstarted
      cases hstarted
  | running _ _ _ hzero _ _ =>
      rw [hzero] at hfinished
      cases hfinished
  | finished _ _ _ _ hprinted => exact hprinted

variable (childExit u) in
/-- A writer on its way in, left to itself among the others, comes to `child_exit`. -/
theorem reachable_childExit (before after : List Writer) {a : Writer} (ha : a.entering = true) :
    ∃ u' count, Reachable (system childExit) .all ⟨u, before ++ a :: after⟩
        ⟨u', before ++ .childExit count 0 :: after⟩ ∧ u'.started = u.started + 1 := by
  have hcopy : ∀ (u : Cleanup μ) count, Reachable (system childExit) .all
      ⟨u, before ++ .copy count :: after⟩
      ⟨{ u with started := u.started + 1 }, before ++ .childExit count 0 :: after⟩ :=
    fun u count => reachable_moves (o := 0) before after rfl
  have hstore : ∀ (u : Cleanup μ) count v, Reachable (system childExit) .all
      ⟨u, before ++ .storeEntry count v :: after⟩
      ⟨{ u with entry := v + 1 }, before ++ .copy count :: after⟩ :=
    fun u count v => reachable_moves (o := 0) before after rfl
  cases a with
  | test count => cases ha
  | loadEntry count =>
      exact ⟨_, count, .trans (reachable_moves (o := 0) before after rfl)
        (.trans (hstore u count u.entry) (hcopy _ count)), rfl⟩
  | storeEntry count v => exact ⟨_, count, .trans (hstore u count v) (hcopy _ count), rfl⟩
  | copy count => exact ⟨_, count, hcopy u count, rfl⟩
  | childExit count i => cases ha

/-- What the condition rules out is a test before there is a summary. -/
theorem Phase.of_forbidden (h : Phase childExit u l)
    (hforbidden : (∃ b ∈ l, b.entering = true) ∨ ∃ r ∈ u.returned, r.2 = -einval) :
    u.started = 0 ∧ (u.entry ≠ 0 ∨ ∃ b ∈ l, b.entering = true) := by
  have hcounts : (∀ r ∈ u.returned, r.2 = (r.1 : Int)) → ¬ ∃ r ∈ u.returned, r.2 = -einval := by
    rintro hall ⟨r, hr, hneg⟩
    have hcount := hall r hr
    rw [hneg, einval] at hcount
    omega
  have hnothing : u.Untouched → ∃ b ∈ l, b.entering = true := by
    intro hu
    refine hforbidden.resolve_right (hcounts ?_)
    rw [hu.returned]
    exact fun r hr => absurd hr List.not_mem_nil
  cases h with
  | unused hentry hu => exact ⟨hu.started, Or.inr (hnothing hu)⟩
  | load count hentry hu => exact ⟨hu.started, Or.inr (hnothing hu)⟩
  | store count hentry hu => exact ⟨hu.started, Or.inr (hnothing hu)⟩
  | copy count hentry hu => exact ⟨hu.started, Or.inr (hnothing hu)⟩
  | failed count hentry hstarted hreturned => exact ⟨hstarted, Or.inl hentry⟩
  | running count hentry hstarted hfinished hreturned hle =>
      obtain ⟨b, hb, hin⟩ := hforbidden.resolve_right (hcounts hreturned)
      rw [List.mem_singleton.mp hb] at hin
      cases hin
  | finished hentry hstarted hfinished hreturned hprinted =>
      obtain ⟨b, hb, -⟩ := hforbidden.resolve_right (hcounts hreturned)
      cases hb

/-- Any write that the condition rules out returns its count when there is no
    summary, or can go on to a second one. -/
theorem not_runsOnce_of_forbidden {data : μ} {s s' : Activations (Cleanup μ) Writer}
    (h : Reachable (system childExit) guard (Cleanup.start data) s)
    (hs : Step (system childExit) guard.compl s s') :
    ∃ s'', Reachable (system childExit) .all s' s'' ∧ ¬ RunsOnce s'' := by
  have hphase := phase h
  cases hs with
  | main he hg => cases hg
  | @act u before a after left u' new hact hg =>
      cases a with
      | test count =>
          rcases picked_cases rfl hphase.length_le with ⟨-, hothers⟩ | ⟨ha, -⟩
          · dsimp only at hphase
            rw [← hothers] at hphase
            have hforbidden : (∃ b ∈ (before ++ after).filter Writer.inside, b.entering = true) ∨
                ∃ r ∈ u.returned, r.2 = -einval := by
              simp only [Guard.compl, guard, Bool.not_eq_true', Bool.and_eq_false_iff,
                Bool.not_eq_false', List.any_eq_true, beq_iff_eq] at hg
              refine hg.imp_left ?_
              rintro ⟨b, hb, hin⟩
              exact ⟨b, List.mem_filter.mpr ⟨hb, inside_of_entering hin⟩, hin⟩
            obtain ⟨hstarted, hcase⟩ := hphase.of_forbidden hforbidden
            by_cases hentry : u.entry = 0
            · -- both go on to `child_exit`
              obtain ⟨b, hb, hin⟩ := hcase.resolve_left (not_not.mpr hentry)
              cases (if_neg (not_not.mpr hentry)).symm.trans hact
              obtain ⟨v, count', hfirst, hv⟩ :=
                reachable_childExit childExit u before after (a := .loadEntry count) rfl
              have hmem : b ∈ before ++ .childExit count' 0 :: after :=
                mem_acts_iff.mpr (Or.inr (List.mem_filter.mp hb).1)
              obtain ⟨before', after', hsplit⟩ := List.append_of_mem hmem
              obtain ⟨w, count'', hsecond, hw⟩ :=
                reachable_childExit childExit v before' after' hin
              rw [hsplit] at hfirst
              rw [List.append_assoc, List.singleton_append]
              refine ⟨_, .trans hfirst hsecond, fun hone => ?_⟩
              have hle := hone.started_le
              rw [hw, hv, hstarted] at hle
              exact absurd hle (by decide)
            · replace hact : act childExit u (.test count) left = some (u', new) := hact
              rw [act, if_pos hentry] at hact
              cases hact
              refine ⟨_, .refl, fun hone => ?_⟩
              have hsome := (hone.of_returned
                ⟨(count, count), List.mem_append_right _ List.mem_cons_self, rfl⟩).1
              rw [Cleanup.ret, hstarted] at hsome
              cases hsome
          · cases ha
      | _ => cases hg

end WriteCleanup

end UprobeTests
