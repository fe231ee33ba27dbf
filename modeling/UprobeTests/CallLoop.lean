/-
  UprobeTests.CallLoop

  The loop the test programs of uprobes.w share: `cnt` times over some of the
  probe functions, left at the first result that tells of a failure.  A parent
  expects every call to fire once and leaves at a negative result; a forked
  child expects no call to fire and leaves at any result but -1.

  uthread.c, texec.c and tdie.c loop over all ten functions, suicide.c over
  the first nine, and fork_thread.c and fork_and_defunc.c over `probe_0`.

  How long the counters of a slot can agree depends on the target; the loop takes it
  from a `SlotCounts`, of which i386 has one here and x86_64 one in `SlotSpill`.
-/

import UprobeTests.Uthread

namespace UprobeTests

open Finset

/-- `probe_0`, which some threads call alone. -/
abbrev probeZero : ProbeId := ⟨0, Nat.succ_pos 9⟩

section Loop

variable (t : Target) (tid : BitVec 32) (ks : List ProbeId) (fires : Nat → ProbeId → Nat)

/-- The loop from iteration `i` on, with `r` iterations to go; `fires i k` is how
    often probe `k` fires in iteration `i`.  Returns what the loop was left with. -/
def callLoop (stop : Int → Bool) : Nat → Nat → Prog (ProbeTable t) String (Option Int)
  | _, 0 => return none
  | i, r + 1 => do
      match ← callProbes t tid (fires i) stop ks with
      | some error => return some error
      | none => callLoop stop (i + 1) r

/-- A thread that only loops: `thread_1` of uthread.c, texec.c, tdie.c and suicide.c. -/
def loopThread (cnt : Nat) : Prog (ProbeTable t) String (BitVec 32) := do
  buildProbeTable t
  match ← callLoop t tid ks fires (fun error => error < 0) 0 cnt with
  | none => return 0
  | some error => if error ≥ 0 then return 0 else return BitVec.ofInt 32 error

/-- `thread_1` of uthread.c is the loop over all probe functions. -/
theorem thread1_eq_loopThread (cnt : Nat) :
    Uthread.thread1 t tid fires cnt = loopThread t tid (List.finRange 10) fires cnt := by
  have hloop : ∀ r i, Uthread.thread1Loop t tid fires i r =
      callLoop t tid (List.finRange 10) fires (fun error => error < 0) i r := by
    intro r
    induction r with
    | zero => exact fun i => rfl
    | succ r ih =>
        intro i
        rewrite [Uthread.thread1Loop, callLoop]
        refine congrArg (bind _) (funext fun res => ?_)
        cases res with
        | some error => rfl
        | none => exact ih (i + 1)
  rewrite [Uthread.thread1, loopThread, hloop]
  rfl

end Loop

section Once

variable (tid : BitVec 32) {ks : List ProbeId} {fires : Nat → ProbeId → Nat} {cnt : Nat}

/-- Every call of the probes `ks` in the first `cnt` iterations fires exactly once. -/
def FiresOnceOn (ks : List ProbeId) (fires : Nat → ProbeId → Nat) (cnt : Nat) : Prop :=
  ∀ i < cnt, ∀ k ∈ ks, fires i k = 1

/-- The firings of each of the probes `ks` do not run through half a counter. -/
def FewFirings (ks : List ProbeId) (fires : Nat → ProbeId → Nat) (cnt : Nat) : Prop :=
  ∀ k ∈ ks, ∑ i ∈ range cnt, fires i k < 2 ^ 31

/-- `i` calls that fired once, and the firings of the next, stay below 2^31. -/
theorem FewFirings.lt (hfires : FewFirings ks fires cnt) {i : Nat} (hi : i < cnt)
    (hprev : FiresOnceOn ks fires i) {k : ProbeId} (hk : k ∈ ks) : i + fires i k < 2 ^ 31 := by
  have hones : ∑ i' ∈ range i, fires i' k = i := by
    rw [Finset.sum_congr rfl fun i' hi' => hprev i' (mem_range.mp hi') k hk]
    simp
  have hle : ∑ i' ∈ range (i + 1), fires i' k ≤ ∑ i' ∈ range cnt, fires i' k :=
    sum_le_sum_of_subset (range_mono hi)
  rw [sum_range_succ, hones] at hle
  have := hfires k hk
  omega

/-! ## A parent -/

/-- The kernel is not counting, or user and kernel disagree. -/
def IsSentinel (error : Int) : Prop := error = -1 ∨ error = -2

theorem IsSentinel.neg {error : Int} (h : IsSentinel error) : error < 0 := by
  rcases h with rfl | rfl <;> decide

/-- A sentinel survives the conversion to the value main joins. -/
theorem IsSentinel.resultOk {error : Int} (h : IsSentinel error) :
    resultOk (BitVec.ofInt 32 error) = false := by
  rcases h with rfl | rfl <;> decide

/-- Which calls of a slot keep its counters agreed: the call after `j` others does
    exactly when it fires once and `counts j`; every other call returns a sentinel. -/
structure SlotCounts (t : Target) (tid : BitVec 32) where
  counts : Nat → Prop
  fires_once : ∀ {s : Uinfo t.ulongBits} {j : Nat}, s.Agreed j → j + 1 < 2 ^ 31 → counts j →
    (s.call tid 1).Agreed (j + 1) ∧ 0 ≤ (s.call tid 1).returned
  fires_else : ∀ {s : Uinfo t.ulongBits} {j fired : Nat}, s.Agreed j → j + fired < 2 ^ 31 →
    ¬ (counts j ∧ fired = 1) → IsSentinel (s.call tid fired).returned

namespace SlotCounts

variable {t : Target} {tid : BitVec 32} (C : SlotCounts t tid)

/-- No call of the probes `ks` in the first `cnt` iterations returns a sentinel. -/
def Passes (ks : List ProbeId) (fires : Nat → ProbeId → Nat) (cnt : Nat) : Prop :=
  ∀ i < cnt, ∀ k ∈ ks, C.counts i ∧ fires i k = 1

variable {C}

theorem Passes.firesOnceOn (h : C.Passes ks fires cnt) : FiresOnceOn ks fires cnt :=
  fun i hi k hk => (h i hi k hk).2

theorem Passes.succ {i : Nat} (h : C.Passes ks fires i)
    (hi : ∀ k ∈ ks, C.counts i ∧ fires i k = 1) : C.Passes ks fires (i + 1) := by
  intro i' hi' k hk
  rcases Nat.lt_succ_iff_lt_or_eq.mp hi' with hlt | rfl
  · exact h i' hlt k hk
  · exact hi k hk

variable (C)

theorem returned_neg_iff {s : Uinfo t.ulongBits} {i fired : Nat} (hs : s.Agreed i)
    (hlt : i + fired < 2 ^ 31) :
    (s.call tid fired).returned < 0 ↔ ¬ (C.counts i ∧ fired = 1) := by
  by_cases honce : C.counts i ∧ fired = 1
  · obtain ⟨hcounts, rfl⟩ := honce
    have hnonneg := (C.fires_once hs hlt hcounts).2
    exact iff_of_false (by omega) (not_not.mpr ⟨hcounts, rfl⟩)
  · exact iff_of_true (C.fires_else hs hlt honce).neg honce

/-- One iteration: it goes on with agreed counters when every call counts and fires
    once, and is left with a sentinel when not. -/
theorem run_iteration (hks : ks.Nodup) {i : Nat} {fire : ProbeId → Nat} {tbl : ProbeTable t}
    (htbl : ∀ k ∈ ks, Uinfo.Agreed (tbl k) i) (hown : ∀ k, (tbl k).OwnedBy tid)
    (hlt : ∀ k ∈ ks, i + fire k < 2 ^ 31) :
    ∃ res tbl', (callProbes t tid fire (fun error => error < 0) ks).run tbl = (.ok res, tbl') ∧
      ((∀ k ∈ ks, C.counts i ∧ fire k = 1) → res = none ∧
        (∀ k ∈ ks, Uinfo.Agreed (tbl' k) (i + 1)) ∧ (∀ k ∉ ks, tbl' k = tbl k) ∧
        ∀ k, (tbl' k).OwnedBy tid) ∧
      ((¬ ∀ k ∈ ks, C.counts i ∧ fire k = 1) → ∃ error, IsSentinel error ∧ res = some error) := by
  by_cases honce : ∀ k ∈ ks, C.counts i ∧ fire k = 1
  · have hgo : ∀ k ∈ ks, decide ((Uinfo.call (tbl k) tid (fire k)).returned < 0) = false := by
      intro k hk
      rw [decide_eq_false_iff_not, C.returned_neg_iff (htbl k hk) (hlt k hk)]
      exact not_not.mpr (honce k hk)
    refine ⟨none, _, run_callProbes_none fire _ hks hown hgo, fun _ => ⟨rfl, ?_, ?_, ?_⟩,
      fun h => absurd honce h⟩
    · intro k hk
      have hk31 := hlt k hk
      obtain ⟨hcounts, hfire⟩ := honce k hk
      rw [hfire] at hk31
      rw [if_pos hk, hfire]
      exact (C.fires_once (htbl k hk) hk31 hcounts).1
    · exact fun k hk => if_neg hk
    · intro k
      show Uinfo.OwnedBy (if k ∈ ks then _ else _) tid
      split
      · exact call_owned tid (fire k) (tbl k)
      · exact hown k
  · obtain ⟨k, hkbad⟩ := not_forall.mp honce
    obtain ⟨hk, hbad⟩ := Classical.not_imp.mp hkbad
    have hstop : ∃ k ∈ ks, decide ((Uinfo.call (tbl k) tid (fire k)).returned < 0) = true :=
      ⟨k, hk, decide_eq_true ((C.returned_neg_iff (htbl k hk) (hlt k hk)).mpr hbad)⟩
    -- the probe the loop breaks at is one that did not count and fire once either
    obtain ⟨j, hj, tbl', hneg, hrun⟩ :=
      run_callProbes_some fire (fun error => error < 0) hks hown hstop
    have hjbad := (C.returned_neg_iff (htbl j hj) (hlt j hj)).mp (of_decide_eq_true hneg)
    exact ⟨_, tbl', hrun, fun h => absurd h honce,
      fun _ => ⟨_, C.fires_else (htbl j hj) (hlt j hj) hjbad, rfl⟩⟩

/-- The loop from iteration `i` on, no call before it having returned a sentinel. -/
theorem run_callLoop (hks : ks.Nodup) (hfires : FewFirings ks fires cnt) {i r : Nat}
    (hir : i + r = cnt) (hprev : C.Passes ks fires i) {tbl : ProbeTable t}
    (htbl : ∀ k ∈ ks, Uinfo.Agreed (tbl k) i) (hown : ∀ k, (tbl k).OwnedBy tid) :
    ∃ res tbl', (callLoop t tid ks fires (fun error => error < 0) i r).run tbl =
        (.ok res, tbl') ∧
      (C.Passes ks fires cnt → res = none ∧ (∀ k ∈ ks, Uinfo.Agreed (tbl' k) cnt) ∧
        ∀ k ∉ ks, tbl' k = tbl k) ∧
      (¬ C.Passes ks fires cnt → ∃ error, IsSentinel error ∧ res = some error) := by
  induction r generalizing i tbl with
  | zero =>
      obtain rfl : i = cnt := by omega
      exact ⟨none, tbl, rfl, fun _ => ⟨rfl, htbl, fun _ _ => rfl⟩, fun h => absurd hprev h⟩
  | succ r ih =>
      obtain ⟨res, tbl', hrun, hpass, hfail⟩ := C.run_iteration hks htbl hown
        fun k hk => hfires.lt (by omega : i < cnt) hprev.firesOnceOn hk
      -- an iteration in which every call fires once hands its counters to the next
      by_cases honce : ∀ k ∈ ks, C.counts i ∧ fires i k = 1
      · obtain ⟨rfl, htbl', hframe, hown'⟩ := hpass honce
        obtain ⟨res, tbl'', hloop, hgood, hbad⟩ := ih (by omega) (hprev.succ honce) htbl' hown'
        refine ⟨res, tbl'', by rw [callLoop, Prog.run_bind_ok hrun, hloop], fun h => ?_, hbad⟩
        obtain ⟨hres, hagreed, hframe'⟩ := hgood h
        exact ⟨hres, hagreed, fun k hk => (hframe' k hk).trans (hframe k hk)⟩
      · obtain ⟨error, herror, rfl⟩ := hfail honce
        exact ⟨some error, tbl', by rw [callLoop, Prog.run_bind_ok hrun]; rfl,
          fun h => absurd (h i (by omega)) honce, fun _ => ⟨error, herror, rfl⟩⟩

/-- One iteration over a table just built. -/
theorem run_iteration_fresh (hks : ks.Nodup) {fire : ProbeId → Nat}
    (hlt : ∀ k ∈ ks, fire k < 2 ^ 31) :
    ∃ res tbl', (callProbes t tid fire (fun error => error < 0) ks).run
        (fun _ => Uinfo.fresh t.ulongBits) = (.ok res, tbl') ∧
      ((∀ k ∈ ks, C.counts 0 ∧ fire k = 1) → res = none) ∧
      ((¬ ∀ k ∈ ks, C.counts 0 ∧ fire k = 1) → ∃ error, IsSentinel error ∧ res = some error) := by
  have hown : ∀ k, ((fun _ => Uinfo.fresh t.ulongBits : ProbeTable t) k).OwnedBy tid :=
    fun _ => fresh_owned t.ulongBits tid
  obtain ⟨res, tbl', hrun, hpass, hfail⟩ :=
    C.run_iteration hks (fun _ _ => fresh_agreed) hown (by simpa using hlt)
  exact ⟨res, tbl', hrun, fun h => (hpass h).1, hfail⟩

/-- The loop over a table just built. -/
theorem run_callLoop_fresh (hks : ks.Nodup) (hfires : FewFirings ks fires cnt) :
    ∃ res tbl', (callLoop t tid ks fires (fun error => error < 0) 0 cnt).run
        (fun _ => Uinfo.fresh t.ulongBits) = (.ok res, tbl') ∧
      (C.Passes ks fires cnt → res = none ∧ (∀ k ∈ ks, Uinfo.Agreed (tbl' k) cnt) ∧
        ∀ k ∉ ks, tbl' k = Uinfo.fresh t.ulongBits) ∧
      (¬ C.Passes ks fires cnt → ∃ error, IsSentinel error ∧ res = some error) :=
  C.run_callLoop hks hfires (Nat.zero_add cnt) (fun i hi => absurd hi (Nat.not_lt_zero i))
    (fun _ _ => fresh_agreed) fun _ => fresh_owned t.ulongBits tid

/-- A thread that only loops returns 0 exactly when every call counts and fires once. -/
theorem run_loopThread (hks : ks.Nodup) (hfires : FewFirings ks fires cnt) :
    ∃ v tbl', (loopThread t tid ks fires cnt).run (callocTable t) = (.ok v, tbl') ∧
      (resultOk v = true ↔ C.Passes ks fires cnt) ∧
      (C.Passes ks fires cnt → (∀ k ∈ ks, Uinfo.Agreed (tbl' k) cnt) ∧
        ∀ k ∉ ks, tbl' k = Uinfo.fresh t.ulongBits) := by
  obtain ⟨res, tbl', hrun, hpass, hfail⟩ := C.run_callLoop_fresh hks hfires
  rw [loopThread, Prog.run_bind_ok run_buildProbeTable, Prog.run_bind_ok hrun]
  by_cases honce : C.Passes ks fires cnt
  · obtain ⟨rfl, htable⟩ := hpass honce
    exact ⟨0, tbl', rfl, iff_of_true rfl honce, fun _ => htable⟩
  · obtain ⟨error, herror, rfl⟩ := hfail honce
    refine ⟨BitVec.ofInt 32 error, tbl', ?_, iff_of_false (by simp [herror.resultOk]) honce,
      fun h => absurd h honce⟩
    show (Prog.run (if error ≥ 0 then _ else _) tbl') = _
    rw [if_neg (Int.not_le.mpr herror.neg)]
    rfl

end SlotCounts

/-! ## A parent on i386 -/

/-- On i386 every call that fires once keeps the counters agreed. -/
def SlotCounts.i386 (tid : BitVec 32) : SlotCounts .i386 tid where
  counts _ := True
  fires_once hs hlt _ := by
    refine ⟨call_agreed tid hs (by omega), ?_⟩
    rw [returned_of_hit_once tid hs (Nat.le_of_lt hlt)]
    exact Int.natCast_nonneg _
  fires_else hs hlt hfired := by
    rw [true_and] at hfired
    rw [returned_of_not_hit_once tid hs (Nat.le_of_lt hlt) hfired]
    split
    · exact Or.inl rfl
    · exact Or.inr rfl

theorem passes_i386_iff :
    (SlotCounts.i386 tid).Passes ks fires cnt ↔ FiresOnceOn ks fires cnt :=
  ⟨fun h => h.firesOnceOn, fun h i hi k hk => ⟨trivial, h i hi k hk⟩⟩

/-- One iteration over a table just built. -/
theorem run_iteration_fresh (hks : ks.Nodup) {fire : ProbeId → Nat}
    (hlt : ∀ k ∈ ks, fire k < 2 ^ 31) :
    ∃ res tbl', (callProbes .i386 tid fire (fun error => error < 0) ks).run
        (fun _ => Uinfo.fresh 32) = (.ok res, tbl') ∧
      ((∀ k ∈ ks, fire k = 1) → res = none) ∧
      ((¬ ∀ k ∈ ks, fire k = 1) → ∃ error, IsSentinel error ∧ res = some error) := by
  obtain ⟨res, tbl', hrun, hpass, hfail⟩ := (SlotCounts.i386 tid).run_iteration_fresh hks hlt
  exact ⟨res, tbl', hrun, fun h => hpass fun k hk => ⟨trivial, h k hk⟩,
    fun h => hfail fun h' => h fun k hk => (h' k hk).2⟩

/-- The loop over a table just built. -/
theorem run_callLoop_fresh (hks : ks.Nodup) (hfires : FewFirings ks fires cnt) :
    ∃ res tbl', (callLoop .i386 tid ks fires (fun error => error < 0) 0 cnt).run
        (fun _ => Uinfo.fresh 32) = (.ok res, tbl') ∧
      (FiresOnceOn ks fires cnt → res = none) ∧
      (¬ FiresOnceOn ks fires cnt → ∃ error, IsSentinel error ∧ res = some error) := by
  obtain ⟨res, tbl', hrun, hpass, hfail⟩ := (SlotCounts.i386 tid).run_callLoop_fresh hks hfires
  rw [passes_i386_iff] at hpass hfail
  exact ⟨res, tbl', hrun, fun h => (hpass h).1, hfail⟩

/-- A thread that only loops returns 0 exactly when every call fires once. -/
theorem run_loopThread (hks : ks.Nodup) (hfires : FewFirings ks fires cnt) :
    ∃ v tbl', (loopThread .i386 tid ks fires cnt).run (callocTable .i386) = (.ok v, tbl') ∧
      (resultOk v = true ↔ FiresOnceOn ks fires cnt) := by
  obtain ⟨v, tbl', hrun, hok, -⟩ := (SlotCounts.i386 tid).run_loopThread hks hfires
  exact ⟨v, tbl', hrun, hok.trans (passes_i386_iff tid)⟩

end Once

end UprobeTests
