/-
  UprobeTests.Departures

  The programs of uprobes.w with threads that do not come back: the last thread
  of texec.c replaces the process, that of tdie.c dies of SIGSEGV and takes the
  process with it, that of suicide.c is ended in the handler of its probe, and
  every thread of fork_and_defunc.c leaves with `exit(0)`.

  A thread that leaves the process races with main, which may have joined a bad
  thread before, so the verdict is not determined by what fires.  Which verdicts
  some interleaving ends with is, on i386 (`texec_canEnd_iff`, `tdie_canEnd_iff`,
  `forkAndDefunc_canEnd_iff`); only suicide.c leaves no choice
  (`suicide_prints_iff`).
-/

import UprobeTests.CallLoop
import UprobeTests.Lib.PoolVerdicts

namespace UprobeTests

namespace Departures

/-- How a process ends that main does not end. -/
inductive Ending where
  | testFail (msg : String)
  | exit (status : Nat)
  | exec
  | segv
deriving DecidableEq, Repr

/-- Thread ids, and how often probe `k` fires in iteration `j` of thread `i`. -/
structure Workers (n : Nat) where
  tid : Fin n → BitVec 32
  fires : Fin n → Nat → ProbeId → Nat

section Model

variable (t : Target) (a : Args) (junk : BitVec 32) (w : Workers a.numThreads)

/-- `main` of texec.c, tdie.c and suicide.c: `num_threads - 1` threads of `thread_1`,
    which loops over the probes `ks`, then one thread of another kind. -/
def mainWithLast (ks : List ProbeId)
    (last : BitVec 32 → (Nat → ProbeId → Nat) → Prog (ProbeTable t) Ending (BitVec 32)) :
    ProgPool a.numThreads (ProbeTable t) Ending (BitVec 32) where
  rounds := 1
  prog _ i :=
    if i.val < a.numThreads - 1 then
      (loopThread t (w.tid i) ks (w.fires i) a.niter).mapExit .testFail
    else last (w.tid i) (w.fires i)
  state _ _ := callocTable t
  junk := junk
  ok := resultOk

/-- Nothing comes back from an `execl` that succeeds; after one that fails
    `exec_thread` runs off its end, and main joins whatever is `left`. -/
def execlThenEnd : Option (BitVec 32) → Prog (ProbeTable t) Ending (BitVec 32)
  | some left => return left
  | none => Prog.exit .exec

/-- `exec_thread`. -/
def execThread (execl : Option (BitVec 32)) (tid : BitVec 32) (fires : Nat → ProbeId → Nat) :
    Prog (ProbeTable t) Ending (BitVec 32) := do
  (buildProbeTable t).mapExit .testFail
  match ← (callProbes t tid (fires 0) (fun error => error < 0) [probeZero]).mapExit .testFail with
  | some error => return BitVec.ofInt 32 error
  | none => execlThenEnd t execl

/-- `main` of texec.c. -/
def texec (execl : Option (BitVec 32)) : ProgPool a.numThreads (ProbeTable t) Ending (BitVec 32) :=
  mainWithLast t a junk w (List.finRange 10) (execThread t execl)

/-- `thread_die`: the store to address 1. -/
def threadDie (_tid : BitVec 32) (_fires : Nat → ProbeId → Nat) :
    Prog (ProbeTable t) Ending (BitVec 32) := Prog.exit .segv

/-- `main` of tdie.c. -/
def tdie : ProgPool a.numThreads (ProbeTable t) Ending (BitVec 32) :=
  mainWithLast t a junk w (List.finRange 10) (threadDie t)

/-- `suicide_thread`.  When `suicide_handler` runs at the entry of `_probe_9` it ends
    the task, and `dies` says what main then joins; the function looks at no result. -/
def suicideThread (dies : Option (BitVec 32)) (tid : BitVec 32) (fires : Nat → ProbeId → Nat) :
    Prog (ProbeTable t) Ending (BitVec 32) := do
  (buildProbeTable t).mapExit .testFail
  match dies with
  | some left =>
      let claim : Prog (Uinfo t.ulongBits) Ending Unit :=
        Prog.modify fun slot => { slot with utid := tid }
      claim.focus (Fin.last 9)
      (Prog.times (Uinfo.hit t tid) (fires 0 (Fin.last 9))).focus (Fin.last 9)
      return left
  | none =>
      let _ ← ((probe t tid (fires 0 (Fin.last 9))).mapExit .testFail).focus (Fin.last 9)
      return 0

/-- `main` of suicide.c, whose `thread_1` calls all probe functions but `probe_9`. -/
def suicide (dies : Option (BitVec 32)) :
    ProgPool a.numThreads (ProbeTable t) Ending (BitVec 32) :=
  mainWithLast t a junk w ((List.finRange 10).take 9) (suicideThread t dies)

/-- `fork_thread` of fork_and_defunc.c in the parent; a failed `fork` takes this branch
    too, and nobody asks for the status of the child. -/
def defuncThread (tid : BitVec 32) (fires : Nat → ProbeId → Nat) (cnt : Nat) :
    Prog (ProbeTable t) Ending (BitVec 32) := do
  (buildProbeTable t).mapExit .testFail
  match ← (callLoop t tid [probeZero] fires (fun error => error < 0) 0 cnt).mapExit .testFail with
  | some error => return BitVec.ofInt 32 error
  | none => Prog.exit (.exit 0)

/-- `main` of fork_and_defunc.c. -/
def forkAndDefunc : ProgPool a.numThreads (ProbeTable t) Ending (BitVec 32) where
  rounds := 1
  prog _ i := defuncThread t (w.tid i) (w.fires i) a.niter
  state _ _ := callocTable t
  junk := junk
  ok := resultOk

end Model

/-! ## Threads run alone -/

section Solo

variable (tid : BitVec 32) {fires : Nat → ProbeId → Nat}

theorem run_build {t : Target} :
    ((buildProbeTable t).mapExit Ending.testFail).run (callocTable t) =
      (.ok (), fun _ => Uinfo.fresh t.ulongBits) :=
  Prog.run_mapExit_ok _ run_buildProbeTable

/-- The only call of `exec_thread`. -/
theorem run_execThread (execl : Option (BitVec 32)) (hfires : fires 0 probeZero < 2 ^ 31) :
    (fires 0 probeZero = 1 → ((execThread .i386 execl tid fires).run (callocTable .i386)).1 =
      match execl with
      | some left => .ok left
      | none => .error .exec) ∧
    (fires 0 probeZero ≠ 1 → ∃ v,
      ((execThread .i386 execl tid fires).run (callocTable .i386)).1 = .ok v ∧
        resultOk v = false) := by
  have hfew : ∀ k ∈ [probeZero], fires 0 k < 2 ^ 31 := by simpa using hfires
  obtain ⟨res, tbl', hrun, hpass, hfail⟩ :=
    run_iteration_fresh tid (List.nodup_singleton probeZero) hfew
  rw [execThread, Prog.run_bind_ok run_build, Prog.run_bind_ok (Prog.run_mapExit_ok _ hrun)]
  constructor
  · intro honce
    obtain rfl := hpass (by simpa using honce)
    cases execl with
    | some left => rfl
    | none => rfl
  · intro hnot
    obtain ⟨error, herror, rfl⟩ := hfail (by simpa using hnot)
    exact ⟨BitVec.ofInt 32 error, rfl, herror.resultOk⟩

/-- What main joins of `suicide_thread`. -/
theorem run_suicideThread (t : Target) (dies : Option (BitVec 32)) :
    ((suicideThread t dies tid fires).run (callocTable t)).1 = .ok (dies.getD 0) := by
  cases dies with
  | some left =>
      have hclaim := Prog.run_focus (ε := Ending) (Fin.last 9 : ProbeId)
        (Prog.modify fun slot : Uinfo t.ulongBits => { slot with utid := tid })
        fun _ => Uinfo.fresh t.ulongBits
      rw [suicideThread, Prog.run_bind_ok run_build, Prog.run_bind_ok hclaim]
      rw [Prog.run_bind_ok (a := ())]
      · rfl
      · rw [Prog.run_focus, Prog.run_times]
  | none =>
      have hprobe : ((probe t tid (fires 0 (Fin.last 9))).mapExit Ending.testFail).run
          (Uinfo.fresh t.ulongBits) = (.ok _, _) :=
        Prog.run_mapExit_ok _ (run_probe (fresh_owned t.ulongBits tid))
      have hcall := Prog.run_focus (Fin.last 9 : ProbeId)
        ((probe t tid (fires 0 (Fin.last 9))).mapExit Ending.testFail)
        fun _ => Uinfo.fresh t.ulongBits
      rw [hprobe] at hcall
      rw [suicideThread, Prog.run_bind_ok run_build, Prog.run_bind_ok hcall]
      rfl

/-- A parent of fork_and_defunc.c leaves the process exactly when every call fires once. -/
theorem run_defuncThread {cnt : Nat} (hfires : FewFirings [probeZero] fires cnt) :
    (FiresOnceOn [probeZero] fires cnt →
      ((defuncThread .i386 tid fires cnt).run (callocTable .i386)).1 = .error (.exit 0)) ∧
    (¬ FiresOnceOn [probeZero] fires cnt →
      ∃ v, ((defuncThread .i386 tid fires cnt).run (callocTable .i386)).1 = .ok v ∧
        resultOk v = false) := by
  obtain ⟨res, tbl', hrun, hpass, hfail⟩ :=
    run_callLoop_fresh tid (List.nodup_singleton probeZero) hfires
  rw [defuncThread, Prog.run_bind_ok run_build, Prog.run_bind_ok (Prog.run_mapExit_ok _ hrun)]
  constructor
  · intro honce
    obtain rfl := hpass honce
    rfl
  · intro hnot
    obtain ⟨error, herror, rfl⟩ := hfail hnot
    exact ⟨BitVec.ofInt 32 error, rfl, herror.resultOk⟩

end Solo

/-! ## Verdicts of main -/

section Verdict

variable {t : Target} {a : Args} {w : Workers a.numThreads} {ks : List ProbeId}

/-- The thread main creates last. -/
def lastThread (a : Args) : Fin a.numThreads :=
  ⟨a.numThreads - 1, Nat.sub_lt a.numThreads_pos Nat.one_pos⟩

/-- What comes of the last thread run alone. -/
def lastSolo (w : Workers a.numThreads)
    (last : BitVec 32 → (Nat → ProbeId → Nat) → Prog (ProbeTable t) Ending (BitVec 32)) :
    Except Ending (BitVec 32) :=
  ((last (w.tid (lastThread a)) (w.fires (lastThread a))).run (callocTable t)).1

/-- Every call of every `thread_1` fires exactly once. -/
def AllOnce (w : Workers a.numThreads) (ks : List ProbeId) : Prop :=
  ∀ i < lastThread a, FiresOnceOn ks (w.fires i) a.niter

theorem lt_lastThread_or_eq (i : Fin a.numThreads) : i < lastThread a ∨ i = lastThread a := by
  have hi := i.isLt
  simp only [lastThread, Fin.lt_def, Fin.ext_iff]
  omega

/-- What the `thread_1` with number `i` returns when run alone tells whether `good i`. -/
def LoopTells (t : Target) (w : Workers a.numThreads) (ks : List ProbeId)
    (good : Fin a.numThreads → Prop) (i : Fin a.numThreads) : Prop :=
  ∃ v tbl', (loopThread t (w.tid i) ks (w.fires i) a.niter).run (callocTable t) = (.ok v, tbl') ∧
    (resultOk v = true ↔ good i)

theorem solo_thread1 (junk : BitVec 32)
    (last : BitVec 32 → (Nat → ProbeId → Nat) → Prog (ProbeTable t) Ending (BitVec 32))
    {good : Fin a.numThreads → Prop} {i : Fin a.numThreads} (htells : LoopTells t w ks good i)
    (hi : i < lastThread a) :
    ∃ v, (mainWithLast t a junk w ks last).solo 0 i = .ok v ∧ (resultOk v = true ↔ good i) := by
  obtain ⟨v, tbl', hrun, hok⟩ := htells
  have hlt : i.val < a.numThreads - 1 := hi
  refine ⟨v, ?_, hok⟩
  show (Prog.run (if i.val < a.numThreads - 1 then _ else _) (callocTable t)).1 = _
  rw [if_pos hlt, Prog.run_mapExit_ok _ hrun]

theorem solo_last (junk : BitVec 32) (w : Workers a.numThreads) (ks : List ProbeId)
    (last : BitVec 32 → (Nat → ProbeId → Nat) → Prog (ProbeTable t) Ending (BitVec 32)) :
    (mainWithLast t a junk w ks last).solo 0 (lastThread a) = lastSolo w last := by
  show (Prog.run (if a.numThreads - 1 < a.numThreads - 1 then _ else _) _).1 = _
  rw [if_neg (Nat.lt_irrefl _)]
  rfl

/-- The verdicts some interleaving ends with, by what the threads do when run alone. -/
theorem mainWithLast_canEnd_of_loops (junk : BitVec 32)
    (last : BitVec 32 → (Nat → ProbeId → Nat) → Prog (ProbeTable t) Ending (BitVec 32))
    {good : Fin a.numThreads → Prop} (htells : ∀ i, LoopTells t w ks good i) :
    ((mainWithLast t a junk w ks last).CanEnd .pass ↔
      (∀ i < lastThread a, good i) ∧ ∃ v, lastSolo w last = .ok v ∧ resultOk v = true) ∧
    ((mainWithLast t a junk w ks last).CanEnd .fail ↔
      (¬ ∀ i < lastThread a, good i) ∨ ∃ v, lastSolo w last = .ok v ∧ resultOk v = false) ∧
    ∀ e, (mainWithLast t a junk w ks last).CanEnd (.exited e) ↔ lastSolo w last = .error e := by
  obtain ⟨hpass, hfail, hexited⟩ :=
    (mainWithLast t a junk w ks last).canEnd_of_one_round a.numThreads_pos rfl
  have hthread1 := fun i (hi : i < lastThread a) => solo_thread1 junk last (htells i) hi
  have hlast := solo_last junk w ks last
  have hlastReturns : ∀ ok, (mainWithLast t a junk w ks last).SoloReturns ok 0
      (lastThread a) ↔ ∃ v, lastSolo w last = .ok v ∧ resultOk v = ok := by
    intro ok
    rw [← hlast]
    rfl
  refine ⟨hpass.trans ⟨fun hgood => ?_, ?_⟩, hfail.trans ⟨?_, ?_⟩, fun e =>
    (hexited e).trans ⟨?_, fun herror => ⟨lastThread a, by rw [hlast, herror]⟩⟩⟩
  · exact ⟨fun i hi => (ProgPool.soloReturns_iff (hthread1 i hi)).1.mp (hgood i),
      (hlastReturns true).mp (hgood (lastThread a))⟩
  · rintro ⟨honce, hok⟩ i
    rcases lt_lastThread_or_eq i with hi | rfl
    · exact (ProgPool.soloReturns_iff (hthread1 i hi)).1.mpr (honce i hi)
    · exact (hlastReturns true).mpr hok
  · rintro ⟨i, hbad, -⟩
    rcases lt_lastThread_or_eq i with hi | rfl
    · exact Or.inl fun honce =>
        (ProgPool.soloReturns_iff (hthread1 i hi)).2.mp hbad (honce i hi)
    · exact Or.inr ((hlastReturns false).mp hbad)
  · -- the threads before a bad one are `thread_1`s, which return
    have hfirst : ∀ i, (mainWithLast t a junk w ks last).SoloReturns false 0 i →
        ∃ i, (mainWithLast t a junk w ks last).FirstBad 0 i := by
      intro i hbad
      refine ProgPool.exists_firstBad hbad fun i' hi' => ?_
      have hlt : i' < lastThread a := by
        rcases lt_lastThread_or_eq i with hi | rfl
        · exact lt_trans hi' hi
        · exact hi'
      obtain ⟨v, hv, -⟩ := hthread1 i' hlt
      exact ⟨v, hv⟩
    rintro (hnot | hbad)
    · obtain ⟨i, hnot⟩ := not_forall.mp hnot
      obtain ⟨hi, hnot⟩ := Classical.not_imp.mp hnot
      exact hfirst i ((ProgPool.soloReturns_iff (hthread1 i hi)).2.mpr hnot)
    · exact hfirst (lastThread a) ((hlastReturns false).mpr hbad)
  · rintro ⟨i, herror⟩
    rcases lt_lastThread_or_eq i with hi | rfl
    · obtain ⟨v, hv, -⟩ := hthread1 i hi
      rw [hv] at herror
      cases herror
    · rwa [hlast] at herror

/-- On i386 a `thread_1` tells whether every call of it fires once. -/
theorem loopTells_i386 (hks : ks.Nodup) (hfires : ∀ i, FewFirings ks (w.fires i) a.niter)
    (i : Fin a.numThreads) :
    LoopTells .i386 w ks (fun i => FiresOnceOn ks (w.fires i) a.niter) i :=
  run_loopThread (w.tid i) hks (hfires i)

theorem mainWithLast_canEnd (junk : BitVec 32)
    (last : BitVec 32 → (Nat → ProbeId → Nat) → Prog (ProbeTable .i386) Ending (BitVec 32))
    (hks : ks.Nodup) (hfires : ∀ i, FewFirings ks (w.fires i) a.niter) :
    ((mainWithLast .i386 a junk w ks last).CanEnd .pass ↔
      AllOnce w ks ∧ ∃ v, lastSolo w last = .ok v ∧ resultOk v = true) ∧
    ((mainWithLast .i386 a junk w ks last).CanEnd .fail ↔
      ¬ AllOnce w ks ∨ ∃ v, lastSolo w last = .ok v ∧ resultOk v = false) ∧
    ∀ e, (mainWithLast .i386 a junk w ks last).CanEnd (.exited e) ↔ lastSolo w last = .error e :=
  mainWithLast_canEnd_of_loops junk last (loopTells_i386 hks hfires)

end Verdict

/-! ## texec.c -/

/-- Two threads, four iterations. -/
abbrev two : Args := ⟨2, 4, by decide, by decide, by decide, by decide⟩

/-- Every call of the first thread fires `x` times, every call of the second `y` times. -/
def steady (x y : Nat) : Workers two.numThreads :=
  ⟨fun i => BitVec.ofNat 32 (100 + i), fun i _ _ => if i = 0 then x else y⟩

theorem few_steady {x y : Nat} (hx : x < 2 ^ 16) (hy : y < 2 ^ 16) (ks : List ProbeId)
    (i : Fin two.numThreads) : FewFirings ks ((steady x y).fires i) two.niter := by
  intro k _
  show ∑ _j ∈ Finset.range 4, (if i = 0 then x else y) < 2 ^ 31
  rw [Finset.sum_const, Finset.card_range, nsmul_eq_mul]
  split <;> (simp; omega)

theorem allOnce_steady (y : Nat) (ks : List ProbeId) : AllOnce (steady 1 y) ks := by
  intro i hi _ _ _ _
  have hlt : i.val < 1 := hi
  have hfirst : i = 0 := Fin.ext (by simpa using hlt)
  show (if i = 0 then 1 else y) = 1
  rw [if_pos hfirst]

section Programs

variable (a : Args) (junk : BitVec 32) (w : Workers a.numThreads)

theorem fires_lt {ks : List ProbeId} (hfires : ∀ i, FewFirings ks (w.fires i) a.niter)
    (i : Fin a.numThreads) {k : ProbeId} (hk : k ∈ ks) : w.fires i 0 k < 2 ^ 31 := by
  have hlt := (hfires i).lt a.niter_pos (fun _ h => absurd h (Nat.not_lt_zero _)) hk
  rwa [Nat.zero_add] at hlt

/-- Every interleaving of texec.c ends.  It can print a pass only when `execl` fails
    and what main joins then happens to be 0; it can fail exactly when some call did
    not fire once, or a failed `execl` leaves another value; and it can be replaced
    whenever the call of the last thread fired once and `execl` works, with all other
    calls good or bad. -/
theorem texec_canEnd_iff (execl : Option (BitVec 32))
    (hfires : ∀ i, FewFirings (List.finRange 10) (w.fires i) a.niter) :
    (texec .i386 a junk w execl).toPool.Terminates ∧
    ((texec .i386 a junk w execl).CanEnd .pass ↔
      AllOnce w (List.finRange 10) ∧ w.fires (lastThread a) 0 0 = 1 ∧ execl = some 0) ∧
    ((texec .i386 a junk w execl).CanEnd .fail ↔
      ¬ AllOnce w (List.finRange 10) ∨ w.fires (lastThread a) 0 0 ≠ 1 ∨
        ∃ left ≠ 0, execl = some left) ∧
    ∀ e, (texec .i386 a junk w execl).CanEnd (.exited e) ↔
      e = .exec ∧ w.fires (lastThread a) 0 0 = 1 ∧ execl = none := by
  have hterm : (texec .i386 a junk w execl).toPool.Terminates :=
    ProgPool.terminates _ a.numThreads_pos Nat.zero_lt_one
  obtain ⟨hpass, hfail, hexited⟩ := mainWithLast_canEnd junk (execThread .i386 execl)
    (List.nodup_finRange 10) hfires
  obtain ⟨honce, hnot⟩ := run_execThread (w.tid (lastThread a)) execl
    (fires_lt a w hfires (lastThread a) (List.mem_finRange 0))
  refine ⟨hterm, ?_⟩
  simp only [texec, hpass, hfail, hexited, lastSolo]
  -- `execl` is reached when the one call before it fires once
  by_cases hfired : w.fires (lastThread a) 0 0 = 1
  · rw [honce hfired]
    cases execl with
    | none => simp [hfired, @eq_comm _ Ending.exec]
    | some left => simp [hfired, resultOk]
  · obtain ⟨v, hv, hbad⟩ := hnot hfired
    simp [hv, hbad, hfired]

/-- With all calls good and a working `execl` the process is replaced, and nothing else. -/
theorem texec_canEnd_replaced :
    (texec .i386 two 0 (steady 1 1) none).CanEnd (.exited .exec) ∧
      ¬ (texec .i386 two 0 (steady 1 1) none).CanEnd .fail := by
  obtain ⟨-, -, hfail, hexited⟩ := texec_canEnd_iff two 0 (steady 1 1) none
    (few_steady (by decide) (by decide) _)
  refine ⟨(hexited .exec).mpr ⟨rfl, rfl, rfl⟩, fun h => ?_⟩
  rcases hfail.mp h with hnot | hnot | ⟨left, -, hleft⟩
  · exact hnot (allOnce_steady 1 _)
  · exact hnot rfl
  · cases hleft

/-! ## tdie.c -/

/-- Every interleaving of tdie.c ends, none with a pass, and the fault of the last
    thread can always decide; main can report a failure before it exactly when some
    call did not fire once. -/
theorem tdie_canEnd_iff (hfires : ∀ i, FewFirings (List.finRange 10) (w.fires i) a.niter) :
    (tdie .i386 a junk w).toPool.Terminates ∧ ¬ (tdie .i386 a junk w).CanEnd .pass ∧
    ((tdie .i386 a junk w).CanEnd .fail ↔ ¬ AllOnce w (List.finRange 10)) ∧
    ∀ e, (tdie .i386 a junk w).CanEnd (.exited e) ↔ e = .segv := by
  have hterm : (tdie .i386 a junk w).toPool.Terminates :=
    ProgPool.terminates _ a.numThreads_pos Nat.zero_lt_one
  obtain ⟨hpass, hfail, hexited⟩ := mainWithLast_canEnd junk (threadDie .i386)
    (List.nodup_finRange 10) hfires
  have hlast : lastSolo w (threadDie .i386) = .error .segv := rfl
  simp only [hlast] at hpass hfail hexited
  refine ⟨hterm, fun h => ?_, hfail.trans ?_, fun e => (hexited e).trans ?_⟩
  · obtain ⟨-, v, hv, -⟩ := hpass.mp h
    cases hv
  · simp
  · simp [eq_comm]

/-- A first thread whose probes fire twice: main may or may not say so in time. -/
theorem tdie_canEnd_either :
    (tdie .i386 two 0 (steady 2 1)).CanEnd .fail ∧
      (tdie .i386 two 0 (steady 2 1)).CanEnd (.exited .segv) := by
  obtain ⟨-, -, hfail, hexited⟩ := tdie_canEnd_iff two 0 (steady 2 1)
    (few_steady (by decide) (by decide) _)
  refine ⟨hfail.mpr fun honce => ?_, (hexited .segv).mpr rfl⟩
  have h := honce 0 (by decide) 0 (by decide) 0 (List.mem_finRange 0)
  revert h
  decide

/-! ## suicide.c -/

theorem nodup_firstNine : ((List.finRange 10).take 9).Nodup :=
  (List.nodup_finRange 10).sublist (List.take_sublist 9 _)

/-- The verdict of suicide.c by what its `thread_1`s tell when run alone. -/
theorem suicide_prints_of_loops {t : Target} {a : Args} {w : Workers a.numThreads}
    (junk : BitVec 32) (dies : Option (BitVec 32)) {good : Fin a.numThreads → Prop}
    (htells : ∀ i, LoopTells t w ((List.finRange 10).take 9) good i) :
    ((suicide t a junk w dies).toPool.Prints .pass ↔
      (∀ i < lastThread a, good i) ∧ dies.getD 0 = 0) ∧
    ((suicide t a junk w dies).toPool.Prints .fail ↔
      ¬ ((∀ i < lastThread a, good i) ∧ dies.getD 0 = 0)) := by
  let P := suicide t a junk w dies
  have hlast : lastSolo w (suicideThread t dies) = .ok (dies.getD 0) :=
    run_suicideThread _ t dies
  have hreturns : ∀ r < 1, ∀ i, ∃ v, P.solo r i = .ok v := by
    intro r hr i
    obtain rfl : r = 0 := by omega
    rcases lt_lastThread_or_eq i with hi | rfl
    · obtain ⟨v, hv, -⟩ := solo_thread1 junk (suicideThread t dies) (htells i) hi
      exact ⟨v, hv⟩
    · exact ⟨dies.getD 0, (solo_last junk w _ _).trans hlast⟩
  have hcanPass : P.CanEnd .pass ↔ (∀ i < lastThread a, good i) ∧ dies.getD 0 = 0 := by
    refine (mainWithLast_canEnd_of_loops junk (suicideThread t dies) htells).1.trans
      (and_congr_right' ?_)
    simp [hlast, resultOk]
  have hgood := P.canEnd_pass_iff a.numThreads_pos Nat.zero_lt_one
  rw [← hcanPass, hgood]
  exact ⟨P.prints_pass_iff a.numThreads_pos Nat.zero_lt_one,
    P.prints_fail_iff a.numThreads_pos Nat.zero_lt_one hreturns⟩

/-- Every interleaving of suicide.c ends the same way: a pass exactly when every call
    of the first nine probe functions fired once and main joined 0 from the last
    thread, dead or alive.  Whether `probe_9` fired at all, and how often, is not asked. -/
theorem suicide_prints_iff (dies : Option (BitVec 32))
    (hfires : ∀ i, FewFirings ((List.finRange 10).take 9) (w.fires i) a.niter) :
    ((suicide .i386 a junk w dies).toPool.Prints .pass ↔
      AllOnce w ((List.finRange 10).take 9) ∧ dies.getD 0 = 0) ∧
    ((suicide .i386 a junk w dies).toPool.Prints .fail ↔
      ¬ (AllOnce w ((List.finRange 10).take 9) ∧ dies.getD 0 = 0)) :=
  suicide_prints_of_loops junk dies (loopTells_i386 nodup_firstNine hfires)

/-- The handler ends the last thread, and main finds 0 in its place. -/
theorem suicide_prints_pass :
    (suicide .i386 two 0 (steady 1 1) (some 0)).toPool.Prints .pass :=
  (suicide_prints_iff two 0 (steady 1 1) (some 0)
    (few_steady (by decide) (by decide) _)).1.mpr
      ⟨allOnce_steady 1 _, rfl⟩

/-! ## fork_and_defunc.c -/

/-- Every interleaving of fork_and_defunc.c ends, none with a pass.  Main reports a
    failure only of the thread it joins first: a bad thread behind a good one is never
    joined, the good one having left with status 0. -/
theorem forkAndDefunc_canEnd_iff (hfires : ∀ i, FewFirings [probeZero] (w.fires i) a.niter) :
    (forkAndDefunc .i386 a junk w).toPool.Terminates ∧
    ¬ (forkAndDefunc .i386 a junk w).CanEnd .pass ∧
    ((forkAndDefunc .i386 a junk w).CanEnd .fail ↔
      ¬ FiresOnceOn [probeZero] (w.fires ⟨0, a.numThreads_pos⟩) a.niter) ∧
    ∀ e, (forkAndDefunc .i386 a junk w).CanEnd (.exited e) ↔
      e = .exit 0 ∧ ∃ i, FiresOnceOn [probeZero] (w.fires i) a.niter := by
  let P := forkAndDefunc .i386 a junk w
  have hterm : P.toPool.Terminates := P.terminates a.numThreads_pos Nat.zero_lt_one
  obtain ⟨hpass, hfail, hexited⟩ := P.canEnd_of_one_round a.numThreads_pos rfl
  have honce : ∀ i, FiresOnceOn [probeZero] (w.fires i) a.niter → P.solo 0 i = .error (.exit 0) :=
    fun i => (run_defuncThread (w.tid i) (hfires i)).1
  have hbad : ∀ i, ¬ FiresOnceOn [probeZero] (w.fires i) a.niter → P.SoloReturns false 0 i :=
    fun i => (run_defuncThread (w.tid i) (hfires i)).2
  -- no thread ever returns what main accepts
  have hnever : ∀ i, ¬ P.SoloReturns true 0 i := by
    rintro i ⟨v, hv, hok⟩
    by_cases h : FiresOnceOn [probeZero] (w.fires i) a.niter
    · rw [honce i h] at hv
      cases hv
    · obtain ⟨v', hv', hnot⟩ := hbad i h
      rw [hv', Except.ok.injEq] at hv
      rw [hv, hok] at hnot
      cases hnot
  refine ⟨hterm, fun h => hnever ⟨0, a.numThreads_pos⟩ (hpass.mp h _), hfail.trans ?_,
    fun e => (hexited e).trans ?_⟩
  · constructor
    · rintro ⟨i, ⟨v, hv, -⟩, hbefore⟩ h
      have hfirst : i = ⟨0, a.numThreads_pos⟩ := by
        by_contra hne
        have hpos : 0 < i.val := Nat.pos_of_ne_zero fun h0 => hne (Fin.ext h0)
        exact hnever _ (hbefore ⟨0, a.numThreads_pos⟩ hpos)
      rw [hfirst, honce _ h] at hv
      cases hv
    · exact fun h => ⟨_, hbad _ h, fun i hi => absurd hi (Nat.not_lt_zero _)⟩
  · constructor
    · rintro ⟨i, herror⟩
      by_cases h : FiresOnceOn [probeZero] (w.fires i) a.niter
      · rw [honce i h, Except.error.injEq] at herror
        exact ⟨herror.symm, i, h⟩
      · obtain ⟨v, hv, -⟩ := hbad i h
        rw [hv] at herror
        cases herror
    · rintro ⟨rfl, i, h⟩
      exact ⟨i, honce i h⟩

/-- The probes of the second thread never fire, and no run tells. -/
theorem forkAndDefunc_canEnd_unseen :
    (forkAndDefunc .i386 two 0 (steady 1 0)).CanEnd (.exited (.exit 0)) ∧
      ¬ (forkAndDefunc .i386 two 0 (steady 1 0)).CanEnd .fail := by
  obtain ⟨-, -, hfail, hexited⟩ := forkAndDefunc_canEnd_iff two 0 (steady 1 0)
    (few_steady (by decide) (by decide) _)
  have honce : FiresOnceOn [probeZero] ((steady 1 0).fires 0) two.niter := fun _ _ _ _ => rfl
  exact ⟨(hexited _).mpr ⟨rfl, 0, honce⟩, fun h => hfail.mp h honce⟩

end Programs

end Departures

end UprobeTests
