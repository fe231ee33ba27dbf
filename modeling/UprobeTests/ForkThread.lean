/-
  UprobeTests.ForkThread

  uprobes.w/fork_thread.c: each of `num_threads` threads forks a child, calls
  `probe_0` `niter` times, waits for a child, calls `probe_0` `niter` times
  more, and returns the exit status of the child it waited for.

  The children of all threads are in one table, so a `wait` may reap the child
  of another thread.  The exit status is read without asking whether the child
  exited: a child killed by a signal reads as 0, and a failed `fork` goes
  unnoticed (`forkThread_pass_iff`).
-/

import UprobeTests.Lib.Children
import UprobeTests.Uthread

namespace UprobeTests

namespace ForkThread

/-- A signal that can kill a process. -/
structure Signal where
  number : Nat
  pos : 0 < number
  le : number ≤ 64
deriving DecidableEq, Repr

/-- How a child process ends. -/
inductive ChildEnd where
  | exited (code : BitVec 8)
  | signaled (signal : Signal) (core : Bool)
deriving DecidableEq, Repr

/-- The status word `wait` stores: the exit code in the second byte, or the
    signal and the core-dump flag in the first. -/
def ChildEnd.status : ChildEnd → BitVec 32
  | .exited code => code.setWidth 32 <<< 8
  | .signaled signal core => BitVec.ofNat 32 signal.number ||| (if core then 0x80 else 0)

/-- `WEXITSTATUS(status)`. -/
def wexitstatus (status : BitVec 32) : BitVec 32 := (status &&& 0xff00) >>> 8

/-- What a run of `main` is given: the results of `fork`, the fates of the
    children, how often `probe_0` fires at the `j`-th call of each parent, and
    what the uninitialised `status` of each parent holds. -/
structure Scenario (n : Nat) where
  tid : Fin n → BitVec 32
  forks : Fin n → Bool
  ends : Fin n → ChildEnd
  fires : Fin n → Nat → Nat
  junk : Fin n → BitVec 32

/-- Where `fork_thread` stands in the parent. -/
inductive Pc where
  | fork
  | pre (i : Nat)
  | wait
  | post (i : Nat) (status : BitVec 32)
  | done (result : Except String (BitVec 32))

structure Thread (t : Target) where
  pc : Pc
  table : ProbeTable t

def Thread.result {t : Target} (x : Thread t) : Option (Except String (BitVec 32)) :=
  match x.pc with
  | .done r => some r
  | _ => none

theorem pc_of_result {t : Target} {x : Thread t} {r : Except String (BitVec 32)}
    (h : x.result = some r) : x.pc = .done r := by
  rw [Thread.result] at h
  split at h
  · rename_i r' hpc
    rw [hpc, Option.some.inj h]
  · cases h

section Model

variable (t : Target) {n : Nat} (cnt : Nat) (sc : Scenario n)

/-- A new thread, its table built. -/
def Thread.start : Thread t := ⟨.fork, ((buildProbeTable t).run (callocTable t)).2⟩

variable {t}

/-- The `j`-th call of `probe_0` in the parent: `return(error)` on a negative
    result, on to `next` otherwise. -/
def probe0 (i : Fin n) (j : Nat) (next : Pc) (x : Thread t) : Thread t :=
  match ((probe t (sc.tid i) (sc.fires i j)).focus 0).run x.table with
  | (.ok error, table) =>
      ⟨if error < 0 then .done (.ok (BitVec.ofInt 32 error)) else next, table⟩
  | (.error msg, table) => ⟨.done (.error msg), table⟩

/-- The steps of `fork_thread` in the parent; when `fork` fails `pid` is -1 and
    the same branch is taken. -/
inductive Step (i : Fin n) : Children n × Thread t → Children n × Thread t → Prop where
  | fork {k x} (hpc : x.pc = .fork) (hfork : sc.forks i = true) :
      Step i (k, x) (k.fork i, { x with pc := .pre 0 })
  | forkFails {k x} (hpc : x.pc = .fork) (hfork : sc.forks i = false) :
      Step i (k, x) (k, { x with pc := .pre 0 })
  | pre {k x j} (hpc : x.pc = .pre j) (hj : j < cnt) :
      Step i (k, x) (k, probe0 sc i j (.pre (j + 1)) x)
  | preDone {k x j} (hpc : x.pc = .pre j) (hj : ¬ j < cnt) :
      Step i (k, x) (k, { x with pc := .wait })
  | reap {k x c} (hpc : x.pc = .wait) (hc : k.child c = .zombie) :
      Step i (k, x) (k.reap i c, { x with pc := .post 0 (sc.ends c).status })
  | noChild {k x} (hpc : x.pc = .wait) (hnone : ¬ k.Waitable) :
      -- ECHILD: `status` keeps what it held
      Step i (k, x) (k.noChild i, { x with pc := .post 0 (sc.junk i) })
  | post {k x j status} (hpc : x.pc = .post j status) (hj : j < cnt) :
      Step i (k, x) (k, probe0 sc i (cnt + j) (.post (j + 1) status) x)
  | postDone {k x j status} (hpc : x.pc = .post j status) (hj : ¬ j < cnt) :
      -- `if(WIFEXITED(status))` only guards a debug printf
      Step i (k, x) (k, { x with
        pc := .done (.ok (if wexitstatus status ≠ 0 then wexitstatus status else 0)) })

end Model

/-- `main`: one round of `fork_thread`s; the environment ends the children. -/
def main (t : Target) (a : Args) (junk : BitVec 32) (sc : Scenario a.numThreads) :
    Pool a.numThreads (Children a.numThreads) (Thread t) String (BitVec 32) where
  rounds := 1
  start _ _ := Thread.start t
  shared := Children.init a.numThreads
  junk := junk
  ok := resultOk
  step := Step a.niter sc
  env k k' := ∃ c, k.child c = .running ∧ k' = k.ends c
  result := Thread.result

section Invariant

variable (t : Target) {n : Nat} (cnt : Nat) (sc : Scenario n)

/-- Slot 0 of thread `i` after its first `j` calls of `probe_0`. -/
def slotAfter (i : Fin n) : Nat → Uinfo t.ulongBits
  | 0 => Uinfo.fresh t.ulongBits
  | j + 1 => (slotAfter i j).call (sc.tid i) (sc.fires i j)

/-- What the `j`-th call of `probe_0` in thread `i` returns. -/
def parentResult (i : Fin n) (j : Nat) : Int := (slotAfter t sc i (j + 1)).returned

variable {t}

/-- `m` calls of `probe_0`, none of which returned a negative value. -/
structure Counted (i : Fin n) (m : Nat) (table : ProbeTable t) : Prop where
  slot : table 0 = slotAfter t sc i m
  nonneg : ∀ j < m, 0 ≤ parentResult t sc i j

/-- The status word of thread `i` after a `wait` that returned `w`. -/
def statusSeen (i : Fin n) : Option (Fin n) → BitVec 32
  | some c => (sc.ends c).status
  | none => sc.junk i

variable (t)

/-- Some call of `probe_0` in a parent returns a negative value. -/
def ParentNegative : Prop := ∃ i, ∃ j < 2 * cnt, parentResult t sc i j < 0

variable {t}

/-- Some `wait` has returned a status whose exit code is not 0. -/
def SawExitCode (k : Children n) : Prop :=
  ∃ i w, k.waits i = some w ∧ wexitstatus (statusSeen sc i w) ≠ 0

/-- What the position of thread `i` says about its calls, its child and its wait. -/
def ThreadInv (i : Fin n) (k : Children n) (x : Thread t) : Prop :=
  match x.pc with
  | .fork => Counted sc i 0 x.table ∧ k.child i = .none ∧ k.waits i = none
  | .pre j => j ≤ cnt ∧ Counted sc i j x.table ∧ k.waits i = none ∧
      (sc.forks i = true → k.child i ≠ .none)
  | .wait => Counted sc i cnt x.table ∧ k.waits i = none ∧
      (sc.forks i = true → k.child i ≠ .none)
  | .post j status => j ≤ cnt ∧ Counted sc i (cnt + j) x.table ∧
      ∃ w, k.waits i = some w ∧ status = statusSeen sc i w
  | .done (.ok v) =>
      (v = 0 ∧ (∀ j < 2 * cnt, 0 ≤ parentResult t sc i j) ∧
        ∃ w, k.waits i = some w ∧ wexitstatus (statusSeen sc i w) = 0) ∨
      (v ≠ 0 ∧ (ParentNegative t cnt sc ∨ SawExitCode sc k))
  | .done (.error _) => False

/-- What holds of the table of children in every state. -/
structure ChildrenInv (k : Children n) : Prop where
  consistent : k.Consistent
  forked : ∀ i, k.waits i ≠ none → sc.forks i = true → k.child i ≠ .none
  noEchild : (∀ i, sc.forks i = true) → ∀ i, k.waits i ≠ some none

/-! ## One call of probe_0 -/

variable {cnt sc} {i : Fin n}

theorem slotAfter_owned (j : Nat) : (slotAfter t sc i j).OwnedBy (sc.tid i) := by
  cases j with
  | zero => exact fresh_owned _ _
  | succ j => exact call_owned _ _ _

/-- A negative result survives the conversions to the value main joins. -/
theorem ofInt_returned_ne_zero {w : Nat} {s : Uinfo w} (h : s.returned < 0) :
    BitVec.ofInt 32 s.returned ≠ 0 := by
  rw [Uinfo.returned] at h ⊢
  split at h
  · -- a count: the conversions to `int` and back do not lose its sign
    rename_i hcount
    rw [if_pos hcount, intOfUlong, BitVec.ofInt_toInt]
    intro hzero
    rw [intOfUlong, hzero] at h
    exact absurd h (by decide)
  · -- the sentinel -2
    rename_i hcount
    rw [if_neg hcount]
    decide

/-- A call either returns a negative value or is counted. -/
theorem probe0_spec {j : Nat} {x : Thread t} (next : Pc) (h : Counted sc i j x.table) :
    (parentResult t sc i j < 0 ∧
        (probe0 sc i j next x).pc = .done (.ok (BitVec.ofInt 32 (parentResult t sc i j)))) ∨
      ((probe0 sc i j next x).pc = next ∧ Counted sc i (j + 1) (probe0 sc i j next x).table) := by
  have hown : (x.table 0).OwnedBy (sc.tid i) := by
    rw [h.slot]
    exact slotAfter_owned j
  have hcall : (x.table 0).call (sc.tid i) (sc.fires i j) = slotAfter t sc i (j + 1) := by
    rw [h.slot]
    rfl
  have hrun : probe0 sc i j next x =
      ⟨if parentResult t sc i j < 0 then .done (.ok (BitVec.ofInt 32 (parentResult t sc i j)))
        else next, Function.update x.table 0 (slotAfter t sc i (j + 1))⟩ := by
    rw [probe0, run_focus_probe hown, hcall]
    rfl
  rw [hrun]
  by_cases hneg : parentResult t sc i j < 0
  · exact Or.inl ⟨hneg, if_pos hneg⟩
  · refine Or.inr ⟨if_neg hneg, ?_, fun j' hj' => ?_⟩
    · show Function.update x.table 0 (slotAfter t sc i (j + 1)) 0 = _
      rw [Function.update_self]
    · rcases Nat.lt_succ_iff_lt_or_eq.mp hj' with hlt | rfl
      · exact h.nonneg j' hlt
      · exact Int.not_lt.mp hneg

/-- As long as every call fires once, the slot agrees with the calls. -/
theorem slotAfter_agreed {sc : Scenario n} {i : Fin n} {m : Nat} (hm : m ≤ 2 ^ 32)
    (honce : ∀ j < m, sc.fires i j = 1) : Uinfo.Agreed (slotAfter .i386 sc i m) m := by
  induction m with
  | zero => exact fresh_agreed
  | succ m ih =>
      have hagreed := ih (by omega) fun j hj => honce j (by omega)
      rw [slotAfter, honce m (Nat.lt_succ_self m)]
      exact call_agreed _ hagreed hm

/-- The count comes back as an `int`, whatever bit 31 of it is. -/
theorem parentResult_eq {sc : Scenario n} {i : Fin n} {j : Nat} (hj : j + 1 < 2 ^ 32)
    (honce : ∀ j' ≤ j, sc.fires i j' = 1) :
    parentResult .i386 sc i j = intOfUlong (BitVec.ofNat 32 j) := by
  have hagreed := slotAfter_agreed (m := j) (by omega) fun j' hj' => honce j' (Nat.le_of_lt hj')
  rw [parentResult, slotAfter, honce j (Nat.le_refl j)]
  exact returned_of_hit _ hagreed hj

theorem parentResult_of_once {sc : Scenario n} {i : Fin n} {j : Nat} (hj : j < 2 ^ 31)
    (honce : ∀ j' ≤ j, sc.fires i j' = 1) : parentResult .i386 sc i j = j := by
  rw [parentResult_eq (by omega) honce, intOfUlong_ofNat hj]

theorem counted_start : Counted sc i 0 (Thread.start t).table where
  slot := by
    rw [Thread.start, run_buildProbeTable]
    rfl
  nonneg j hj := absurd hj (Nat.not_lt_zero j)

/-! ## Other threads' view of a step -/

/-- What happens to the table of children never takes back a `wait`. -/
def WaitsKept (k k' : Children n) : Prop := ∀ j w, k.waits j = some w → k'.waits j = some w

theorem SawExitCode.mono {k k' : Children n} (hkept : WaitsKept k k') (h : SawExitCode sc k) :
    SawExitCode sc k' := by
  obtain ⟨j, w, hw, hcode⟩ := h
  exact ⟨j, w, hkept j w hw, hcode⟩

/-- A thread does not notice a change that leaves its own wait and the
    existence of its own child alone. -/
theorem ThreadInv.frame {k k' : Children n} {x : Thread t} (h : ThreadInv cnt sc i k x)
    (hkept : WaitsKept k k') (hwaits : k'.waits i = k.waits i)
    (hchild : k'.child i = .none ↔ k.child i = .none) : ThreadInv cnt sc i k' x := by
  simp only [ThreadInv] at h ⊢
  split at h
  · rw [hwaits, hchild]
    exact h
  · rw [hwaits, ne_eq, hchild]
    exact h
  · rw [hwaits, ne_eq, hchild]
    exact h
  · rw [hwaits]
    exact h
  · rcases h with hpass | ⟨hv, hcause⟩
    · left
      rw [hwaits]
      exact hpass
    · exact Or.inr ⟨hv, hcause.imp_right (SawExitCode.mono hkept)⟩
  · exact h

theorem waitsKept_update {k : Children n} {w : Option (Fin n)} (hi : k.waits i = none) :
    ∀ j w', k.waits j = some w' → Function.update k.waits i (some w) j = some w' := by
  intro j w' hw
  by_cases hj : j = i
  · subst hj
    rw [hi] at hw
    cases hw
  · rw [Function.update_of_ne hj]
    exact hw

theorem child_update_iff {k : Children n} {c : Fin n} {x : Child} (hold : k.child c ≠ .none)
    (hnew : x ≠ .none) (j : Fin n) :
    Function.update k.child c x j = .none ↔ k.child j = .none := by
  by_cases hj : j = c
  · subst hj
    rw [Function.update_self]
    exact iff_of_false hnew hold
  · rw [Function.update_of_ne hj]

/-- What a step of thread `i` does to the table of children, seen by the others. -/
theorem step_frame {k k' : Children n} {x x' : Thread t} (hx : ThreadInv cnt sc i k x)
    (h : Step cnt sc i (k, x) (k', x')) :
    WaitsKept k k' ∧ ∀ j, j ≠ i →
      k'.waits j = k.waits j ∧ (k'.child j = .none ↔ k.child j = .none) := by
  have hsame : WaitsKept k k ∧ ∀ j, j ≠ i →
      k.waits j = k.waits j ∧ (k.child j = .none ↔ k.child j = .none) :=
    ⟨fun _ _ hw => hw, fun _ _ => ⟨rfl, Iff.rfl⟩⟩
  cases h with
  | fork hpc hfork =>
      refine ⟨fun _ _ hw => hw, fun j hj => ⟨rfl, ?_⟩⟩
      show Function.update k.child i .running j = .none ↔ _
      rw [Function.update_of_ne hj]
  | @reap _ _ c hpc hc =>
      simp only [ThreadInv, hpc] at hx
      refine ⟨waitsKept_update hx.2.1, fun j hj => ⟨Function.update_of_ne hj _ _, ?_⟩⟩
      exact child_update_iff (by rw [hc]; exact Child.noConfusion) Child.noConfusion j
  | noChild hpc hnone =>
      simp only [ThreadInv, hpc] at hx
      exact ⟨waitsKept_update hx.2.1, fun j hj => ⟨Function.update_of_ne hj _ _, Iff.rfl⟩⟩
  | forkFails hpc hfork => exact hsame
  | pre hpc hj => exact hsame
  | preDone hpc hj => exact hsame
  | post hpc hj => exact hsame
  | postDone hpc hj => exact hsame

/-! ## One step -/

/-- A thread that has returned a parent's negative result. -/
theorem threadInv_negative {k : Children n} {x : Thread t} {j : Nat} (hj : j < 2 * cnt)
    (hneg : parentResult t sc i j < 0)
    (hpc : x.pc = .done (.ok (BitVec.ofInt 32 (parentResult t sc i j)))) :
    ThreadInv cnt sc i k x := by
  simp only [ThreadInv, hpc]
  exact Or.inr ⟨ofInt_returned_ne_zero hneg, Or.inl ⟨i, j, hj, hneg⟩⟩

/-- A step keeps what is known of the thread that takes it. -/
theorem threadInv_step {k k' : Children n} {x x' : Thread t} (hx : ThreadInv cnt sc i k x)
    (h : Step cnt sc i (k, x) (k', x')) : ThreadInv cnt sc i k' x' := by
  cases h with
  | fork hpc hfork =>
      simp only [ThreadInv, hpc] at hx ⊢
      refine ⟨Nat.zero_le cnt, hx.1, hx.2.2, fun _ => ?_⟩
      show Function.update k.child i .running i ≠ .none
      rw [Function.update_self]
      exact Child.noConfusion
  | forkFails hpc hfork =>
      simp only [ThreadInv, hpc] at hx ⊢
      refine ⟨Nat.zero_le cnt, hx.1, hx.2.2, fun h => ?_⟩
      rw [hfork] at h
      cases h
  | @pre _ _ j hpc hj =>
      simp only [ThreadInv, hpc] at hx
      obtain ⟨-, hcounted, hrest⟩ := hx
      rcases probe0_spec (.pre (j + 1)) hcounted with ⟨hneg, hpc'⟩ | ⟨hpc', hcounted'⟩
      · exact threadInv_negative (by omega) hneg hpc'
      · simp only [ThreadInv, hpc']
        exact ⟨hj, hcounted', hrest⟩
  | @preDone _ _ j hpc hj =>
      simp only [ThreadInv, hpc] at hx ⊢
      obtain ⟨hle, hcounted, hrest⟩ := hx
      obtain rfl : j = cnt := Nat.le_antisymm hle (Nat.le_of_not_lt hj)
      exact ⟨hcounted, hrest⟩
  | @reap _ _ c hpc hc =>
      simp only [ThreadInv, hpc] at hx ⊢
      exact ⟨Nat.zero_le cnt, hx.1, some c, Function.update_self _ _ _, rfl⟩
  | noChild hpc hnone =>
      simp only [ThreadInv, hpc] at hx ⊢
      exact ⟨Nat.zero_le cnt, hx.1, none, Function.update_self _ _ _, rfl⟩
  | @post _ _ j status hpc hj =>
      simp only [ThreadInv, hpc] at hx
      obtain ⟨-, hcounted, hrest⟩ := hx
      rcases probe0_spec (.post (j + 1) status) hcounted with
        ⟨hneg, hpc'⟩ | ⟨hpc', hcounted'⟩
      · exact threadInv_negative (by omega) hneg hpc'
      · simp only [ThreadInv, hpc']
        exact ⟨hj, hcounted', hrest⟩
  | @postDone _ _ j status hpc hj =>
      simp only [ThreadInv, hpc] at hx ⊢
      obtain ⟨hle, hcounted, w, hw, hstatus⟩ := hx
      obtain rfl : j = cnt := Nat.le_antisymm hle (Nat.le_of_not_lt hj)
      subst hstatus
      -- the thread returns the exit code of the status it was given
      by_cases hcode : wexitstatus (statusSeen sc i w) = 0
      · refine Or.inl ⟨by rw [if_neg (not_not.mpr hcode)], fun j' hj' => ?_, w, hw, hcode⟩
        exact hcounted.nonneg j' (by omega)
      · rw [if_pos hcode]
        exact Or.inr ⟨hcode, Or.inr ⟨i, w, hw, hcode⟩⟩

/-- A step keeps the table of children in order. -/
theorem childrenInv_step {k k' : Children n} {x x' : Thread t} (hk : ChildrenInv sc k)
    (hx : ThreadInv cnt sc i k x) (h : Step cnt sc i (k, x) (k', x')) : ChildrenInv sc k' := by
  cases h with
  | fork hpc hfork =>
      simp only [ThreadInv, hpc] at hx
      refine ⟨hk.consistent.fork hx.2.1, fun j hw hj => ?_, hk.noEchild⟩
      show Function.update k.child i .running j ≠ .none
      by_cases hji : j = i
      · subst hji
        rw [Function.update_self]
        exact Child.noConfusion
      · rw [Function.update_of_ne hji]
        exact hk.forked j hw hj
  | @reap _ _ c hpc hc =>
      simp only [ThreadInv, hpc] at hx
      have hchild := child_update_iff (k := k) (x := .reaped) (c := c)
        (by rw [hc]; exact Child.noConfusion) Child.noConfusion
      refine ⟨hk.consistent.reap hx.2.1 hc, fun j hw hj => ?_, fun hall j => ?_⟩
      · apply (not_congr (hchild j)).mpr
        by_cases hji : j = i
        · subst hji
          exact hx.2.2 hj
        · refine hk.forked j (fun hnone => hw ?_) hj
          show Function.update k.waits i (some (some c)) j = none
          rwa [Function.update_of_ne hji]
      · show Function.update k.waits i (some (some c)) j ≠ some none
        by_cases hji : j = i
        · subst hji
          rw [Function.update_self]
          simp
        · rw [Function.update_of_ne hji]
          exact hk.noEchild hall j
  | noChild hpc hnone =>
      simp only [ThreadInv, hpc] at hx
      refine ⟨hk.consistent.noChild hx.2.1, fun j hw hj => ?_, fun hall => ?_⟩
      · by_cases hji : j = i
        · subst hji
          exact hx.2.2 hj
        · refine hk.forked j (fun hnone => hw ?_) hj
          show Function.update k.waits i (some none) j = none
          rwa [Function.update_of_ne hji]
      · -- this thread has a child of its own, and fewer waits than children have returned
        exact absurd (hk.consistent.exists_waitable (fun j hw => hk.forked j hw (hall j))
          (hx.2.2 (hall i)) hx.2.1) hnone
  | forkFails hpc hfork => exact hk
  | pre hpc hj => exact hk
  | preDone hpc hj => exact hk
  | post hpc hj => exact hk
  | postDone hpc hj => exact hk

end Invariant

/-! ## Whole runs -/

section Run

variable {t : Target} {a : Args} {junk : BitVec 32} {sc : Scenario a.numThreads}

/-- What holds in every state of every run. -/
structure Inv (t : Target) (a : Args) (junk : BitVec 32) (sc : Scenario a.numThreads)
    (s : Pool.State a.numThreads (Children a.numThreads) (Thread t) String (BitVec 32)) :
    Prop where
  mainInv : (main t a junk sc).MainInv s
  children : ChildrenInv sc s.shared
  absent : ∀ i, s.threads i = none → s.shared.child i = .none ∧ s.shared.waits i = none
  thread : ∀ i x, s.threads i = some x → ThreadInv a.niter sc i s.shared x

theorem inv_init : Inv t a junk sc (main t a junk sc).init where
  mainInv := Pool.mainInv_init Nat.zero_lt_one
  children := ⟨Children.consistent_init, fun _ hw => absurd rfl hw,
    fun _ _ => (Option.some_ne_none _).symm⟩
  absent _ _ := ⟨rfl, rfl⟩
  thread _ x hx := absurd hx.symm (Option.some_ne_none x)

theorem inv_step
    {s s' : Pool.State a.numThreads (Children a.numThreads) (Thread t) String (BitVec 32)}
    (hs : Inv t a junk sc s) (hstep : (main t a junk sc).Step s s') : Inv t a junk sc s' := by
  have hmain := Pool.mainInv_step a.numThreads_pos hs.mainInv hstep
  have hthreads := hs.mainInv.2
  cases hstep with
  | @create i r h hm =>
      refine ⟨hmain, hs.children, fun j hj => ?_, fun j x hx => ?_⟩
      · by_cases hji : j = ⟨i, h⟩
        · subst hji
          simp at hj
        · exact hs.absent j (by simpa [Function.update_of_ne hji] using hj)
      · by_cases hji : j = ⟨i, h⟩
        · subst hji
          simp only [Pool.MainKnows, hm] at hthreads
          -- main creates each thread once
          have hnone : s.threads ⟨i, h⟩ = none := by
            have := (hthreads.2 ⟨i, h⟩).not.mpr (Nat.lt_irrefl i)
            simpa using this
          simp only [Function.update_self, Option.some.injEq] at hx
          subst hx
          exact ⟨counted_start, hs.absent _ hnone⟩
        · exact hs.thread j x (by simpa [Function.update_of_ne hji] using hx)
  | nextRound hm hr h =>
      -- there is a single round
      have : s.round + 1 < 1 := h
      omega
  | @thread i x k' x' hrun hi hx hst =>
      have hinv := hs.thread i x hi
      obtain ⟨hkept, hothers⟩ := step_frame hinv hst
      refine ⟨hmain, childrenInv_step hs.children hinv hst, fun j hj => ?_, fun j y hy => ?_⟩
      · by_cases hji : j = i
        · subst hji
          simp at hj
        · obtain ⟨hw, hc⟩ := hothers j hji
          obtain ⟨hchild, hwait⟩ :=
            hs.absent j (by simpa [Function.update_of_ne hji] using hj)
          exact ⟨hc.mpr hchild, hw.trans hwait⟩
      · by_cases hji : j = i
        · subst hji
          simp only [Function.update_self, Option.some.injEq] at hy
          subst hy
          exact threadInv_step hinv hst
        · obtain ⟨hw, hc⟩ := hothers j hji
          exact (hs.thread j y (by simpa [Function.update_of_ne hji] using hy)).frame hkept hw hc
  | env hrun h =>
      obtain ⟨c, hc, rfl⟩ := h
      have hchild := child_update_iff (k := s.shared) (x := .zombie) (c := c)
        (by rw [hc]; exact Child.noConfusion) Child.noConfusion
      refine ⟨hmain, ⟨hs.children.consistent.ends hc, fun j hw hj => ?_, hs.children.noEchild⟩,
        fun j hj => ?_, fun j y hy => ?_⟩
      · exact (not_congr (hchild j)).mpr (hs.children.forked j hw hj)
      · obtain ⟨hnone, hwait⟩ := hs.absent j hj
        exact ⟨(hchild j).mpr hnone, hwait⟩
      · exact (hs.thread j y hy).frame (fun _ _ hw => hw) rfl (hchild j)
  | created hm => exact ⟨hmain, hs.children, hs.absent, hs.thread⟩
  | joinNext h hm ht hx hv => exact ⟨hmain, hs.children, hs.absent, hs.thread⟩
  | joinBreak h hm ht hx hv => exact ⟨hmain, hs.children, hs.absent, hs.thread⟩
  | joinedBad hm hr => exact ⟨hmain, hs.children, hs.absent, hs.thread⟩
  | finish hm hr h => exact ⟨hmain, hs.children, hs.absent, hs.thread⟩
  | exit hrun ht hx => exact ⟨hmain, hs.children, hs.absent, hs.thread⟩

theorem inv {s : Pool.State a.numThreads (Children a.numThreads) (Thread t) String (BitVec 32)}
    (h : (main t a junk sc).Reachable s) : Inv t a junk sc s :=
  h.invariant inv_init fun _ _ => inv_step

/-- What a returned value says about the thread that returned it. -/
theorem Inv.returned
    {s : Pool.State a.numThreads (Children a.numThreads) (Thread t) String (BitVec 32)}
    (hs : Inv t a junk sc s) {good : Bool} {i : Fin a.numThreads}
    (h : (main t a junk sc).Returned s good i) :
    match good with
    | true => (∀ j < 2 * a.niter, 0 ≤ parentResult t sc i j) ∧
        ∃ w, s.shared.waits i = some w ∧ wexitstatus (statusSeen sc i w) = 0
    | false => ParentNegative t a.niter sc ∨ SawExitCode sc s.shared := by
  obtain ⟨x, v, hx, hv, hok⟩ := h
  have hinv := hs.thread i x hx
  have hpc : x.pc = .done (.ok v) := pc_of_result hv
  have hzero : (v = 0) = (good = true) := by
    have : resultOk v = good := hok
    rw [← this, resultOk, beq_iff_eq]
  simp only [ThreadInv, hpc, ne_eq, hzero] at hinv
  cases good with
  | true => exact (hinv.resolve_right fun h => h.1 rfl).2
  | false => exact (hinv.resolve_left fun h => Bool.noConfusion h.1).2

/-- What a pass is meant to say: every fork succeeded, every child exited with
    status 0, and no call of `probe_0` in a parent returned a negative value. -/
structure AllWell (t : Target) {n : Nat} (cnt : Nat) (sc : Scenario n) : Prop where
  forked : ∀ i, sc.forks i = true
  exited : ∀ i, sc.ends i = .exited 0
  counted : ¬ ParentNegative t cnt sc

theorem wexitstatus_exited_eq_zero (code : BitVec 8)
    (h : wexitstatus (ChildEnd.exited code).status = 0) : code = 0 := by
  revert code
  decide

/-- At the end of any run: a pass means that all is well exactly when every
    fork succeeded and every child exited, with whatever status, or something
    that `fork_thread` does look at went wrong.  A child killed by a signal
    and a failed `fork` are not among the things it looks at. -/
theorem forkThread_pass_iff
    {s : Pool.State a.numThreads (Children a.numThreads) (Thread t) String (BitVec 32)}
    (h : (main t a junk sc).Reachable s) {v : Verdict String} (hv : s.main = .done v) :
    (v = .pass → AllWell t a.niter sc) ↔
      (∀ i, sc.forks i = true ∧ ∃ code, sc.ends i = .exited code) ∨
        ParentNegative t a.niter sc ∨ SawExitCode sc s.shared := by
  have hs := inv h
  have hknows := hs.mainInv.2
  simp only [Pool.MainKnows, hv] at hknows
  constructor
  · intro hwell
    cases v with
    | pass =>
        have hall := hwell rfl
        exact Or.inl fun i => ⟨hall.forked i, 0, hall.exited i⟩
    | fail =>
        obtain ⟨i, hi⟩ := hknows
        exact Or.inr (hs.returned hi)
    | exited msg =>
        -- no thread ever leaves with "found wrong tid"
        obtain ⟨i, x, hx, hresult⟩ := hknows
        have hinv := hs.thread i x hx
        have hpc : x.pc = .done (.error msg) := pc_of_result hresult
        simp only [ThreadInv, hpc] at hinv
  · rintro hcause rfl
    have hthread : ∀ i, (∀ j < 2 * a.niter, 0 ≤ parentResult t sc i j) ∧
        ∃ w, s.shared.waits i = some w ∧ wexitstatus (statusSeen sc i w) = 0 :=
      fun i => hs.returned (hknows.2 i)
    have hcounted : ¬ ParentNegative t a.niter sc := by
      rintro ⟨i, j, hj, hneg⟩
      exact absurd ((hthread i).1 j hj) (Int.not_le.mpr hneg)
    rcases hcause with hends | hneg | ⟨i, w, hw, hcode⟩
    · have hforked := fun i => (hends i).1
      have hreaped : ∀ i, ∃ c, s.shared.waits i = some (some c) := by
        intro i
        obtain ⟨w, hw, -⟩ := (hthread i).2
        cases w with
        | none => exact absurd hw (hs.children.noEchild hforked i)
        | some c => exact ⟨c, hw⟩
      refine ⟨hforked, fun c => ?_, hcounted⟩
      -- the thread that reaped this child has seen its exit code
      obtain ⟨i, hi⟩ := hs.children.consistent.exists_wait hreaped c
      obtain ⟨w, hw, hcode⟩ := (hthread i).2
      obtain ⟨code, hexited⟩ := (hends c).2
      rw [hi, Option.some.injEq] at hw
      subst hw
      rw [statusSeen, hexited] at hcode
      rw [hexited, wexitstatus_exited_eq_zero code hcode]
    · -- what `fork_thread` looks at went well in every thread
      exact absurd hneg hcounted
    · obtain ⟨w', hw', hcode'⟩ := (hthread i).2
      rw [hw, Option.some.injEq] at hw'
      subst hw'
      exact absurd hcode' hcode

end Run

/-! ## A run of one thread -/

/-- One thread, one iteration. -/
abbrev one : Args := ⟨1, 1, by decide, by decide, by decide, by decide⟩

/-- The fork succeeds, both calls of `probe_0` fire once, and the child ends as `e`. -/
def oneChild (e : ChildEnd) : Scenario 1 := ⟨fun _ => 100, fun _ => true, fun _ => e,
  fun _ _ => 1, fun _ => 0⟩

/-- The state in which main waits for the thread. -/
def oneState (k : Children 1) (x : Thread .i386) :
    Pool.State 1 (Children 1) (Thread .i386) String (BitVec 32) where
  round := 0
  shared := k
  threads _ := some x
  main := .join 0 0

theorem oneState_running (k : Children 1) (x : Thread .i386) : (oneState k x).running :=
  fun _ h => by cases h

theorem oneState_step {e : ChildEnd} {k k' : Children 1} {x x' : Thread .i386}
    (hx : x.result = none) (h : Step 1 (oneChild e) 0 (k, x) (k', x')) :
    (main .i386 one 0 (oneChild e)).Step (oneState k x) (oneState k' x') := by
  have hstep := Pool.Step.thread (P := main .i386 one 0 (oneChild e)) (t := 0)
    (oneState_running k x) rfl hx h
  have hthreads : Function.update (oneState k x).threads 0 (some x') = fun _ => some x' := by
    funext i
    rw [Fin.fin_one_eq_zero i, Function.update_self]
  rw [hthreads] at hstep
  exact hstep

theorem oneState_init (e : ChildEnd) : (main .i386 one 0 (oneChild e)).Reachable
    (oneState (Children.init 1) (Thread.start .i386)) := by
  let P := main .i386 one 0 (oneChild e)
  have hcreate : P.Step P.init _ := .create Nat.zero_lt_one rfl
  have hthreads : Function.update P.init.threads ⟨0, Nat.zero_lt_one⟩
      (some (Thread.start .i386)) = fun _ => some (Thread.start .i386) := by
    funext i
    rw [Fin.fin_one_eq_zero i]
    exact Function.update_self _ _ _
  have hcreated := (Relation.ReflTransGen.single hcreate).tail (Pool.Step.created rfl)
  rw [show P.start P.init.round = fun _ => Thread.start .i386 from rfl, hthreads] at hcreated
  exact hcreated

theorem oneChild_probe0 {e : ChildEnd} {j : Nat} (hj : j < 2 ^ 31) {x : Thread .i386} (next : Pc)
    (hx : Counted (oneChild e) 0 j x.table) :
    (probe0 (oneChild e) 0 j next x).pc = next ∧
      Counted (oneChild e) 0 (j + 1) (probe0 (oneChild e) 0 j next x).table := by
  apply (probe0_spec next hx).resolve_left
  intro h
  have hneg := h.1
  rw [parentResult_of_once hj fun _ _ => rfl] at hneg
  omega

/-- When the exit code of the child reads as 0 the program passes. -/
theorem oneChild_passes {e : ChildEnd} (he : wexitstatus e.status = 0) :
    ∃ s, (main .i386 one 0 (oneChild e)).Reachable s ∧ s.main = .done .pass := by
  let k := (Children.init 1).fork 0
  let x : Thread .i386 := { Thread.start .i386 with pc := .pre 0 }
  let x₁ := probe0 (oneChild e) 0 0 (.pre 1) x
  let x₂ : Thread .i386 := { x₁ with pc := .post 0 e.status }
  let x₃ := probe0 (oneChild e) 0 1 (.post 1 e.status) x₂
  obtain ⟨hpc₁, htable₁⟩ := oneChild_probe0 (e := e) (j := 0) (x := x) (by decide) (.pre 1)
    counted_start
  obtain ⟨hpc₃, -⟩ := oneChild_probe0 (e := e) (j := 1) (x := x₂) (by decide)
    (.post 1 e.status) htable₁
  have hforked := (oneState_init e).tail (oneState_step rfl (.fork (k := Children.init 1) rfl rfl))
  have hpre := hforked.tail (oneState_step rfl (.pre (k := k) (x := x) rfl Nat.zero_lt_one))
  have hwait := hpre.tail (oneState_step (by rw [Thread.result, hpc₁])
    (.preDone hpc₁ (Nat.lt_irrefl 1)))
  have hends := hwait.tail (.env (oneState_running _ _) ⟨0, rfl, rfl⟩)
  have hreap := hends.tail (oneState_step (x := { x₁ with pc := .wait }) rfl
    (.reap (k := k.ends 0) (c := 0) rfl rfl))
  have hpost := hreap.tail (oneState_step rfl (.post (x := x₂) rfl Nat.zero_lt_one))
  have hdone := hpost.tail (oneState_step (x := x₃) (by rw [Thread.result, hpc₃])
    (.postDone hpc₃ (Nat.lt_irrefl 1)))
  rw [he] at hdone
  have hjoin := hdone.tail (.joinNext (v := 0) Nat.zero_lt_one rfl rfl rfl rfl)
  exact ⟨_, hjoin.tail (.finish rfl rfl (Nat.lt_irrefl 1)), rfl⟩

/-- The child exits with status 0, and a pass means that all is well. -/
theorem forkThread_pass_of_exited :
    ∃ s, (main .i386 one 0 (oneChild (.exited 0))).Reachable s ∧ s.main = .done .pass ∧
      AllWell .i386 1 (oneChild (.exited 0)) := by
  obtain ⟨s, hs, hpass⟩ := oneChild_passes (e := .exited 0) (by decide)
  exact ⟨s, hs, hpass, (forkThread_pass_iff hs hpass).mpr (Or.inl fun _ => ⟨rfl, 0, rfl⟩) rfl⟩

/-- SIGTRAP kills the child, and the program passes. -/
theorem forkThread_passes_signaled :
    ∃ s, (main .i386 one 0 (oneChild (.signaled ⟨5, by decide, by decide⟩ false))).Reachable s ∧
      s.main = .done .pass ∧
      ¬ AllWell .i386 1 (oneChild (.signaled ⟨5, by decide, by decide⟩ false)) := by
  obtain ⟨s, hs, hpass⟩ := oneChild_passes
    (e := .signaled ⟨5, by decide, by decide⟩ false) (by decide)
  refine ⟨s, hs, hpass, fun hwell => ?_⟩
  have hexited := hwell.exited 0
  cases hexited

end ForkThread

end UprobeTests
