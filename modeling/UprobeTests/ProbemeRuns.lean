/-
  UprobeTests.ProbemeRuns

  The whole runs of the probed programs.  Every run is finite once the loop ends
  by itself, and comes to rest with the same number of calls of `add` in every
  context.

  So a program does what its argument says (`respects_iff`), with two exceptions
  that come from the types of the bound.  In an `int` loop nothing is above the
  greatest `int`, so `i` wraps round and the loop does not end.  And the
  `unsigned int` of probe7-thread.c turns a negative argument into a large bound
  that passes the check.
-/

import UprobeTests.Probeme
import Mathlib.Algebra.BigOperators.Group.Finset.Basic

namespace UprobeTests

namespace Probeme

open Activations

/-- What the check and the loop are for: the program rejects an argument that is
    not positive, and otherwise ends after `v` calls of `add` in every context.
    Where `fork` fails there is no loop. -/
def Respects (p : Program) (argv0 : String) (v : BitVec 32) : Prop :=
  Terminates (system p argv0 2 v) .all start ∧
    ∀ s, Reaches p argv0 2 v s → Over (system p argv0 2 v) .all s →
      if v.toInt ≤ 0 then s.shared.reports = [usage argv0] ∧ s.shared.calls = []
      else
        (s.shared.reports = [.pass] ∧
          ∀ c, (s.shared.calls.count c : Int) = if c ∈ p.contexts then v.toInt else 0) ∨
        (p = .probe8Fork ∧ s.shared.reports = [.exited "fork!\n"] ∧ s.shared.calls = [])

section Runs

variable {p : Program} {argv0 : String} {argc : Int} {v : BitVec 32} {fin : Locals}
variable {u u' : Run} {a : Act} {o : Bool} {new : List Act} {n : Nat}
variable {s s' : Activations Run Act}

/-! ## Finite runs -/

/-- An activation comes to an end by itself when all that its step leaves do. -/
theorem acc_act (h : ∀ u o u' new, act p argv0 argc v u a o = some (u', new) →
    ∀ b ∈ new, Acc (system p argv0 argc v).Follows b) : Acc (system p argv0 argc v).Follows a :=
  System.acc_follows h

/-- Nothing comes after these. -/
def Act.last : Act → Bool
  | .leave _ | .wait | .reportPass => true
  | _ => false

theorem acc_last (h : a.last = true) : Acc (system p argv0 argc v).Follows a := by
  refine acc_act fun u o u' new hact b hb => ?_
  have hnew : new = [] := by
    cases a with
    | leave c => exact (Prod.mk.inj (Option.some.inj hact)).2.symm
    | wait =>
        obtain ⟨status, _, hact⟩ := Option.map_eq_some_iff.mp hact
        exact (Prod.mk.inj hact).2.symm
    | reportPass => exact (Prod.mk.inj (Option.some.inj hact)).2.symm
    | _ => cases h
  rw [hnew] at hb
  cases hb

theorem last_after (p : Program) (c : Context) : (p.source.after c).last = true := by
  cases p with
  | probe8Fork => cases c <;> rfl
  | _ => rfl

/-- When there is one activation to go on with. -/
theorem acc_one {b : Act}
    (h : ∀ u o u' new, act p argv0 argc v u a o = some (u', new) → new = [b])
    (hb : Acc (system p argv0 argc v).Follows b) : Acc (system p argv0 argc v).Follows a := by
  refine acc_act fun u o u' new hact b' hb' => ?_
  rw [h u o u' new hact] at hb'
  rw [List.mem_singleton.mp hb']
  exact hb

/-- A loop that ends brings its context to the end, whatever the others do. -/
theorem acc_test {l : Locals} (h : (p.source.loop v).Ends l n fin) (c : Context) :
    Acc (system p argv0 argc v).Follows (.test c l) := by
  -- the induction is on the rounds that are left
  induction h with
  | done ht =>
      refine acc_one (fun u o u' new hact => ?_) (acc_last (last_after p c))
      rw [act, if_neg (Bool.eq_false_iff.mp ht)] at hact
      exact (Prod.mk.inj (Option.some.inj hact)).2.symm
  | @round l _ _ ht _ ih =>
      have hadd : Acc (system p argv0 argc v).Follows (.add c l) :=
        acc_one (fun u o u' new hact => (Prod.mk.inj (Option.some.inj hact)).2.symm) ih
      refine acc_one (fun u o u' new hact => ?_) hadd
      rw [act, if_pos ht] at hact
      exact (Prod.mk.inj (Option.some.inj hact)).2.symm

theorem acc_joinThread1 : Acc (system p argv0 argc v).Follows .joinThread1 := by
  have hjoin : Acc (system p argv0 argc v).Follows .joinThread2 := by
    refine acc_one (fun u o u' new hact => ?_) (acc_last (a := .reportPass) rfl)
    obtain ⟨status, _, hact⟩ := Option.map_eq_some_iff.mp hact
    exact (Prod.mk.inj hact).2.symm
  refine acc_one (fun u o u' new hact => ?_) hjoin
  obtain ⟨status, _, hact⟩ := Option.map_eq_some_iff.mp hact
  exact (Prod.mk.inj hact).2.symm

theorem acc_createThread1 (hends : (p.source.loop v).Ends .start n fin) :
    Acc (system p argv0 argc v).Follows .createThread1 := by
  have hcreate : Acc (system p argv0 argc v).Follows .createThread2 := by
    refine acc_act fun u o u' new hact b hb => ?_
    obtain ⟨rfl, rfl⟩ := Prod.mk.inj (Option.some.inj hact)
    rcases List.mem_pair.mp hb with rfl | rfl
    · exact acc_test hends .thread2
    · exact acc_joinThread1
  refine acc_act fun u o u' new hact b hb => ?_
  obtain ⟨rfl, rfl⟩ := Prod.mk.inj (Option.some.inj hact)
  rcases List.mem_pair.mp hb with rfl | rfl
  · exact acc_test hends .thread1
  · exact hcreate

theorem acc_fork (hends : (p.source.loop v).Ends .start n fin) :
    Acc (system p argv0 argc v).Follows .fork := by
  refine acc_act fun u o u' new hact b hb => ?_
  rw [act] at hact
  split at hact
  · obtain ⟨rfl, rfl⟩ := Prod.mk.inj (Option.some.inj hact)
    rcases List.mem_pair.mp hb with rfl | rfl
    · exact acc_test hends .main
    · exact acc_test hends .child
  · -- without a child the program ends at once
    obtain ⟨rfl, rfl⟩ := Prod.mk.inj (Option.some.inj hact)
    cases hb

theorem acc_checkArgs
    (h : argc ≠ 2 ∨ p.source.nonpositive v = true ∨ ∃ n fin, (p.source.loop v).Ends .start n fin) :
    Acc (system p argv0 argc v).Follows .checkArgs := by
  refine acc_act fun u o u' new hact b hb => ?_
  rw [act] at hact
  split at hact
  · obtain ⟨rfl, rfl⟩ := Prod.mk.inj (Option.some.inj hact)
    cases hb
  · rename_i hacc
    obtain ⟨rfl, rfl⟩ := Prod.mk.inj (Option.some.inj hact)
    rw [List.mem_singleton.mp hb]
    obtain ⟨n, fin, hends⟩ : ∃ n fin, (p.source.loop v).Ends .start n fin := by tauto
    cases p with
    | probe8Fork => exact acc_fork hends
    | probe7Thread => exact acc_createThread1 hends
    | _ => exact acc_test hends .main

/-- Every run is finite when the argument is rejected, or the loop ends. -/
theorem terminates
    (h : argc ≠ 2 ∨ p.source.nonpositive v = true ∨ ∃ n fin, (p.source.loop v).Ends .start n fin) :
    Terminates (system p argv0 argc v) .all start := by
  refine terminates_of_acc (fun _ e => e.elim) fun a ha => ?_
  rw [List.mem_singleton.mp ha]
  exact acc_checkArgs h

/-! ## Whole runs -/

/-- One activation that can take one step only. -/
theorem step_alone_eq {r : Run × List Act}
    (hs : Step (system p argv0 argc v) .all ⟨u, [a]⟩ s')
    (hact : ∀ o, act p argv0 argc v u a o = some r) : s' = ⟨r.1, r.2⟩ := by
  rcases hs.alone with ⟨o, u', new, h, rfl⟩ | ⟨e, _⟩
  · obtain rfl : r = (u', new) := Option.some.inj ((hact o).symm.trans h)
    rfl
  · exact e.elim

/-- The program ends at its check. -/
theorem over_of_rejected (hrej : argc ≠ 2 ∨ p.source.nonpositive v = true)
    (h : Reaches p argv0 argc v s) (hover : Over (system p argv0 argc v) .all s) :
    s.shared.reports = [usage argv0] ∧ s.shared.calls = [] := by
  have hact : act p argv0 argc v .empty .checkArgs true =
      some (Run.empty.report (usage argv0), []) := if_pos hrej
  have hcases : s = start ∨ s = ⟨Run.empty.report (usage argv0), []⟩ := by
    refine h.invariant (I := fun s => s = start ∨ s = ⟨Run.empty.report (usage argv0), []⟩)
      (Or.inl rfl) fun s s' hs hstep => ?_
    rcases hs with rfl | rfl
    · exact Or.inr (step_alone_eq hstep fun _ => if_pos hrej)
    · exact (over_nil (fun _ e => e.elim) _ hstep).elim
  rcases hcases with rfl | rfl
  · -- the check is not blocked
    exact (hover _ (.single (o := true) hact rfl)).elim
  · exact ⟨rfl, rfl⟩

/-- Where a run of an accepted program is. -/
inductive Stage (p : Program) (v : BitVec 32) (fin : Locals) : Activations Run Act → Prop where
  | checking : Stage p v fin start
  | forking (hp : p = .probe8Fork) : Stage p v fin ⟨.empty, [.fork]⟩
  | forkFailed (hp : p = .probe8Fork) :
      Stage p v fin ⟨Run.empty.report (.exited "fork!\n"), []⟩
  | running {s : Activations Run Act} (h : Good p v fin s) : Stage p v fin s

theorem act_checkArgs (hacc : p.source.nonpositive v = false) (o : Bool) :
    act p argv0 2 v u .checkArgs o = some (u, [p.source.first]) := by
  rw [act, if_neg]
  rw [hacc]
  decide

theorem Stage.step (h : Stage p v fin s) (hacc : p.source.nonpositive v = false)
    (hfin : ∃ n, (p.source.loop v).Ends .start n fin)
    (hs : Step (system p argv0 2 v) .all s s') : Stage p v fin s' := by
  cases h with
  | checking =>
      obtain rfl := step_alone_eq hs (act_checkArgs hacc)
      cases p with
      | probe8Fork => exact .forking rfl
      | _ => exact .running (.entry hfin)
  | forking hp =>
      subst hp
      rcases hs.alone with ⟨o, u', new, hact, rfl⟩ | ⟨e, _⟩
      · cases o with
        | true =>
            obtain ⟨rfl, rfl⟩ := Prod.mk.inj (Option.some.inj hact)
            exact .running (.entry hfin)
        | false =>
            obtain ⟨rfl, rfl⟩ := Prod.mk.inj (Option.some.inj hact)
            exact .forkFailed rfl
      · exact e.elim
  | forkFailed => exact (over_nil (fun _ e => e.elim) _ hs).elim
  | running h => exact .running (h.step hfin hs)

/-- How an accepted program ends. -/
theorem over_of_accepted (hacc : p.source.nonpositive v = false)
    (hends : (p.source.loop v).Ends .start n fin) (h : Reaches p argv0 2 v s)
    (hover : Over (system p argv0 2 v) .all s) :
    (s.shared.reports = [.pass] ∧
      ∀ c, (s.shared.calls.count c : Int) = if c ∈ p.contexts then (n : Int) else 0) ∨
    (p = .probe8Fork ∧ s.shared.reports = [.exited "fork!\n"] ∧ s.shared.calls = []) := by
  have hstage : Stage p v fin s :=
    h.invariant .checking fun _ _ hs => hs.step hacc ⟨n, hends⟩
  cases hstage with
  -- neither the check nor `fork` is blocked
  | checking => exact (hover _ (.single (o := true) (act_checkArgs hacc true) rfl)).elim
  | forking => exact (hover _ (.single (o := true) rfl rfl)).elim
  | forkFailed hp => exact Or.inr ⟨hp, rfl, rfl⟩
  | running hgood =>
      obtain ⟨hreports, hcalls⟩ := hgood.at_end hover
      exact Or.inl ⟨hreports, fun c => (hcalls c).trans (due_entry hends c)⟩

theorem reaches_entry (hacc : p.source.nonpositive v = false) :
    Reaches p argv0 2 v ⟨.empty, p.entry⟩ := by
  have hcheck : Step (system p argv0 2 v) .all start ⟨.empty, [p.source.first]⟩ :=
    .single (o := true) (act_checkArgs hacc true) rfl
  cases p with
  | probe8Fork => exact .tail (.single hcheck) (.single (o := true) rfl rfl)
  | _ => exact .single hcheck

/-! ## The sums -/

/-- The sum after `n` rounds. -/
def Program.sum (p : Program) (n : Nat) : BitVec 32 :=
  if p = .probeme4s then 0 else BitVec.ofNat 32 (∑ k ∈ Finset.range (n + 1), k)

theorem sum_body (l : Locals) :
    ((p.source.loop v).body l).sum = if p = .probeme4s then l.sum else l.sum + l.i := by
  cases p with
  | probeme4s => exact BitVec.add_sub_cancel l.sum l.i
  | _ => rfl

theorem i_body (l : Locals) : ((p.source.loop v).body l).i = l.i + 1 := by
  cases p <;> rfl

theorem Program.sum_succ (p : Program) (k : Nat) :
    p.sum (k + 1) = if p = .probeme4s then p.sum k else p.sum k + BitVec.ofNat 32 (k + 1) := by
  rw [Program.sum, Program.sum]
  split
  · rfl
  · rw [Finset.sum_range_succ, BitVec.ofNat_add]

/-- From the sum after `k` rounds. -/
theorem sum_of_ends {l : Locals} (h : (p.source.loop v).Ends l n fin) (k : Nat)
    (hi : l.i = BitVec.ofNat 32 (k + 1)) (hsum : l.sum = p.sum k) : fin.sum = p.sum (k + n) := by
  induction h generalizing k with
  | done => exact hsum
  | @round l n fin _ _ ih =>
      have hi' : ((p.source.loop v).body l).i = BitVec.ofNat 32 (k + 1 + 1) := by
        rw [i_body, hi, BitVec.ofNat_add (k + 1)]
        rfl
      have hsum' : ((p.source.loop v).body l).sum = p.sum (k + 1) := by
        rw [sum_body, p.sum_succ, hi, hsum]
      rw [ih (k + 1) hi' hsum']
      congr 1
      omega

/-- Every context prints the sum of the numbers from one to its argument. -/
theorem sums_printed (hacc : p.source.nonpositive v = false)
    (hends : (p.source.loop v).Ends .start n fin) (h : Reaches p argv0 2 v s) :
    ∀ x ∈ s.shared.sums, x.2 = p.sum n := by
  have hfin : fin.sum = p.sum n := by
    have hsum := sum_of_ends hends 0 rfl (by cases p <;> rfl)
    rwa [Nat.zero_add] at hsum
  have hstage : Stage p v fin s :=
    h.invariant .checking fun _ _ hs => hs.step hacc ⟨n, hends⟩
  intro x hx
  cases hstage with
  | running hgood => exact (hgood.sums x hx).trans hfin
  | _ => cases hx

/-- The sum in the output that probe8-fork.c quotes. -/
example : Program.probe8Fork.sum 10 = 55 := by decide

/-! ## Loops without an end -/

/-- `a` is in a loop that does not end, or will start one. -/
def Act.Unending (L : Loop Locals) : Act → Prop
  | .createThread1 | .createThread2 => L.Forever .start
  | .test _ l => L.Forever l
  | .add _ l => L.Forever (L.body l)
  | _ => False

theorem not_terminates (h : ∃ a ∈ s.acts, a.Unending (p.source.loop v)) :
    ¬ Terminates (system p argv0 argc v) .all s := by
  refine not_terminates_of_progress
    (I := fun s => ∃ a ∈ s.acts, a.Unending (p.source.loop v)) h ?_
  rintro ⟨u, acts⟩ ⟨a, ha, hunending⟩
  obtain ⟨before, after, rfl⟩ := List.append_of_mem ha
  obtain ⟨u', new, hact, b, hb, hb'⟩ : ∃ u' new, act p argv0 argc v u a true = some (u', new) ∧
      ∃ b ∈ new, b.Unending (p.source.loop v) := by
    cases a with
    | createThread1 => exact ⟨u, _, rfl, .createThread2, by decide, hunending⟩
    | createThread2 => exact ⟨u, _, rfl, .test .thread2 .start, by decide, hunending⟩
    | test c l => exact ⟨u, _, if_pos hunending.test, .add c l, .head _, hunending.body⟩
    | add c l => exact ⟨_, _, rfl, _, .head _, hunending⟩
    | _ => exact hunending.elim
  exact ⟨_, .act hact rfl, b, mem_new_iff.mpr (Or.inl hb), hb'⟩

/-! ## The argument -/

theorem nonpositive_iff (hp : p ≠ .probe7Thread) :
    p.source.nonpositive v = true ↔ v.toInt ≤ 0 := by
  cases p with
  | probe7Thread => exact absurd rfl hp
  | _ => exact decide_eq_true_iff

theorem nonpositive_probe7Thread_iff :
    Program.probe7Thread.source.nonpositive v = true ↔ v.toInt = 0 := by
  have hzero : v.ule 0 = true ↔ v.toNat ≤ 0 := decide_eq_true_iff
  have htoInt := BitVec.toInt_eq_toNat_cond v
  have hlt := v.isLt
  refine hzero.trans ?_
  split at htoInt <;> omega

theorem counts_signed (hp : p ≠ .probe7Thread) :
    (p.source.loop v).Counts Locals.i BitVec.toInt v := by
  cases p with
  | probe7Thread => exact absurd rfl hp
  | _ => exact ⟨fun _ => decide_eq_true_iff, fun _ => rfl⟩

theorem counts_unsigned :
    (Program.probe7Thread.source.loop v).Counts Locals.i (fun x => x.toNat) v where
  test _ := decide_eq_true_iff.trans Int.ofNat_le.symm
  body _ := rfl

theorem toInt_eq_toNat_of_nonneg (h : 0 ≤ v.toInt) : v.toInt = v.toNat := by
  have htoInt := BitVec.toInt_eq_toNat_cond v
  have hlt := v.isLt
  split at htoInt <;> omega

/-- The loop ends, for a positive argument that meets the condition. -/
theorem loop_ends (hpos : 0 < v.toInt) (h : p ≠ .probe7Thread → v.toInt ≠ 2 ^ 31 - 1) :
    ∃ fin, (p.source.loop v).Ends .start v.toInt.toNat fin := by
  by_cases hp : p = .probe7Thread
  · subst hp
    have hv := toInt_eq_toNat_of_nonneg hpos.le
    have hlt := BitVec.toInt_lt (x := v)
    have hmax : v.toNat ≠ 2 ^ 32 - 1 := by omega
    obtain ⟨fin, hends⟩ := counts_unsigned.ends_unsigned (s := Locals.start) hmax rfl
    rw [hv, Int.toNat_natCast]
    exact ⟨fin, hends⟩
  · exact (counts_signed hp).ends_signed (s := Locals.start) hpos.le (h hp) rfl

theorem respects_of_condition
    (h : if p = .probe7Thread then 0 ≤ v.toInt else v.toInt ≠ 2 ^ 31 - 1) :
    Respects p argv0 v := by
  by_cases hpos : v.toInt ≤ 0
  · have hrej : p.source.nonpositive v = true := by
      by_cases hp : p = .probe7Thread
      · rw [if_pos hp] at h
        subst hp
        exact nonpositive_probe7Thread_iff.mpr (Int.le_antisymm hpos h)
      · exact (nonpositive_iff hp).mpr hpos
    refine ⟨terminates (Or.inr (Or.inl hrej)), fun s hs hover => ?_⟩
    rw [if_pos hpos]
    exact over_of_rejected (Or.inr hrej) hs hover
  · have hacc : p.source.nonpositive v = false := by
      rw [Bool.eq_false_iff]
      by_cases hp : p = .probe7Thread
      · subst hp
        rw [ne_eq, nonpositive_probe7Thread_iff]
        omega
      · rwa [ne_eq, nonpositive_iff hp]
    have hcond : p ≠ .probe7Thread → v.toInt ≠ 2 ^ 31 - 1 := by
      intro hp
      rwa [if_neg hp] at h
    obtain ⟨fin, hends⟩ := loop_ends (Int.not_le.mp hpos) hcond
    refine ⟨terminates (Or.inr (Or.inr ⟨_, fin, hends⟩)), fun s hs hover => ?_⟩
    rw [if_neg hpos]
    have hover' := over_of_accepted hacc hends hs hover
    rwa [Int.toNat_of_nonneg (by omega)] at hover'

/-- At the top of the range `i <= n` holds of every `int`. -/
theorem not_respects_of_max (hp : p ≠ .probe7Thread) (hv : v.toInt = 2 ^ 31 - 1) :
    ¬ Respects p argv0 v := by
  intro h
  have hacc : p.source.nonpositive v = false := by
    rw [Bool.eq_false_iff, ne_eq, nonpositive_iff hp]
    omega
  -- it gets to the loop, and stays in it
  refine not_terminates ?_ (h.1.of_reachable (reaches_entry hacc))
  have hforever : (p.source.loop v).Forever .start := (counts_signed hp).forever_signed hv
  cases p with
  | probe7Thread => exact absurd rfl hp
  | _ => exact ⟨.test .main .start, .head _, hforever⟩

/-- No negative number is negative as an `unsigned int`. -/
theorem not_respects_of_negative (hv : v.toInt < 0) : ¬ Respects .probe7Thread argv0 v := by
  intro h
  have hacc : Program.probe7Thread.source.nonpositive v = false := by
    rw [Bool.eq_false_iff, ne_eq, nonpositive_probe7Thread_iff]
    omega
  obtain ⟨s, hs, hover⟩ := h.1.exists_over
  have hreports := h.2 s hs hover
  rw [if_pos hv.le] at hreports
  by_cases hmax : v.toNat = 2 ^ 32 - 1
  · -- the loops of both threads go on for ever
    refine not_terminates ?_ (h.1.of_reachable (reaches_entry hacc))
    exact ⟨.createThread1, .head _, counts_unsigned.forever_unsigned hmax⟩
  · obtain ⟨fin, hends⟩ := counts_unsigned.ends_unsigned (s := Locals.start) hmax rfl
    rcases over_of_accepted hacc hends hs hover with h' | h'
    · -- it has passed, and not reported its usage
      exact nomatch hreports.1.symm.trans h'.1
    · exact nomatch h'.1

end Runs

/-- A program does what its check and its loop are for, unless it is given the
    greatest `int`, or, with an `unsigned int` for a bound, a negative number. -/
theorem respects_iff (p : Program) (argv0 : String) (v : BitVec 32) :
    Respects p argv0 v ↔
      if p = .probe7Thread then 0 ≤ v.toInt else v.toInt ≠ 2 ^ 31 - 1 := by
  refine ⟨fun h => ?_, respects_of_condition⟩
  split
  · rename_i hp
    subst hp
    by_contra hv
    exact not_respects_of_negative (Int.not_le.mp hv) h
  · rename_i hp
    exact fun hv => not_respects_of_max hp hv h

/-- probe7-thread accepts -1, and probeme4 does not end with 2147483647. -/
theorem accepts_negative_or_never_ends :
    ¬ Respects .probe7Thread "./probe7-thread" (-1) ∧
      ¬ Respects .probeme4 "./probeme4" 2147483647 :=
  ⟨not_respects_of_negative (by decide), not_respects_of_max (by decide) (by decide)⟩

end Probeme

end UprobeTests
