/-
  UprobeTests.Probeme

  The probed programs of uprobes.existing that call `add` in a loop: probeme4.c,
  probeme4s.c and probeme6.c in one process, probe8-fork.c in a parent and its
  child, probe7-thread.c in two threads.

  They bound the loop by their argument, once they have checked that it is
  positive.  The bound is an `int` in all but probe7-thread.c, where it is an
  `unsigned int`, in the check as well as in the loop.
-/

import UprobeTests.Lib.Activations
import UprobeTests.Lib.Loop
import UprobeTests.Lib.Pool

namespace UprobeTests

namespace Probeme

open Activations

/-! ## The loop -/

/-- `i` and `sum`. -/
structure Locals where
  i : BitVec 32
  sum : BitVec 32
deriving DecidableEq, Repr

/-- `sum = 0` and `i = 1`. -/
def Locals.start : Locals := ⟨1, 0⟩

def add (n1 n2 : BitVec 32) : BitVec 32 := n1 + n2

def subtract (n1 n2 : BitVec 32) : BitVec 32 := n1 - n2

/-- `for (i = 1; i <= n; i++) sum = add(sum, i);`.  The types of `i` and `n` say
    which comparison `le` is. -/
def addLoop (le : BitVec 32 → BitVec 32 → Bool) (n : BitVec 32) : Loop Locals where
  test l := le l.i n
  body l := ⟨l.i + 1, add l.sum l.i⟩

/-- The loop of probeme4s.c, which takes `i` away again. -/
def addSubtractLoop (n : BitVec 32) : Loop Locals where
  test l := l.i.sle n
  body l := ⟨l.i + 1, subtract (add l.sum l.i) l.i⟩

/-! ## The programs -/

/-- Who runs the loop. -/
inductive Context where
  | main
  | child
  | thread1
  | thread2
deriving DecidableEq, Repr

/-- What a process or thread is about to do. -/
inductive Act where
  | checkArgs
  | fork
  | createThread1
  | createThread2
  /-- the condition of the loop -/
  | test (c : Context) (l : Locals)
  /-- the body, and `i++` -/
  | add (c : Context) (l : Locals)
  /-- `_exit(0)` of the child, `return NULL` of a thread -/
  | leave (c : Context)
  | joinThread1
  | joinThread2
  | wait
  | reportPass
deriving DecidableEq, Repr

/-- What the programs write differently. -/
structure Source where
  /-- `n <= 0`, for the result `n` of `atoi` -/
  nonpositive : BitVec 32 → Bool
  loop : BitVec 32 → Loop Locals
  /-- how `main` goes on after its check -/
  first : Act
  /-- how the loop goes on when it has ended -/
  after : Context → Act

def probeme4 : Source where
  nonpositive n := n.sle 0
  loop := addLoop BitVec.sle
  first := .test .main .start
  after _ := .reportPass

def probeme4s : Source where
  nonpositive n := n.sle 0
  loop := addSubtractLoop
  first := .test .main .start
  after _ := .reportPass

/-- It ends through `bye`, with the text and the status of `report_pass`. -/
def probeme6 : Source where
  nonpositive n := n.sle 0
  loop := addLoop BitVec.sle
  first := .test .main .start
  after _ := .reportPass

/-- `calc_sum` in the parent and in the child. -/
def probe8Fork : Source where
  nonpositive n := n.sle 0
  loop := addLoop BitVec.sle
  first := .fork
  after
    | .main => .wait
    | c => .leave c

/-- `niter` is an `unsigned int`, and so `i` is converted to one. -/
def probe7Thread : Source where
  nonpositive niter := niter.ule 0
  loop := addLoop BitVec.ule
  first := .createThread1
  after c := .leave c

inductive Program where
  | probeme4
  | probeme4s
  | probeme6
  | probe8Fork
  | probe7Thread
deriving DecidableEq, Repr

def Program.source : Program → Source
  | .probeme4 => Probeme.probeme4
  | .probeme4s => Probeme.probeme4s
  | .probeme6 => Probeme.probeme6
  | .probe8Fork => Probeme.probe8Fork
  | .probe7Thread => Probeme.probe7Thread

/-- Where a program runs its loop. -/
def Program.contexts : Program → List Context
  | .probe8Fork => [.main, .child]
  | .probe7Thread => [.thread1, .thread2]
  | _ => [.main]

/-! ## The runs -/

/-- The calls of `add` and the sums printed, both with the context they come
    from, who has left and with which status, and the reports made. -/
structure Run where
  calls : List Context
  sums : List (Context × BitVec 32)
  left : List (Context × Nat)
  reports : List (Verdict String)

def Run.empty : Run := ⟨[], [], [], []⟩

def Run.report (u : Run) (v : Verdict String) : Run := { u with reports := u.reports ++ [v] }

def usage (argv0 : String) : Verdict String := .exited ("Usage: " ++ argv0 ++ " niter\n")

section System

variable (p : Program) (argv0 : String) (argc : Int) (v : BitVec 32)

/-- The steps of a program started with `argc - 1` arguments, the first of which
    `atoi` turns into `v`; the outcome says whether `fork` succeeds.  The bound of
    the loop is `v`: nothing writes `n` or `niter` after the check. -/
def act (u : Run) : Act → Bool → Option (Run × List Act)
  | .checkArgs, _ =>
      if argc ≠ 2 ∨ p.source.nonpositive v then some (u.report (usage argv0), [])
      else some (u, [p.source.first])
  | .fork, ok =>
      if ok then some (u, [.test .main .start, .test .child .start])
      else some (u.report (.exited "fork!\n"), [])
  | .createThread1, _ => some (u, [.test .thread1 .start, .createThread2])
  | .createThread2, _ => some (u, [.test .thread2 .start, .joinThread1])
  | .test c l, _ =>
      if (p.source.loop v).test l then some (u, [.add c l])
      else some ({ u with sums := u.sums ++ [(c, l.sum)] }, [p.source.after c])
  | .add c l, _ =>
      some ({ u with calls := u.calls ++ [c] }, [.test c ((p.source.loop v).body l)])
  | .leave c, _ => some ({ u with left := u.left ++ [(c, 0)] }, [])
  | .joinThread1, _ => (u.left.lookup .thread1).map fun _ => (u, [.joinThread2])
  | .joinThread2, _ => (u.left.lookup .thread2).map fun _ => (u, [.reportPass])
  | .wait, _ =>
      (u.left.lookup .child).map fun status =>
        (u.report (if status = 0 then .pass else .exited "Child exited with error"), [])
  | .reportPass, _ => some (u.report .pass, [])

def system : System Run Act Bool Empty where
  act := act p argv0 argc v
  main _ e := e.elim

/-- At the beginning of `main`. -/
def start : Activations Run Act := ⟨.empty, [.checkArgs]⟩

/-- A run of the program can come to `s`. -/
abbrev Reaches (s : Activations Run Act) : Prop :=
  Reachable (system p argv0 argc v) .all start s

end System

/-! ## The books -/

/-- How often `a` will let the context `c` run to its end. -/
def Act.pending (c : Context) : Act → Int
  | .checkArgs | .fork => 0
  | .createThread1 => if c = .child then 0 else 1
  | .createThread2 => if c = .main ∨ c = .thread2 then 1 else 0
  | .test c' _ | .add c' _ | .leave c' => if c' = c then 1 else 0
  | .joinThread1 | .joinThread2 | .wait | .reportPass => if c = .main then 1 else 0

/-- How often the context `c` has run to its end. -/
def Run.finished (u : Run) : Context → Int
  | .main => u.reports.length
  | c => u.left.countP fun x => x.1 = c

/-- How often `a` will let the context `c` call `add`. -/
noncomputable def Act.due (L : Loop Locals) (c : Context) : Act → Int
  | .createThread1 => if c = .thread1 ∨ c = .thread2 then L.left .start else 0
  | .createThread2 => if c = .thread2 then L.left .start else 0
  | .test c' l => if c' = c then L.left l else 0
  | .add c' l => if c' = c then L.left (L.body l) + 1 else 0
  | _ => 0

/-- `a` can occur in a run of `p` in which every loop ends with the locals `fin`. -/
def Act.Sound (p : Program) (v : BitVec 32) (fin : Locals) : Act → Prop
  | .checkArgs | .fork => False
  | .test c l => c ∈ p.contexts ∧ ∃ n, (p.source.loop v).Ends l n fin
  | .add c l => c ∈ p.contexts ∧ ∃ n, (p.source.loop v).Ends ((p.source.loop v).body l) n fin
  | .createThread1 | .createThread2 => p = .probe7Thread
  | .leave c => c ≠ .main
  | _ => True

/-- The contexts that `a` still waits for, or whatever follows it. -/
def Act.awaited : Act → List Context
  | .createThread1 | .createThread2 | .joinThread1 => [.thread1, .thread2]
  | .joinThread2 => [.thread2]
  | .wait => [.child]
  | _ => []

/-- What a program goes on with when its argument is accepted, and `fork` succeeds. -/
def Program.entry : Program → List Act
  | .probe8Fork => [.test .main .start, .test .child .start]
  | p => [p.source.first]

/-- Who takes part. -/
def Program.parties (p : Program) (c : Context) : Int := (p.entry.map (Act.pending c)).sum

theorem Program.parties_main (p : Program) : p.parties .main = 1 := by
  cases p <;> rfl

/-- `main` waits for contexts that take part. -/
theorem Program.parties_awaited_after (p : Program) (c c' : Context)
    (h : c' ∈ (p.source.after c).awaited) : p.parties c' = 1 := by
  cases p with
  | probe8Fork =>
      cases c with
      | main =>
          obtain rfl := List.mem_singleton.mp h
          rfl
      | _ => cases h
  | _ => cases h

theorem Program.parties_awaited_entry (p : Program) (a : Act) (ha : a ∈ p.entry) (c : Context)
    (h : c ∈ a.awaited) : p.parties c = 1 := by
  cases p with
  | probe7Thread =>
      obtain rfl := List.mem_singleton.mp ha
      rcases List.mem_pair.mp h with rfl | rfl <;> rfl
  | probe8Fork => rcases List.mem_pair.mp ha with rfl | rfl <;> cases h
  | _ =>
      obtain rfl := List.mem_singleton.mp ha
      cases h

section Books

variable {p : Program} {argv0 : String} {argc : Int} {v : BitVec 32} {fin : Locals}
variable {u u' : Run} {a : Act} {o : Bool} {new : List Act} {n : Nat}

theorem sound_after {c : Context} (hc : c ∈ p.contexts) :
    (p.source.after c).Sound p v fin := by
  cases p with
  | probe8Fork =>
      rcases List.mem_pair.mp hc with rfl | rfl
      · trivial
      · exact Context.noConfusion
  | probe7Thread => rcases List.mem_pair.mp hc with rfl | rfl <;> exact Context.noConfusion
  | _ => trivial

theorem sound_entry (hfin : ∃ n, (p.source.loop v).Ends .start n fin) (ha : a ∈ p.entry) :
    a.Sound p v fin := by
  cases p with
  | probe8Fork =>
      rcases List.mem_pair.mp ha with rfl | rfl
      · exact ⟨by decide, hfin⟩
      · exact ⟨by decide, hfin⟩
  | probe7Thread =>
      obtain rfl := List.mem_singleton.mp ha
      rfl
  | _ =>
      obtain rfl := List.mem_singleton.mp ha
      exact ⟨by decide, hfin⟩

@[simp] theorem Run.finished_report (u : Run) (r : Verdict String) (c : Context) :
    (u.report r).finished c = u.finished c + if c = .main then 1 else 0 := by
  cases c <;> simp [Run.finished, Run.report]

theorem Run.finished_leave (u : Run) {c : Context} (hc : c ≠ .main) (c' : Context) :
    { u with left := u.left ++ [(c, 0)] }.finished c' =
      u.finished c' + if c = c' then 1 else 0 := by
  cases c' with
  | main => rw [Run.finished, Run.finished, if_neg hc, add_zero]
  | _ => simp [Run.finished, List.countP_append, List.countP_singleton]

/-- What a step of `a` does to the books. -/
structure Balance (p : Program) (v : BitVec 32) (fin : Locals) (u u' : Run) (a : Act)
    (new : List Act) : Prop where
  due : ∀ c, (u'.calls.count c : Int) + (new.map (Act.due (p.source.loop v) c)).sum =
    u.calls.count c + a.due (p.source.loop v) c
  pending : ∀ c, u'.finished c + (new.map (Act.pending c)).sum = u.finished c + a.pending c
  sound : ∀ b ∈ new, b.Sound p v fin
  awaited : ∀ b ∈ new, ∀ c ∈ b.awaited, c ∈ a.awaited ∨ p.parties c = 1
  sums : ∀ x ∈ u'.sums, x ∈ u.sums ∨ x.2 = fin.sum
  left : ∀ x ∈ u'.left, x ∈ u.left ∨ x.2 = 0
  reports : ∀ r ∈ u'.reports, r ∈ u.reports ∨ r = .pass

theorem due_after (p : Program) (L : Loop Locals) (c c' : Context) :
    (p.source.after c).due L c' = 0 := by
  cases p with
  | probe8Fork => cases c <;> rfl
  | _ => rfl

theorem pending_after {c : Context} (hc : c ∈ p.contexts) (c' : Context) :
    (p.source.after c).pending c' = if c = c' then 1 else 0 := by
  cases p with
  | probe8Fork =>
      rcases List.mem_pair.mp hc with rfl | rfl
      · cases c' <;> rfl
      · rfl
  | probe7Thread => rfl
  | _ =>
      obtain rfl := List.mem_singleton.mp hc
      cases c' <;> rfl

/-- A step that leaves one activation, and whoever has left or reported as it is. -/
theorem Balance.one {b : Act}
    (hdue : ∀ c, (u'.calls.count c : Int) + b.due (p.source.loop v) c =
      u.calls.count c + a.due (p.source.loop v) c)
    (hpending : ∀ c, b.pending c = a.pending c) (hsound : b.Sound p v fin)
    (hawaited : ∀ c ∈ b.awaited, c ∈ a.awaited ∨ p.parties c = 1)
    (hsums : ∀ x ∈ u'.sums, x ∈ u.sums ∨ x.2 = fin.sum) (hleft : u'.left = u.left)
    (hreports : u'.reports = u.reports) : Balance p v fin u u' a [b] where
  due c := by rw [List.map_singleton, List.sum_singleton, hdue]
  pending c := by
    have hfinished : u'.finished c = u.finished c := by
      cases c with
      | main => rw [Run.finished, Run.finished, hreports]
      | _ => rw [Run.finished, Run.finished, hleft] <;> exact Context.noConfusion
    rw [List.map_singleton, List.sum_singleton, hpending, hfinished]
  sound b' hb' := List.mem_singleton.mp hb' ▸ hsound
  awaited b' hb' := List.mem_singleton.mp hb' ▸ hawaited
  sums := hsums
  left x hx := Or.inl (hleft ▸ hx)
  reports r hr := Or.inl (hreports ▸ hr)

/-- A step that creates a thread and leaves `main` as `b`. -/
theorem Balance.create {c : Context} {b : Act}
    (hdue : ∀ c', (Act.test c .start).due (p.source.loop v) c' + b.due (p.source.loop v) c' =
      a.due (p.source.loop v) c')
    (hpending : ∀ c', (Act.test c .start).pending c' + b.pending c' = a.pending c')
    (hfin : ∃ n, (p.source.loop v).Ends .start n fin) (hc : c ∈ p.contexts)
    (hsound : b.Sound p v fin) (hawaited : b.awaited = a.awaited) :
    Balance p v fin u u a [.test c .start, b] where
  due c' := by
    rw [List.map_cons, List.map_singleton, List.sum_cons, List.sum_singleton, hdue]
  pending c' := by
    rw [List.map_cons, List.map_singleton, List.sum_cons, List.sum_singleton, hpending]
  sound b' hb' := by
    rcases List.mem_pair.mp hb' with rfl | rfl
    · exact ⟨hc, hfin⟩
    · exact hsound
  awaited b' hb' c' hc' := by
    rcases List.mem_pair.mp hb' with rfl | rfl
    · cases hc'
    · exact Or.inl (hawaited ▸ hc')
  sums _ hx := Or.inl hx
  left _ hx := Or.inl hx
  reports _ hr := Or.inl hr

/-- The last step of `main`. -/
theorem Balance.pass (hdue : ∀ c, a.due (p.source.loop v) c = 0)
    (hpending : ∀ c, a.pending c = if c = .main then 1 else 0) :
    Balance p v fin u (u.report .pass) a [] where
  due c := by
    rw [hdue]
    rfl
  pending c := by rw [Run.finished_report, hpending, List.map_nil, List.sum_nil, add_zero]
  sound _ hb := by cases hb
  awaited _ hb := by cases hb
  sums _ hx := Or.inl hx
  left _ hx := Or.inl hx
  reports r hr := by
    rcases List.mem_append.mp hr with hr | hr
    · exact Or.inl hr
    · exact Or.inr (List.mem_singleton.mp hr)

theorem act_balance (h : act p argv0 argc v u a o = some (u', new)) (ha : a.Sound p v fin)
    (hfin : ∃ n, (p.source.loop v).Ends .start n fin) (hleft : ∀ x ∈ u.left, x.2 = 0) :
    Balance p v fin u u' a new := by
  cases a with
  | checkArgs => exact ha.elim
  | fork => exact ha.elim
  | createThread1 =>
      obtain ⟨rfl, rfl⟩ := Prod.mk.inj (Option.some.inj h)
      obtain rfl : p = .probe7Thread := ha
      refine .create (fun c => ?_) (fun c => ?_) hfin (by decide) rfl rfl
      · cases c <;> simp [Act.due]
      · cases c <;> rfl
  | createThread2 =>
      obtain ⟨rfl, rfl⟩ := Prod.mk.inj (Option.some.inj h)
      obtain rfl : p = .probe7Thread := ha
      refine .create (fun c => ?_) (fun c => ?_) hfin (by decide) trivial rfl
      · cases c <;> simp [Act.due]
      · cases c <;> rfl
  | test c l =>
      obtain ⟨hc, n, hends⟩ := ha
      rw [act] at h
      split at h
      · -- another round
        rename_i ht
        obtain ⟨rfl, rfl⟩ := Prod.mk.inj (Option.some.inj h)
        obtain ⟨hl, hends⟩ := hends.left_of_test ht
        refine .one (fun c' => ?_) (fun _ => rfl) ⟨hc, _, hends⟩ (fun _ hc' => by cases hc')
          (fun _ hx => Or.inl hx) rfl rfl
        rw [Act.due, Act.due, hl, Nat.cast_add, Nat.cast_one]
      · -- none is left, and the sum is the last one
        rename_i ht
        obtain ⟨rfl, rfl⟩ := Prod.mk.inj (Option.some.inj h)
        obtain ⟨hl, rfl⟩ := hends.left_of_not_test (Bool.eq_false_iff.mpr ht)
        refine .one (fun c' => ?_) (fun c' => ?_) (sound_after hc)
          (fun c' hc' => Or.inr (p.parties_awaited_after c c' hc')) (fun x hx => ?_) rfl rfl
        · rw [due_after, Act.due, hl, Nat.cast_zero, ite_self]
        · rw [pending_after hc, Act.pending]
        · rcases List.mem_append.mp hx with hx | hx
          · exact Or.inl hx
          · rw [List.mem_singleton.mp hx]
            exact Or.inr rfl
  | add c l =>
      obtain ⟨hc, n, hends⟩ := ha
      obtain ⟨rfl, rfl⟩ := Prod.mk.inj (Option.some.inj h)
      refine .one (fun c' => ?_) (fun _ => rfl) ⟨hc, n, hends⟩ (fun _ hc' => by cases hc')
        (fun _ hx => Or.inl hx) rfl rfl
      rw [Act.due, Act.due, List.count_append, List.count_singleton]
      -- the call is one less to come, for its own context
      by_cases hcc : c = c'
      · subst hcc
        simp only [beq_self_eq_true, if_true]
        omega
      · simp [hcc]
  | leave c =>
      obtain ⟨rfl, rfl⟩ := Prod.mk.inj (Option.some.inj h)
      refine ⟨fun c' => ?_, fun c' => ?_, fun _ hb => (List.not_mem_nil hb).elim,
        fun _ hb => (List.not_mem_nil hb).elim, fun _ hx => Or.inl hx, fun x hx => ?_,
        fun _ hr => Or.inl hr⟩
      · rfl
      · rw [Run.finished_leave u ha, Act.pending, List.map_nil, List.sum_nil, add_zero]
      · rcases List.mem_append.mp hx with hx | hx
        · exact Or.inl hx
        · rw [List.mem_singleton.mp hx]
          exact Or.inr rfl
  | joinThread1 =>
      -- `thread1` is awaited no longer, and `thread2` still is
      obtain ⟨status, _, h⟩ := Option.map_eq_some_iff.mp h
      obtain ⟨rfl, rfl⟩ := Prod.mk.inj h
      refine .one (fun _ => rfl) (fun _ => rfl) trivial (fun c hc => ?_) (fun _ hx => Or.inl hx)
        rfl rfl
      exact Or.inl (List.mem_cons_of_mem _ hc)
  | joinThread2 =>
      obtain ⟨status, _, h⟩ := Option.map_eq_some_iff.mp h
      obtain ⟨rfl, rfl⟩ := Prod.mk.inj h
      exact .one (fun _ => rfl) (fun _ => rfl) trivial (fun _ hc => by cases hc)
        (fun _ hx => Or.inl hx) rfl rfl
  | wait =>
      obtain ⟨status, hst, h⟩ := Option.map_eq_some_iff.mp h
      obtain ⟨rfl, rfl⟩ := Prod.mk.inj h
      -- the child has left by `_exit(0)`
      obtain ⟨l₁, l₂, hl, -⟩ := List.lookup_eq_some_iff.mp hst
      have hmem : (Context.child, status) ∈ u.left := by
        rw [hl]
        exact List.mem_append_cons_self
      obtain rfl : status = 0 := hleft _ hmem
      exact .pass (fun _ => rfl) (fun _ => rfl)
  | reportPass =>
      obtain ⟨rfl, rfl⟩ := Prod.mk.inj (Option.some.inj h)
      exact .pass (fun _ => rfl) (fun _ => rfl)

/-! ## The invariant -/

/-- What holds in every run once the argument is accepted and `fork` has succeeded. -/
structure Good (p : Program) (v : BitVec 32) (fin : Locals) (s : Activations Run Act) : Prop where
  due : ∀ c, (s.shared.calls.count c : Int) + (s.acts.map (Act.due (p.source.loop v) c)).sum =
    (p.entry.map (Act.due (p.source.loop v) c)).sum
  pending : ∀ c, s.shared.finished c + (s.acts.map (Act.pending c)).sum = p.parties c
  sound : ∀ a ∈ s.acts, a.Sound p v fin
  awaited : ∀ a ∈ s.acts, ∀ c ∈ a.awaited, p.parties c = 1
  sums : ∀ x ∈ s.shared.sums, x.2 = fin.sum
  left : ∀ x ∈ s.shared.left, x.2 = 0
  reports : ∀ r ∈ s.shared.reports, r = .pass

variable {s s' : Activations Run Act}

theorem Good.entry (hfin : ∃ n, (p.source.loop v).Ends .start n fin) :
    Good p v fin ⟨.empty, p.entry⟩ where
  due c := by rw [Run.empty, List.count_nil, Nat.cast_zero, zero_add]
  pending c := by
    rw [Program.parties]
    cases c <;> simp [Run.finished, Run.empty]
  sound _ ha := sound_entry hfin ha
  awaited := p.parties_awaited_entry
  sums _ hx := by cases hx
  left _ hx := by cases hx
  reports _ hr := by cases hr

theorem Good.step (h : Good p v fin s) (hfin : ∃ n, (p.source.loop v).Ends .start n fin)
    (hs : Step (system p argv0 argc v) .all s s') : Good p v fin s' := by
  cases hs with
  | @act u before a after o u' new hact _ =>
      have ha : a ∈ before ++ a :: after := mem_acts_iff.mpr (Or.inl rfl)
      have hbal := act_balance hact (h.sound a ha) hfin h.left
      constructor
      · intro c
        have hdue := h.due c
        have hstep := hbal.due c
        rw [sum_step _ before after new a]
        dsimp only at hdue ⊢
        omega
      · intro c
        have hpending := h.pending c
        have hstep := hbal.pending c
        rw [sum_step _ before after new a]
        dsimp only at hpending ⊢
        omega
      · exact forall_acts_step h.sound (fun _ => hbal.sound) fun _ _ hb => hb
      · refine forall_acts_step h.awaited (fun ha' b hb c hc => ?_) fun _ _ hb => hb
        rcases hbal.awaited b hb c hc with hc | hc
        · exact ha' c hc
        · exact hc
      · intro x hx
        exact (hbal.sums x hx).elim (h.sums x) id
      · intro x hx
        exact (hbal.left x hx).elim (h.left x) id
      · intro r hr
        exact (hbal.reports r hr).elim (h.reports r) id
  | @main _ e => exact e.elim

/-! ## No deadlock -/

/-- What can still run a context other than `main` is not blocked. -/
theorem act_enabled {c : Context} (hc : c ≠ .main) (h : a.pending c ≠ 0) (o : Bool) :
    ∃ r, act p argv0 argc v u a o = some r := by
  cases a with
  | createThread1 => exact ⟨_, rfl⟩
  | createThread2 => exact ⟨_, rfl⟩
  | test c' l =>
      rw [act]
      split <;> exact ⟨_, rfl⟩
  | add c' l => exact ⟨_, rfl⟩
  | leave c' => exact ⟨_, rfl⟩
  | checkArgs => exact absurd rfl h
  | fork => exact absurd rfl h
  | _ => exact absurd (if_neg hc) h

/-- What is blocked waits for somebody who has not left. -/
theorem act_blocked (h : act p argv0 argc v u a o = none) :
    ∃ c, c ≠ .main ∧ c ∈ a.awaited ∧ u.left.lookup c = none := by
  cases a with
  | joinThread1 => exact ⟨.thread1, nofun, .head _, Option.map_eq_none_iff.mp h⟩
  | joinThread2 => exact ⟨.thread2, nofun, .head _, Option.map_eq_none_iff.mp h⟩
  | wait => exact ⟨.child, nofun, .head _, Option.map_eq_none_iff.mp h⟩
  | checkArgs =>
      rw [act] at h
      split at h <;> cases h
  | fork =>
      rw [act] at h
      split at h <;> cases h
  | test c l =>
      rw [act] at h
      split at h <;> cases h
  | _ => cases h

theorem finished_of_lookup_eq_none {c : Context} (hc : c ≠ .main) (h : u.left.lookup c = none) :
    u.finished c = 0 := by
  have hcount : (u.left.countP fun x => x.1 = c) = 0 := by
    rw [List.countP_eq_zero]
    intro x hx
    have hne := List.lookup_eq_none_iff.mp h x hx
    rw [bne_iff_ne] at hne
    exact fun heq => hne (of_decide_eq_true heq).symm
  cases c with
  | main => exact (hc rfl).elim
  | _ => exact congrArg Nat.cast hcount

/-- A run of an accepted program can only come to rest when everybody is through. -/
theorem Good.acts_eq_nil (h : Good p v fin s) (hover : Over (system p argv0 argc v) .all s) :
    s.acts = [] := by
  obtain ⟨u, acts⟩ := s
  have hblocked : ∀ a ∈ acts, ∀ o, act p argv0 argc v u a o = none := by
    intro a ha o
    obtain ⟨before, after, rfl⟩ := List.append_of_mem ha
    cases hact : act p argv0 argc v u a o with
    | none => rfl
    | some r => exact (hover _ (.act hact rfl)).elim
  by_contra hne
  obtain ⟨a, ha⟩ := List.exists_mem_of_ne_nil acts hne
  obtain ⟨c, hc, hawaited, hlookup⟩ := act_blocked (hblocked a ha true)
  -- somebody else still has to run the context it waits for, and can
  have hpending := h.pending c
  rw [h.awaited a ha c hawaited, finished_of_lookup_eq_none hc hlookup, zero_add] at hpending
  have hsum : (acts.map (Act.pending c)).sum ≠ 0 := by
    rw [hpending]
    exact one_ne_zero
  obtain ⟨x, hx, hx0⟩ := List.exists_mem_ne_zero_of_sum_ne_zero hsum
  obtain ⟨b, hb, rfl⟩ := List.mem_map.mp hx
  obtain ⟨r, hr⟩ := act_enabled hc hx0 true
  rw [hblocked b hb true] at hr
  cases hr

/-- How such a run ends. -/
theorem Good.at_end (h : Good p v fin s) (hover : Over (system p argv0 argc v) .all s) :
    s.shared.reports = [.pass] ∧
      ∀ c, (s.shared.calls.count c : Int) = (p.entry.map (Act.due (p.source.loop v) c)).sum := by
  have hnil := h.acts_eq_nil hover
  constructor
  · -- `main` has made its report, and it made one
    have hone := h.pending .main
    rw [hnil, p.parties_main, List.map_nil, List.sum_nil, add_zero, Run.finished] at hone
    obtain ⟨r, hr⟩ := List.length_eq_one_iff.mp (Nat.cast_eq_one.mp hone)
    have hpass := h.reports
    rw [hr] at hpass ⊢
    rw [hpass r (.head _)]
  · intro c
    have hdue := h.due c
    rwa [hnil, List.map_nil, List.sum_nil, add_zero] at hdue

theorem due_entry (hends : (p.source.loop v).Ends .start n fin) (c : Context) :
    (p.entry.map (Act.due (p.source.loop v) c)).sum = if c ∈ p.contexts then (n : Int) else 0 := by
  have hl : (p.source.loop v).left .start = n := hends.left_eq
  cases p with
  | probe8Fork => cases c <;> simp [Program.entry, Program.contexts, Act.due, hl]
  | probe7Thread =>
      change ([Act.createThread1].map _).sum = if c ∈ [Context.thread1, .thread2] then _ else _
      cases c <;> simp [Act.due, hl]
  | _ =>
      change ([Act.test .main .start].map _).sum = if c ∈ [Context.main] then _ else _
      cases c <;> simp [Act.due, hl]

end Books

end Probeme

end UprobeTests
