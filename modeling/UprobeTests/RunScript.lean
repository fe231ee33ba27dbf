/-
  UprobeTests.RunScript

  runtest.sh and the test program it starts, as two processes that take their
  steps in any order.  The program stops itself in `wait_for_kthread`; the
  script loads the module, continues the program and waits for its end.  All
  there is between the start of the program and the loading is a `sleep 1`, so
  the order of the stop and of the SIGCONT is left open here.

  Every run is finite.  No run makes a probed call before the module is in, if
  it ever is; and the script waits for ever exactly when it sent the SIGCONT
  before the program had stopped itself (`runtest_ends`).
-/

import Mathlib.Logic.Relation
import Mathlib.Order.WellFounded
import Mathlib.Tactic.Tauto

namespace UprobeTests.RunScript

/-! ## The two processes -/

/-- What the script finds. -/
structure Setup where
  /-- `$#` -/
  argc : Nat
  kmod : String
  /-- `fgrep -qw $kmod /proc/modules` -/
  loaded : Bool
  /-- the result of `sbin/rmmod $kmod`, a path below the test's directory -/
  rmmod : Bool
  /-- there is a program to run, and it accepts its arguments -/
  starts : Bool
  /-- the probed calls the program makes before it ends -/
  calls : Nat
deriving DecidableEq, Repr

/-- What the script does next. -/
inductive Script where
  | checkParameters
  | unload
  | spawn
  | insmod
  | cont
  | wait
  /-- `kill -s SIGCONT $PID` after a failed insmod -/
  | contFailed
  /-- `kill -s SIGKILL $PID` after a failed insmod -/
  | killFailed
  | done (code : Nat)
deriving DecidableEq, Repr

/-- Where the program is. -/
inductive Proc where
  | unborn
  /-- in front of the check of `argc` and of the numbers -/
  | start
  /-- in front of `kill(getpid(),SIGSTOP)` -/
  | waitForKthread
  | stopped
  /-- behind `wait_for_kthread`, with `n` probed calls to go -/
  | body (n : Nat)
  | gone
deriving DecidableEq, Repr

/-- What the script echoes. -/
inductive Line where
  | insufficientParameters
  | usage
  | didNotUnload (kmod : String)
  | pidIs
  | cannotInsert (kmod : String)
  | refer
deriving DecidableEq, Repr

def Line.text : Line → String
  | insufficientParameters => "**Error** - Insufficient parameters"
  | usage => "Usage: $0 <dir name> <testprg> <module-name> <no of args to testprg> " ++
      "<args to testprg> <args to module>"
  | didNotUnload kmod => "**Error** - Module " ++ kmod ++ " did not unload"
  | pidIs => "pid is $PID"
  | cannotInsert kmod => "**Error** - Cannot insert module " ++ kmod
  | refer => "Refer /var/log/messages"

def Line.isError : Line → Bool
  | insufficientParameters | didNotUnload _ | cannotInsert _ => true
  | usage | pidIs | refer => false

/-- What has happened, for the statements about the order. -/
inductive Event where
  /-- the program has stopped itself -/
  | stop
  | sigcont
  /-- the module is in -/
  | inserted
  /-- the program has made a probed call -/
  | call
deriving DecidableEq, Repr

structure State where
  script : Script
  proc : Proc
  /-- a SIGKILL is on its way to the program -/
  killed : Bool
  out : List Line
  log : List Event
deriving DecidableEq, Repr

def init : State := ⟨.checkParameters, .unborn, false, [], []⟩

section Steps

variable (c : Setup)

/-- SIGCONT lets a stopped process go on, and means nothing to any other. -/
def sigcont : Proc → Proc
  | .stopped => .body c.calls
  | p => p

/-- SIGKILL: a stopped process does not run again; one that runs may do so for
    a while. -/
def State.sigkill (s : State) : State :=
  match s.proc with
  | .stopped | .gone => { s with proc := .gone }
  | _ => { s with killed := true }

/-- The next command of the script; `o` is the result of a command that the
    state does not determine. -/
def scriptStep (s : State) (o : Bool) : Option State :=
  match s.script with
  | .checkParameters =>
      if c.argc < 3 then
        some { s with script := .done 1, out := s.out ++ [.insufficientParameters, .usage] }
      else some { s with script := .unload }
  | .unload =>
      -- `fgrep .. && ! sbin/rmmod ..` is 0 when the module is there and stays
      if c.loaded && !c.rmmod then
        some { s with script := .done 1, out := s.out ++ [.didNotUnload c.kmod] }
      else some { s with script := .spawn }
  | .spawn => some { s with script := .insmod, proc := .start, out := s.out ++ [.pidIs] }
  | .insmod =>
      if o then some { s with script := .cont, log := s.log ++ [.inserted] }
      else some { s with script := .contFailed, out := s.out ++ [.cannotInsert c.kmod, .refer] }
  | .cont =>
      -- a program that has ended may or may not be there to be signalled
      if s.proc = .gone ∧ o = false then some { s with script := .done 0 }
      else some { s with
        script := .wait
        proc := sigcont c s.proc
        log := s.log ++ [.sigcont] }
  | .wait => if s.proc = .gone then some { s with script := .done 0 } else none
  | .contFailed =>
      some { s with
        script := .killFailed
        proc := sigcont c s.proc
        log := s.log ++ [.sigcont] }
  | .killFailed => some { s.sigkill with script := .done 1 }
  | .done _ => none

/-- The next step of the program.  One that is to be killed is, sooner or later,
    as `o` says, and does not stop before. -/
def progStep (s : State) (o : Bool) : Option State :=
  match s.proc with
  | .unborn | .stopped | .gone => none
  | .start =>
      if s.killed && o || !c.starts then some { s with proc := .gone }
      else some { s with proc := .waitForKthread }
  | .waitForKthread =>
      if s.killed then some { s with proc := .gone }
      else some { s with proc := .stopped, log := s.log ++ [.stop] }
  | .body 0 => some { s with proc := .gone }
  | .body (n + 1) =>
      if s.killed && o then some { s with proc := .gone }
      else some { s with proc := .body n, log := s.log ++ [.call] }

/-- One step of either. -/
inductive Step : State → State → Prop where
  | script {s s'} (o : Bool) (h : scriptStep c s o = some s') : Step s s'
  | prog {s s'} (o : Bool) (h : progStep c s o = some s') : Step s s'

def Reachable (s : State) : Prop := Relation.ReflTransGen (Step c) init s

/-- Nothing happens any more. -/
def AtRest (s : State) : Prop := ∀ s', ¬ Step c s s'

end Steps

/-- The SIGCONT came before the stop. -/
def Early (log : List Event) : Prop :=
  ∃ before after, log = before ++ .sigcont :: after ∧ .stop ∈ after

variable {c : Setup} {s s' : State}

@[simp] theorem sigcont_eq_unborn_iff {p : Proc} : sigcont c p = .unborn ↔ p = .unborn := by
  cases p <;> simp [sigcont]

@[simp] theorem sigcont_eq_gone_iff {p : Proc} : sigcont c p = .gone ↔ p = .gone := by
  cases p <;> simp [sigcont]

@[simp] theorem sigcont_ne_stopped {p : Proc} : sigcont c p ≠ .stopped := by
  cases p <;> simp [sigcont]

/-! ## Every run is finite -/

/-- The steps that are left of the script, and of a program it will start. -/
def Script.left (c : Setup) : Script → Nat
  | .checkParameters => c.calls + 10
  | .unload => c.calls + 9
  | .spawn => c.calls + 8
  | .insmod => 3
  | .cont | .contFailed => 2
  | .wait | .killFailed => 1
  | .done _ => 0

/-- The steps that are left of the program. -/
def Proc.left (c : Setup) : Proc → Nat
  | .unborn => 0
  | .start => c.calls + 4
  | .waitForKthread => c.calls + 3
  | .stopped => c.calls + 2
  | .body n => n + 1
  | .gone => 0

def State.left (c : Setup) (s : State) : Nat := s.script.left c + s.proc.left c

theorem left_sigcont_le (p : Proc) : (sigcont c p).left c ≤ p.left c := by
  cases p with
  | stopped =>
      simp only [sigcont, Proc.left]
      omega
  | _ => exact Nat.le_refl _

/-! ## What a step can be -/

/-- The steps, with the states before and after written out. -/
inductive Move (c : Setup) : State → State → Prop where
  | refuse {i p k out log} (lines : List Line) (herror : lines.any Line.isError = true)
      (hi : i = .checkParameters ∧ c.argc < 3 ∨ i = .unload ∧ c.loaded = true ∧ c.rmmod = false) :
      Move c ⟨i, p, k, out, log⟩ ⟨.done 1, p, k, out ++ lines, log⟩
  | parametersOk {p k out log} (h : 3 ≤ c.argc) :
      Move c ⟨.checkParameters, p, k, out, log⟩ ⟨.unload, p, k, out, log⟩
  | unloaded {p k out log} (h : c.loaded = true → c.rmmod = true) :
      Move c ⟨.unload, p, k, out, log⟩ ⟨.spawn, p, k, out, log⟩
  | spawned {p k out log} :
      Move c ⟨.spawn, p, k, out, log⟩ ⟨.insmod, .start, k, out ++ [.pidIs], log⟩
  | inserted {p k out log} :
      Move c ⟨.insmod, p, k, out, log⟩ ⟨.cont, p, k, out, log ++ [.inserted]⟩
  | notInserted {p k out log} :
      Move c ⟨.insmod, p, k, out, log⟩
        ⟨.contFailed, p, k, out ++ [.cannotInsert c.kmod, .refer], log⟩
  | tooLate {k out log} : Move c ⟨.cont, .gone, k, out, log⟩ ⟨.done 0, .gone, k, out, log⟩
  | continued {p k out log} :
      Move c ⟨.cont, p, k, out, log⟩ ⟨.wait, sigcont c p, k, out, log ++ [.sigcont]⟩
  | waited {k out log} : Move c ⟨.wait, .gone, k, out, log⟩ ⟨.done 0, .gone, k, out, log⟩
  | continuedFailed {p k out log} :
      Move c ⟨.contFailed, p, k, out, log⟩
        ⟨.killFailed, sigcont c p, k, out, log ++ [.sigcont]⟩
  | killedAtRest {p k out log} (hp : p = .stopped ∨ p = .gone) :
      Move c ⟨.killFailed, p, k, out, log⟩ ⟨.done 1, .gone, k, out, log⟩
  | killedRunning {p k out log} (hp : p ≠ .stopped ∧ p ≠ .gone) :
      Move c ⟨.killFailed, p, k, out, log⟩ ⟨.done 1, p, true, out, log⟩
  | notStarted {i k out log} (h : k = true ∨ c.starts = false) :
      Move c ⟨i, .start, k, out, log⟩ ⟨i, .gone, k, out, log⟩
  | started {i k out log} (h : c.starts = true) :
      Move c ⟨i, .start, k, out, log⟩ ⟨i, .waitForKthread, k, out, log⟩
  | diesWaiting {i out log} :
      Move c ⟨i, .waitForKthread, true, out, log⟩ ⟨i, .gone, true, out, log⟩
  | stops {i out log} :
      Move c ⟨i, .waitForKthread, false, out, log⟩ ⟨i, .stopped, false, out, log ++ [.stop]⟩
  | ends {i k out log} : Move c ⟨i, .body 0, k, out, log⟩ ⟨i, .gone, k, out, log⟩
  | dies {i n out log} : Move c ⟨i, .body (n + 1), true, out, log⟩ ⟨i, .gone, true, out, log⟩
  | calls {i n k out log} :
      Move c ⟨i, .body (n + 1), k, out, log⟩ ⟨i, .body n, k, out, log ++ [.call]⟩

theorem move_of_script {o : Bool} (h : scriptStep c s o = some s') : Move c s s' := by
  obtain ⟨script, proc, killed, out, log⟩ := s
  cases script with
  | checkParameters =>
      simp only [scriptStep] at h
      split at h
      next hlt =>
        obtain rfl := Option.some.inj h
        exact .refuse _ rfl (Or.inl ⟨rfl, hlt⟩)
      next hge =>
        obtain rfl := Option.some.inj h
        exact .parametersOk (Nat.le_of_not_lt hge)
  | unload =>
      simp only [scriptStep, Bool.and_eq_true, Bool.not_eq_true'] at h
      split at h
      next hin =>
        obtain rfl := Option.some.inj h
        exact .refuse _ rfl (Or.inr ⟨rfl, hin⟩)
      next hout =>
        obtain rfl := Option.some.inj h
        refine .unloaded fun hloaded => ?_
        by_contra hrmmod
        exact hout ⟨hloaded, Bool.not_eq_true _ ▸ hrmmod⟩
  | spawn =>
      obtain rfl := Option.some.inj h
      exact .spawned
  | insmod =>
      simp only [scriptStep] at h
      split at h
      · obtain rfl := Option.some.inj h
        exact .inserted
      · obtain rfl := Option.some.inj h
        exact .notInserted
  | cont =>
      simp only [scriptStep] at h
      split at h
      next hgone =>
        obtain ⟨rfl, -⟩ := hgone
        obtain rfl := Option.some.inj h
        exact .tooLate
      next =>
        obtain rfl := Option.some.inj h
        exact .continued
  | wait =>
      simp only [scriptStep] at h
      split at h
      next hgone =>
        subst hgone
        obtain rfl := Option.some.inj h
        exact .waited
      next => cases h
  | contFailed =>
      obtain rfl := Option.some.inj h
      exact .continuedFailed
  | killFailed =>
      obtain rfl := Option.some.inj h
      cases proc with
      | stopped => exact .killedAtRest (Or.inl rfl)
      | gone => exact .killedAtRest (Or.inr rfl)
      | _ => exact .killedRunning ⟨nofun, nofun⟩
  | done code => cases h

theorem move_of_prog {o : Bool} (h : progStep c s o = some s') : Move c s s' := by
  obtain ⟨script, proc, killed, out, log⟩ := s
  cases proc with
  | unborn | stopped | gone => cases h
  | start =>
      simp only [progStep, Bool.or_eq_true, Bool.and_eq_true, Bool.not_eq_true'] at h
      split at h
      next hnot =>
        obtain rfl := Option.some.inj h
        exact .notStarted (hnot.imp_left And.left)
      next hnot =>
        obtain rfl := Option.some.inj h
        exact .started (Bool.eq_true_of_not_eq_false fun hs => hnot (Or.inr hs))
  | waitForKthread =>
      cases killed with
      | true =>
          obtain rfl := Option.some.inj h
          exact .diesWaiting
      | false =>
          obtain rfl := Option.some.inj h
          exact .stops
  | body n =>
      cases n with
      | zero =>
          obtain rfl := Option.some.inj h
          exact .ends
      | succ n =>
          simp only [progStep, Bool.and_eq_true] at h
          split at h
          next hkilled =>
            obtain ⟨rfl, -⟩ := hkilled
            obtain rfl := Option.some.inj h
            exact .dies
          next =>
            obtain rfl := Option.some.inj h
            exact .calls

theorem move_of_step (h : Step c s s') : Move c s s' := by
  cases h with
  | script o h => exact move_of_script h
  | prog o h => exact move_of_prog h

theorem left_lt_of_move (h : Move c s s') : s'.left c < s.left c := by
  cases h with
  | refuse lines herror hi =>
      rcases hi with ⟨rfl, -⟩ | ⟨rfl, -⟩ <;> simp [State.left, Script.left]
  | @continued p _ _ _ | @continuedFailed p _ _ _ =>
      have := left_sigcont_le (c := c) p
      simp only [State.left, Script.left]
      omega
  | killedAtRest hp =>
      have hgone : Proc.gone.left c = 0 := rfl
      simp only [State.left, Script.left, hgone]
      omega
  | _ =>
      simp only [State.left, Script.left, Proc.left]
      omega

theorem terminates (c : Setup) : WellFounded fun s' s => Step c s s' := by
  apply Subrelation.wf (r := fun s' s => s'.left c < s.left c)
  · exact fun h => left_lt_of_move (move_of_step h)
  · exact (measure (State.left c)).wf

/-! ## What holds in every state -/

theorem Reachable.invariant {I : State → Prop} (h : Reachable c s) (hinit : I init)
    (hmove : ∀ s s', I s → Move c s s' → I s') : I s := by
  induction h with
  | refl => exact hinit
  | tail _ hs ih => exact hmove _ _ ih (move_of_step hs)

/-- In front of its first signal, when there is a program already. -/
def Script.Loading (i : Script) : Prop := i = .insmod ∨ i = .cont ∨ i = .contFailed

/-- In front of the start of the program. -/
def Script.Checking (i : Script) : Prop := i = .checkParameters ∨ i = .unload ∨ i = .spawn

/-- What the position of the script says about the program and the history. -/
structure ScriptKnows (s : State) : Prop where
  checking : s.script.Checking → s.proc = .unborn ∧ s.log = []
  unborn : s.proc = .unborn → s.script.Checking ∨ s.script = .done 1
  sigcont : .sigcont ∈ s.log →
    ¬ s.script.Checking ∧ ¬ s.script.Loading
  inserted : .inserted ∈ s.log ↔ s.script = .cont ∨ s.script = .wait ∨ s.script = .done 0
  wait : s.script = .wait → .sigcont ∈ s.log
  killed : s.killed = true → s.script = .done 1 ∧ s.proc ≠ .stopped
  done_zero : s.script = .done 0 → s.proc = .gone
  done_one : s.script = .done 1 → s.proc = .unborn ∨ s.proc = .gone ∨ s.killed = true
  done_le : ∀ code, s.script = .done code → code = 0 ∨ code = 1
  errors : s.out.any Line.isError = true ↔
    s.script = .contFailed ∨ s.script = .killFailed ∨ s.script = .done 1

theorem scriptKnows_move (h : ScriptKnows s) (hmove : Move c s s') : ScriptKnows s' := by
  obtain ⟨hchecking, hunborn, hsigcont, hinserted, hwait, hkilled, hzero, hone, hle, herrors⟩ := h
  cases hmove with
  | @refuse i _ _ _ _ lines herror hi =>
      -- there is no program yet
      have hi' : i.Checking := hi.imp And.left fun h => Or.inl h.1
      obtain ⟨hproc, hlog⟩ := hchecking hi'
      constructor <;> simp_all [Script.Checking, Script.Loading, -List.any_eq_true]
  | _ => constructor <;> simp_all [Script.Checking, Script.Loading, Line.isError, -List.any_eq_true]

theorem scriptKnows_init : ScriptKnows init := by
  constructor <;> simp [init, Script.Checking, Script.Loading]

/-- What the position of the program says about the history. -/
structure ProcKnows (c : Setup) (p : Proc) (log : List Event) : Prop where
  early : p = .unborn ∨ p = .start ∨ p = .waitForKthread → .stop ∉ log ∧ .call ∉ log
  stopped : p = .stopped → .stop ∈ log ∧ .call ∉ log
  body : ∀ n, p = .body n → .stop ∈ log ∧ .sigcont ∈ log ∧ log.count .call + n = c.calls
  starts : p = .unborn ∨ p = .start ∨ p = .gone ∨ c.starts = true

theorem ProcKnows.sigcont {p : Proc} {log : List Event} (h : ProcKnows c p log) :
    ProcKnows c (sigcont c p) (log ++ [.sigcont]) := by
  obtain ⟨hearly, hstopped, hbody, hstarts⟩ := h
  cases p with
  | stopped =>
      obtain ⟨hstop, hcall⟩ := hstopped rfl
      have hcount : log.count .call = 0 := List.count_eq_zero.mpr hcall
      constructor <;> simp_all [RunScript.sigcont]
  | _ => constructor <;> simp_all [RunScript.sigcont]

theorem procKnows_move (hs : ScriptKnows s) (h : ProcKnows c s.proc s.log)
    (hmove : Move c s s') : ProcKnows c s'.proc s'.log := by
  cases hmove with
  | continued => exact h.sigcont
  | continuedFailed => exact h.sigcont
  | spawned =>
      obtain ⟨-, hlog⟩ := hs.checking (Or.inr (Or.inr rfl))
      constructor <;> simp_all
  | @calls _ n _ _ log =>
      obtain ⟨hstop, hsigcont, hcount⟩ := h.body (n + 1) rfl
      have hcount' : log.count Event.call + 1 + n = c.calls := by
        rw [← hcount, Nat.add_assoc, Nat.add_comm 1 n]
      have hstarts := h.starts
      constructor <;> simp_all
  | _ =>
      obtain ⟨hearly, hstopped, hbody, hstarts⟩ := h
      constructor <;> simp_all

/-! ## The order of what happens -/

/-- One more event splits the history where it was split, or is itself the last one. -/
theorem snoc_eq_split {log before after : List Event} {e e' : Event}
    (h : log ++ [e] = before ++ e' :: after) :
    (∃ after', after = after' ++ [e] ∧ log = before ++ e' :: after') ∨
      (after = [] ∧ e' = e ∧ log = before) := by
  rcases List.eq_nil_or_concat after with rfl | ⟨after', x, rfl⟩
  · obtain ⟨hlog, he⟩ := List.append_inj' h rfl
    exact Or.inr ⟨rfl, (List.cons.inj he).1.symm, hlog⟩
  · rw [List.concat_eq_append, ← List.cons_append, ← List.append_assoc] at h
    obtain ⟨hlog, he⟩ := List.append_inj' h rfl
    rw [List.concat_eq_append, ← (List.cons.inj he).1]
    exact Or.inl ⟨after', rfl, hlog⟩

theorem early_snoc_iff {log : List Event} {e : Event} :
    Early (log ++ [e]) ↔ Early log ∨ (e = .stop ∧ .sigcont ∈ log) := by
  constructor
  · rintro ⟨before, after, hlog, hstop⟩
    rcases snoc_eq_split hlog with ⟨after', rfl, rfl⟩ | ⟨rfl, -⟩
    · rcases List.mem_append.mp hstop with h | h
      · exact Or.inl ⟨before, after', rfl, h⟩
      · exact Or.inr ⟨(List.mem_singleton.mp h).symm, by simp⟩
    · cases hstop
  · rintro (⟨before, after, rfl, hstop⟩ | ⟨rfl, hsigcont⟩)
    · exact ⟨before, after ++ [e], by simp, List.mem_append_left _ hstop⟩
    · obtain ⟨before, after, rfl⟩ := List.append_of_mem hsigcont
      exact ⟨before, after ++ [.stop], by simp, by simp⟩

theorem sigcont_mem_of_early {log : List Event} (h : Early log) : .sigcont ∈ log := by
  obtain ⟨before, after, rfl, -⟩ := h
  simp

/-- A SIGCONT that came too early leaves the program stopped, unless it is killed. -/
structure EarlyKnows (s : State) : Prop where
  of_stopped : s.proc = .stopped → .sigcont ∈ s.log → Early s.log
  of_early : Early s.log → s.proc = .stopped ∨ (s.proc = .gone ∧ s.script = .done 1)

theorem earlyKnows_move (hs : ScriptKnows s) (h : EarlyKnows s) (hmove : Move c s s') :
    EarlyKnows s' := by
  obtain ⟨hstopped, hearly⟩ := h
  have hnone (hi : s.script.Checking ∨ s.script.Loading) : ¬ Early s.log := by
    intro hlog
    obtain ⟨hchecking, hloading⟩ := hs.sigcont (sigcont_mem_of_early hlog)
    exact hi.elim hchecking hloading
  cases hmove with
  | refuse lines herror hi =>
      have hlog := hnone (Or.inl (hi.imp And.left fun h => Or.inl h.1))
      exact ⟨hstopped, fun h => absurd h hlog⟩
  | _ => constructor <;> simp_all [early_snoc_iff, Script.Checking, Script.Loading]

/-- Every probed call comes after the stop and the SIGCONT, and the module does
    not come in after it. -/
def CallsLate (log : List Event) : Prop :=
  ∀ before after, log = before ++ .call :: after →
    .stop ∈ before ∧ .sigcont ∈ before ∧ .inserted ∉ after

theorem callsLate_snoc {log : List Event} {e : Event} (h : CallsLate log)
    (hcall : e = .call → .stop ∈ log ∧ .sigcont ∈ log)
    (hinserted : e = .inserted → .call ∉ log) : CallsLate (log ++ [e]) := by
  intro before after hlog
  rcases snoc_eq_split hlog with ⟨after', rfl, rfl⟩ | ⟨rfl, rfl, rfl⟩
  · obtain ⟨hstop, hsigcont, hafter⟩ := h before after' rfl
    refine ⟨hstop, hsigcont, ?_⟩
    intro hmem
    rcases List.mem_append.mp hmem with hmem | hmem
    · exact hafter hmem
    · exact hinserted (List.mem_singleton.mp hmem).symm (by simp)
  · obtain ⟨hstop, hsigcont⟩ := hcall rfl
    exact ⟨hstop, hsigcont, List.not_mem_nil⟩

theorem sigcont_mem_of_call {log : List Event} (h : CallsLate log) (hcall : .call ∈ log) :
    .sigcont ∈ log := by
  obtain ⟨before, after, rfl⟩ := List.append_of_mem hcall
  exact List.mem_append_left _ (h before after rfl).2.1

theorem callsLate_move (hs : ScriptKnows s) (hp : ProcKnows c s.proc s.log)
    (h : CallsLate s.log) (hmove : Move c s s') : CallsLate s'.log := by
  cases hmove with
  | inserted =>
      apply callsLate_snoc (e := .inserted) h nofun
      intro _ hcall
      exact (hs.sigcont (sigcont_mem_of_call h hcall)).2 (Or.inl rfl)
  | continued | continuedFailed | stops => exact callsLate_snoc h nofun nofun
  | calls =>
      obtain ⟨hstop, hsigcont, -⟩ := hp.body _ rfl
      exact callsLate_snoc h (fun _ => ⟨hstop, hsigcont⟩) nofun
  | _ => exact h

/-- How many probed calls a program has made that ended by itself. -/
def CallsMade (c : Setup) (s : State) : Prop :=
  s.proc = .gone → s.script ≠ .done 1 → s.log.count .call = if c.starts then c.calls else 0

theorem callsMade_move (hs : ScriptKnows s) (hp : ProcKnows c s.proc s.log)
    (h : CallsMade c s) (hmove : Move c s s') : CallsMade c s' := by
  cases hmove with
  | notStarted hnot =>
      intro _ hi
      have hstarts := hnot.resolve_left fun hk => hi (hs.killed hk).1
      rw [if_neg (by simp [hstarts])]
      exact List.count_eq_zero.mpr (hp.early (Or.inr (Or.inl rfl))).2
  | ends =>
      intro _ _
      obtain ⟨-, -, hcount⟩ := hp.body 0 rfl
      have hstarts := hp.starts
      simp_all
  | diesWaiting | dies => exact fun _ hi => absurd (hs.killed rfl).1 hi
  | _ => simp_all [CallsMade]

/-! ## Computing runs -/

/-- The steps one after the other: of the script or not, and with which result. -/
def exec (c : Setup) (s : State) : List (Bool × Bool) → Option State
  | [] => some s
  | (script, o) :: steps =>
      (if script then scriptStep c s o else progStep c s o).bind fun s => exec c s steps

theorem steps_of_exec {steps : List (Bool × Bool)} (h : exec c s steps = some s') :
    Relation.ReflTransGen (Step c) s s' := by
  induction steps generalizing s with
  | nil =>
      obtain rfl : s = s' := Option.some.inj h
      exact .refl
  | cons step steps ih =>
      obtain ⟨script, o⟩ := step
      obtain ⟨s₁, hstep, hrest⟩ := Option.bind_eq_some_iff.mp h
      cases script with
      | true => exact .head (.script o hstep) (ih hrest)
      | false => exact .head (.prog o hstep) (ih hrest)

theorem atRest_iff :
    AtRest c s ↔ ∀ o, scriptStep c s o = none ∧ progStep c s o = none := by
  constructor
  · intro h o
    exact ⟨Option.eq_none_iff_forall_ne_some.mpr fun s' hs => h s' (.script o hs),
      Option.eq_none_iff_forall_ne_some.mpr fun s' hs => h s' (.prog o hs)⟩
  · intro h s' hs
    cases hs with
    | script o hs => rw [(h o).1] at hs; cases hs
    | prog o hs => rw [(h o).2] at hs; cases hs

instance : Decidable (AtRest c s) := decidable_of_iff' _ atRest_iff

/-- Two probed calls; the program stops while the script sleeps, and makes them
    once it is continued. -/
def ordinarySetup : Setup := ⟨7, "kthread", false, false, true, 2⟩

def ordinaryEnd : State :=
  ⟨.done 0, .gone, false, [.pidIs], [.stop, .inserted, .sigcont, .call, .call]⟩

theorem reachable_ordinaryEnd : Reachable ordinarySetup ordinaryEnd := by
  have hrun : exec ordinarySetup init [(true, true), (true, true), (true, true), (false, true),
      (false, true), (true, true), (true, true), (false, true), (false, true), (false, true),
      (true, true)] = some ordinaryEnd := by decide
  exact steps_of_exec hrun

/-! ## The runs -/

/-- The invariants together. -/
structure Inv (c : Setup) (s : State) : Prop where
  script : ScriptKnows s
  proc : ProcKnows c s.proc s.log
  early : EarlyKnows s
  late : CallsLate s.log
  made : CallsMade c s

theorem Reachable.inv (h : Reachable c s) : Inv c s := by
  apply h.invariant (I := Inv c)
  · refine ⟨scriptKnows_init, ?_, ?_, ?_, nofun⟩
    · constructor <;> simp [init]
    · constructor <;> simp [init, Early]
    · intro before after hlog
      simp [init] at hlog
  · rintro s s' ⟨hs, hp, he, hl, hm⟩ hmove
    exact ⟨scriptKnows_move hs hmove, procKnows_move hs hp hmove, earlyKnows_move hs he hmove,
      callsLate_move hs hp hl hmove, callsMade_move hs hp hm hmove⟩

/-- No probed call is made before the program has stopped and been continued, and
    none before the module is in, when it comes in at all. -/
theorem calls_after_insmod (c : Setup) (s : State) (h : Reachable c s)
    {before after : List Event} (hlog : s.log = before ++ .call :: after) :
    .stop ∈ before ∧ .sigcont ∈ before ∧ (.inserted ∈ s.log → .inserted ∈ before) := by
  obtain ⟨hstop, hsigcont, hafter⟩ := h.inv.late before after hlog
  refine ⟨hstop, hsigcont, ?_⟩
  rw [hlog]
  intro hmem
  rcases List.mem_append.mp hmem with hmem | hmem
  · exact hmem
  · exact absurd ((List.mem_cons.mp hmem).resolve_left nofun) hafter

theorem calls_after_insmod_ordinary : .inserted ∈ [Event.stop, .inserted, .sigcont, .call] :=
  (calls_after_insmod ordinarySetup ordinaryEnd reachable_ordinaryEnd rfl).2.2 (by decide)

theorem script_of_none (h : scriptStep c s true = none) :
    (∃ code, s.script = .done code) ∨ (s.script = .wait ∧ s.proc ≠ .gone) := by
  obtain ⟨script, proc, killed, out, log⟩ := s
  cases script with
  | checkParameters | unload =>
      simp only [scriptStep] at h
      split at h <;> cases h
  | spawn | insmod | contFailed | killFailed => cases h
  | cont =>
      simp only [scriptStep, Bool.true_eq_false, and_false, if_false] at h
      cases h
  | wait =>
      simp only [scriptStep] at h
      split at h
      next => cases h
      next hgone => exact Or.inr ⟨rfl, hgone⟩
  | done code => exact Or.inl ⟨code, rfl⟩

theorem proc_of_none (h : progStep c s true = none) :
    s.proc = .unborn ∨ s.proc = .stopped ∨ s.proc = .gone := by
  obtain ⟨script, proc, killed, out, log⟩ := s
  cases proc with
  | unborn => exact Or.inl rfl
  | stopped => exact Or.inr (Or.inl rfl)
  | gone => exact Or.inr (Or.inr rfl)
  | start | waitForKthread =>
      simp only [progStep] at h
      split at h <;> cases h
  | body n =>
      cases n with
      | zero => cases h
      | succ n =>
          simp only [progStep] at h
          split at h <;> cases h

/-- Where the two are when neither can go on. -/
theorem atRest_cases (h : Inv c s) (hrest : AtRest c s) :
    (∃ code, s.script = .done code ∧ (s.proc = .unborn ∨ s.proc = .gone)) ∨
      (s.script = .wait ∧ s.proc = .stopped) := by
  have hi := script_of_none (Option.eq_none_iff_forall_ne_some.mpr
    fun s' hs => hrest s' (.script true hs))
  have hp := proc_of_none (Option.eq_none_iff_forall_ne_some.mpr
    fun s' hs => hrest s' (.prog true hs))
  rcases hi with ⟨code, hcode⟩ | ⟨hwait, hgone⟩
  · refine Or.inl ⟨code, hcode, ?_⟩
    rcases h.script.done_le code hcode with rfl | rfl
    · exact Or.inr (h.script.done_zero hcode)
    · rcases h.script.done_one hcode with hproc | hproc | hkilled
      · exact Or.inl hproc
      · exact Or.inr hproc
      · -- a program that is to be killed is not stopped
        exact hp.imp_right fun hp => hp.resolve_left (h.script.killed hkilled).2
  · refine Or.inr ⟨hwait, ?_⟩
    rcases hp with hp | hp | hp
    · have hchecking := h.script.unborn hp
      simp_all [Script.Checking]
    · exact hp
    · exact absurd hp hgone

/-- Every run ends.  Where it does, the script has failed, with an error line,
    exactly when the module did not come in; it waits for ever, with the program
    stopped, exactly when the module came in and the SIGCONT was sent before the
    program stopped; and otherwise it succeeds, after all the probed calls of the
    program. -/
theorem runtest_ends (c : Setup) :
    WellFounded (fun s' s => Step c s s') ∧
    ∀ s, Reachable c s → AtRest c s →
      (s.script = .done 1 ↔ .inserted ∉ s.log) ∧
      (s.script = .done 1 ↔ s.out.any Line.isError = true) ∧
      (s.script = .wait ↔ .inserted ∈ s.log ∧ Early s.log) ∧
      (s.script = .done 0 ↔ .inserted ∈ s.log ∧ ¬ Early s.log) ∧
      (s.script = .wait → s.proc = .stopped) ∧
      (s.script ≠ .wait → s.proc = .unborn ∨ s.proc = .gone) ∧
      (s.script = .done 0 → s.log.count .call = if c.starts then c.calls else 0) := by
  refine ⟨terminates c, ?_⟩
  intro s hreach hrest
  have h := hreach.inv
  have hinserted := h.script.inserted
  have herrors := h.script.errors
  rcases atRest_cases h hrest with ⟨code, hcode, hproc⟩ | ⟨hwait, hstopped⟩
  · -- a program that is gone was not stopped too late, when the module is in
    have hearly : s.script ≠ .done 1 → ¬ Early s.log := by
      intro hi hlog
      rcases h.early.of_early hlog with hs | ⟨-, hs⟩
      · rcases hproc with hp | hp <;> rw [hp] at hs <;> cases hs
      · exact hi hs
    rcases h.script.done_le code hcode with rfl | rfl
    · have hmade := h.made (h.script.done_zero hcode)
      simp_all [-List.any_eq_true]
    · simp_all [-List.any_eq_true]
  · have hlog : Early s.log := h.early.of_stopped hstopped (h.script.wait hwait)
    simp_all [-List.any_eq_true]

theorem runtest_ends_ordinary : .inserted ∈ ordinaryEnd.log ∧ ¬ Early ordinaryEnd.log :=
  ((runtest_ends ordinarySetup).2 ordinaryEnd reachable_ordinaryEnd (by decide)).2.2.2.1.mp rfl

/-! ## When a run can hang -/

/-- The script gets as far as starting the program. -/
def Spawns (c : Setup) : Prop := 3 ≤ c.argc ∧ (c.loaded = true → c.rmmod = true)

/-- What the script has checked where it stands. -/
structure Checked (c : Setup) (s : State) : Prop where
  unload : s.script = .unload → 3 ≤ c.argc
  spawns : ¬ (s.script = .checkParameters ∨ s.script = .unload ∨ s.script = .done 1) → Spawns c

theorem checked_move (h : Checked c s) (hmove : Move c s s') : Checked c s' := by
  obtain ⟨hunload, hspawns⟩ := h
  cases hmove with
  | unloaded hrmmod => exact ⟨nofun, fun _ => ⟨hunload rfl, hrmmod⟩⟩
  | _ => constructor <;> simp_all

/-- The schedule in which the script is past its SIGCONT before the program has
    come to stop itself. -/
def hurriedRun : List (Bool × Bool) :=
  [(true, true), (true, true), (true, true), (true, true), (true, true),
    (false, true), (false, true)]

theorem exec_hurriedRun (h : Spawns c) (hstarts : c.starts = true) :
    exec c init hurriedRun =
      some ⟨.wait, .stopped, false, [.pidIs], [.inserted, .sigcont, .stop]⟩ := by
  obtain ⟨hargc, hrmmod⟩ := h
  have hlt : ¬ c.argc < 3 := Nat.not_lt.mpr hargc
  have hunload : (c.loaded && !c.rmmod) = false := by
    cases hloaded : c.loaded with
    | false => rfl
    | true => rw [hrmmod hloaded]; rfl
  simp [hurriedRun, exec, init, scriptStep, progStep, sigcont, hlt, hunload, hstarts]

/-- Some run waits for ever exactly when the script starts a program that comes
    to stop itself: nothing but the `sleep 1` stands against it. -/
theorem canHang_iff (c : Setup) :
    (∃ s, Reachable c s ∧ AtRest c s ∧ s.script = .wait) ↔ Spawns c ∧ c.starts = true := by
  constructor
  · rintro ⟨s, hreach, hrest, hwait⟩
    have hchecked : Checked c s := by
      apply hreach.invariant (I := Checked c)
      · constructor <;> simp [init]
      · exact fun _ _ => checked_move
    refine ⟨hchecked.spawns (by simp [hwait]), ?_⟩
    rcases atRest_cases hreach.inv hrest with ⟨code, hcode, -⟩ | ⟨-, hstopped⟩
    · rw [hwait] at hcode
      cases hcode
    · simpa [hstopped] using hreach.inv.proc.starts
  · rintro ⟨hspawns, hstarts⟩
    refine ⟨_, steps_of_exec (exec_hurriedRun hspawns hstarts), ?_, rfl⟩
    exact atRest_iff.mpr fun o => ⟨rfl, rfl⟩

end UprobeTests.RunScript
