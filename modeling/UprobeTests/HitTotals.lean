/-
  UprobeTests.HitTotals

  The totals `num_probes` and `ncalls` when threads hit probes one after the
  other and the handlers of different threads interleave.  What a module can
  report is known exactly: anything from the number of hits down to 2, or to 1
  where some thread hits a probe just once.
-/

import UprobeTests.HitCounts
import UprobeTests.Lib.Racing

namespace UprobeTests

open Activations

namespace HitCounts

/-! ## num_probes -/

section ProbeHandler

variable {t : Target}

/-- The steps a run of `probe_handler` has to go at most. -/
def HandlerAct.rank : HandlerAct t → Nat
  | .putKtid _ => 6
  | .getUtid _ => 5
  | .getKcount _ => 4
  | .putUcount _ _ => 3
  | .putKcount _ _ => 2
  | .loadNumProbes => 1
  | .storeNumProbes _ => 0

theorem rank_handlerAct {u u' : Probed t} {a : HandlerAct t} {new : List (HandlerAct t)}
    (h : handlerAct u a () = some (u', new)) : ∀ b ∈ new, b.rank < a.rank := by
  intro b hb
  cases a with
  | getKcount x =>
      cases h
      obtain rfl := List.mem_singleton.mp hb
      split <;> simp [HandlerAct.rank]
  | storeNumProbes v =>
      cases h
      cases hb
  | putKtid x | getUtid x | putUcount x kcount | putKcount x kcount | loadNumProbes =>
      cases h
      obtain rfl := List.mem_singleton.mp hb
      simp [HandlerAct.rank]

theorem enabled_handlerSystem (t : Target) : Racing.Enabled (handlerSystem t) where
  main _ _ := ⟨_, rfl⟩
  act u a := by
    cases a <;> exact ⟨(), _, rfl⟩
  ends := Racing.acc_of_rank fun _ _ _ _ _ h => rank_handlerAct h

/-- The hits of a thread: which accesses succeed, its id and the registers. -/
abbrev Hits := List ((UserAccess → Bool) × BitVec 32 × Regs)

/-- `num_probes` can end with the numbers from the hits of all threads down to
    `Race.least`, and with no others. -/
theorem numProbes_totals_iff (t : Target) (mem : ByteMem.Mem) (threads : List Hits)
    (hlt : (threads.map List.length).sum < 2 ^ t.ulongBits) (m : Nat) :
    (∃ s, Racing.Reachable (handlerSystem t)
        (Racing.start (Probed.start mem).shared threads) s ∧
      s.Finished ∧ s.shared.kernel.numProbes.toNat = m) ↔
    Race.least (threads.map List.length : List Nat) ≤ m ∧ m ≤ (threads.map List.length).sum :=
  Racing.totals_iff (C := numProbesIncrements t) (enabled_handlerSystem t) rfl hlt m

/-- Two threads with two hits each can report two. -/
theorem numProbes_totals_two : ∃ s, Racing.Reachable (handlerSystem .x86_64)
      (Racing.start (Probed.start fun _ => 0).shared
        [[(fun _ => true, 7, ⟨4096, 0⟩), (fun _ => true, 7, ⟨4120, 0⟩)],
          [(fun _ => true, 8, ⟨8192, 0⟩), (fun _ => true, 8, ⟨8216, 0⟩)]]) s ∧
    s.Finished ∧ s.shared.kernel.numProbes.toNat = 2 :=
  (numProbes_totals_iff .x86_64 _ _ (by decide) 2).mpr (by decide)

end ProbeHandler

/-! ## ncalls -/

section AddInst

variable {verbose : Bool}

def AddAct.rank : AddAct → Nat
  | .print => 2
  | .loadNcalls => 1
  | .storeNcalls _ => 0

theorem rank_addAct {u u' : Probe5} {a : AddAct} {new : List AddAct}
    (h : addAct verbose u a () = some (u', new)) : ∀ b ∈ new, b.rank < a.rank := by
  intro b hb
  cases a with
  | print | loadNcalls =>
      cases h
      obtain rfl := List.mem_singleton.mp hb
      simp [AddAct.rank]
  | storeNcalls v =>
      cases h
      cases hb

theorem enabled_addSystem (verbose : Bool) : Racing.Enabled (addSystem verbose) where
  main _ _ := ⟨_, rfl⟩
  act u a := by
    cases a <;> exact ⟨(), _, rfl⟩
  ends := Racing.acc_of_rank fun _ _ _ _ _ h => rank_addAct h

theorem ncalls_totals_iff (verbose : Bool) (threads : List (List Unit))
    (hlt : (threads.map List.length).sum < 2 ^ 32) (m : Nat) :
    (∃ s, Racing.Reachable (addSystem verbose) (Racing.start Probe5.start.shared threads) s ∧
      s.Finished ∧ s.shared.ncalls.toNat = m) ↔
    Race.least (threads.map List.length : List Nat) ≤ m ∧ m ≤ (threads.map List.length).sum :=
  Racing.totals_iff (C := ncallsIncrements verbose) (enabled_addSystem verbose) rfl hlt m

end AddInst

end HitCounts

end UprobeTests
