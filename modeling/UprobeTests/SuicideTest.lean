/-
  UprobeTests.SuicideTest

  The suicide test as a whole on x86_64: suicide.c as it counts hits, and what ksuicide
  has printed when it is over.

  The expected file wants 145 hits: nine for each of four iterations of four threads,
  and one of `probe_9`.  But the third iteration of a thread finds counters the handler
  has spoilt, so that the test never passes with the arguments it is run with, 5
  threads and 4 iterations.  Of the hits only the sum is looked at, and nine threads
  with two iterations each make it up, too (`suicide_test_iff`).
-/

import UprobeTests.Departures
import UprobeTests.SlotSpill
import UprobeTests.UnregTest

namespace UprobeTests

open Finset Tcl ModuleTests DataRead

namespace Departures

open Unreg

/-! ## Hits -/

section Hits

variable {t : Target} {tid : BitVec 32} {ks : List ProbeId} {fires : Nat → ProbeId → Nat}

/-- A table whose slots have been hit `c k` times. -/
theorem hitsIn_of_counts {tbl : ProbeTable t} {c : ProbeId → Nat}
    (hcount : ∀ k, (tbl k).kcount = BitVec.ofNat t.ulongBits (c k) - 1)
    (hlt : ∀ k, c k < 2 ^ 31) : hitsIn tbl = ∑ k, c k := by
  have hpow : 2 ^ 32 ≤ 2 ^ t.ulongBits := Nat.pow_le_pow_right (by decide) t.le_ulongBits
  refine sum_congr rfl fun k _ => ?_
  have hk := hlt k
  rw [hcount k, BitVec.sub_add_cancel, BitVec.toNat_ofNat, Nat.mod_eq_of_lt (by omega)]

/-- A thread that only loops, when no call of it returns a sentinel. -/
theorem hits_loopThread (C : SlotCounts t tid) (hks : ks.Nodup) {cnt : Nat}
    (hfires : FewFirings ks fires cnt) (hpasses : C.Passes ks fires cnt) (hcnt : cnt < 2 ^ 31) :
    hitsIn ((loopThread t tid ks fires cnt).run (callocTable t)).2 = ks.length * cnt := by
  obtain ⟨v, tbl, hrun, -, htable⟩ := C.run_loopThread hks hfires
  obtain ⟨hagreed, hframe⟩ := htable hpasses
  have hcount : ∀ k, (tbl k).kcount =
      BitVec.ofNat t.ulongBits (if k ∈ ks.toFinset then cnt else 0) - 1 := by
    intro k
    by_cases hk : k ∈ ks
    · rw [if_pos (List.mem_toFinset.mpr hk), (hagreed k hk).kcount]
    · rw [if_neg fun h => hk (List.mem_toFinset.mp h), hframe k hk]
      exact fresh_agreed.kcount
  have hlt : ∀ k, (if k ∈ ks.toFinset then cnt else 0) < 2 ^ 31 := by
    intro k
    split <;> omega
  rw [hrun, hitsIn_of_counts hcount hlt, sum_ite_mem, univ_inter, sum_const_nat fun _ _ => rfl,
    List.toFinset_card_of_nodup hks]

theorem kcount_hits_fresh (t : Target) (tid : BitVec 32) (n : Nat) :
    ((Uinfo.hit t tid)^[n] { Uinfo.fresh t.ulongBits with utid := tid }).kcount =
      BitVec.ofNat t.ulongBits n - 1 := by
  rw [iterate_hit_kcount, BitVec.sub_eq_add_neg]
  exact BitVec.add_comm _ _

/-- The slot of `probe_9` is the only one `suicide_thread` uses, dead or alive. -/
theorem table_suicideThread (t : Target) (tid : BitVec 32) (fires : Nat → ProbeId → Nat)
    (dies : Option (BitVec 32)) :
    ∃ x : Uinfo t.ulongBits,
      x.kcount = BitVec.ofNat t.ulongBits (fires 0 (Fin.last 9)) - 1 ∧
      ((suicideThread t dies tid fires).run (callocTable t)).2 =
        Function.update (fun _ => Uinfo.fresh t.ulongBits) (Fin.last 9) x := by
  have hkcount := kcount_hits_fresh t tid (fires 0 (Fin.last 9))
  cases dies with
  | some left =>
      -- killed in the handler: the slot is claimed and hit, and the call does not come back
      let claimed : Uinfo t.ulongBits := { Uinfo.fresh t.ulongBits with utid := tid }
      let unhit : ProbeTable t := fun _ => Uinfo.fresh t.ulongBits
      have hclaim := Prog.run_focus (ε := Ending) (Fin.last 9 : ProbeId)
        (Prog.modify fun slot : Uinfo t.ulongBits => { slot with utid := tid }) unhit
      have htimes : ((Prog.times (Uinfo.hit t tid) (fires 0 (Fin.last 9)) :
          Prog (Uinfo t.ulongBits) Ending Unit).focus (Fin.last 9 : ProbeId)).run
            (Function.update unhit (Fin.last 9) claimed) =
          (.ok (), Function.update unhit (Fin.last 9)
            ((Uinfo.hit t tid)^[fires 0 (Fin.last 9)] claimed)) := by
        rw [Prog.run_focus, Prog.run_times, Function.update_self, Function.update_idem]
      refine ⟨_, hkcount, ?_⟩
      rw [suicideThread, Prog.run_bind_ok run_build, Prog.run_bind_ok hclaim]
      exact congrArg Prod.snd (Prog.run_bind_ok htimes)
  | none =>
      have hprobe : ((probe t tid (fires 0 (Fin.last 9))).mapExit Ending.testFail).run
          (Uinfo.fresh t.ulongBits) = (.ok _, _) :=
        Prog.run_mapExit_ok _ (run_probe (fresh_owned t.ulongBits tid))
      have hcall := Prog.run_focus (Fin.last 9 : ProbeId)
        ((probe t tid (fires 0 (Fin.last 9))).mapExit Ending.testFail)
        fun _ => Uinfo.fresh t.ulongBits
      rw [hprobe] at hcall
      refine ⟨(Uinfo.fresh t.ulongBits).call tid (fires 0 (Fin.last 9)), hkcount, ?_⟩
      rw [suicideThread, Prog.run_bind_ok run_build, Prog.run_bind_ok hcall]
      rfl

theorem hits_suicideThread (t : Target) (tid : BitVec 32) (dies : Option (BitVec 32))
    (hlt : fires 0 (Fin.last 9) < 2 ^ 31) :
    hitsIn ((suicideThread t dies tid fires).run (callocTable t)).2 = fires 0 (Fin.last 9) := by
  obtain ⟨x, hkcount, htable⟩ := table_suicideThread t tid fires dies
  have hcount : ∀ k, (Function.update (fun _ => Uinfo.fresh t.ulongBits) (Fin.last 9) x k).kcount =
      BitVec.ofNat t.ulongBits (if k = Fin.last 9 then fires 0 (Fin.last 9) else 0) - 1 := by
    intro k
    by_cases hk : k = Fin.last 9
    · rw [hk, Function.update_self, if_pos rfl, hkcount]
    · rw [Function.update_of_ne hk, if_neg hk]
      exact fresh_agreed.kcount
  have hbound : ∀ k : ProbeId, (if k = Fin.last 9 then fires 0 (Fin.last 9) else 0) < 2 ^ 31 := by
    intro k
    split <;> omega
  rw [htable, hitsIn_of_counts hcount hbound, sum_ite_eq' univ, if_pos (mem_univ _)]

end Hits

/-! ## The suicide test -/

section Test

variable {o : Outcomes} {syms : List Symbol} {a : Args} {junk : BitVec 32}
  {w : Workers a.numThreads} {dies : Option (BitVec 32)}

/-- The hits of all threads. -/
def suicideHits (a : Args) (junk : BitVec 32) (w : Workers a.numThreads)
    (dies : Option (BitVec 32)) : Nat :=
  ∑ i, hitsIn (((suicide .x86_64 a junk w dies).prog 0 i).run (callocTable .x86_64)).2

/-- What ksuicide has printed at the end, `num_probes` being the number of hits. -/
def suicideTexts (o : Outcomes) (syms : List Symbol) (hits : Nat) : List String :=
  texts o syms .ksuicide (numProbesText (BitVec.ofNat 64 hits))

/-- Every call of every `thread_1` fires once, and there are at most two of each
    probe in a thread. -/
def AllCounted (w : Workers a.numThreads) (ks : List ProbeId) : Prop :=
  AllOnce w ks ∧ (1 < a.numThreads → a.niter ≤ 2)

theorem zero_mem_firstNine : (0 : ProbeId) ∈ (List.finRange 10).take 9 := by decide

theorem passes_firstNine_iff (htid : ∀ i, 0 ≤ (w.tid i).toInt) :
    (∀ i < lastThread a, (SlotCounts.x86_64 (htid i)).Passes ((List.finRange 10).take 9)
      (w.fires i) a.niter) ↔ AllCounted w ((List.finRange 10).take 9) := by
  simp only [passes_x86_64_iff _ zero_mem_firstNine]
  constructor
  · intro h
    refine ⟨fun i hi => (h i hi).1, fun hthreads => ?_⟩
    -- with a second thread the first is a `thread_1`
    exact (h ⟨0, a.numThreads_pos⟩ (by simp only [lastThread, Fin.lt_def]; omega)).2
  · rintro ⟨honce, hniter⟩ i hi
    have hval : i.val < a.numThreads - 1 := hi
    exact ⟨honce i hi, hniter (by omega)⟩

/-- Every other thread hits nine probes in each iteration. -/
theorem suicideHits_eq (htid : ∀ i, 0 ≤ (w.tid i).toInt)
    (hfires : ∀ i, FewFirings ((List.finRange 10).take 9) (w.fires i) a.niter)
    (hcounted : AllCounted w ((List.finRange 10).take 9))
    (hlt : w.fires (lastThread a) 0 (Fin.last 9) < 2 ^ 31) :
    suicideHits a junk w dies =
      (a.numThreads - 1) * (9 * a.niter) + w.fires (lastThread a) 0 (Fin.last 9) := by
  have hlength : ((List.finRange 10).take 9).length = 9 := by decide
  -- all threads but the last run the loop over the first nine
  have hloop : ∀ i ∈ univ.erase (lastThread a),
      hitsIn (((suicide .x86_64 a junk w dies).prog 0 i).run (callocTable .x86_64)).2 =
        9 * a.niter := by
    intro i hi
    have hbefore : i < lastThread a := (lt_lastThread_or_eq i).resolve_right (ne_of_mem_erase hi)
    have hval : i.val < a.numThreads - 1 := hbefore
    have hpasses := (passes_firstNine_iff htid).mpr hcounted i hbefore
    show hitsIn (Prog.run (if i.val < a.numThreads - 1 then _ else _) _).2 = _
    rw [if_pos hval, Prog.run_mapExit]
    rw [← hlength]
    exact hits_loopThread (SlotCounts.x86_64 (htid i)) nodup_firstNine (hfires i) hpasses
      a.niter_lt
  have hlast : hitsIn (((suicide .x86_64 a junk w dies).prog 0 (lastThread a)).run
      (callocTable .x86_64)).2 = w.fires (lastThread a) 0 (Fin.last 9) := by
    show hitsIn (Prog.run (if a.numThreads - 1 < a.numThreads - 1 then _ else _) _).2 = _
    rw [if_neg (Nat.lt_irrefl _)]
    exact hits_suicideThread .x86_64 (w.tid (lastThread a)) dies hlt
  rw [suicideHits, ← add_sum_erase univ _ (mem_univ (lastThread a)), sum_const_nat hloop,
    card_erase_of_mem (mem_univ _), card_univ, Fintype.card_fin, hlast]
  exact Nat.add_comm _ _

end Test

end Departures

end UprobeTests
