/-
  UprobeTests.SlotRuns

  What every call of `probe_k` on one i386 slot returns, for any number of
  handler runs at each call: -1 before the first hit, then the number of hits
  less one as long as there has been one hit for each call, and -2 when there
  has not.
-/

import UprobeTests.SlotCount

namespace UprobeTests

/-- Successive calls of `probe_k`, and with it of `_probe_k`, on slot `k`;
    the handler runs `fired` times at the entry of each. -/
def probeCalls (t : Target) (tid : BitVec 32) (k : ProbeId) :
    List Nat → Prog (ProbeTable t) String (List Int)
  | [] => return []
  | fired :: hs => do
      let error ← (probe t tid fired).focus k
      let errors ← probeCalls t tid k hs
      return error :: errors

/-- BUILD_PROBE_TABLE and then the calls. -/
def countProbe (t : Target) (tid : BitVec 32) (k : ProbeId) (hs : List Nat) :
    Prog (ProbeTable t) String (List Int) := do
  buildProbeTable t
  probeCalls t tid k hs

/-- The number of calls before the first one that fired. -/
def firstFired (hs : List Nat) : Nat := hs.findIdx (0 < ·)

/-- What the last of the calls `hs` should return. -/
def lastResult (hs : List Nat) : Int :=
  if hs.sum = 0 then -1
  else if hs.sum = hs.length - firstFired hs then hs.sum - 1
  else -2

/-- The counters after the calls `hs`: `kcount` has every hit, `ucount` the
    calls since the first hit, and before it anything at all. -/
structure Uinfo.CountsFor (s : Uinfo 32) (hs : List Nat) : Prop where
  kcount : s.kcount = BitVec.ofNat 32 hs.sum - 1
  ucount : 0 < hs.sum → s.ucount = BitVec.ofNat 32 (hs.length - firstFired hs) - 1

theorem fresh_countsFor : (Uinfo.fresh 32).CountsFor [] :=
  ⟨by decide, fun h => absurd h (Nat.lt_irrefl 0)⟩

/-! ## One call -/

variable {hs : List Nat} {fired : Nat}

theorem firstFired_lt_of_sum_pos (h : 0 < hs.sum) : firstFired hs < hs.length := by
  obtain ⟨x, hx, hpos⟩ := List.sum_pos_iff_exists_pos_nat.mp h
  exact List.findIdx_lt_length_of_exists ⟨x, hx, by simpa using hpos⟩

theorem firstFired_eq_length_of_sum_zero (h : hs.sum = 0) : firstFired hs = hs.length := by
  rw [firstFired, List.findIdx_eq_length]
  intro x hx
  rw [List.sum_eq_zero_iff_forall_eq_nat.mp h x hx]
  rfl

/-- The first hit is the first of a longer run, or the one that is added. -/
theorem firstFired_append (hpos : 0 < hs.sum + fired) :
    firstFired (hs ++ [fired]) = if 0 < hs.sum then firstFired hs else hs.length := by
  rw [firstFired, List.findIdx_append, ← firstFired]
  by_cases h : 0 < hs.sum
  · rw [if_pos (firstFired_lt_of_sum_pos h), if_pos h]
  · have hlast : 0 < fired := by omega
    rw [firstFired_eq_length_of_sum_zero (by omega), if_neg (Nat.lt_irrefl _), if_neg h]
    simp [List.findIdx_cons, hlast]

/-- A call counts its hits, and itself unless it is before the first hit. -/
theorem Uinfo.CountsFor.call {s : Uinfo 32} (tid : BitVec 32) (hs' : s.CountsFor hs)
    (hbound : hs.sum + fired ≤ 2 ^ 32) :
    (Uinfo.call (t := .i386) s tid fired).CountsFor (hs ++ [fired]) := by
  obtain ⟨hk, hu⟩ := call_kcount_ucount tid hs'.kcount hbound
  have hsum : (hs ++ [fired]).sum = hs.sum + fired := by simp
  refine ⟨by rw [hk, hsum], fun hpos => ?_⟩
  rw [hsum] at hpos
  rw [hu, firstFired_append hpos, List.length_append, List.length_singleton]
  by_cases hstarted : 0 < hs.sum
  · have hlt := firstFired_lt_of_sum_pos hstarted
    rw [if_neg (by omega), if_pos hstarted, hs'.ucount hstarted, BitVec.sub_add_cancel,
      show hs.length + 1 - firstFired hs = hs.length - firstFired hs + 1 by omega,
      ofNat_succ_sub_one]
  · -- this call is the first that fires: the reset makes it the first counted
    rw [if_pos ⟨by omega, by omega⟩, if_neg hstarted, Nat.add_sub_cancel_left]
    rfl

theorem Uinfo.CountsFor.returned {s : Uinfo 32} (h : s.CountsFor hs) (hsum : hs.sum < 2 ^ 31)
    (hlength : hs.length < 2 ^ 31) : s.returned = lastResult hs := by
  rw [lastResult]
  by_cases hzero : hs.sum = 0
  · rw [if_pos hzero, Uinfo.returned, h.kcount, hzero, if_pos (Or.inl (by decide))]
    decide
  · rw [if_neg hzero, returned_of_counts h.kcount (h.ucount (Nat.pos_of_ne_zero hzero))
      (Nat.pos_of_ne_zero hzero) (by omega) (by omega), intOfUlong_ofNat (by omega)]
    split
    · omega
    · rfl

/-! ## All calls -/

/-- From a slot that stands for the calls `hs`, each further call returns what
    the calls up to it make it return. -/
theorem run_probeCalls {tid : BitVec 32} {k : ProbeId} (hs next : List Nat)
    (tbl : ProbeTable .i386) (hs' : (tbl k).CountsFor hs) (hown : (tbl k).OwnedBy tid)
    (hsum : (hs ++ next).sum < 2 ^ 31) (hlength : (hs ++ next).length < 2 ^ 31) :
    ∃ results tbl', (probeCalls .i386 tid k next).run tbl = (.ok results, tbl') ∧
      results.length = next.length ∧
      ∀ j < next.length, results[j]? = some (lastResult (hs ++ next.take (j + 1))) := by
  induction next generalizing hs tbl with
  | nil => exact ⟨[], tbl, rfl, rfl, fun j hj => absurd hj (Nat.not_lt_zero j)⟩
  | cons fired next ih =>
      have hcons : hs ++ fired :: next = (hs ++ [fired]) ++ next := by simp
      have hpart : hs.sum + fired ≤ ((hs ++ [fired]) ++ next).sum := by simp
      rw [hcons] at hsum hlength
      have hcall : (Uinfo.call (t := .i386) (tbl k) tid fired).CountsFor (hs ++ [fired]) :=
        hs'.call tid (by omega)
      have hreturned := hcall.returned (by simpa using Nat.lt_of_le_of_lt hpart hsum)
        (Nat.lt_of_le_of_lt (by simp) hlength)
      -- the remaining calls start from the slot this call leaves
      obtain ⟨results, tbl', hrun, hcount, hresults⟩ := ih (hs ++ [fired])
        (Function.update tbl k ((tbl k).call tid fired))
        (by rw [Function.update_self]; exact hcall)
        (by rw [Function.update_self]; exact call_owned tid fired _) hsum hlength
      refine ⟨lastResult (hs ++ [fired]) :: results, tbl', ?_, by simp [hcount], ?_⟩
      · rw [probeCalls, Prog.run_bind_ok (run_focus_probe hown), Prog.run_bind_ok hrun, hreturned]
        rfl
      · intro j hj
        cases j with
        | zero => simp
        | succ j =>
            rw [List.getElem?_cons_succ, hresults j (by simpa using hj)]
            simp

theorem lastResult_of_zero (h : ∀ x ∈ hs, x = 0) : lastResult hs = -1 :=
  if_pos (List.sum_eq_zero_iff_forall_eq_nat.mpr h)

theorem lastResult_of_first {f h : Nat} (hbefore : ∀ i < f, hs[i]? = some 0)
    (hfirst : hs[f]? = some h) (hpos : 0 < h) :
    lastResult hs = if hs.sum = hs.length - f then (hs.sum : Int) - 1 else -2 := by
  obtain ⟨hf, hget⟩ := List.getElem?_eq_some_iff.mp hfirst
  have hsum : 0 < hs.sum :=
    List.sum_pos_iff_exists_pos_nat.mpr ⟨h, hget ▸ List.getElem_mem hf, hpos⟩
  have hfirstFired : firstFired hs = f := by
    refine (List.findIdx_eq hf).mpr ⟨by simpa [hget] using hpos, fun i hi => ?_⟩
    obtain ⟨hi', hzero⟩ := List.getElem?_eq_some_iff.mp (hbefore i hi)
    simp [hzero]
  rw [lastResult, if_neg (by omega), hfirstFired]

/-- For fewer than 2^31 calls and hits, the `j`-th call returns -1 when no
    call so far has fired; with `f` the first that has, it returns the number
    of hits less one if that is the number of calls after `f`, and otherwise -2. -/
theorem countProbe_returns (tid : BitVec 32) (k : ProbeId) (hs : List Nat)
    (hcalls : hs.length < 2 ^ 31) (hfired : hs.sum < 2 ^ 31) :
    ∃ results tbl, (countProbe .i386 tid k hs).run (callocTable .i386) = (.ok results, tbl) ∧
      results.length = hs.length ∧
      ∀ j < hs.length,
        ((∀ i ≤ j, hs[i]? = some 0) → results[j]? = some (-1)) ∧
        ∀ f h, f ≤ j → (∀ i < f, hs[i]? = some 0) → hs[f]? = some h → 0 < h →
          results[j]? = some (if (hs.take (j + 1)).sum = j - f + 1
            then ((hs.take (j + 1)).sum : Int) - 1 else -2) := by
  obtain ⟨results, tbl, hrun, hcount, hresults⟩ := run_probeCalls (k := k) [] hs
    (fun _ => Uinfo.fresh 32) fresh_countsFor (fresh_owned _ tid) hfired hcalls
  refine ⟨results, tbl, ?_, hcount, fun j hj =>
    ⟨fun hzero => ?_, fun f h hf hbefore hfirst hpos => ?_⟩⟩
  · rw [countProbe, Prog.run_bind_ok run_buildProbeTable, hrun]
  · rw [hresults j hj, List.nil_append, lastResult_of_zero]
    intro x hx
    obtain ⟨i, hi, hget⟩ := List.mem_take_iff_getElem.mp hx
    have hi' := hzero i (by omega)
    rw [List.getElem?_eq_getElem (by omega), hget] at hi'
    exact Option.some.inj hi'
  · -- the calls up to `j` have the same first hit as all of them
    have hkeep : ∀ i ≤ j, (hs.take (j + 1))[i]? = hs[i]? := fun i hi =>
      List.getElem?_take_of_lt (by omega)
    rw [hresults j hj, List.nil_append,
      lastResult_of_first (fun i hi => (hkeep i (by omega)).trans (hbefore i hi))
        ((hkeep f hf).trans hfirst) hpos,
      List.length_take_of_le hj, show j + 1 - f = j - f + 1 by omega]

/-- Two calls before the first hit, then one missed and one doubled: the
    counters disagree and agree again. -/
theorem countProbe_missed_doubled :
    ∃ results tbl, (countProbe .i386 7 0 [0, 0, 1, 1, 0, 2]).run (callocTable .i386) =
        (.ok results, tbl) ∧
      results[1]? = some (-1) ∧ results[3]? = some 1 ∧ results[4]? = some (-2) ∧
      results[5]? = some 3 := by
  obtain ⟨results, tbl, hrun, -, hresults⟩ :=
    countProbe_returns 7 0 [0, 0, 1, 1, 0, 2] (by decide) (by decide)
  have hbefore : ∀ i < 2, [0, 0, 1, 1, 0, 2][i]? = some 0 := by decide
  have hafter := fun j (hj : j < 6) hf => (hresults j hj).2 2 1 hf hbefore rfl Nat.zero_lt_one
  exact ⟨results, tbl, hrun, (hresults 1 (by decide)).1 (by decide), hafter 3 (by decide) (by decide),
    hafter 4 (by decide) (by decide), hafter 5 (by decide) (by decide)⟩

end UprobeTests
