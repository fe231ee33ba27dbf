/-
  UprobeTests.Lib.Regsub

  `regsub -all` for expressions of the form "one character, one of a class, then
  one or more of another class", with a replacement that the expression itself
  matches.  Such an expression is matched greedily, so a text splits into single
  characters at which nothing matches and whole matches (`parse_induction`).

  The texts left alone are the settled ones, in which every match is the
  replacement already; every result is settled (`settled_regsub`), and stays so
  when an expression apart from the first is replaced after it
  (`settled_regsub_of_apart`).
-/

import UprobeTests.Lib.Tcl

namespace UprobeTests.Tcl

/-! ## Runs -/

section Runs

variable {p : Char → Bool}

theorem spanLength_append {v : Str} (hv : ∀ c ∈ v, p c = true) (w : Str) :
    spanLength p (v ++ w) = v.length + spanLength p w := by
  induction v with
  | nil => simp
  | cons c v ih =>
      rw [List.cons_append, spanLength, if_pos (hv c List.mem_cons_self),
        ih fun d hd => hv d (List.mem_cons_of_mem _ hd), List.length_cons]
      omega

/-- Whether a run begins depends on the first character only. -/
theorem spanLength_eq_zero_iff {t : Str} :
    spanLength p t = 0 ↔ ∀ c, t.head? = some c → p c = false := by
  cases t with
  | nil => simp [spanLength]
  | cons c cs =>
      rw [spanLength]
      split
      · rename_i hc
        simp [hc]
      · rename_i hc
        simpa using hc

theorem spanLength_eq_zero_congr {t t' : Str} (h : t.head? = t'.head?) :
    spanLength p t = 0 ↔ spanLength p t' = 0 := by
  rw [spanLength_eq_zero_iff, spanLength_eq_zero_iff, h]

/-- The longest run at the start, and what is behind it. -/
theorem exists_run (p : Char → Bool) (t : Str) :
    ∃ v w, t = v ++ w ∧ v.length = spanLength p t ∧ (∀ c ∈ v, p c = true) ∧
      spanLength p w = 0 := by
  induction t with
  | nil => exact ⟨[], [], rfl, rfl, by simp, rfl⟩
  | cons c cs ih =>
      by_cases hc : p c = true
      · obtain ⟨v, w, rfl, hlen, hv, hw⟩ := ih
        refine ⟨c :: v, w, rfl, ?_, ?_, hw⟩
        · rw [spanLength, if_pos hc, List.length_cons, hlen]
        · exact List.forall_mem_cons.mpr ⟨hc, hv⟩
      · have hzero : spanLength p (c :: cs) = 0 := by rw [spanLength, if_neg hc]
        exact ⟨[], c :: cs, rfl, hzero.symm, by simp, hzero⟩

end Runs

/-! ## The expressions -/

/-- `first second run+`.  The second character cannot be a first one. -/
structure RunPattern where
  first : Char
  second : Char → Bool
  run : Char → Bool
  second_first : second first = false

namespace RunPattern

variable {P : RunPattern} {s t v w : Str}

/-- The length of the match at the head of a text. -/
def matchLength (P : RunPattern) : Str → Option Nat
  | a :: b :: cs =>
      let n := spanLength P.run cs
      if a = P.first ∧ P.second b = true ∧ 0 < n then some (n + 2) else none
  | _ => none

/-- The whole of `v` is a match. -/
def IsMatch (P : RunPattern) (v : Str) : Prop :=
  ∃ b cs, v = P.first :: b :: cs ∧ P.second b = true ∧ cs ≠ [] ∧ ∀ c ∈ cs, P.run c = true

theorem IsMatch.head? (hv : P.IsMatch v) (w : Str) : (v ++ w).head? = some P.first := by
  obtain ⟨b, cs, rfl, -⟩ := hv
  rfl

theorem IsMatch.length_pos (hv : P.IsMatch v) : 0 < v.length := by
  obtain ⟨b, cs, rfl, -⟩ := hv
  exact Nat.succ_pos _

/-- A match is as long as it can be. -/
theorem matchLength_append (hv : P.IsMatch v) (hw : spanLength P.run w = 0) :
    P.matchLength (v ++ w) = some v.length := by
  obtain ⟨b, cs, rfl, hb, hne, hcs⟩ := hv
  have hlen : spanLength P.run (cs ++ w) = cs.length := by
    rw [spanLength_append hcs, hw, Nat.add_zero]
  have hpos : 0 < cs.length := List.length_pos_iff.mpr hne
  simp only [matchLength, List.cons_append, hlen, List.length_cons]
  rw [if_pos ⟨trivial, hb, hpos⟩]

theorem exists_of_matchLength {n : Nat} (h : P.matchLength t = some n) :
    ∃ v w, t = v ++ w ∧ v.length = n ∧ P.IsMatch v ∧ spanLength P.run w = 0 := by
  match t, h with
  | a :: b :: cs, h =>
      simp only [matchLength] at h
      split at h
      · rename_i hmatch
        obtain ⟨rfl, hb, hpos⟩ := hmatch
        obtain ⟨v, w, rfl, hlen, hv, hw⟩ := exists_run P.run cs
        cases h
        refine ⟨P.first :: b :: v, w, rfl, by simp [hlen], ⟨b, v, rfl, hb, ?_, hv⟩, hw⟩
        rintro rfl
        rw [← hlen] at hpos
        exact absurd hpos (by simp)
      · cases h

/-- Nothing matches at another character. -/
theorem matchLength_of_ne {c : Char} (hc : c ≠ P.first) (cs : Str) :
    P.matchLength (c :: cs) = none := by
  cases cs with
  | nil => rfl
  | cons b cs =>
      simp only [matchLength]
      rw [if_neg fun h => hc h.1]

theorem matchLength_of_second {b : Char} (hb : P.second b = false) (a : Char) (cs : Str) :
    P.matchLength (a :: b :: cs) = none := by
  simp only [matchLength]
  rw [if_neg fun h => by rw [hb] at h; cases h.2.1]

/-- Every text is read as single characters at which nothing matches and as matches. -/
theorem parse_induction (P : RunPattern) {motive : Str → Prop} (nil : motive [])
    (copy : ∀ c cs, P.matchLength (c :: cs) = none → motive cs → motive (c :: cs))
    (sub : ∀ v w, P.IsMatch v → spanLength P.run w = 0 → motive w → motive (v ++ w)) :
    ∀ t, motive t := by
  intro t
  induction hlen : t.length using Nat.strongRecOn generalizing t with
  | ind n ih =>
      cases hmatch : P.matchLength t with
      | none =>
          cases t with
          | nil => exact nil
          | cons c cs => exact copy c cs hmatch (ih cs.length (by simp [← hlen]) cs rfl)
      | some k =>
          obtain ⟨v, w, rfl, -, hv, hw⟩ := exists_of_matchLength hmatch
          have hlt : w.length < n := by
            rw [← hlen, List.length_append]
            have := hv.length_pos
            omega
          exact sub v w hv hw (ih w.length hlt w rfl)

/-! ## The replacement -/

/-- `regsub -all` with the replacement `s`. -/
def regsub (P : RunPattern) (s t : Str) : Str := regsubAll P.matchLength s t

theorem regsubFrom_eq_drop (m : Str → Option Nat) (s : Str) (skip : Nat) (t : Str) :
    regsubFrom m s skip t = regsubAll m s (t.drop skip) := by
  induction t generalizing skip with
  | nil =>
      rw [List.drop_nil]
      cases skip <;> rfl
  | cons c cs ih =>
      cases skip with
      | zero => rfl
      | succ skip => exact ih skip

theorem regsub_cons {c : Char} {cs : Str} (h : P.matchLength (c :: cs) = none) :
    P.regsub s (c :: cs) = c :: P.regsub s cs := by
  rw [regsub, regsubAll, regsubFrom, h]
  rfl

theorem regsub_append (hv : P.IsMatch v) (hw : spanLength P.run w = 0) :
    P.regsub s (v ++ w) = s ++ P.regsub s w := by
  have hmatch := matchLength_append hv hw
  obtain ⟨c, cs, rfl⟩ := List.exists_cons_of_ne_nil (List.ne_nil_of_length_pos hv.length_pos)
  rw [List.cons_append] at hmatch ⊢
  rw [regsub, regsubAll, regsubFrom, hmatch]
  dsimp only
  rw [regsubFrom_eq_drop, List.length_cons, Nat.add_sub_cancel, List.drop_left, regsub]

/-- A text without a first character is copied. -/
theorem regsub_of_notMem (hv : P.first ∉ v) (w : Str) :
    P.regsub s (v ++ w) = v ++ P.regsub s w := by
  induction v with
  | nil => rfl
  | cons c v ih =>
      rw [List.mem_cons, not_or] at hv
      obtain ⟨hne, hrest⟩ := hv
      rw [List.cons_append, regsub_cons (matchLength_of_ne (Ne.symm hne) _), ih hrest]
      rfl

/-- The replacement begins as what it replaces. -/
theorem head?_regsub (hs : P.IsMatch s) (t : Str) : (P.regsub s t).head? = t.head? := by
  induction t using P.parse_induction with
  | nil => rfl
  | copy c cs hnone ih =>
      rw [regsub_cons hnone]
      rfl
  | sub v w hv hw ih => rw [regsub_append hv hw, hs.head?, hv.head?]

/-- Where nothing matched, nothing matches after the replacement. -/
theorem matchLength_cons_regsub (hs : P.IsMatch s) {c : Char} {cs : Str}
    (h : P.matchLength (c :: cs) = none) : P.matchLength (c :: P.regsub s cs) = none := by
  cases cs with
  | nil => exact h
  | cons b ds =>
      by_cases hb : P.second b = true
      · -- such a character is copied, and a run begins behind it as before
        have hne : b ≠ P.first := fun heq => by
          rw [heq, P.second_first] at hb
          cases hb
        have hrun := spanLength_eq_zero_congr (p := P.run) (head?_regsub hs ds)
        rw [regsub_cons (matchLength_of_ne hne _)]
        simp only [matchLength, Nat.pos_iff_ne_zero, ne_eq, hrun] at h ⊢
        split at h
        · cases h
        · rename_i hno
          rw [if_neg hno]
      · have hhead := head?_regsub hs (b :: ds)
        cases hrest : P.regsub s (b :: ds) with
        | nil => rfl
        | cons b' ds' =>
            rw [hrest] at hhead
            cases hhead
            exact matchLength_of_second ((Bool.not_eq_true _).mp hb) _ _

/-- A text that does not show the replacement has had nothing replaced. -/
theorem regsub_eq_self_of_notMem {c : Char} (hc : c ∈ s) (h : c ∉ P.regsub s t) :
    P.regsub s t = t := by
  induction t using P.parse_induction with
  | nil => rfl
  | copy d cs hnone ih =>
      rw [regsub_cons hnone, List.mem_cons, not_or] at h
      rw [regsub_cons hnone, ih h.2]
  | sub v w hv hw ih =>
      rw [regsub_append hv hw] at h
      exact absurd (List.mem_append_left _ hc) h

/-! ## Settled texts -/

/-- Every match is the replacement. -/
inductive Settled (P : RunPattern) (s : Str) : Str → Prop where
  | nil : Settled P s []
  | copy {c : Char} {cs : Str} (h : P.matchLength (c :: cs) = none) (hcs : Settled P s cs) : Settled P s (c :: cs)
  | sub {w : Str} (hw : spanLength P.run w = 0) (h : Settled P s w) : Settled P s (s ++ w)

theorem Settled.regsub (hs : P.IsMatch s) (h : P.Settled s t) : P.regsub s t = t := by
  induction h with
  | nil => rfl
  | copy hnone _ ih => rw [regsub_cons hnone, ih]
  | sub hw _ ih => rw [regsub_append hs hw, ih]

theorem settled_regsub (hs : P.IsMatch s) (t : Str) : P.Settled s (P.regsub s t) := by
  induction t using P.parse_induction with
  | nil => exact .nil
  | copy c cs hnone ih =>
      rw [regsub_cons hnone]
      exact .copy (matchLength_cons_regsub hs hnone) ih
  | sub v w hv hw ih =>
      rw [regsub_append hv hw]
      exact .sub ((spanLength_eq_zero_congr (head?_regsub hs w)).mpr hw) ih

theorem settled_of_regsub_eq (hs : P.IsMatch s) (h : P.regsub s t = t) : P.Settled s t := by
  rw [← h]
  exact settled_regsub hs t

/-- The texts that are left alone. -/
theorem regsub_eq_self_iff (hs : P.IsMatch s) : P.regsub s t = t ↔ P.Settled s t :=
  ⟨settled_of_regsub_eq hs, Settled.regsub hs⟩

theorem settled_append_iff (hs : P.IsMatch s) (hv : P.first ∉ v) :
    P.Settled s (v ++ w) ↔ P.Settled s w := by
  rw [← regsub_eq_self_iff hs, ← regsub_eq_self_iff hs, regsub_of_notMem hv,
    List.append_cancel_left_eq]

/-- A text without a second character. -/
theorem settled_of_second (ht : ∀ c ∈ t, P.second c = false) : P.Settled s t := by
  induction t with
  | nil => exact .nil
  | cons c cs ih =>
      have hcs : ∀ d ∈ cs, P.second d = false := fun d hd => ht d (List.mem_cons_of_mem _ hd)
      refine .copy ?_ (ih hcs)
      cases cs with
      | nil => rfl
      | cons b cs => exact matchLength_of_second (hcs b List.mem_cons_self) c cs

/-! ## Two replacements -/

/-- No match of `Q` reaches into a match of `P`, whose replacement is `s`. -/
structure Apart (P Q : RunPattern) (s : Str) : Prop where
  first : P.first ≠ Q.first
  second_first : P.second Q.first = false
  run_second : ∀ c, Q.second c = true → P.run c = false
  first_second : Q.second P.first = false
  first_run : Q.run P.first = false
  sub : Q.first ∉ s

section Apart

variable {Q : RunPattern} {q : Str}

theorem Apart.notMem_match (h : Apart P Q s) (hv : Q.IsMatch v) : P.first ∉ v := by
  obtain ⟨b, cs, rfl, hb, -, hcs⟩ := hv
  intro hc
  rcases List.mem_cons.mp hc with heq | hc
  · exact h.first heq
  · rcases List.mem_cons.mp hc with heq | hc
    · rw [← heq, h.first_second] at hb
      cases hb
    · have hrun := hcs _ hc
      rw [h.first_run] at hrun
      cases hrun

/-- A run of `P` ends at the latest behind the first character of a match of `Q`. -/
theorem Apart.spanLength_match (h : Apart P Q s) (hv : Q.IsMatch v) (w : Str) :
    spanLength P.run (v ++ w) = if P.run Q.first = true then 1 else 0 := by
  obtain ⟨b, cs, rfl, hb, -⟩ := hv
  have hend := h.run_second b hb
  simp [spanLength, hend]

theorem Apart.spanLength_regsub (h : Apart P Q s) (hq : Q.IsMatch q) (t : Str) :
    spanLength P.run (Q.regsub q t) = spanLength P.run t := by
  induction t using Q.parse_induction with
  | nil => rfl
  | copy c cs hnone ih => rw [regsub_cons hnone, spanLength, spanLength, ih]
  | sub v w hv hw ih => rw [regsub_append hv hw, h.spanLength_match hq, h.spanLength_match hv]

/-- The replacement for `Q` leaves the matches of `P` as they were. -/
theorem Apart.matchLength_regsub (h : Apart P Q s) (hq : Q.IsMatch q) (t : Str) :
    P.matchLength (Q.regsub q t) = P.matchLength t := by
  have hnone : ∀ {v}, Q.IsMatch v → ∀ w, P.matchLength (v ++ w) = none := by
    rintro v ⟨b, cs, rfl, -⟩ w
    exact matchLength_of_ne h.first.symm _
  induction t using Q.parse_induction with
  | nil => rfl
  | copy c cs hcopy ih =>
      rw [regsub_cons hcopy]
      cases cs with
      | nil => rfl
      | cons b ds =>
          cases hmatch : Q.matchLength (b :: ds) with
          | none =>
              rw [regsub_cons hmatch]
              simp only [matchLength, h.spanLength_regsub hq]
          | some n =>
              -- a match of `Q` begins behind `c`, before and after
              obtain ⟨v, w, heq, -, hv, hw⟩ := exists_of_matchLength hmatch
              rw [heq, regsub_append hv hw]
              obtain ⟨b', cs', rfl, -⟩ := hv
              obtain ⟨b'', cs'', rfl, -⟩ := hq
              exact (matchLength_of_second h.second_first _ _).trans
                (matchLength_of_second h.second_first _ _).symm
  | sub v w hv hw ih => rw [regsub_append hv hw, hnone hq, hnone hv]

/-- What is settled stays so when the other expression is replaced. -/
theorem settled_regsub_of_apart (h : Apart P Q s) (hs : P.IsMatch s) (hq : Q.IsMatch q)
    (ht : P.Settled s t) : P.Settled s (Q.regsub q t) := by
  induction hlen : t.length using Nat.strongRecOn generalizing t with
  | ind n ih =>
      cases ht with
      | nil => exact .nil
      | @copy c cs hnone hcs =>
          cases hmatch : Q.matchLength (c :: cs) with
          | none =>
              rw [← h.matchLength_regsub hq, regsub_cons hmatch] at hnone
              rw [regsub_cons hmatch]
              exact .copy hnone (ih cs.length (by simp [← hlen]) hcs rfl)
          | some k =>
              obtain ⟨v, w, heq, -, hv, hw⟩ := exists_of_matchLength hmatch
              have hlt : w.length < n := by
                rw [← hlen, heq, List.length_append]
                have := hv.length_pos
                omega
              -- a match of `Q` has no character in which a match of `P` could begin
              have hrest : P.Settled s w := by
                rw [← settled_append_iff hs (h.notMem_match hv), ← heq]
                exact .copy hnone hcs
              rw [heq, regsub_append hv hw, settled_append_iff hs (h.notMem_match hq)]
              exact ih w.length hlt hrest rfl
      | @sub w hw hrest =>
          have hlt : w.length < n := by
            rw [← hlen, List.length_append]
            have := hs.length_pos
            omega
          rw [regsub_of_notMem h.sub]
          refine .sub ?_ (ih w.length hlt hrest rfl)
          rw [h.spanLength_regsub hq, hw]

/-- Two replacements one after the other: the result is settled for both. -/
theorem settled_regsub_regsub (h : Apart P Q s) (hs : P.IsMatch s) (hq : Q.IsMatch q) (t : Str) :
    P.Settled s (Q.regsub q (P.regsub s t)) ∧ Q.Settled q (Q.regsub q (P.regsub s t)) :=
  ⟨settled_regsub_of_apart h hs hq (settled_regsub hs t), settled_regsub hq _⟩

/-- The texts that two replacements leave alone. -/
theorem regsub_regsub_eq_self_iff (h : Apart P Q s) (hs : P.IsMatch s) (hq : Q.IsMatch q) :
    Q.regsub q (P.regsub s t) = t ↔ P.Settled s t ∧ Q.Settled q t := by
  constructor
  · intro heq
    rw [← heq]
    exact settled_regsub_regsub h hs hq t
  · rintro ⟨hP, hQ⟩
    rw [hP.regsub hs, hQ.regsub hq]

end Apart

end RunPattern

end UprobeTests.Tcl
