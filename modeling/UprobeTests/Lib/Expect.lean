/-
  UprobeTests.Lib.Expect

  An `expect` command whose arms look for markers in the output of a process.
  The output arrives in chunks; the arms are tried in their order against the
  accumulated buffer, and the arm that fires discards the buffer up to the end
  of its match.

  A value can depend on how the output is cut into chunks. What does not:
  * a relation between the output received and the state that every chunk and
    every firing keep (`run_induction`), such as the buffer being an end of it;
  * a marker that no arm of higher priority can eat makes its arm fire, in
    every chunking (`hit_of_occurrence`);
  * arms that all go on and all set one value leave it exactly when there is
    anything for them to match (`const_value_iff`).
-/

import Mathlib.Data.List.Basic
import Mathlib.Data.List.Induction

namespace UprobeTests.Expect

variable {α σ : Type}

/-! ## Occurrences -/

/-- A nonempty end of `m` and a start of `n` of the same text never agree, and `n`
    does not lie inside `m`. -/
def NoOverlap (m n : List α) : Prop :=
  ∀ k < m.length, ¬ m.drop k <+: n ∧ ¬ n <+: m.drop k

/-- Occurrences of `m` and `n` in one text lie apart from each other. -/
def Apart (m n : List α) : Prop := NoOverlap m n ∧ NoOverlap n m

theorem NoOverlap.le {m n a b c d : List α} (h : NoOverlap m n)
    (heq : a ++ m ++ b = c ++ n ++ d) (hle : a.length ≤ c.length) :
    a.length + m.length ≤ c.length := by
  by_contra hlt
  have hk : c.length - a.length < m.length := by omega
  have hdrop : m.drop (c.length - a.length) ++ b = n ++ d := by
    have := congrArg (List.drop c.length) heq
    simpa [List.drop_append, List.drop_eq_nil_of_le hle,
      Nat.sub_eq_zero_of_le (Nat.le_of_lt hk)] using this
  have hm : m.drop (c.length - a.length) <+: n ++ d := ⟨b, hdrop⟩
  rcases List.prefix_or_prefix_of_prefix hm (List.prefix_append n d) with hp | hp
  · exact (h _ hk).1 hp
  · exact (h _ hk).2 hp

theorem Apart.cases {m n a b c d : List α} (h : Apart m n)
    (heq : a ++ m ++ b = c ++ n ++ d) :
    a.length + m.length ≤ c.length ∨ c.length + n.length ≤ a.length := by
  rcases Nat.le_total a.length c.length with hle | hle
  · exact Or.inl (h.1.le heq hle)
  · exact Or.inr (h.2.le heq.symm hle)

/-- An occurrence between two cuts of a text lies in the middle part. -/
theorem infix_of_within {p q r x m y : List α} (heq : p ++ q ++ r = x ++ m ++ y)
    (hleft : p.length ≤ x.length) (hright : x.length + m.length ≤ p.length + q.length) :
    m <:+: q := by
  have hp : p <+: x ++ m ++ y := ⟨q ++ r, by rw [← heq, List.append_assoc]⟩
  have hx : x <+: x ++ m ++ y := ⟨m ++ y, by rw [List.append_assoc]⟩
  obtain ⟨x', rfl⟩ := List.prefix_of_prefix_length_le hp hx hleft
  have htail : q ++ r = x' ++ m ++ y := by simpa [List.append_assoc] using heq
  have hq : q <+: q ++ r := List.prefix_append q r
  have hm : x' ++ m <+: q ++ r := ⟨y, htail.symm⟩
  have hlen : (x' ++ m).length ≤ q.length := by
    simp only [List.length_append] at hright ⊢
    omega
  obtain ⟨s, hs⟩ := List.prefix_of_prefix_length_le hm hq hlen
  exact ⟨x', s, hs⟩

/-! ## Arms and configurations -/

/-- `-re marker { action }`, with `exp_continue` at the end of the action or not. -/
structure Arm (α σ : Type) where
  marker : List α
  marker_ne : marker ≠ []
  act : σ → σ
  continues : Bool

/-- The value the arms compute, the output received and not discarded, and whether
    an arm without `exp_continue` has fired. -/
structure Conf (α σ : Type) where
  value : σ
  buffer : List α
  stopped : Bool

def Conf.append (c : Conf α σ) (chunk : List α) : Conf α σ :=
  { c with buffer := c.buffer ++ chunk }

/-- An occurrence that has not been discarded: it starts in the buffer. -/
def Ahead (t x : List α) (c : Conf α σ) : Prop :=
  ∃ d, t = d ++ c.buffer ∧ d.length ≤ x.length

theorem Ahead.nil_left (x : List α) (v : σ) : Ahead [] x (⟨v, [], false⟩ : Conf α σ) :=
  ⟨[], rfl, Nat.zero_le _⟩

theorem Ahead.append {t x : List α} {c : Conf α σ} (h : Ahead t x c) (chunk : List α) :
    Ahead (t ++ chunk) x (c.append chunk) := by
  obtain ⟨d, rfl, hd⟩ := h
  exact ⟨d, by rw [Conf.append, List.append_assoc], hd⟩

/-- Once the marker has arrived, it is in the buffer. -/
theorem Ahead.mem_buffer {t x m y s : List α} {c : Conf α σ} (h : Ahead t x c)
    (ht : t ++ s = x ++ m ++ y) (hlen : x.length + m.length ≤ t.length) :
    m <:+: c.buffer := by
  obtain ⟨d, rfl, hd⟩ := h
  rw [List.length_append] at hlen
  exact infix_of_within ht hd hlen

/-- Where the arm that fires stands relative to the arm `a`. -/
theorem position_cases {pre post pre' post' : List (Arm α σ)} {a b : Arm α σ}
    (h : pre ++ a :: post = pre' ++ b :: post') :
    b ∈ pre ∨ b = a ∨ (b ∈ post ∧ a ∈ pre') := by
  rcases List.append_eq_append_iff.mp h with ⟨l, rfl, hl⟩ | ⟨l, rfl, hl⟩
  · cases l with
    | nil => exact Or.inr (Or.inl (List.cons_eq_cons.mp hl).1.symm)
    | cons e l =>
        obtain ⟨rfl, rfl⟩ := List.cons_eq_cons.mp hl
        exact Or.inr (Or.inr ⟨by simp, by simp⟩)
  · cases l with
    | nil => exact Or.inr (Or.inl (List.cons_eq_cons.mp hl).1)
    | cons e l =>
        obtain ⟨rfl, -⟩ := List.cons_eq_cons.mp hl
        exact Or.inl (by simp)

/-! ## Matching -/

variable [DecidableEq α]

instance (m n : List α) : Decidable (NoOverlap m n) :=
  inferInstanceAs (Decidable (∀ k < m.length, _))

instance (m n : List α) : Decidable (Apart m n) := inferInstanceAs (Decidable (_ ∧ _))

/-- What follows the leftmost occurrence of a nonempty `marker`. -/
def afterFirst (marker : List α) : List α → Option (List α)
  | [] => none
  | c :: cs =>
      if marker <+: c :: cs then some ((c :: cs).drop marker.length)
      else afterFirst marker cs

theorem eq_of_afterFirst {marker : List α} :
    ∀ {t r : List α}, afterFirst marker t = some r → ∃ u, t = u ++ marker ++ r
  | [], _, h => by cases h
  | c :: cs, r, h => by
      rw [afterFirst] at h
      split at h
      · next hp =>
          obtain ⟨s, hs⟩ := hp
          refine ⟨[], ?_⟩
          rw [← hs, List.drop_left, Option.some.injEq] at h
          rw [← hs, h, List.nil_append]
      · obtain ⟨u, rfl⟩ := eq_of_afterFirst h
        exact ⟨c :: u, rfl⟩

theorem afterFirst_eq_none_iff {marker : List α} (hne : marker ≠ []) (t : List α) :
    afterFirst marker t = none ↔ ¬ marker <:+: t := by
  induction t with
  | nil => simp [afterFirst, hne]
  | cons c cs ih =>
      rw [afterFirst, List.infix_cons_iff]
      by_cases hp : marker <+: c :: cs
      · simp [hp]
      · rw [if_neg hp, ih, or_iff_right hp]

/-! ## The command -/

def Arm.fire (a : Arm α σ) (c : Conf α σ) : Option (Conf α σ) :=
  (afterFirst a.marker c.buffer).map fun rest => ⟨a.act c.value, rest, !a.continues⟩

/-- The first arm that matches fires. -/
def fire (arms : List (Arm α σ)) (c : Conf α σ) : Option (Conf α σ) :=
  if c.stopped then none else arms.findSome? (·.fire c)

/-- The arms fire until none matches; each match discards something, so the length
    of the buffer is fuel enough. -/
def settle (arms : List (Arm α σ)) : Nat → Conf α σ → Conf α σ
  | 0, c => c
  | fuel + 1, c =>
      match fire arms c with
      | none => c
      | some c' => settle arms fuel c'

def receive (arms : List (Arm α σ)) (c : Conf α σ) (chunk : List α) : Conf α σ :=
  settle arms (c.append chunk).buffer.length (c.append chunk)

/-- The command from the value `v` to `eof`, which comes after the last chunk. -/
def run (arms : List (Arm α σ)) (v : σ) (chunks : List (List α)) : Conf α σ :=
  chunks.foldl (receive arms) ⟨v, [], false⟩

variable {arms : List (Arm α σ)}

/-- What one firing does. -/
theorem fire_cases {c c' : Conf α σ} (h : fire arms c = some c') :
    c.stopped = false ∧ ∃ pre a post u r, arms = pre ++ a :: post ∧
      (∀ b ∈ pre, ¬ b.marker <:+: c.buffer) ∧ c.buffer = u ++ a.marker ++ r ∧
      c' = ⟨a.act c.value, r, !a.continues⟩ := by
  rw [fire] at h
  split at h
  · cases h
  next hstopped =>
    obtain ⟨pre, a, post, harms, ha, hpre⟩ := List.findSome?_eq_some_iff.mp h
    obtain ⟨r, hr, hc'⟩ := Option.map_eq_some_iff.mp ha
    obtain ⟨u, hu⟩ := eq_of_afterFirst hr
    refine ⟨(Bool.not_eq_true _).mp hstopped, pre, a, post, u, r, harms, ?_, hu, hc'.symm⟩
    intro b hb
    exact (afterFirst_eq_none_iff b.marker_ne _).mp (Option.map_eq_none_iff.mp (hpre b hb))

theorem fire_eq_none_iff (c : Conf α σ) :
    fire arms c = none ↔ c.stopped = true ∨ ∀ a ∈ arms, ¬ a.marker <:+: c.buffer := by
  rw [fire]
  split
  next hstopped => simp [hstopped]
  next hstopped =>
    rw [List.findSome?_eq_none_iff, or_iff_right hstopped]
    apply forall₂_congr
    intro a _
    rw [Arm.fire, Option.map_eq_none_iff, afterFirst_eq_none_iff a.marker_ne]

theorem length_lt_of_fire {c c' : Conf α σ} (h : fire arms c = some c') :
    c'.buffer.length < c.buffer.length := by
  obtain ⟨-, _, a, _, u, r, -, -, hbuf, rfl⟩ := fire_cases h
  have hpos := List.length_pos_iff.mpr a.marker_ne
  rw [hbuf]
  simp only [List.length_append]
  omega

theorem fire_settle (fuel : Nat) (c : Conf α σ) (hfuel : c.buffer.length ≤ fuel) :
    fire arms (settle arms fuel c) = none := by
  induction fuel generalizing c with
  | zero =>
      have hnil : c.buffer = [] := List.eq_nil_of_length_eq_zero (Nat.le_zero.mp hfuel)
      rw [settle, fire_eq_none_iff, hnil]
      exact Or.inr fun a _ h => a.marker_ne (List.infix_nil.mp h)
  | succ fuel ih =>
      rw [settle]
      split
      next hnone => exact hnone
      next c' hfire =>
        apply ih
        have := length_lt_of_fire hfire
        omega

theorem settle_induction (arms : List (Arm α σ)) {P : Conf α σ → Prop}
    (hfire : ∀ c c', P c → fire arms c = some c' → P c') (fuel : Nat) (c : Conf α σ)
    (h : P c) : P (settle arms fuel c) := by
  induction fuel generalizing c with
  | zero => exact h
  | succ fuel ih =>
      rw [settle]
      split
      next => exact h
      next c' hc' => exact ih c' (hfire c c' h hc')

theorem receive_induction {P : Conf α σ → Prop} {chunk : List α}
    (happend : ∀ c, P c → P (c.append chunk))
    (hfire : ∀ c c', P c → fire arms c = some c' → P c') {c : Conf α σ} (h : P c) :
    P (receive arms c chunk) :=
  settle_induction arms hfire _ _ (happend c h)

/-- No arm matches in what is left after the last chunk. -/
theorem fire_run (v : σ) (chunks : List (List α)) :
    fire arms (run arms v chunks) = none := by
  induction chunks using List.reverseRecOn with
  | nil =>
      rw [fire_eq_none_iff]
      exact Or.inr fun a _ h => a.marker_ne (List.infix_nil.mp h)
  | append_singleton chunks chunk _ =>
      rw [run, List.foldl_append]
      exact fire_settle _ _ (Nat.le_refl _)

/-- A relation between the output received and the state of the command that every
    chunk and every firing keep. -/
theorem run_induction (arms : List (Arm α σ)) {P : List α → Conf α σ → Prop} {v : σ}
    (hstart : P [] ⟨v, [], false⟩)
    (happend : ∀ t c chunk, P t c → P (t ++ chunk) (c.append chunk))
    (hfire : ∀ t c c', P t c → fire arms c = some c' → P t c') (chunks : List (List α)) :
    P chunks.flatten (run arms v chunks) := by
  induction chunks using List.reverseRecOn with
  | nil => exact hstart
  | append_singleton chunks chunk ih =>
      rw [run, List.foldl_append, List.flatten_append, List.flatten_singleton]
      apply settle_induction arms (hfire _)
      exact happend _ _ chunk ih

/-! ## What does not depend on the chunks -/

theorem suffix_of_fire {c c' : Conf α σ} (h : fire arms c = some c') :
    c'.buffer <:+ c.buffer := by
  obtain ⟨-, _, a, _, u, r, -, -, hbuf, rfl⟩ := fire_cases h
  exact ⟨u ++ a.marker, hbuf.symm⟩

section Occurrence

variable {pre post : List (Arm α σ)} {a : Arm α σ} {x y : List α}

/-- A firing of another arm leaves an undiscarded occurrence of the marker of `a`
    undiscarded, when no arm before `a` has its marker after the occurrence. -/
theorem Ahead.fire {t s : List α} {c c' : Conf α σ}
    (hapart : ∀ b ∈ pre ++ post, Apart b.marker a.marker)
    (hlater : ∀ b ∈ pre, ¬ b.marker <:+: y)
    (h : Ahead t x c) (ht : t ++ s = x ++ a.marker ++ y)
    (hfire : Expect.fire (pre ++ a :: post) c = some c') :
    c' = ⟨a.act c.value, c'.buffer, !a.continues⟩ ∨ Ahead t x c' := by
  obtain ⟨-, pre', b, post', u, r, harms, hpre, hbuf, rfl⟩ := fire_cases hfire
  have hahead := h
  obtain ⟨d, rfl, hd⟩ := h
  have hocc : (d ++ u) ++ b.marker ++ (r ++ s) = x ++ a.marker ++ y := by
    rw [← ht, hbuf]
    simp only [List.append_assoc]
  -- an arm whose occurrence does not lie after that of `a` discards nothing of it
  have hsplit (hb : b ∈ pre ++ post) (hafter : ¬ x.length + a.marker.length ≤ (d ++ u).length) :
      Ahead (d ++ c.buffer) x (⟨b.act c.value, r, !b.continues⟩ : Conf α σ) := by
    have hbefore := ((hapart b hb).cases hocc).resolve_right hafter
    refine ⟨d ++ u ++ b.marker, ?_, ?_⟩
    · rw [hbuf]
      simp only [List.append_assoc]
    · rw [List.length_append]
      exact hbefore
  rcases position_cases harms with hb | rfl | ⟨hb, ha⟩
  · -- an arm before `a`: its marker does not come later
    right
    apply hsplit (List.mem_append_left post hb)
    intro hafter
    apply hlater b hb
    have heq : (x ++ a.marker) ++ y ++ [] = (d ++ u) ++ b.marker ++ (r ++ s) := by
      rw [List.append_nil]
      exact hocc.symm
    apply infix_of_within heq (by rwa [List.length_append])
    have hlen := congrArg List.length hocc
    simp only [List.length_append] at hlen ⊢
    omega
  · exact Or.inl rfl
  · -- an arm after `a` fires only while the marker of `a` is incomplete
    right
    apply hsplit (List.mem_append_right pre hb)
    intro hafter
    apply hpre a ha
    apply hahead.mem_buffer ht
    rw [hbuf]
    simp only [List.length_append] at hafter ⊢
    omega

section Hit

variable {Hit : σ → Bool → Prop}

theorem hit_fire
    (hkeep : ∀ b ∈ arms, ∀ w, Hit w false → Hit (b.act w) (!b.continues))
    (c c' : Conf α σ) (h : Hit c.value c.stopped) (hfire : fire arms c = some c') :
    Hit c'.value c'.stopped := by
  obtain ⟨hstopped, pre, b, post, u, r, harms, -, -, rfl⟩ := fire_cases hfire
  rw [hstopped] at h
  exact hkeep b (harms ▸ by simp) _ h

/-- While an occurrence of the marker of `a` arrives, either `a` has fired or the
    occurrence is undiscarded. -/
theorem hit_or_ahead {v : σ}
    (hapart : ∀ b ∈ pre ++ post, Apart b.marker a.marker)
    (hlater : ∀ b ∈ pre, ¬ b.marker <:+: y)
    (hact : ∀ w, Hit (a.act w) (!a.continues))
    (hkeep : ∀ b ∈ pre ++ a :: post, ∀ w, Hit w false → Hit (b.act w) (!b.continues))
    (chunks : List (List α)) (hpre : chunks.flatten <+: x ++ a.marker ++ y) :
    Hit (run (pre ++ a :: post) v chunks).value (run (pre ++ a :: post) v chunks).stopped ∨
      Ahead chunks.flatten x (run (pre ++ a :: post) v chunks) := by
  revert hpre
  apply run_induction (pre ++ a :: post)
    (P := fun t c => t <+: x ++ a.marker ++ y → Hit c.value c.stopped ∨ Ahead t x c)
  · intro _
    exact Or.inr (Ahead.nil_left x v)
  · intro t c chunk h ht
    rcases h ((List.prefix_append t chunk).trans ht) with hhit | hahead
    · exact Or.inl hhit
    · exact Or.inr (hahead.append chunk)
  · intro t c c' h hfire ht
    rcases h ht with hhit | hahead
    · exact Or.inl (hit_fire hkeep c c' hhit hfire)
    · obtain ⟨s, hs⟩ := ht
      rcases hahead.fire hapart hlater hs hfire with heq | hahead'
      · rw [heq]
        exact Or.inl (hact c.value)
      · exact Or.inr hahead'

/-- The marker of `a` occurs in the output, and after it no marker of an arm that is
    tried before `a`: then `a` fires, or the command stops before, however the
    output is cut. `Hit` is what the firing of `a` makes true and no firing undoes. -/
theorem hit_of_occurrence (pre post : List (Arm α σ)) (a : Arm α σ)
    (Hit : σ → Bool → Prop) {v : σ}
    (hapart : ∀ b ∈ pre ++ post, Apart b.marker a.marker)
    (hlater : ∀ b ∈ pre, ¬ b.marker <:+: y)
    (hact : ∀ w, Hit (a.act w) (!a.continues)) (hstop : ∀ w, Hit w true)
    (hkeep : ∀ b ∈ pre ++ a :: post, ∀ w, Hit w false → Hit (b.act w) (!b.continues))
    (chunks rest : List (List α)) (htext : chunks.flatten = x ++ a.marker ++ y) :
    Hit (run (pre ++ a :: post) v (chunks ++ rest)).value
      (run (pre ++ a :: post) v (chunks ++ rest)).stopped := by
  induction rest using List.reverseRecOn with
  | nil =>
      rw [List.append_nil]
      rcases hit_or_ahead (v := v) hapart hlater hact hkeep chunks
        ⟨[], by rw [List.append_nil, htext]⟩ with hhit | hahead
      · exact hhit
      · -- all of the marker has arrived, so the command cannot be waiting
        have hmem : a.marker <:+: (run (pre ++ a :: post) v chunks).buffer := by
          apply hahead.mem_buffer (s := []) (by rw [List.append_nil, htext])
          rw [htext]
          simp only [List.length_append]
          omega
        rcases (fire_eq_none_iff _).mp (fire_run v chunks) with hstopped | hnone
        · rw [hstopped]
          exact hstop _
        · exact absurd hmem (hnone a (by simp))
  | append_singleton rest chunk ih =>
      -- what comes after the marker does not undo the firing
      rw [← List.append_assoc, run, List.foldl_append]
      exact receive_induction (P := fun c => Hit c.value c.stopped) (fun _ h => h)
        (hit_fire hkeep) ih

end Hit

end Occurrence

/-! ## Arms that all go on -/

/-- A value that all arms set is the last one, or the value is still the first. -/
theorem const_value_eq_or {v v₀ : σ} (hact : ∀ b ∈ arms, ∀ w, b.act w = v₀)
    (chunks : List (List α)) :
    (run arms v chunks).value = v ∨ (run arms v chunks).value = v₀ := by
  apply run_induction arms (P := fun _ c => c.value = v ∨ c.value = v₀)
  · exact Or.inl rfl
  · exact fun _ _ _ h => h
  · intro t c c' _ hfire
    obtain ⟨-, pre, b, post, u, r, harms, -, -, rfl⟩ := fire_cases hfire
    exact Or.inr (hact b (by rw [harms]; simp) _)

/-- Arms that all go on and all set `v₀` have set it exactly when the output has
    anything for them to match. -/
theorem const_value_iff {v v₀ : σ} (hne : v ≠ v₀) (hact : ∀ b ∈ arms, ∀ w, b.act w = v₀)
    (hcont : ∀ b ∈ arms, b.continues = true) (chunks : List (List α)) :
    (run arms v chunks).value = v₀ ↔ ∃ b ∈ arms, b.marker <:+: chunks.flatten := by
  have hrun : (run arms v chunks).stopped = false ∧
      (((run arms v chunks).value = v ∧ (run arms v chunks).buffer = chunks.flatten) ∨
        ((run arms v chunks).value = v₀ ∧ ∃ b ∈ arms, b.marker <:+: chunks.flatten)) := by
    apply run_induction arms (P := fun t c => c.stopped = false ∧
      ((c.value = v ∧ c.buffer = t) ∨ (c.value = v₀ ∧ ∃ b ∈ arms, b.marker <:+: t)))
    · exact ⟨rfl, Or.inl ⟨rfl, rfl⟩⟩
    · rintro t c chunk ⟨hstopped, hc⟩
      refine ⟨hstopped, hc.imp ?_ ?_⟩
      · rintro ⟨hvalue, rfl⟩
        exact ⟨hvalue, rfl⟩
      · rintro ⟨hvalue, b, hb, hmarker⟩
        exact ⟨hvalue, b, hb, hmarker.trans (List.prefix_append t chunk).isInfix⟩
    · rintro t c c' ⟨-, hc⟩ hfire
      obtain ⟨-, pre, b, post, u, r, harms, -, hbuf, rfl⟩ := fire_cases hfire
      have hb : b ∈ arms := by
        rw [harms]
        simp
      refine ⟨by simp [hcont b hb], Or.inr ⟨hact b hb _, ?_⟩⟩
      rcases hc with ⟨-, rfl⟩ | ⟨-, hmarker⟩
      · exact ⟨b, hb, u, r, hbuf.symm⟩
      · exact hmarker
  obtain ⟨hstopped, ⟨hvalue, hbuffer⟩ | ⟨hvalue, hmarker⟩⟩ := hrun
  · rw [hvalue]
    refine iff_of_false hne ?_
    rintro ⟨b, hb, hmarker⟩
    have hfire : fire arms (run arms v chunks) = none := fire_run v chunks
    rcases (fire_eq_none_iff _).mp hfire with hstop | hnone
    · rw [hstopped] at hstop
      cases hstop
    · rw [hbuffer] at hnone
      exact hnone b hb hmarker
  · exact iff_of_true hvalue hmarker

end UprobeTests.Expect
