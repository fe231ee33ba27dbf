/-
  UprobeTests.Symbols

  uprobes.w/symbols.h: lookups in the generated table `user_symbols` and the
  cursor loop `for_each_glob` over the entries whose name starts with a glob.
  The loop visits the matching entries in table order (`forEachGlob_eq`).
-/

import UprobeTests.KernelApi

namespace UprobeTests

structure Symbol where
  path : String
  offset : Loff
  name : String
deriving DecidableEq, Repr

/-- `strncmp(a,b,n) == 0`. -/
def strncmpEq (a b : String) (n : Nat) : Bool := a.toList.take n == b.toList.take n

/-- `strnlen(s,n)`. -/
def strnlen (s : String) (n : Nat) : Nat := min s.length n

/-- `find_inode` over the rest of the table. -/
def findInode (o : Outcomes) (name : String) : List Symbol → Kern → Option Inode × Kern
  | [], k => (none, k)
  | s :: syms, k =>
      if name = s.name then
        match k.kernPath o s.path with
        | (none, k) => (none, k)
        -- the path is not put again
        | (some inode, k) => (some inode, k.igrab inode)
      else findInode o name syms k

/-- `find_offset`. -/
def findOffset (name : String) : List Symbol → Loff
  | [] => 0
  | s :: syms => if name = s.name then s.offset else findOffset name syms

/-- The loop of `glob_names` from index `i` on: the first match and its index. -/
def globFrom (name : String) (size : Nat) : Nat → List Symbol → Option (Nat × String)
  | _, [] => none
  | i, s :: syms =>
      if strncmpEq s.name name size then some (i, s.name) else globFrom name size (i + 1) syms

/-- `glob_names(name,&next,size)`: what it returns, and `*next` after it. -/
def globNames (syms : List Symbol) (name : String) (next size : Nat) : Option (Nat × String) :=
  globFrom name size next (syms.drop next)

/-- The offset all entries with the name agree on, if there is one. -/
theorem findOffset_eq {name : String} {syms : List Symbol} {offset : Loff}
    (h : ∃ s ∈ syms, s.name = name) (hall : ∀ s ∈ syms, s.name = name → s.offset = offset) :
    findOffset name syms = offset := by
  induction syms with
  | nil =>
      obtain ⟨s, hs, -⟩ := h
      exact absurd hs List.not_mem_nil
  | cons s syms ih =>
      rw [findOffset]
      split
      · rename_i hname
        exact hall s List.mem_cons_self hname.symm
      · rename_i hname
        refine ih ?_ fun s' hs' => hall s' (List.mem_cons_of_mem _ hs')
        obtain ⟨s', hs', hname'⟩ := h
        rcases List.mem_cons.mp hs' with rfl | hs'
        · exact absurd hname'.symm hname
        · exact ⟨s', hs', hname'⟩

/-- `find_inode` takes references and changes nothing else. -/
theorem findInode_frame (o : Outcomes) (name : String) (syms : List Symbol) (k : Kern) :
    ∃ kernPathCalls pathRefs inodeRefs, (findInode o name syms k).2 =
      { k with kernPathCalls := kernPathCalls, pathRefs := pathRefs, inodeRefs := inodeRefs } := by
  induction syms with
  | nil => exact ⟨_, _, _, rfl⟩
  | cons s syms ih =>
      rw [findInode]
      split
      · rw [Kern.kernPath]
        split
        · rename_i heq
          split at heq <;> cases heq
          exact ⟨_, _, _, rfl⟩
        · rename_i heq
          split at heq <;> cases heq
          exact ⟨_, _, _, rfl⟩
      · exact ih

section ForEachGlob

variable {S R : Type} (syms : List Symbol) (glob : String)
  (body : Nat → String → S → Option R × S)

/-- The loop of `for_each_glob` for at most the given number of turns; a body
    that yields a result leaves the loop. -/
def forEachGlobLoop : Nat → Nat → S → Option R × S
  | 0, _, s => (none, s)
  | turns + 1, next, s =>
      match globNames syms glob next (strnlen glob 20) with
      | none => (none, s)
      | some (next, found) =>
          match body next found s with
          | (some r, s) => (some r, s)
          | (none, s) => forEachGlobLoop turns (next + 1) s

/-- `for_each_glob(next,glob,found) body`; the cursor grows with every turn, so
    the table length bounds the turns. -/
def forEachGlob (s : S) : Option R × S := forEachGlobLoop syms glob body (syms.length + 1) 0 s

/-- The name starts with the part of `glob` that is compared. -/
def Symbol.Matches (glob : String) (s : Symbol) : Prop :=
  strncmpEq s.name glob (strnlen glob 20) = true

instance (s : Symbol) : Decidable (s.Matches glob) := inferInstanceAs (Decidable (_ = true))

/-- Index and name of the matching entries, the first entry having index `i`. -/
def globMatches : Nat → List Symbol → List (Nat × String)
  | _, [] => []
  | i, s :: syms =>
      if s.Matches glob then (i, s.name) :: globMatches (i + 1) syms
      else globMatches (i + 1) syms

/-- Run the body on each element until it yields a result. -/
def runEach : List (Nat × String) → S → Option R × S
  | [], s => (none, s)
  | (next, found) :: rest, s =>
      match body next found s with
      | (some r, s) => (some r, s)
      | (none, s) => runEach rest s

end ForEachGlob

/-! ## The loop visits the matches -/

theorem globMatches_eq_nil_iff {glob : String} {i : Nat} {syms : List Symbol} :
    globMatches glob i syms = [] ↔ ∀ s ∈ syms, ¬ s.Matches glob := by
  induction syms generalizing i with
  | nil => simp [globMatches]
  | cons s syms ih =>
      rw [globMatches, List.forall_mem_cons]
      by_cases hs : s.Matches glob
      · simp [hs]
      · rw [if_neg hs, ih]
        exact ⟨fun h => ⟨hs, h⟩, fun h => h.2⟩

/-- One scan of `glob_names` finds the head of the matches and leaves the rest. -/
theorem globFrom_spec (glob : String) (i : Nat) (syms : List Symbol) :
    match globFrom glob (strnlen glob 20) i syms with
    | none => globMatches glob i syms = []
    | some (next, found) => i ≤ next ∧ next < i + syms.length ∧
        globMatches glob i syms =
          (next, found) :: globMatches glob (next + 1) (syms.drop (next + 1 - i)) := by
  induction syms generalizing i with
  | nil => rfl
  | cons s syms ih =>
      rw [globFrom, globMatches]
      by_cases hs : strncmpEq s.name glob (strnlen glob 20) = true
      · have hmatch : s.Matches glob := hs
        rw [if_pos hs, if_pos hmatch]
        -- the head matches: the scan stops at once
        refine ⟨Nat.le_refl i, by simp, ?_⟩
        rw [Nat.add_sub_cancel_left]
        rfl
      · have hmatch : ¬ s.Matches glob := hs
        rw [if_neg hs, if_neg hmatch]
        -- the scan goes on behind the head
        have htail := ih (i + 1)
        split at htail
        · exact htail
        · rename_i next found _
          obtain ⟨hle, hlt, heq⟩ := htail
          refine ⟨by omega, by simp only [List.length_cons]; omega, ?_⟩
          rw [heq, show next + 1 - i = (next + 1 - (i + 1)) + 1 by omega, List.drop_succ_cons]

variable {S R : Type}

theorem forEachGlobLoop_eq (syms : List Symbol) (glob : String)
    (body : Nat → String → S → Option R × S) {turns next : Nat}
    (hturns : syms.length < turns + next) (s : S) :
    forEachGlobLoop syms glob body turns next s =
      runEach body (globMatches glob next (syms.drop next)) s := by
  induction turns generalizing next s with
  | zero =>
      rw [List.drop_eq_nil_of_le (by omega)]
      rfl
  | succ turns ih =>
      have hscan := globFrom_spec glob next (syms.drop next)
      rw [forEachGlobLoop, globNames]
      cases hfound : globFrom glob (strnlen glob 20) next (syms.drop next) with
      | none =>
          rw [hfound] at hscan
          rw [hscan]
          rfl
      | some x =>
          rw [hfound] at hscan
          obtain ⟨next', found⟩ := x
          obtain ⟨hle, hlt, heq⟩ := hscan
          rw [heq, runEach]
          -- the rest of the table, seen from the new cursor
          have hdrop : (syms.drop next).drop (next' + 1 - next) = syms.drop (next' + 1) := by
            rw [List.drop_drop, show next + (next' + 1 - next) = next' + 1 by omega]
          rw [hdrop]
          simp only [ih (show syms.length < turns + (next' + 1) by omega)]

/-- `for_each_glob` runs its body on the matching entries, in table order. -/
theorem forEachGlob_eq (syms : List Symbol) (glob : String)
    (body : Nat → String → S → Option R × S) (s : S) :
    forEachGlob syms glob body s = runEach body (globMatches glob 0 syms) s :=
  forEachGlobLoop_eq syms glob body (by omega) s

/-- What every turn keeps holds at the end, however the loop is left. -/
theorem runEach_invariant {body : Nat → String → S → Option R × S} {I : S → Prop}
    (hbody : ∀ next found s, I s → I (body next found s).2) (l : List (Nat × String)) {s : S}
    (hs : I s) : I (runEach body l s).2 := by
  induction l generalizing s with
  | nil => exact hs
  | cons x l ih =>
      have hx := hbody x.1 x.2 s hs
      rw [runEach]
      split
      · rename_i r s' heq
        rwa [heq] at hx
      · rename_i s' heq
        rw [heq] at hx
        exact ih hx

/-! ## The turns of the loop -/

/-- The cursor and `found` of every turn of `for_each_glob` from the cursor
    `next` on; `none` when the loop has not ended after `turns` tests. -/
def forEachGlobVisits (syms : List Symbol) (glob : String) : Nat → Nat →
    Option (List (Nat × String))
  | 0, _ => none
  | turns + 1, next =>
      match globNames syms glob next (strnlen glob 20) with
      | none => some []
      | some (next, found) =>
          (forEachGlobVisits syms glob turns (next + 1)).map fun rest => (next, found) :: rest

theorem forEachGlobVisits_eq (syms : List Symbol) (glob : String) {turns next : Nat}
    (hpos : 0 < turns) (hturns : syms.length < turns + next) :
    forEachGlobVisits syms glob turns next = some (globMatches glob next (syms.drop next)) := by
  induction turns generalizing next with
  | zero => omega
  | succ turns ih =>
      have hscan := globFrom_spec glob next (syms.drop next)
      rw [forEachGlobVisits, globNames]
      cases hfound : globFrom glob (strnlen glob 20) next (syms.drop next) with
      | none =>
          rw [hfound] at hscan
          rw [hscan]
      | some x =>
          rw [hfound] at hscan
          obtain ⟨next', found⟩ := x
          obtain ⟨hle, hlt, heq⟩ := hscan
          have hdrop : (syms.drop next).drop (next' + 1 - next) = syms.drop (next' + 1) := by
            rw [List.drop_drop, show next + (next' + 1 - next) = next' + 1 by omega]
          rw [List.length_drop] at hlt
          rw [heq, hdrop]
          simp only [ih (show 0 < turns by omega) (show syms.length < turns + (next' + 1) by omega)]
          rfl

/-- The comparison with `strnlen(glob,20)` characters asks for a common beginning. -/
theorem Symbol.matches_iff (glob : String) (s : Symbol) :
    s.Matches glob ↔ glob.toList.take (min glob.length 20) <+: s.name.toList := by
  have hlen : (glob.toList.take (min glob.length 20)).length = min glob.length 20 := by
    rw [List.length_take, String.length_toList]
    omega
  rw [Symbol.Matches, strncmpEq, strnlen, beq_iff_eq, List.prefix_iff_eq_take, hlen, eq_comm]

theorem mem_globMatches {glob : String} {i j : Nat} {name : String} {syms : List Symbol} :
    (j, name) ∈ globMatches glob i syms ↔
      i ≤ j ∧ ∃ s, syms[j - i]? = some s ∧ s.name = name ∧ s.Matches glob := by
  induction syms generalizing i with
  | nil => simp [globMatches]
  | cons s syms ih =>
      by_cases hij : j = i
      · -- only the head can have index `i`
        subst hij
        have htail : (j, name) ∉ globMatches glob (j + 1) syms := fun hmem =>
          absurd (ih.mp hmem).1 (by omega)
        rw [globMatches, Nat.sub_self, List.getElem?_cons_zero]
        by_cases hs : s.Matches glob
        · simp [hs, htail, eq_comm]
        · simp [hs, htail]
      · have hhead : (j, name) ∈ globMatches glob i (s :: syms) ↔
            (j, name) ∈ globMatches glob (i + 1) syms := by
          rw [globMatches]
          split
          · simp [hij]
          · rfl
        rw [hhead, ih]
        constructor
        · rintro ⟨hle, hsome⟩
          rw [show j - i = (j - (i + 1)) + 1 by omega, List.getElem?_cons_succ]
          exact ⟨by omega, hsome⟩
        · rintro ⟨hle, hsome⟩
          rw [show j - i = (j - (i + 1)) + 1 by omega, List.getElem?_cons_succ] at hsome
          exact ⟨by omega, hsome⟩

/-- The cursor grows from turn to turn. -/
theorem globMatches_pairwise (glob : String) (i : Nat) (syms : List Symbol) :
    (globMatches glob i syms).Pairwise fun a b => a.1 < b.1 := by
  induction syms generalizing i with
  | nil => exact List.Pairwise.nil
  | cons s syms ih =>
      rw [globMatches]
      split
      · refine List.pairwise_cons.mpr ⟨?_, ih (i + 1)⟩
        intro x hx
        have hle : i + 1 ≤ x.1 := (mem_globMatches.mp hx).1
        omega
      · exact ih (i + 1)

/-- The loop ends, for every table and every glob, and what it visits are the
    entries whose name begins with the compared part of `glob`: each of them
    once, in table order, with the entry's index in the cursor. -/
theorem forEachGlob_visits (syms : List Symbol) (glob : String) :
    ∃ visits, (∀ turns > syms.length, forEachGlobVisits syms glob turns 0 = some visits) ∧
      (visits.Pairwise fun a b => a.1 < b.1) ∧
      ∀ next found, (next, found) ∈ visits ↔
        ∃ s, syms[next]? = some s ∧ s.name = found ∧
          glob.toList.take (min glob.length 20) <+: s.name.toList := by
  refine ⟨globMatches glob 0 syms, ?_, globMatches_pairwise glob 0 syms, ?_⟩
  · intro turns hturns
    exact forEachGlobVisits_eq syms glob (by omega) (by omega)
  · intro next found
    rw [mem_globMatches]
    simp only [Nat.zero_le, true_and, Nat.sub_zero, Symbol.matches_iff]

/-! ## The entry a name is looked up at -/

/-- The first entry of the name, the one both lookups take. -/
def firstNamed (name : String) (syms : List Symbol) : Option Symbol :=
  syms.find? fun s => name = s.name

theorem exists_firstNamed {s : Symbol} {syms : List Symbol} (h : s ∈ syms) :
    ∃ e, firstNamed s.name syms = some e := by
  apply Option.isSome_iff_exists.mp
  rw [firstNamed, List.find?_isSome]
  exact ⟨s, h, decide_eq_true rfl⟩

theorem findOffset_of_firstNamed {name : String} {syms : List Symbol} {e : Symbol}
    (h : firstNamed name syms = some e) : findOffset name syms = e.offset := by
  induction syms with
  | nil => cases h
  | cons s syms ih =>
      rw [firstNamed, List.find?_cons] at h
      rw [findOffset]
      by_cases hname : name = s.name
      · rw [decide_eq_true hname] at h
        cases h
        exact if_pos hname
      · rw [decide_eq_false hname] at h
        rw [if_neg hname]
        exact ih h

/-- `find_inode` of a name in the table is one call of `kern_path`, on the path
    of the first entry of that name. -/
theorem findInode_of_firstNamed (o : Outcomes) {name : String} {syms : List Symbol} {e : Symbol}
    (h : firstNamed name syms = some e) (k : Kern) :
    (findInode o name syms k).1 = o.kernPath k.kernPathCalls e.path ∧
      (findInode o name syms k).2.kernPathCalls = k.kernPathCalls + 1 := by
  induction syms with
  | nil => cases h
  | cons s syms ih =>
      rw [firstNamed, List.find?_cons] at h
      rw [findInode]
      by_cases hname : name = s.name
      · rw [decide_eq_true hname] at h
        cases h
        rw [if_pos hname, Kern.kernPath]
        cases hpath : o.kernPath k.kernPathCalls e.path with
        | none => exact ⟨rfl, rfl⟩
        | some inode => exact ⟨rfl, rfl⟩
      · rw [decide_eq_false hname] at h
        rw [if_neg hname]
        exact ih h

/-- What the loop visits, by name. -/
theorem globMatches_map_snd (glob : String) (i : Nat) (syms : List Symbol) :
    (globMatches glob i syms).map Prod.snd =
      (syms.filter fun s => s.Matches glob).map Symbol.name := by
  induction syms generalizing i with
  | nil => rfl
  | cons s syms ih =>
      rw [globMatches, List.filter_cons]
      by_cases hs : s.Matches glob
      · rw [if_pos hs, if_pos (decide_eq_true hs), List.map_cons, List.map_cons, ih]
      · rw [if_neg hs, if_neg (by simpa using hs), ih]

end UprobeTests
