/-
  UprobeTests.Lib.ByteMem

  Byte-addressed memory with little-endian loads and stores of a chosen
  number of bytes.  Accesses may overlap: a store is described byte by byte,
  and the load lemmas say what an access sees of an earlier store that covers
  the same bytes, none of them, or a prefix and a suffix of them.
-/

import Mathlib.Tactic.Ring
import Mathlib.Tactic.Linarith

namespace UprobeTests.ByteMem

abbrev Byte := BitVec 8

/-- A memory: every address holds one byte. -/
abbrev Mem := Nat → Byte

/-- Little-endian load of `n` bytes at `a`. -/
def load (m : Mem) (a : Nat) : Nat → Nat
  | 0 => 0
  | n + 1 => (m a).toNat + 256 * load m (a + 1) n

/-- Little-endian store of the low `n` bytes of `v` at `a`. -/
def store (m : Mem) (a n v : Nat) : Mem := fun b =>
  if a ≤ b ∧ b < a + n then BitVec.ofNat 8 (v / 256 ^ (b - a)) else m b

/-! ## Loads -/

theorem load_lt (m : Mem) (a n : Nat) : load m a n < 256 ^ n := by
  induction n generalizing a with
  | zero => simp [load]
  | succ n ih =>
      have hb : (m a).toNat < 256 := (m a).isLt
      have ht := ih (a + 1)
      simp only [load, Nat.pow_succ]
      omega

/-- A load depends only on the bytes it covers. -/
theorem load_congr {m m' : Mem} {a n : Nat}
    (h : ∀ b, a ≤ b → b < a + n → m b = m' b) : load m a n = load m' a n := by
  induction n generalizing a with
  | zero => rfl
  | succ n ih =>
      have htail : load m (a + 1) n = load m' (a + 1) n :=
        ih fun b hb hb' => h b (by omega) (by omega)
      simp only [load, htail, h a (Nat.le_refl a) (by omega)]

/-- A load of `n + k` bytes is a low part of `n` bytes and a high part of `k`. -/
theorem load_add (m : Mem) (a n k : Nat) :
    load m a (n + k) = load m a n + 256 ^ n * load m (a + n) k := by
  induction n generalizing a with
  | zero => simp [load]
  | succ n ih =>
      -- both sides take the byte at `a` off
      rw [show n + 1 + k = (n + k) + 1 by omega]
      simp only [load, ih (a + 1), Nat.pow_succ, show a + 1 + n = a + (n + 1) by omega]
      ring

/-! ## Loads after a store -/

theorem store_apply_of_lt {m : Mem} {a n v b : Nat} (h : b < a) : store m a n v b = m b := by
  simp only [store]
  rw [if_neg (by omega)]

theorem store_apply_of_ge {m : Mem} {a n v b : Nat} (h : a + n ≤ b) :
    store m a n v b = m b := by
  simp only [store]
  rw [if_neg (by omega)]

/-- A load that covers none of the stored bytes sees the memory before the store. -/
theorem load_store_disjoint {m : Mem} {a n v c k : Nat} (h : c + k ≤ a ∨ a + n ≤ c) :
    load (store m a n v) c k = load m c k := by
  apply load_congr
  intro b hb hb'
  rcases h with h | h
  · exact store_apply_of_lt (by omega)
  · exact store_apply_of_ge (by omega)

/-- A load inside the stored bytes reads the corresponding digits of the value. -/
theorem load_store_within {m : Mem} {a n v j k : Nat} (h : j + k ≤ n) :
    load (store m a n v) (a + j) k = v / 256 ^ j % 256 ^ k := by
  induction k generalizing j with
  | zero => simp [load, Nat.mod_one]
  | succ k ih =>
      -- the head byte is digit `j` of the value, the tail starts at digit `j + 1`
      have hhead : (store m a n v (a + j)).toNat = v / 256 ^ j % 256 := by
        simp only [store]
        rw [if_pos ⟨by omega, by omega⟩, Nat.add_sub_cancel_left, BitVec.toNat_ofNat]
      have htail : load (store m a n v) (a + j + 1) k = v / 256 ^ (j + 1) % 256 ^ k :=
        ih (j := j + 1) (by omega)
      simp only [load, hhead, htail]
      rw [Nat.pow_succ, ← Nat.div_div_eq_div_mul, Nat.pow_succ', Nat.mod_mul]

theorem load_store_same {m : Mem} {a n v : Nat} :
    load (store m a n v) a n = v % 256 ^ n := by
  simpa using load_store_within (m := m) (a := a) (n := n) (v := v) (j := 0) (k := n) (by omega)

/-! ## Byte strings -/

/-- The `n` bytes at `a`. -/
def bytes (m : Mem) (a n : Nat) : List Byte := (List.range' a n).map m

/-- Write the bytes `bs` at `a`. -/
def write (m : Mem) (a : Nat) (bs : List Byte) : Mem := fun b =>
  if a ≤ b ∧ b < a + bs.length then bs.getD (b - a) 0 else m b

@[simp] theorem length_bytes (m : Mem) (a n : Nat) : (bytes m a n).length = n := by
  simp [bytes]

theorem bytes_add (m : Mem) (a n k : Nat) :
    bytes m a (n + k) = bytes m a n ++ bytes m (a + n) k := by
  rw [bytes, bytes, bytes, ← List.map_append, List.range'_append_1]

/-- A string is made of its bytes. -/
theorem bytes_congr {m m' : Mem} {a n : Nat}
    (h : ∀ b, a ≤ b → b < a + n → m b = m' b) : bytes m a n = bytes m' a n := by
  apply List.map_congr_left
  intro b hb
  rw [List.mem_range'_1] at hb
  exact h b hb.1 hb.2

theorem bytes_write_disjoint {m : Mem} {a c n : Nat} {bs : List Byte}
    (h : c + n ≤ a ∨ a + bs.length ≤ c) : bytes (write m a bs) c n = bytes m c n := by
  apply bytes_congr
  intro b hb hb'
  rw [write, if_neg (by omega)]

theorem bytes_write_same (m : Mem) (a : Nat) (bs : List Byte) :
    bytes (write m a bs) a bs.length = bs := by
  apply List.ext_getElem (length_bytes _ _ _)
  intro i hi hi'
  simp only [bytes, List.getElem_map, List.getElem_range', Nat.one_mul, write]
  rw [if_pos ⟨by omega, by omega⟩, Nat.add_sub_cancel_left, List.getD_eq_getElem?_getD,
    List.getElem?_eq_getElem hi', Option.getD_some]

/-- The beginning of what has been written. -/
theorem bytes_write_prefix (m : Mem) (a : Nat) (bs bs' : List Byte) :
    bytes (write m a (bs ++ bs')) a bs.length = bs := by
  -- the whole string, cut behind its first part
  have hall := bytes_write_same m a (bs ++ bs')
  rw [List.length_append, bytes_add] at hall
  exact (List.append_inj hall (length_bytes _ _ _)).1

end UprobeTests.ByteMem
