import Vardar.Lib.ByteMemory

/-!
# Records in memory

A layout says how a record of some type lies in memory: its size, how it is read, and its encoding
as a list of bytes, which is read back. An array of records grows by a copy of a record behind its
last element; copies outside an array leave it.

## Main definitions

* `ByteMemory.Holds`: a list of bytes is in memory from an address on.
* `ByteMemory.bytes`: the bytes of a number. `ByteMemory.move`: copy a range.
* `ByteMemory.Layout`, `ByteMemory.Layout.array`.

## Main results

* `ByteMemory.load_of_holds`.
* `ByteMemory.Layout.array_move`, `ByteMemory.Layout.array_congr`.
-/

namespace ByteMemory

variable {m m' : Mem} {a n : ℕ} {l l' : List (BitVec 8)} {b : BitVec 8}

/-! ### Bytes in memory -/

/-- The bytes of a list are in memory from `a` on. -/
def Holds (m : Mem) : ℕ → List (BitVec 8) → Prop
  | _, [] => True
  | a, b :: l => m a = b ∧ Holds m (a + 1) l

instance decidableHolds (m : Mem) : (a : ℕ) → (l : List (BitVec 8)) → Decidable (Holds m a l)
  | _, [] => instDecidableTrue
  | a, b :: l =>
    have := decidableHolds m (a + 1) l
    inferInstanceAs (Decidable (m a = b ∧ Holds m (a + 1) l))

@[simp] theorem holds_nil (m : Mem) (a : ℕ) : Holds m a [] := trivial

@[simp] theorem holds_cons : Holds m a (b :: l) ↔ m a = b ∧ Holds m (a + 1) l := Iff.rfl

@[simp] theorem holds_append : Holds m a (l ++ l') ↔ Holds m a l ∧ Holds m (a + l.length) l' := by
  induction l generalizing a with
  | nil => simp
  | cons b l ih =>
    rw [List.cons_append, holds_cons, holds_cons, ih, List.length_cons, and_assoc]
    rw [show a + (l.length + 1) = a + 1 + l.length by omega]

theorem Holds.congr (hm : ∀ x, a ≤ x → x < a + l.length → m x = m' x) (h : Holds m a l) :
    Holds m' a l := by
  induction l generalizing a with
  | nil => trivial
  | cons b l ih =>
    rw [List.length_cons] at hm
    refine ⟨(hm a le_rfl (by omega)).symm.trans h.1, ih (fun x hx hx' => ?_) h.2⟩
    exact hm x (by omega) (by omega)

/-- A copy of bytes. -/
theorem Holds.copy {a' : ℕ} (hm : ∀ i < l.length, m' (a' + i) = m (a + i)) (h : Holds m a l) :
    Holds m' a' l := by
  induction l generalizing a a' with
  | nil => trivial
  | cons b l ih =>
    rw [List.length_cons] at hm
    refine ⟨(hm 0 (by omega)).trans h.1, ih (fun i hi => ?_) h.2⟩
    rw [Nat.add_assoc, Nat.add_assoc, Nat.add_comm 1]
    exact hm (i + 1) (by omega)

/-- A memory that has a list from an address on holds every part of it. -/
theorem holds_getD (a : ℕ) (pre l post : List (BitVec 8)) :
    Holds (fun x => (pre ++ (l ++ post)).getD (x - a) 0) (a + pre.length) l := by
  induction l generalizing pre with
  | nil => trivial
  | cons b l ih =>
    refine ⟨by simp, ?_⟩
    have hrest := ih (pre ++ [b])
    rw [List.append_assoc, List.singleton_append, List.length_append, List.length_singleton,
      ← add_assoc] at hrest
    exact hrest

/-- The little-endian bytes of a number. -/
def bytes : ℕ → ℕ → List (BitVec 8)
  | 0, _ => []
  | n + 1, v => BitVec.ofNat 8 v :: bytes n (v / 256)

@[simp] theorem length_bytes (n v : ℕ) : (bytes n v).length = n := by
  induction n generalizing v with
  | zero => rfl
  | succ n ih => rw [bytes, List.length_cons, ih]

theorem load_of_holds {v : ℕ} (h : Holds m a (bytes n v)) : load m a n = v % 256 ^ n := by
  induction n generalizing a v with
  | zero => simp [Nat.mod_one]
  | succ n ih =>
    rw [load_succ, h.1, ih h.2, BitVec.toNat_ofNat, pow_succ' 256 n, Nat.mod_mul]

/-- A bit vector read back from its bytes. -/
theorem ofNat_load_of_holds {v : BitVec (8 * n)} (h : Holds m a (bytes n v.toNat)) :
    BitVec.ofNat (8 * n) (load m a n) = v := by
  have hpow : (256 : ℕ) ^ n = 2 ^ (8 * n) := by
    rw [show (256 : ℕ) = 2 ^ 8 by norm_num, ← pow_mul]
  rw [load_of_holds h, hpow, Nat.mod_eq_of_lt v.isLt, BitVec.ofNat_toNat, BitVec.setWidth_eq]

/-- Loads at the same place in two ranges of equal bytes. -/
theorem load_congr_add {a' size : ℕ} (h : ∀ i < size, m (a + i) = m' (a' + i)) (k : ℕ)
    (hk : k + n ≤ size) : load m (a + k) n = load m' (a' + k) n := by
  induction n generalizing k with
  | zero => rfl
  | succ n ih =>
    rw [load_succ, load_succ, h k (by omega), add_assoc, add_assoc, ih (k + 1) (by omega)]

/-! ### Copies -/

/-- Copy the `n` bytes from `src` on to `dst`, through a place outside the memory. -/
def move (m : Mem) (dst src n : ℕ) : Mem := fun x =>
  if dst ≤ x ∧ x < dst + n then m (src + (x - dst)) else m x

theorem move_of_notMem {dst src x : ℕ} (h : x < dst ∨ dst + n ≤ x) : move m dst src n x = m x :=
  if_neg (by omega)

theorem move_add {dst src i : ℕ} (h : i < n) : move m dst src n (dst + i) = m (src + i) := by
  rw [move, if_pos (by omega), Nat.add_sub_cancel_left]

/-! ### Records -/

/-- How records of a type lie in memory. -/
structure Layout (α : Type*) where
  /-- The number of bytes of a record. -/
  size : ℕ
  /-- The record at an address. -/
  read : Mem → ℕ → α
  /-- The bytes of a record. -/
  encode : α → List (BitVec 8)
  length_encode : ∀ r, (encode r).length = size
  read_congr : ∀ {m m' a a'}, (∀ i < size, m (a + i) = m' (a' + i)) → read m a = read m' a'
  read_encode : ∀ {m a r}, Holds m a (encode r) → read m a = r

namespace Layout

variable {α : Type*} (L : Layout α)

/-- The first `n` elements of an array. -/
def array (m : Mem) (a n : ℕ) : List α := (List.range n).map fun i => L.read m (a + L.size * i)

@[simp] theorem array_zero (m : Mem) (a : ℕ) : L.array m a 0 = [] := rfl

theorem array_succ (m : Mem) (a n : ℕ) :
    L.array m a (n + 1) = L.array m a n ++ [L.read m (a + L.size * n)] := by
  rw [array, List.range_succ, List.map_append, List.map_singleton]
  rfl

theorem length_array (m : Mem) (a n : ℕ) : (L.array m a n).length = n := by
  rw [array, List.length_map, List.length_range]

/-- An array depends on its bytes only. -/
theorem array_congr (h : ∀ x, a ≤ x → x < a + L.size * n → m x = m' x) :
    L.array m a n = L.array m' a n := by
  apply List.map_congr_left
  intro i hi
  have hle : L.size * i + L.size ≤ L.size * n := by
    rw [← Nat.mul_succ]
    exact Nat.mul_le_mul_left _ (List.mem_range.mp hi)
  apply L.read_congr
  intro j hj
  exact h _ (by omega) (by omega)

/-- Copying a record behind the last element appends it. -/
theorem array_move (m : Mem) (a n src : ℕ) :
    L.array (move m (a + L.size * n) src L.size) a (n + 1) =
      L.array m a n ++ [L.read m src] := by
  rw [array_succ]
  congr 1
  · exact L.array_congr fun x _ hx' => move_of_notMem (Or.inl hx')
  · congr 1
    exact L.read_congr fun i hi => move_add hi

end Layout

end ByteMemory
