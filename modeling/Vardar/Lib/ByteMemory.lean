import Mathlib.Data.BitVec
import Mathlib.Data.List.Basic
import Mathlib.Tactic.Ring

/-!
# Byte-addressed memory

A memory gives a byte at every address. Words are read and written little-endian; a load of `n`
bytes is a number below `256 ^ n`, and a store of a larger number keeps its low `n` bytes. The
lemmas say what a load sees after a store, a fill or a copy: the written word at the same
address, the old word at any address whose bytes are all outside the written range.

## Main definitions

* `ByteMemory.Mem`, `ByteMemory.load`, `ByteMemory.store`, `ByteMemory.fill`,
  `ByteMemory.copyUp`, `ByteMemory.copyDown`.

## Main results

* `ByteMemory.load_store_self`, `ByteMemory.load_store_of_disjoint`, `ByteMemory.load_congr`.
* `ByteMemory.load_fill_zero`.
* `ByteMemory.copyUp_apply`, `ByteMemory.copyDown_apply`: a copy in the direction away from the
  overlap moves the old bytes.
-/

namespace ByteMemory

/-- A byte at every address. -/
abbrev Mem : Type := ℕ → BitVec 8

/-- The little-endian number in the `n` bytes from `a` on. -/
def load (m : Mem) (a : ℕ) : ℕ → ℕ
  | 0 => 0
  | n + 1 => (m a).toNat + 256 * load m (a + 1) n

/-- Write the low `n` bytes of `v` from `a` on. -/
def store (m : Mem) (a n v : ℕ) : Mem := fun x =>
  if a ≤ x ∧ x < a + n then BitVec.ofNat 8 (v / 256 ^ (x - a)) else m x

/-- Set the `n` bytes from `a` on to `v`. -/
def fill (m : Mem) (a : ℕ) (v : BitVec 8) (n : ℕ) : Mem := fun x =>
  if a ≤ x ∧ x < a + n then v else m x

variable {m m' : Mem} {a b k n v : ℕ}

/-! ### Loads -/

@[simp] theorem load_zero (m : Mem) (a : ℕ) : load m a 0 = 0 := rfl

theorem load_succ (m : Mem) (a n : ℕ) :
    load m a (n + 1) = (m a).toNat + 256 * load m (a + 1) n := rfl

theorem load_lt (m : Mem) (a n : ℕ) : load m a n < 256 ^ n := by
  induction n generalizing a with
  | zero => simp
  | succ n ih =>
    have h := ih (a + 1)
    have hb := (m a).isLt
    rw [load_succ, pow_succ]
    omega

/-- A load depends on its bytes only. -/
theorem load_congr (h : ∀ x, a ≤ x → x < a + n → m x = m' x) : load m a n = load m' a n := by
  induction n generalizing a with
  | zero => rfl
  | succ n ih =>
    rw [load_succ, load_succ, h a le_rfl (by omega), ih fun x hx hx' => h x (by omega) (by omega)]

/-! ### Stores -/

theorem store_of_notMem {x : ℕ} (h : x < a ∨ a + n ≤ x) : store m a n v x = m x :=
  if_neg (by omega)

/-- Storing a word and loading it back keeps its low bytes. -/
theorem load_store_self (m : Mem) (a n v : ℕ) : load (store m a n v) a n = v % 256 ^ n := by
  induction n generalizing a v m with
  | zero => simp [Nat.mod_one]
  | succ n ih =>
    have hhead : store m a (n + 1) v a = BitVec.ofNat 8 v := by simp [store]
    have htail : load (store m a (n + 1) v) (a + 1) n =
        load (store m (a + 1) n (v / 256)) (a + 1) n := by
      apply load_congr
      intro x hx hx'
      have hexp : x - a = (x - (a + 1)) + 1 := by omega
      simp only [store, hx, hx', and_self, if_true, show a ≤ x ∧ x < a + (n + 1) by omega]
      rw [hexp, pow_succ', Nat.div_div_eq_div_mul]
    rw [load_succ, hhead, htail, ih, BitVec.toNat_ofNat, pow_succ' 256 n, Nat.mod_mul]

theorem load_store_of_disjoint (h : a + n ≤ b ∨ b + k ≤ a) :
    load (store m a n v) b k = load m b k :=
  load_congr fun x hx hx' => store_of_notMem (by omega)

/-- The byte of a store of one byte. -/
theorem store_byte (m : Mem) (a v : ℕ) : store m a 1 v a = BitVec.ofNat 8 v := by
  rw [store, if_pos (by omega), Nat.sub_self, pow_zero, Nat.div_one]

/-! ### Fills -/

theorem fill_of_mem {x : ℕ} {c : BitVec 8} (h : a ≤ x ∧ x < a + n) : fill m a c n x = c :=
  if_pos h

theorem fill_of_notMem {x : ℕ} {c : BitVec 8} (h : x < a ∨ a + n ≤ x) : fill m a c n x = m x :=
  if_neg (by omega)

/-- Words inside a zeroed range are zero. -/
theorem load_fill_zero (h : a ≤ b) (h' : b + k ≤ a + n) : load (fill m a 0 n) b k = 0 := by
  induction k generalizing b with
  | zero => rfl
  | succ k ih =>
    rw [load_succ, ih (by omega) (by omega), fill_of_mem (by omega)]
    rfl

/-- A word all of whose bytes are zero. -/
theorem load_eq_zero (h : ∀ x, a ≤ x → x < a + n → m x = 0) : load m a n = 0 :=
  (load_congr fun x hx hx' => (h x hx hx').trans (fill_of_mem ⟨hx, hx'⟩).symm).trans
    (load_fill_zero (m := m) le_rfl le_rfl)

/-! ### Copies -/

/-- Copy `n` bytes from `src` to `dst` one after the other, lowest address first. -/
def copyUp (m : Mem) (dst src : ℕ) : ℕ → Mem
  | 0 => m
  | n + 1 => Function.update (copyUp m dst src n) (dst + n) (copyUp m dst src n (src + n))

/-- Copy `n` bytes from `src` to `dst` one after the other, highest address first. -/
def copyDown (m : Mem) (dst src : ℕ) : ℕ → Mem
  | 0 => m
  | n + 1 => copyDown (Function.update m (dst + n) (m (src + n))) dst src n

/-- Copying upwards to a lower address moves the old bytes. -/
theorem copyUp_apply {dst src : ℕ} (h : dst < src) (m : Mem) (n x : ℕ) :
    copyUp m dst src n x = if dst ≤ x ∧ x < dst + n then m (src + (x - dst)) else m x := by
  induction n generalizing x with
  | zero => rw [copyUp, if_neg (by omega)]
  | succ n ih =>
    rw [copyUp, Function.update_apply]
    split_ifs with hx hr hr
    · subst hx
      rw [ih, if_neg (by omega), Nat.add_sub_cancel_left]
    · omega
    · rw [ih, if_pos (by omega)]
    · rw [ih, if_neg (by omega)]

/-- Copying downwards to an address not below the source moves the old bytes. -/
theorem copyDown_apply {dst src : ℕ} (h : src ≤ dst) (m : Mem) (n x : ℕ) :
    copyDown m dst src n x = if dst ≤ x ∧ x < dst + n then m (src + (x - dst)) else m x := by
  induction n generalizing m with
  | zero => rw [copyDown, if_neg (by omega)]
  | succ n ih =>
    rw [copyDown, ih]
    split_ifs with hx hr hr
    · rw [Function.update_of_ne (by omega)]
    · omega
    · have hxn : x = dst + n := by omega
      subst hxn
      rw [Function.update_self, Nat.add_sub_cancel_left]
    · rw [Function.update_of_ne (by omega)]

end ByteMemory
