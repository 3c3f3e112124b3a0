import Mathlib.Data.Nat.Bitwise
import Mathlib.Tactic.Ring

/-!
# Machine words as natural numbers

A machine word is a natural number below a power of two, and every operation that can leave the
range reduces its result. This file has the 64-bit sum and difference with their values when
nothing wraps, and the value of a mask of consecutive bits and of an `or` that fills in low bits.

## Main definitions

* `Word.add64`, `Word.sub64`: addition and subtraction modulo `2 ^ 64`.
* `Word.int32`, `Word.u64`: conversion to a signed 32-bit and to an unsigned 64-bit number.

## Main results

* `Word.land_mask`: the bits `l, …, l + k - 1` of a word, in place.
* `Word.lor_of_dvd`: filling the low bits of an aligned word is addition.
-/

namespace Word

/-- Addition of 64-bit words. -/
@[irreducible] def add64 (a b : ℕ) : ℕ := (a + b) % 2 ^ 64

/-- Subtraction of 64-bit words. -/
@[irreducible] def sub64 (a b : ℕ) : ℕ := (a + (2 ^ 64 - b % 2 ^ 64)) % 2 ^ 64

/-- Conversion to a signed 32-bit number. -/
def int32 (i : ℤ) : ℤ := i.bmod (2 ^ 32)

/-- Conversion to an unsigned 64-bit number. -/
def u64 (i : ℤ) : ℕ := (i % 2 ^ 64).toNat

theorem int32_natCast {n : ℕ} (h : n < 2 ^ 31) : int32 n = n := by
  rw [int32, Int.bmod_def]
  omega

theorem int32_natCast_add_one {n : ℕ} (h : n + 1 < 2 ^ 31) :
    int32 ((n : ℤ) + 1) = ((n + 1 : ℕ) : ℤ) :=
  int32_natCast h

theorem u64_natCast {n : ℕ} (h : n < 2 ^ 64) : u64 n = n := by
  rw [u64]
  omega

/-- A number that is negative as an `int` is larger as an unsigned one. -/
theorem le_u64_int32 {n : ℕ} (hn : n < 2 ^ 32) : n ≤ u64 (int32 n) := by
  rw [u64, int32, Int.bmod_def]
  omega

theorem add64_of_lt {a b : ℕ} (h : a + b < 2 ^ 64) : add64 a b = a + b := by
  rw [add64, Nat.mod_eq_of_lt h]

theorem add64_lt (a b : ℕ) : add64 a b < 2 ^ 64 := by
  rw [add64]
  exact Nat.mod_lt _ (by decide)

theorem sub64_of_le {a b : ℕ} (hb : b ≤ a) (ha : a < 2 ^ 64) : sub64 a b = a - b := by
  have hb' : b % 2 ^ 64 = b := Nat.mod_eq_of_lt (by omega)
  rw [sub64, hb']
  omega

/-- The bits `l, …, l + k - 1` of `w`, in place. -/
theorem land_mask (w k l : ℕ) : w &&& (2 ^ k - 1) * 2 ^ l = w / 2 ^ l % 2 ^ k * 2 ^ l := by
  apply Nat.eq_of_testBit_eq
  intro i
  simp only [Nat.testBit_and, Nat.testBit_mul_two_pow, Nat.testBit_two_pow_sub_one,
    Nat.testBit_mod_two_pow, Nat.testBit_div_two_pow]
  by_cases hl : l ≤ i
  · simp only [hl, decide_true, Bool.true_and, Nat.sub_add_cancel hl]
    exact Bool.and_comm _ _
  · simp [hl]

/-- Filling the low bits of a multiple of `2 ^ i` is addition. -/
theorem lor_of_dvd {a b i : ℕ} (ha : 2 ^ i ∣ a) (hb : b < 2 ^ i) : a ||| b = a + b := by
  obtain ⟨c, rfl⟩ := ha
  exact (Nat.two_pow_add_eq_or_of_lt hb c).symm

theorem land_one (w : ℕ) : w &&& 1 = w % 2 :=
  Nat.and_one_is_mod w

/-- Setting the lowest bit of an even word. -/
theorem lor_one_of_even {a : ℕ} (ha : a % 2 = 0) : a ||| 1 = a + 1 :=
  lor_of_dvd (i := 1) (Nat.dvd_of_mod_eq_zero ha) (by decide)

end Word
