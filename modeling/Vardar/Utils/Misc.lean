import Mathlib.Data.BitVec
import Mathlib.Data.Nat.Init

/-!
# The kernel's bit helpers

`SetNthBit` shifts an `int`: the processor takes the count modulo 32, and the shifted number is
extended with its sign. So it never sets just one of the bits from 31 on. `ClearNthBit` and
`GetNthBit` shift 64-bit numbers.

## Main definitions

* `Vardar.setNthBit`, `Vardar.clearNthBit`, `Vardar.getNthBit`.

## Main results

* `Vardar.getLsbD_setNthBit`, `Vardar.getLsbD_clearNthBit`, `Vardar.getNthBit_eq_one_iff`.
-/

namespace Vardar

/-- `SetNthBit`. -/
def setNthBit (num : BitVec 64) (n : ℕ) : BitVec 64 :=
  num ||| (1#32 <<< (n % 32)).signExtend 64

/-- `ClearNthBit`. -/
def clearNthBit (num : BitVec 64) (n : ℕ) : BitVec 64 := num &&& ~~~(1#64 <<< (n % 64))

/-- `GetNthBit`. -/
def getNthBit (num : BitVec 64) (n : ℕ) : BitVec 64 := num >>> (n % 64) &&& 1#64

theorem getLsbD_setNthBit (num : BitVec 64) (n : ℕ) {i : ℕ} (hi : i < 64) :
    (setNthBit num n).getLsbD i =
      (num.getLsbD i || decide (i = n % 32 ∨ (n % 32 = 31 ∧ 31 ≤ i))) := by
  rw [setNthBit, BitVec.getLsbD_or, BitVec.getLsbD_signExtend]
  congr 1
  have hone : ∀ k, (1#32 <<< (n % 32)).getLsbD k = decide (k = n % 32) := by
    intro k
    rw [BitVec.getLsbD_shiftLeft, BitVec.getLsbD_one]
    by_cases hk : k = n % 32
    · simp [hk, Nat.mod_lt]
    · have hsub : ¬ (n % 32 ≤ k ∧ k - n % 32 = 0) := by omega
      by_cases hlt : k < n % 32
      · simp [hk, hlt]
      · have hne : ¬ k - n % 32 = 0 := by omega
        simp [hk, hne]
  have hmsb : (1#32 <<< (n % 32)).msb = decide (n % 32 = 31) := by
    rw [BitVec.msb_eq_getLsbD_last, hone]
    simp [eq_comm]
  by_cases hlt : i < 32
  · rw [hone]
    by_cases hn : n % 32 = 31
    · have h : i = 31 ↔ 31 ≤ i := by omega
      simp [hi, hlt, hn, h]
    · simp [hi, hlt, hn]
  · rw [hmsb]
    have hne : i ≠ n % 32 := by omega
    have hle : 31 ≤ i := by omega
    simp [hi, hlt, hne, hle]

theorem getLsbD_clearNthBit (num : BitVec 64) {n : ℕ} (hn : n < 64) (i : ℕ) :
    (clearNthBit num n).getLsbD i = (num.getLsbD i && decide (i ≠ n)) := by
  rw [clearNthBit, Nat.mod_eq_of_lt hn, BitVec.getLsbD_and, BitVec.getLsbD_not,
    BitVec.getLsbD_shiftLeft, BitVec.getLsbD_one]
  by_cases hi : i < 64
  · by_cases hin : i = n
    · simp [hin, hn]
    · by_cases hlt : i < n
      · simp [hi, hin, hlt]
      · have hne : ¬ i - n = 0 := by omega
        simp [hi, hin, hne]
  · rw [BitVec.getLsbD_of_ge num i (by omega)]
    simp

theorem getNthBit_eq_one_iff (num : BitVec 64) {n : ℕ} (hn : n < 64) :
    getNthBit num n = 1#64 ↔ num.getLsbD n = true := by
  rw [getNthBit, Nat.mod_eq_of_lt hn, BitVec.and_one_eq_setWidth_ofBool_getLsbD,
    BitVec.getLsbD_ushiftRight, Nat.add_zero]
  cases num.getLsbD n
  · decide
  · decide

end Vardar
