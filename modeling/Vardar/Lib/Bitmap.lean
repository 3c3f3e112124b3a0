import Vardar.Lib.ByteMemory

/-!
# A bitmap in byte memory

Bit `n` of the bitmap at `a` is bit `n % 8` of the byte at `a + n / 8`. Setting or clearing a bit
rewrites one byte and changes no other bit of the bitmap.

## Main definitions

* `Bitmap.bit`, `Bitmap.setBit`, `Bitmap.clearBit`.

## Main results

* `Bitmap.bit_setBit`, `Bitmap.bit_clearBit`: what every bit is after an update.
* `Bitmap.bit_congr`: a bit depends on its byte only.
-/

namespace Bitmap

open ByteMemory

/-- Bit `n` of the bitmap at `a`. -/
def bit (m : Mem) (a n : ℕ) : Bool := (m (a + n / 8)).getLsbD (n % 8)

/-- Set bit `n`. -/
def setBit (m : Mem) (a n : ℕ) : Mem :=
  Function.update m (a + n / 8) (m (a + n / 8) ||| 1#8 <<< (n % 8))

/-- Clear bit `n`. -/
def clearBit (m : Mem) (a n : ℕ) : Mem :=
  Function.update m (a + n / 8) (m (a + n / 8) &&& ~~~(1#8 <<< (n % 8)))

variable {m m' : Mem} {a n k x : ℕ}

theorem bit_congr (h : m (a + n / 8) = m' (a + n / 8)) : bit m a n = bit m' a n := by
  rw [bit, bit, h]

theorem setBit_of_ne (h : x ≠ a + n / 8) : setBit m a n x = m x :=
  Function.update_of_ne h _ _

theorem clearBit_of_ne (h : x ≠ a + n / 8) : clearBit m a n x = m x :=
  Function.update_of_ne h _ _

/-- Bit `i` of a byte with the single bit `j` set. -/
theorem getLsbD_one_shiftLeft {i j : ℕ} (hi : i < 8) (hj : j < 8) :
    (1#8 <<< j).getLsbD i = decide (i = j) := by
  have hall : ∀ i < 8, ∀ j < 8, (1#8 <<< j).getLsbD i = decide (i = j) := by decide
  exact hall i hi j hj

theorem bit_setBit (m : Mem) (a n k : ℕ) :
    bit (setBit m a n) a k = (bit m a k || decide (k = n)) := by
  by_cases hbyte : k / 8 = n / 8
  · have hiff : (k % 8 = n % 8) ↔ k = n := by omega
    rw [bit, setBit, hbyte, Function.update_self, BitVec.getLsbD_or,
      getLsbD_one_shiftLeft (Nat.mod_lt _ (by decide)) (Nat.mod_lt _ (by decide)), bit, hbyte]
    simp only [hiff]
  · have hne : k ≠ n := fun h => hbyte (by rw [h])
    rw [bit_congr (setBit_of_ne (by omega))]
    simp [hne]

theorem bit_clearBit (m : Mem) (a n k : ℕ) :
    bit (clearBit m a n) a k = (bit m a k && decide (k ≠ n)) := by
  by_cases hbyte : k / 8 = n / 8
  · have hiff : (k % 8 = n % 8) ↔ k = n := by omega
    have hk : k % 8 < 8 := Nat.mod_lt _ (by decide)
    rw [bit, clearBit, hbyte, Function.update_self, BitVec.getLsbD_and, BitVec.getLsbD_not,
      getLsbD_one_shiftLeft hk (Nat.mod_lt _ (by decide)), bit, hbyte]
    simp only [hiff, hk, decide_true, Bool.true_and, decide_not]
  · have hne : k ≠ n := fun h => hbyte (by rw [h])
    rw [bit_congr (clearBit_of_ne (by omega))]
    simp [hne]

end Bitmap
