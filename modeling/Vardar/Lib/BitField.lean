import Mathlib.Data.BitVec

/-!
# Bit fields

A field of `w` bits from bit `lo` on can be read and replaced in a word. Replacing it changes no bit
outside it.

## Main definitions

* `BitField.get`, `BitField.set`.
* `BitField.AgreeOutside`: two words agree on all bits outside a field.

## Main results

* `BitField.get_set`, `BitField.get_set_of_disjoint`.
-/

namespace BitField

variable {n w w' lo lo' : ℕ} {e e' : BitVec n}

/-- The `w` bits from `lo` on. -/
def get (lo w : ℕ) (e : BitVec n) : BitVec w := e.extractLsb' lo w

/-- Replace the `w` bits from `lo` on. -/
def set (lo : ℕ) (v : BitVec w) (e : BitVec n) : BitVec n :=
  e &&& ~~~((BitVec.allOnes w).setWidth n <<< lo) ||| v.setWidth n <<< lo

/-- The words agree on all bits outside the `w` bits from `lo` on. -/
def AgreeOutside (lo w : ℕ) (e e' : BitVec n) : Prop :=
  ∀ i, i < lo ∨ lo + w ≤ i → e.getLsbD i = e'.getLsbD i

theorem getLsbD_get (lo w : ℕ) (e : BitVec n) (i : ℕ) :
    (get lo w e).getLsbD i = (decide (i < w) && e.getLsbD (lo + i)) :=
  BitVec.getLsbD_extractLsb' ..

theorem getLsbD_set (h : lo + w ≤ n) (v : BitVec w) (e : BitVec n) (i : ℕ) :
    (set lo v e).getLsbD i =
      if lo ≤ i ∧ i < lo + w then v.getLsbD (i - lo) else e.getLsbD i := by
  simp only [set, BitVec.getLsbD_or, BitVec.getLsbD_and, BitVec.getLsbD_not,
    BitVec.getLsbD_shiftLeft, BitVec.getLsbD_setWidth, BitVec.getLsbD_allOnes]
  by_cases hin : i < n
  · by_cases hlo : i < lo
    · have hno : ¬ (lo ≤ i ∧ i < lo + w) := by omega
      simp [hin, hlo, hno]
    · by_cases hhi : i < lo + w
      · have hyes : lo ≤ i ∧ i < lo + w := by omega
        have hsub : i - lo < w := by omega
        have hsubn : i - lo < n := by omega
        simp [hin, hlo, hyes, hsub, hsubn]
      · have hno : ¬ (lo ≤ i ∧ i < lo + w) := by omega
        have hsub : ¬ i - lo < w := by omega
        have hzero : v.getLsbD (i - lo) = false := BitVec.getLsbD_of_ge _ _ (by omega)
        simp [hin, hlo, hno, hsub, hzero]
  · have hno : ¬ (lo ≤ i ∧ i < lo + w) := by omega
    have hzero : e.getLsbD i = false := BitVec.getLsbD_of_ge _ _ (by omega)
    simp [hin, hno, hzero]

theorem get_set (h : lo + w ≤ n) (v : BitVec w) (e : BitVec n) : get lo w (set lo v e) = v := by
  apply BitVec.eq_of_getLsbD_eq
  intro i hi
  rw [getLsbD_get, getLsbD_set h, if_pos (by omega), Nat.add_sub_cancel_left]
  simp [hi]

theorem get_set_of_disjoint (h : lo + w ≤ n) (hd : lo + w ≤ lo' ∨ lo' + w' ≤ lo) (v : BitVec w)
    (e : BitVec n) : get lo' w' (set lo v e) = get lo' w' e := by
  apply BitVec.eq_of_getLsbD_eq
  intro i hi
  rw [getLsbD_get, getLsbD_get, getLsbD_set h, if_neg (by omega)]

theorem AgreeOutside.refl (lo w : ℕ) (e : BitVec n) : AgreeOutside lo w e e := fun _ _ => rfl

end BitField
