import Mathlib.Data.BitVec
import Mathlib.Data.List.Basic
import Mathlib.Tactic.Ring

/-!
# A stack of quadwords

A stack grows towards lower addresses by quadwords. Its memory gives the quadword at each address;
two of them at a distance that is a multiple of 8 do not overlap.

## Main definitions

* `QuadStack`, `QuadStack.push`, `QuadStack.top`, `QuadStack.drop`.
* `QuadStack.pushAll`: push a list of values, first to last.

## Main results

* `QuadStack.pushAll_mem_slot`, `QuadStack.pushAll_mem_sp_add`: the values on the stack after
  pushing a list.
-/

/-- The stack pointer and the memory. -/
structure QuadStack where
  sp : BitVec 64
  mem : BitVec 64 → BitVec 64

namespace QuadStack

variable (s : QuadStack)

/-- Push a value. -/
def push (v : BitVec 64) : QuadStack := ⟨s.sp - 8, Function.update s.mem (s.sp - 8) v⟩

/-- The value that is pushed last. -/
def top : BitVec 64 := s.mem s.sp

/-- Take the value that is pushed last away. -/
def drop : QuadStack := ⟨s.sp + 8, s.mem⟩

/-- Push a list of values. -/
def pushAll (vs : List (BitVec 64)) : QuadStack := vs.foldl push s

/-- The address of the value with number `j` of a list. -/
def slot (sp : BitVec 64) (j : ℕ) : BitVec 64 := sp - BitVec.ofNat 64 (8 * (j + 1))

theorem slot_succ (sp : BitVec 64) (j : ℕ) : slot (sp - 8) j = slot sp (j + 1) := by
  rw [slot, slot, sub_sub, show 8 * (j + 1 + 1) = 8 + 8 * (j + 1) by ring, BitVec.ofNat_add]
  rfl

theorem slot_ne (sp : BitVec 64) {j : ℕ} (hj : j + 1 < 2 ^ 61) : slot sp j ≠ sp := by
  rw [slot, Ne, sub_eq_self, ← BitVec.toNat_inj, BitVec.toNat_ofNat]
  change ¬ 8 * (j + 1) % 2 ^ 64 = 0
  omega

variable {s}

theorem pushAll_sp (vs : List (BitVec 64)) :
    (s.pushAll vs).sp = s.sp - BitVec.ofNat 64 (8 * vs.length) := by
  induction vs generalizing s with
  | nil => exact (sub_zero s.sp).symm
  | cons v vs ih =>
    change ((s.push v).pushAll vs).sp = _
    rw [ih, List.length_cons, show 8 * (vs.length + 1) = 8 + 8 * vs.length by ring,
      BitVec.ofNat_add, ← sub_sub]
    rfl

/-- Other quadwords are unchanged. -/
theorem pushAll_mem_of_ne {vs : List (BitVec 64)} {a : BitVec 64}
    (h : ∀ j < vs.length, a ≠ slot s.sp j) : (s.pushAll vs).mem a = s.mem a := by
  induction vs generalizing s with
  | nil => rfl
  | cons v vs ih =>
    change ((s.push v).pushAll vs).mem a = _
    rw [List.length_cons] at h
    rw [ih fun j hj => ?_]
    · exact Function.update_of_ne (h 0 (by omega)) _ _
    · exact (slot_succ s.sp j) ▸ h (j + 1) (by omega)

/-- The values of a list are on the stack, the first one at the highest address. -/
theorem pushAll_mem_slot {vs : List (BitVec 64)} (hlen : vs.length < 2 ^ 61) {j : ℕ}
    {v : BitVec 64} (hv : vs[j]? = some v) : (s.pushAll vs).mem (slot s.sp j) = v := by
  induction vs generalizing s j with
  | nil => exact absurd hv (by simp)
  | cons w vs ih =>
    change ((s.push w).pushAll vs).mem _ = _
    rw [List.length_cons] at hlen
    cases j with
    | zero =>
      obtain rfl := Option.some.inj hv
      rw [pushAll_mem_of_ne]
      · exact Function.update_self _ _ _
      · intro i hi
        exact (slot_ne (s.sp - 8) (by omega)).symm
    | succ j =>
      rw [← slot_succ]
      exact ih (by omega) hv

/-- The values of a list from the stack pointer on, the last one first. -/
theorem pushAll_mem_sp_add {vs : List (BitVec 64)} (hlen : vs.length < 2 ^ 61) {i : ℕ}
    {v : BitVec 64} (hv : vs.reverse[i]? = some v) :
    (s.pushAll vs).mem ((s.pushAll vs).sp + BitVec.ofNat 64 (8 * i)) = v := by
  have hi : i < vs.length := by
    have := (List.getElem?_eq_some_iff.mp hv).1
    rwa [List.length_reverse] at this
  rw [List.getElem?_reverse hi] at hv
  have hslot : (s.pushAll vs).sp + BitVec.ofNat 64 (8 * i) = slot s.sp (vs.length - 1 - i) := by
    have hsum : 8 * vs.length = 8 * i + 8 * (vs.length - 1 - i + 1) := by omega
    rw [pushAll_sp, slot, hsum, BitVec.ofNat_add]
    ring
  rw [hslot]
  exact pushAll_mem_slot hlen hv

theorem pushAll_append (vs ws : List (BitVec 64)) :
    s.pushAll (vs ++ ws) = (s.pushAll vs).pushAll ws :=
  List.foldl_append

end QuadStack
