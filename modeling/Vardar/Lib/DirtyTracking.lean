import Mathlib.Data.Set.Basic

/-!
# Dirty tracking

Rows are drawn in a back buffer and copied to the front later. Each row belongs to a band, and the
bands that have been drawn to are recorded as dirty. The record is sound when every visible row
whose front differs from its back lies in a dirty band.

## Main definitions

* `DirtyTracking`, `DirtyTracking.Sound`.

## Main results

* `DirtyTracking.Sound.draw`, `DirtyTracking.Sound.flush`: the rules for drawing and for copying a
  band to the front.
* `DirtyTracking.Sound.front_eq_back`: without dirty bands the front is the back.
-/

/-- The rows in front, the rows in the back buffer and the dirty bands. -/
structure DirtyTracking (R B V : Type*) where
  front : R → V
  back : R → V
  dirty : Set B

namespace DirtyTracking

variable {R B V : Type*} {band : R → B} {visible : Set R} {s s' : DirtyTracking R B V}

/-- Every visible row that differs lies in a dirty band. -/
def Sound (band : R → B) (visible : Set R) (s : DirtyTracking R B V) : Prop :=
  ∀ r ∈ visible, s.front r ≠ s.back r → band r ∈ s.dirty

/-- Drawing to some rows keeps the record sound if their bands are dirty afterwards. -/
theorem Sound.draw (hs : Sound band visible s) (T : Set R) (hfront : s'.front = s.front)
    (hback : ∀ r ∉ T, s'.back r = s.back r) (hsub : s.dirty ⊆ s'.dirty)
    (hmark : ∀ r ∈ T, r ∈ visible → band r ∈ s'.dirty) : Sound band visible s' := by
  intro r hr hne
  by_cases hT : r ∈ T
  · exact hmark r hT hr
  · rw [hfront, hback r hT] at hne
    exact hsub (hs r hr hne)

/-- Copying a band to the front makes it clean. -/
theorem Sound.flush (hs : Sound band visible s) (b : B) (hback : s'.back = s.back)
    (hcopy : ∀ r ∈ visible, band r = b → s'.front r = s.back r)
    (hkeep : ∀ r ∈ visible, band r ≠ b → s'.front r = s.front r)
    (hdirty : ∀ c ∈ s.dirty, c ≠ b → c ∈ s'.dirty) : Sound band visible s' := by
  intro r hr hne
  by_cases hb : band r = b
  · rw [hback, hcopy r hr hb] at hne
    exact absurd rfl hne
  · rw [hback, hkeep r hr hb] at hne
    exact hdirty _ (hs r hr hne) hb

/-- A row in a clean band is shown. -/
theorem Sound.front_eq_back (hs : Sound band visible s) {r : R} (hr : r ∈ visible)
    (hclean : band r ∉ s.dirty) : s.front r = s.back r := by
  by_contra hne
  exact hclean (hs r hr hne)

end DirtyTracking
