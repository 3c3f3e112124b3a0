import Mathlib.Data.List.Basic
import Mathlib.Data.Nat.Basic

/-!
# Lists that tile an interval

A list of objects, each covering an interval `[lo b, hi b)` of natural numbers, tiles `[p, e)`
when the intervals follow one another without gap from `p` to `e`. Tilings concatenate, lie inside
the interval they tile, and their members are disjoint in list order; a run of consecutive members
may be replaced by any tiling of the same interval.

## Main definitions

* `Tiling.Tiles`.

## Main results

* `Tiling.tiles_append`, `Tiling.Tiles.splice`, `Tiling.Tiles.bounds`, `Tiling.Tiles.pairwise`.
-/

namespace Tiling

variable {α : Type*} {lo hi : α → ℕ}

/-- The intervals `[lo b, hi b)` of the list follow one another from `p` to `e`. -/
def Tiles (lo hi : α → ℕ) : ℕ → List α → ℕ → Prop
  | p, [], e => p = e
  | p, b :: bs, e => lo b = p ∧ lo b ≤ hi b ∧ Tiles lo hi (hi b) bs e

@[simp] theorem tiles_nil {p e : ℕ} : Tiles lo hi p [] e ↔ p = e := Iff.rfl

@[simp] theorem tiles_cons {p e : ℕ} {b : α} {bs : List α} :
    Tiles lo hi p (b :: bs) e ↔ lo b = p ∧ lo b ≤ hi b ∧ Tiles lo hi (hi b) bs e := Iff.rfl

instance decidableTiles (lo hi : α → ℕ) : ∀ p bs e, Decidable (Tiles lo hi p bs e)
  | p, [], e => inferInstanceAs (Decidable (p = e))
  | p, b :: bs, e =>
    have := decidableTiles lo hi (hi b) bs e
    inferInstanceAs (Decidable (lo b = p ∧ lo b ≤ hi b ∧ Tiles lo hi (hi b) bs e))

theorem tiles_append {p e : ℕ} {xs ys : List α} :
    Tiles lo hi p (xs ++ ys) e ↔ ∃ q, Tiles lo hi p xs q ∧ Tiles lo hi q ys e := by
  induction xs generalizing p with
  | nil => simp
  | cons b xs ih =>
    simp only [List.cons_append, tiles_cons, ih]
    constructor
    · rintro ⟨h, hle, q, hx, hy⟩
      exact ⟨q, ⟨h, hle, hx⟩, hy⟩
    · rintro ⟨q, ⟨h, hle, hx⟩, hy⟩
      exact ⟨h, hle, q, hx, hy⟩

namespace Tiles

theorem le {p e : ℕ} {bs : List α} (h : Tiles lo hi p bs e) : p ≤ e := by
  induction bs generalizing p with
  | nil => exact Nat.le_of_eq h
  | cons b bs ih => exact h.1 ▸ Nat.le_trans h.2.1 (ih h.2.2)

/-- Every member lies inside the tiled interval. -/
theorem bounds {p e : ℕ} {bs : List α} (h : Tiles lo hi p bs e) {b : α} (hb : b ∈ bs) :
    p ≤ lo b ∧ lo b ≤ hi b ∧ hi b ≤ e := by
  obtain ⟨xs, ys, rfl⟩ := List.append_of_mem hb
  obtain ⟨q, hx, hq, hle, hy⟩ := tiles_append.mp h
  exact ⟨hq ▸ hx.le, hle, hy.le⟩

/-- Members are disjoint, in list order. -/
theorem pairwise {p e : ℕ} {bs : List α} (h : Tiles lo hi p bs e) :
    bs.Pairwise fun a b => hi a ≤ lo b := by
  induction bs generalizing p with
  | nil => exact List.Pairwise.nil
  | cons b bs ih => exact List.Pairwise.cons (fun c hc => (h.2.2.bounds hc).1) (ih h.2.2)

/-- Replace a run of members by another tiling of the same interval. -/
theorem splice {p e : ℕ} {xs ys ys' zs : List α} (h : Tiles lo hi p (xs ++ (ys ++ zs)) e)
    (hys : ∀ q r, Tiles lo hi q ys r → Tiles lo hi q ys' r) :
    Tiles lo hi p (xs ++ (ys' ++ zs)) e := by
  obtain ⟨q, hx, hyz⟩ := tiles_append.mp h
  obtain ⟨r, hy, hz⟩ := tiles_append.mp hyz
  exact tiles_append.mpr ⟨q, hx, tiles_append.mpr ⟨r, hys q r hy, hz⟩⟩

/-- A tiling by members of positive length is no longer than the interval. -/
theorem length_le {p e : ℕ} {bs : List α} (h : Tiles lo hi p bs e)
    (hpos : ∀ b ∈ bs, lo b < hi b) : p + bs.length ≤ e := by
  induction bs generalizing p with
  | nil => exact Nat.le_of_eq h
  | cons b bs ih =>
    have htail := ih h.2.2 fun c hc => hpos c (List.mem_cons_of_mem b hc)
    have hb := hpos b List.mem_cons_self
    have hp := h.1
    rw [List.length_cons]
    omega

end Tiles

end Tiling
