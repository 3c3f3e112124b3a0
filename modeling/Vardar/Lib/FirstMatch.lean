import Mathlib.Data.List.Basic

/-!
# Searches for the first match

Two linear searches of one list, of which one has a stronger condition than the other, find the same
element if and only if no element that meets only the weaker condition comes first.

## Main results

* `FirstMatch.find?_eq_find?_iff_of_imp`.
-/

namespace FirstMatch

variable {α : Type*} {p q : α → Bool} {l : List α}

/-- Splits of a list with a first element. -/
theorem forall_split_cons {P : List α → α → Prop} {a : α} :
    (∀ l₁ x l₂, a :: l = l₁ ++ x :: l₂ → P l₁ x) ↔
      P [] a ∧ ∀ l₁ x l₂, l = l₁ ++ x :: l₂ → P (a :: l₁) x := by
  constructor
  · intro h
    exact ⟨h [] a l rfl, fun l₁ x l₂ heq => h (a :: l₁) x l₂ (by rw [heq]; rfl)⟩
  · rintro ⟨hfirst, hrest⟩ l₁ x l₂ heq
    cases l₁ with
    | nil =>
      obtain ⟨rfl, -⟩ := List.cons.inj heq
      exact hfirst
    | cons b l₁ =>
      obtain ⟨rfl, hl⟩ := List.cons.inj heq
      exact hrest l₁ x l₂ hl

/-- An element that does not meet the condition is not found. -/
theorem find?_ne_some_of_eq_false {a : α} (h : q a = false) : l.find? q ≠ some a := by
  intro hfind
  have hq := List.find?_some hfind
  rw [h] at hq
  exact absurd hq (by simp)

/-- The searches agree if every element that meets the weaker condition alone comes behind one that
meets both. -/
theorem find?_eq_find?_iff_of_imp (h : ∀ x ∈ l, q x = true → p x = true) :
    l.find? p = l.find? q ↔ ∀ l₁ x l₂, l = l₁ ++ x :: l₂ → p x = true → q x = false →
      ∃ y ∈ l₁, q y = true := by
  induction l with
  | nil => simp
  | cons a l ih =>
    rw [forall_split_cons (P := fun l₁ x => p x = true → q x = false → ∃ y ∈ l₁, q y = true)]
    cases hq : q a with
    | true =>
      have hp := h a List.mem_cons_self hq
      simp [hp, hq]
    | false =>
      have hskip : (a :: l).find? q = l.find? q := List.find?_cons_of_neg (by simp [hq])
      cases hp : p a with
      | true =>
        refine iff_of_false ?_ (by simp)
        rw [List.find?_cons_of_pos hp, hskip]
        exact (find?_ne_some_of_eq_false hq).symm
      | false =>
        have hskip' : (a :: l).find? p = l.find? p := List.find?_cons_of_neg (by simp [hp])
        rw [hskip, hskip', ih fun x hx => h x (List.mem_cons_of_mem _ hx)]
        simp [hq]

end FirstMatch
