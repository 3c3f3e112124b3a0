import Mathlib.Logic.Function.Iterate
import Mathlib.Logic.Relation
import Mathlib.Order.Basic

/-!
# Loops that may not end

A `while` loop is a condition and a body. It ends if the condition fails after some number of
rounds. A measure that grows in every round and is bounded while the condition holds shows that it
ends. For a relation between the states before and after a round, such a measure gives an induction
over the states reached.

## Main definitions

* `Loop.whileLoop`: the loop with a bound on its rounds. `Loop.Ends`.

## Main results

* `Loop.exists_whileLoop_iff`: some bound is enough if and only if the loop ends.
* `Loop.whileLoop_unique`: the result does not depend on the bound.
* `Loop.whileLoop_eq_iterate`: what the result is.
* `Loop.ends_of_measure`, `Loop.induction_of_measure`.
-/

namespace Loop

variable {σ : Type*} {c : σ → Prop} {f : σ → σ} {x : σ}

/-- The loop with condition `c` and body `f`, for fewer rounds than the bound. -/
def whileLoop (c : σ → Prop) [DecidablePred c] (f : σ → σ) : ℕ → σ → Option σ
  | 0, _ => none
  | fuel + 1, x => if c x then whileLoop c f fuel (f x) else some x

/-- The condition fails after some number of rounds. -/
def Ends (c : σ → Prop) (f : σ → σ) (x : σ) : Prop := ∃ n, ¬ c (f^[n] x)

/-- A round more. -/
theorem ends_of_ends_next (h : Ends c f (f x)) : Ends c f x := by
  obtain ⟨n, hn⟩ := h
  exact ⟨n + 1, hn⟩

/-- Some bound is enough if and only if the loop ends. -/
theorem exists_whileLoop_iff [DecidablePred c] :
    (∃ fuel y, whileLoop c f fuel x = some y) ↔ Ends c f x := by
  constructor
  · rintro ⟨fuel, y, h⟩
    induction fuel generalizing x with
    | zero => exact absurd h (Option.some_ne_none y).symm
    | succ fuel ih =>
      rw [whileLoop] at h
      split_ifs at h with hc
      · exact ends_of_ends_next (ih h)
      · exact ⟨0, hc⟩
  · rintro ⟨n, hn⟩
    induction n generalizing x with
    | zero => exact ⟨1, x, if_neg hn⟩
    | succ n ih =>
      by_cases hc : c x
      · obtain ⟨fuel, y, hy⟩ := ih hn
        exact ⟨fuel + 1, y, by rw [whileLoop, if_pos hc, hy]⟩
      · exact ⟨1, x, if_neg hc⟩

/-- The result does not depend on the bound. -/
theorem whileLoop_unique [DecidablePred c] {fuel fuel' : ℕ} {y y' : σ}
    (h : whileLoop c f fuel x = some y) (h' : whileLoop c f fuel' x = some y') : y = y' := by
  induction fuel generalizing x fuel' with
  | zero => exact absurd h (Option.some_ne_none y).symm
  | succ fuel ih =>
    cases fuel' with
    | zero => exact absurd h' (Option.some_ne_none y').symm
    | succ fuel' =>
      rw [whileLoop] at h h'
      split_ifs at h h' with hc
      · exact ih h h'
      · exact Option.some.inj (h.symm.trans h')

/-- The result is the state in which the condition fails first. -/
theorem whileLoop_eq_iterate [DecidablePred c] {n fuel : ℕ} (hc : ∀ i < n, c (f^[i] x))
    (hn : ¬ c (f^[n] x)) (hfuel : n < fuel) : whileLoop c f fuel x = some (f^[n] x) := by
  induction n generalizing x fuel with
  | zero =>
    obtain ⟨fuel, rfl⟩ := Nat.exists_eq_add_of_lt hfuel
    exact if_neg hn
  | succ n ih =>
    obtain ⟨fuel, rfl⟩ : ∃ k, fuel = k + 1 := ⟨fuel - 1, by omega⟩
    have hx : c x := hc 0 n.succ_pos
    rw [whileLoop, if_pos hx]
    exact ih (fun i hi => hc (i + 1) (Nat.succ_lt_succ hi)) hn (by omega)

/-- A loop ends if a measure grows in every round and is bounded while the condition holds. -/
theorem ends_of_measure (μ : σ → ℕ) (b : ℕ) (hb : ∀ y, c y → μ y < b)
    (hμ : ∀ n, c (f^[n] x) → μ (f^[n] x) < μ (f^[n + 1] x)) : Ends c f x := by
  by_contra hnot
  have hc : ∀ n, c (f^[n] x) := fun n => by_contra fun hn => hnot ⟨n, hn⟩
  have hge : ∀ n, n ≤ μ (f^[n] x) := by
    intro n
    induction n with
    | zero => exact Nat.zero_le _
    | succ n ih => exact Nat.lt_of_le_of_lt ih (hμ n (hc n))
  exact absurd (hge b) (Nat.not_le.mpr (hb _ (hc b)))

/-- Along steps in which a bounded measure grows, what the next states have the state before them
has, and so the first one. -/
theorem induction_of_measure {R : σ → σ → Prop} (μ : σ → ℕ) (b : ℕ)
    (hμ : ∀ y z, Relation.ReflTransGen R x y → R y z → μ y < μ z ∧ μ z ≤ b) {P : σ → Prop}
    (hP : ∀ y, Relation.ReflTransGen R x y → (∀ z, R y z → P z) → P y) : P x := by
  have hall : ∀ d y, Relation.ReflTransGen R x y → b ≤ μ y + d → P y := by
    intro d
    induction d with
    | zero =>
      intro y hy hd
      refine hP y hy fun z hz => ?_
      have hlt := hμ y z hy hz
      omega
    | succ d ih =>
      intro y hy hd
      refine hP y hy fun z hz => ih z (hy.tail hz) ?_
      have hlt := hμ y z hy hz
      omega
  exact hall b x .refl (Nat.le_add_left b (μ x))

end Loop
