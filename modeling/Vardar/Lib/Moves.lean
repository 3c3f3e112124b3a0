import Mathlib.Algebra.Order.Group.Nat
import Mathlib.Data.Nat.Init

/-!
# Sequences of moves

Cells have values, and a move gives some of them the values that other cells have. Moves that are
made one after the other act as if they were made at once if no move reads what an earlier one has
changed. This file has the value of a cell after a sequence of moves in which every cell is written
at most once.

## Main definitions

* `Moves.single`: a move. `Moves.moves`: the first moves of a sequence.
* `Moves.spans`: moves of spans of numbered cells.

## Main results

* `Moves.moves_of_mem`, `Moves.moves_of_unread`: the value of a cell that is written once.
* `Moves.forall_moves_eq_iff`, `Moves.forall_spans_eq_iff`: when the moves act as if they were made
  at once.
-/

namespace Moves

variable {ι V : Type*}

/-- The cells in `D` get the values of the cells that `σ` gives. -/
def single (D : ι → Prop) [DecidablePred D] (σ : ι → ι) (f : ι → V) : ι → V :=
  fun i => if D i then f (σ i) else f i

/-- The values after the first moves. -/
def moves (D : ℕ → ι → Prop) [∀ r, DecidablePred (D r)] (σ : ℕ → ι → ι) (f : ι → V) : ℕ → ι → V
  | 0 => f
  | n + 1 => single (D n) (σ n) (moves D σ f n)

variable {D : ℕ → ι → Prop} [∀ r, DecidablePred (D r)] {σ : ℕ → ι → ι} {f : ι → V} {n r : ℕ} {i : ι}

theorem moves_succ_of_mem (h : D n i) : moves D σ f (n + 1) i = moves D σ f n (σ n i) := if_pos h

theorem moves_succ_of_notMem (h : ¬ D n i) : moves D σ f (n + 1) i = moves D σ f n i := if_neg h

/-- Cells that are not written are unchanged. -/
theorem moves_of_notMem (h : ∀ r < n, ¬ D r i) : moves D σ f n i = f i := by
  induction n with
  | zero => rfl
  | succ n ih =>
    rw [moves_succ_of_notMem (h n (Nat.lt_succ_self n))]
    exact ih fun r hr => h r (Nat.lt_succ_of_lt hr)

/-- A cell that is written for the last time has the value that was read then. -/
theorem moves_of_mem (hr : r < n) (hi : D r i) (hlast : ∀ r', r < r' → r' < n → ¬ D r' i) :
    moves D σ f n i = moves D σ f r (σ r i) := by
  induction n with
  | zero => exact absurd hr (Nat.not_lt_zero r)
  | succ n ih =>
    rcases Nat.lt_succ_iff_lt_or_eq.mp hr with hlt | rfl
    · rw [moves_succ_of_notMem (hlast n hlt (Nat.lt_succ_self n))]
      exact ih hlt fun r' hr' hn => hlast r' hr' (Nat.lt_succ_of_lt hn)
    · exact moves_succ_of_mem hi

/-- If what is read has not been written before, it is the first value. -/
theorem moves_of_unread (hr : r < n) (hi : D r i) (hlast : ∀ r', r < r' → r' < n → ¬ D r' i)
    (hread : ∀ r' < r, ¬ D r' (σ r i)) : moves D σ f n i = f (σ r i) :=
  (moves_of_mem hr hi hlast).trans (moves_of_notMem hread)

/-- **When moves act as if they were made at once.** If every cell is written at most once, then all
cells that are written get the first values of the cells read, if and only if every cell that is
read after it has been written had the value already that was written to it. -/
theorem forall_moves_eq_iff
    (honce : ∀ i, ∀ r < n, ∀ r' < n, D r i → D r' i → r = r') :
    (∀ r < n, ∀ i, D r i → moves D σ f n i = f (σ r i)) ↔
      ∀ r < n, ∀ i, D r i → ∀ r' < r, D r' (σ r i) → f (σ r i) = f (σ r' (σ r i)) := by
  have hlast {i : ι} {r k : ℕ} (hk : k ≤ n) (hr : r < k) (hi : D r i) :
      ∀ r', r < r' → r' < k → ¬ D r' i := by
    intro r' hlt hr' hi'
    have heq := honce i r (hr.trans_le hk) r' (hr'.trans_le hk) hi hi'
    exact absurd heq hlt.ne
  -- a cell that is read after it has been written is read with its last value
  have hread {r r' : ℕ} {i : ι} (hr : r < n) (hr' : r' < r) (hi : D r i) (hi' : D r' (σ r i)) :
      moves D σ f n i = moves D σ f n (σ r i) := by
    rw [moves_of_mem hr hi (hlast le_rfl hr hi), moves_of_mem hr' hi' (hlast hr.le hr' hi'),
      moves_of_mem (hr'.trans hr) hi' (hlast le_rfl (hr'.trans hr) hi')]
  constructor
  · intro h r hr i hi r' hr' hi'
    rw [← h r hr i hi, hread hr hr' hi hi', h r' (hr'.trans hr) _ hi']
  · intro h r
    induction r using Nat.strong_induction_on with
    | _ r ih =>
      intro hr i hi
      by_cases hwritten : ∃ r' < r, D r' (σ r i)
      · obtain ⟨r', hr', hi'⟩ := hwritten
        rw [hread hr hr' hi hi', ih r' hr' (hr'.trans hr) _ hi', h r hr i hi r' hr' hi']
      · exact moves_of_unread hr hi (hlast le_rfl hr hi) fun r' hr' hi' => hwritten ⟨r', hr', hi'⟩

/-! ### Moves of spans -/

/-- The cells that move `r` of spans of `w` cells writes, from `d r` on. -/
def Span (d : ℕ → ℕ) (w r i : ℕ) : Prop := d r ≤ i ∧ i < d r + w

instance (d : ℕ → ℕ) (w r : ℕ) : DecidablePred (Span d w r) :=
  fun i => inferInstanceAs (Decidable (d r ≤ i ∧ i < d r + w))

/-- The cells that are read, from `s r` on. -/
def spanSource (d s : ℕ → ℕ) (r i : ℕ) : ℕ := s r + (i - d r)

/-- The values after the first moves of spans. -/
def spans (d s : ℕ → ℕ) (w : ℕ) (f : ℕ → V) : ℕ → ℕ → V := moves (Span d w) (spanSource d s) f

section Spans

variable {d s : ℕ → ℕ} {w : ℕ} {f : ℕ → V} {n r k : ℕ}

theorem span_add (hk : k < w) : Span d w r (d r + k) :=
  ⟨Nat.le_add_right _ _, Nat.add_lt_add_left hk _⟩

theorem exists_of_span {i : ℕ} (h : Span d w r i) : ∃ k < w, d r + k = i := by
  obtain ⟨k, rfl⟩ := Nat.exists_eq_add_of_le h.1
  exact ⟨k, Nat.lt_of_add_lt_add_left h.2, rfl⟩

theorem spanSource_add (d s : ℕ → ℕ) (r k : ℕ) : spanSource d s r (d r + k) = s r + k := by
  rw [spanSource, Nat.add_sub_cancel_left]

/-- The moves depend on the places of the spans. -/
theorem spans_congr {d' s' : ℕ → ℕ} (hd : ∀ r < n, d r = d' r) (hs : ∀ r < n, s r = s' r)
    (f : ℕ → V) : spans d s w f n = spans d' s' w f n := by
  induction n with
  | zero => rfl
  | succ n ih =>
    have ih := ih (fun r hr => hd r (Nat.lt_succ_of_lt hr)) fun r hr => hs r (Nat.lt_succ_of_lt hr)
    funext i
    change (if d n ≤ i ∧ i < d n + w then spans d s w f n (s n + (i - d n))
        else spans d s w f n i) =
      if d' n ≤ i ∧ i < d' n + w then spans d' s' w f n (s' n + (i - d' n))
      else spans d' s' w f n i
    rw [ih, hd n (Nat.lt_succ_self n), hs n (Nat.lt_succ_self n)]

/-- The moves after the first ones are moves of the spans that come after them. -/
theorem spans_add (d s : ℕ → ℕ) (w : ℕ) (f : ℕ → V) (a b : ℕ) :
    spans d s w f (a + b) =
      spans (fun r => d (a + r)) (fun r => s (a + r)) w (spans d s w f a) b := by
  induction b with
  | zero => rfl
  | succ b ih =>
    change single (Span d w (a + b)) (spanSource d s (a + b)) (spans d s w f (a + b)) = _
    rw [ih]
    rfl

/-- Cells outside all spans are unchanged. -/
theorem spans_of_notMem {i : ℕ} (h : ∀ r < n, ∀ k < w, d r + k ≠ i) : spans d s w f n i = f i :=
  moves_of_notMem fun r hr hi => by
    obtain ⟨k, hk, heq⟩ := exists_of_span hi
    exact h r hr k hk heq

/-- A cell that is written for the last time, from one that has not been written before. -/
theorem spans_of_unread (hr : r < n) (hk : k < w)
    (hlast : ∀ r', r < r' → r' < n → ∀ k' < w, d r' + k' ≠ d r + k)
    (hread : ∀ r' < r, ∀ k' < w, d r' + k' ≠ s r + k) :
    spans d s w f n (d r + k) = f (s r + k) := by
  rw [← spanSource_add d s r k]
  refine moves_of_unread hr (span_add hk) (fun r' hlt hr' hi => ?_) fun r' hr' hi => ?_
  · obtain ⟨k', hk', heq⟩ := exists_of_span hi
    exact hlast r' hlt hr' k' hk' heq
  · rw [spanSource_add] at hi
    obtain ⟨k', hk', heq⟩ := exists_of_span hi
    exact hread r' hr' k' hk' heq

/-- When moves of spans act as if they were made at once. -/
theorem forall_spans_eq_iff
    (honce : ∀ r < n, ∀ r' < n, ∀ k < w, ∀ k' < w, d r + k = d r' + k' → r = r') :
    (∀ r < n, ∀ k < w, spans d s w f n (d r + k) = f (s r + k)) ↔
      ∀ r < n, ∀ k < w, ∀ r' < r, ∀ k' < w, s r + k = d r' + k' → f (s r + k) = f (s r' + k') := by
  have honce' : ∀ i, ∀ r < n, ∀ r' < n, Span d w r i → Span d w r' i → r = r' := by
    intro i r hr r' hr' hi hi'
    obtain ⟨k, hk, rfl⟩ := exists_of_span hi
    obtain ⟨k', hk', heq⟩ := exists_of_span hi'
    exact honce r hr r' hr' k hk k' hk' heq.symm
  have hiff := forall_moves_eq_iff (σ := spanSource d s) (f := f) honce'
  constructor
  · intro h r hr k hk r' hr' k' hk' heq
    have hall := hiff.mp fun r hr i hi => by
      obtain ⟨k, hk, rfl⟩ := exists_of_span hi
      rw [spanSource_add]
      exact h r hr k hk
    have hval := hall r hr _ (span_add hk) r' hr'
    rw [spanSource_add, heq, spanSource_add] at hval
    rw [heq]
    exact hval (span_add hk')
  · intro h r hr k hk
    rw [← spanSource_add d s r k]
    refine hiff.mpr (fun r hr i hi r' hr' hi' => ?_) r hr _ (span_add hk)
    obtain ⟨k, hk, rfl⟩ := exists_of_span hi
    rw [spanSource_add] at hi' ⊢
    obtain ⟨k', hk', heq⟩ := exists_of_span hi'
    rw [h r hr k hk r' hr' k' hk' heq.symm, ← heq, spanSource_add]

end Spans

end Moves
