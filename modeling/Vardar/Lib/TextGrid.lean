import Mathlib.Data.Nat.Init
import Mathlib.Tactic.Common

/-!
# Text on a grid of cells

A grid has lines of cells, each with a character or nothing, and a cursor. Printing advances the
cursor and writes a character there, in the first cell of the next line if the line is full; a new
line at the last line moves the text up. Erasing clears the cell at the cursor and steps back.

The text is written in the order of reading, so the cells after the cursor are blank, and a
character is written to a blank cell only.

## Main definitions

* `TextGrid.Grid`, `TextGrid.Grid.newLine`, `TextGrid.Grid.put`, `TextGrid.Grid.erase`.
* `TextGrid.Grid.Ok`: the cursor is inside the grid and nothing comes after it.

## Main results

* `TextGrid.Grid.Ok.newLine`, `TextGrid.Grid.Ok.put`, `TextGrid.Grid.Ok.erase`.
* `TextGrid.Grid.Ok.advance`: the cell that is written to is blank.
-/

namespace TextGrid

/-- Cells with a character or nothing, by line and column, and a cursor. -/
structure Grid (α : Type*) where
  cell : ℕ → ℕ → Option α
  row : ℕ
  col : ℕ

namespace Grid

variable {α : Type*} (lines cols : ℕ) (g : Grid α)

/-- A blank grid with the cursor in the first cell. -/
def blank : Grid α := ⟨fun _ _ => none, 0, 0⟩

/-- Set the cell at the cursor. -/
def set (o : Option α) : Grid α :=
  { g with cell := fun r c => if r = g.row ∧ c = g.col then o else g.cell r c }

/-- All lines move up and the last one is cleared. -/
def scroll : Grid α :=
  { g with cell := fun r c => if r + 1 < lines then g.cell (r + 1) c else none }

/-- Go to the start of the next line. -/
def newLine : Grid α :=
  if g.row + 1 < lines then { g with row := g.row + 1, col := 0 }
  else { g.scroll lines with col := 0 }

/-- Go to the next cell, or to the next line if asked to or if the line is full. -/
def advance (next : Prop) [Decidable next] : Grid α :=
  if next ∨ cols ≤ g.col + 1 then g.newLine lines else { g with col := g.col + 1 }

/-- Write a character in the next cell. -/
def put (next : Prop) [Decidable next] (a : α) : Grid α :=
  (g.advance lines cols next).set (some a)

/-- Clear the cell at the cursor and step back. -/
def erase : Grid α :=
  if g.row = 0 ∧ g.col = 0 then g
  else if g.col = 0 then { g.set none with row := g.row - 1, col := cols - 1 }
  else { g.set none with col := g.col - 1 }

/-- The cursor is inside the grid, text is inside the grid, and there is none after the cursor. -/
structure Ok : Prop where
  row : g.row < lines
  col : g.col < cols
  inside : ∀ r c, g.cell r c ≠ none → r < lines ∧ c < cols
  after : ∀ r c, g.row < r ∨ r = g.row ∧ g.col < c → g.cell r c = none

variable {lines cols g}

theorem ok_blank (hl : 0 < lines) (hc : 0 < cols) : (blank : Grid α).Ok lines cols :=
  ⟨hl, hc, fun _ _ h => absurd rfl h, fun _ _ _ => rfl⟩

namespace Ok

/-- A new line starts with a blank cell. -/
theorem newLine (h : g.Ok lines cols) :
    (g.newLine lines).Ok lines cols ∧
      (g.newLine lines).cell (g.newLine lines).row (g.newLine lines).col = none := by
  have hrow := h.row
  have hcol := h.col
  rw [Grid.newLine]
  split_ifs with hnext
  · refine ⟨⟨hnext, by dsimp only; omega, h.inside, fun r c hafter => h.after r c (.inl ?_)⟩,
      h.after _ _ (.inl (Nat.lt_succ_self _))⟩
    dsimp only at hafter
    omega
  · refine ⟨⟨h.row, by dsimp only; omega, fun r c hne => ?_, fun r c hafter => ?_⟩, ?_⟩
    · simp only [scroll] at hne
      split_ifs at hne with hr
      · exact ⟨by omega, (h.inside _ _ hne).2⟩
      · exact absurd rfl hne
    · simp only [scroll] at hafter ⊢
      refine if_neg ?_
      omega
    · exact if_neg hnext

/-- The next cell is blank. -/
theorem advance (h : g.Ok lines cols) (next : Prop) [Decidable next] :
    (g.advance lines cols next).Ok lines cols ∧
      (g.advance lines cols next).cell (g.advance lines cols next).row
        (g.advance lines cols next).col = none := by
  rw [Grid.advance]
  split_ifs with hnext
  · exact h.newLine
  · rw [not_or] at hnext
    refine ⟨⟨h.row, by dsimp only; omega, h.inside, fun r c hafter => h.after r c ?_⟩,
      h.after _ _ (.inr ⟨rfl, Nat.lt_succ_self _⟩)⟩
    dsimp only at hafter
    omega

theorem set (h : g.Ok lines cols) (o : Option α) : (g.set o).Ok lines cols := by
  refine ⟨h.row, h.col, fun r c hne => ?_, fun r c hafter => ?_⟩
  · simp only [Grid.set] at hne
    split_ifs at hne with hat
    · rw [hat.1, hat.2]
      exact ⟨h.row, h.col⟩
    · exact h.inside r c hne
  · simp only [Grid.set] at hafter ⊢
    rw [if_neg (by omega)]
    exact h.after r c hafter

theorem put (h : g.Ok lines cols) (next : Prop) [Decidable next] (a : α) :
    (g.put lines cols next a).Ok lines cols :=
  (h.advance next).1.set (some a)

theorem erase (h : g.Ok lines cols) : (g.erase cols).Ok lines cols := by
  have hrow := h.row
  have hcol := h.col
  have hset := h.set none
  rw [Grid.erase]
  split_ifs with hfirst hstart
  · exact h
  · refine ⟨by dsimp only; omega, by dsimp only; omega, hset.inside, fun r c hafter => ?_⟩
    by_cases hin : r < lines ∧ c < cols
    -- the only cell after the new cursor that was not after the old one is the one cleared
    · by_cases hat : r = g.row ∧ c = g.col
      · exact if_pos hat
      · refine hset.after r c ?_
        simp only [Grid.set] at hafter ⊢
        omega
    · by_contra hne
      exact hin (hset.inside r c hne)
  · refine ⟨hrow, by dsimp only; omega, hset.inside, fun r c hafter => ?_⟩
    by_cases hat : r = g.row ∧ c = g.col
    · exact if_pos hat
    · refine hset.after r c ?_
      simp only [Grid.set] at hafter ⊢
      omega

end Ok

end Grid

end TextGrid
