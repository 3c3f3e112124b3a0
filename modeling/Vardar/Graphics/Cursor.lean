import Vardar.Graphics.Terminal
import Vardar.Lib.Run

/-!
# The cursor of the terminal

Printing keeps the cell at the cursor inside the body of the terminal. A backspace at the start of a
line goes to the last character of the line before, which is counted in the width with the borders:
the cell is inside the body only if the part of the width after the last whole character is at least
the width of both borders.

## Main definitions

* `Vardar.Console.Call`, `Vardar.Console.step`: the calls that move the cursor.
* `Vardar.Terminal.CursorIn`: the cell at the cursor is inside the body, and the next backspace does
  not wrap.
* `Vardar.Console.BackspaceOk`: the calls that keep it there.

## Main results

* `Vardar.Console.cursor_in_body_iff`.
-/

namespace Vardar

/-- The cell at the cursor is inside the body, and no coordinate is below the size of a character
when a backspace takes one away. -/
structure Terminal.CursorIn (t : Terminal) : Prop where
  width : t.cursor.x + t.font.width ≤ t.dims.width
  height : t.cursor.y + t.font.height ≤ t.dims.height
  left : t.cursor.x ≠ 0 → t.font.width ≤ t.cursor.x
  up : t.cursor.x = 0 → t.cursor.y ≠ 0 → t.font.height ≤ t.cursor.y

instance (t : Terminal) : Decidable t.CursorIn :=
  decidable_of_iff (t.cursor.x + t.font.width ≤ t.dims.width ∧
      t.cursor.y + t.font.height ≤ t.dims.height ∧
      (t.cursor.x ≠ 0 → t.font.width ≤ t.cursor.x) ∧
      (t.cursor.x = 0 → t.cursor.y ≠ 0 → t.font.height ≤ t.cursor.y))
    ⟨fun h => ⟨h.1, h.2.1, h.2.2.1, h.2.2.2⟩, fun h => ⟨h.width, h.height, h.left, h.up⟩⟩

namespace Console

open GraphicsCtx (toCoord toCoord_natCast)

/-! ### Calls -/

/-- The calls that move the cursor. -/
inductive Call
  | termPrintMain (str : List (BitVec 8))
  | handleKeyStroke (keyInfo : KeyInfo)

/-- A call. -/
def step (rodata : Bool → ℕ → BitVec 8) (s : Console) : Call → Console
  | .termPrintMain str => s.termPrint str
  | .handleKeyStroke keyInfo => s.handleKeyStroke rodata keyInfo

/-- A backspace at the start of a line that is not the first. -/
def AtLineStart (s : Console) : Call → Prop
  | .termPrintMain _ => False
  | .handleKeyStroke keyInfo =>
    keyInfo.backspace = true ∧ s.term.cursor.x = 0 ∧ s.term.cursor.y ≠ 0

instance (s : Console) : (c : Call) → Decidable (s.AtLineStart c)
  | .termPrintMain _ => instDecidableFalse
  | .handleKeyStroke _ => inferInstanceAs (Decidable (_ ∧ _))

/-- There is no backspace at the start of a line, or the outer width has enough room after its last
whole character. -/
def BackspaceOk (outer : ℕ) (s : Console) (c : Call) : Prop := s.AtLineStart c → 6 ≤ outer % 9

instance (outer : ℕ) (s : Console) (c : Call) : Decidable (s.BackspaceOk outer c) :=
  inferInstanceAs (Decidable (_ → _))

/-! ### What the calls keep -/

/-- A terminal of the kernel with some outer width, and the cursor at a cell inside the body. -/
structure Inv (outer : ℕ) (s : Console) : Prop where
  fontWidth : s.term.font.width = 9
  fontHeight : s.term.font.height = 16
  thickness : s.term.borderThickness = 3
  charsPerLine : s.term.charsPerLine = outer / 9
  width : s.term.dims.width + 6 = outer
  outerLt : outer < 2 ^ 16
  minWidth : 64 ≤ s.term.dims.width
  heightLt : s.term.dims.height < 2 ^ 16
  minHeight : 32 ≤ s.term.dims.height
  column : s.term.cursor.x % 9 = 0
  line : s.term.cursor.y % 16 = 0
  inWidth : s.term.cursor.x + 9 ≤ s.term.dims.width
  inHeight : s.term.cursor.y + 16 ≤ s.term.dims.height

variable {outer : ℕ} {s : Console}

theorem Inv.cursorIn (hi : s.Inv outer) : s.term.CursorIn := by
  obtain ⟨hfw, hfh, -, -, -, -, -, -, -, hcol, hline, hw, hh⟩ := hi
  refine ⟨by omega, by omega, fun hx => by omega, fun _ hy => by omega⟩

/-- Moving the cursor to another cell. -/
theorem Inv.setCursor (hi : s.Inv outer) {x y : ℕ} (hx : x % 9 = 0) (hy : y % 16 = 0)
    (hxw : x + 9 ≤ s.term.dims.width) (hyh : y + 16 ≤ s.term.dims.height) :
    (s.setCursor x y).Inv outer := by
  have hw := hi.width
  have hlt := hi.outerLt
  have hh := hi.heightLt
  have hcx : toCoord (x : ℤ) = x := toCoord_natCast (by omega)
  have hcy : toCoord (y : ℤ) = y := toCoord_natCast (by omega)
  have hcursor : (s.setCursor x y).term.cursor = ⟨x, y⟩ := by rw [Console.setCursor, hcx, hcy]
  refine ⟨hi.fontWidth, hi.fontHeight, hi.thickness, hi.charsPerLine, hi.width, hlt, hi.minWidth,
    hh, hi.minHeight, ?_, ?_, ?_, ?_⟩
  · rw [hcursor]
    exact hx
  · rw [hcursor]
    exact hy
  · rw [hcursor]
    exact hxw
  · rw [hcursor]
    exact hyh

/-- The context has no part in the invariant. -/
theorem Inv.ctx (hi : s.Inv outer) (ctx : GraphicsCtx) : ({ s with ctx := ctx } : Console).Inv outer :=
  ⟨hi.fontWidth, hi.fontHeight, hi.thickness, hi.charsPerLine, hi.width, hi.outerLt, hi.minWidth,
    hi.heightLt, hi.minHeight, hi.column, hi.line, hi.inWidth, hi.inHeight⟩

theorem Inv.termNewLine (hi : s.Inv outer) : s.termNewLine.Inv outer := by
  have hstart : (s.setCursor ((0 : ℕ) : ℤ) s.term.cursor.y).Inv outer :=
    hi.setCursor (by decide) hi.line (by have := hi.minWidth; omega) hi.inHeight
  rw [Console.termNewLine]
  by_cases hscroll : (s.setCursor 0 s.term.cursor.y).term.cursor.y +
      (s.setCursor 0 s.term.cursor.y).term.font.height * 2 >
      (s.setCursor 0 s.term.cursor.y).term.dims.height
  · rw [if_pos hscroll]
    exact hstart.ctx _
  · rw [if_neg hscroll]
    have hfh := hstart.fontHeight
    have hline := hstart.line
    have hcast : (((s.setCursor 0 s.term.cursor.y).term.cursor.y : ℤ) +
        (s.setCursor 0 s.term.cursor.y).term.font.height) =
        (((s.setCursor 0 s.term.cursor.y).term.cursor.y + 16 : ℕ) : ℤ) := by
      rw [← hfh]
      push_cast
      rfl
    rw [hcast]
    refine hstart.setCursor hstart.column ?_ hstart.inWidth ?_
    · exact (Nat.add_mod_right _ _).trans hline
    · rw [show (s.setCursor 0 s.term.cursor.y).term.font.height = 16 from hfh] at hscroll
      exact not_lt.mp hscroll

theorem Inv.termPrintChar (hi : s.Inv outer) (c : BitVec 8) : (s.termPrintChar c).Inv outer := by
  rw [Console.termPrintChar]
  by_cases hline : c = 0x0A ∨
      (s.term.cursor.x : ℤ) > (s.term.dims.width : ℤ) - s.term.borderThickness * 6
  · rw [if_pos hline]
    exact hi.termNewLine.ctx _
  · rw [if_neg hline]
    have hx : ¬ (s.term.cursor.x : ℤ) > (s.term.dims.width : ℤ) - s.term.borderThickness * 6 :=
      fun h => hline (Or.inr h)
    have hcast : (s.term.cursor.x : ℤ) + s.term.font.width = ((s.term.cursor.x + 9 : ℕ) : ℤ) := by
      rw [hi.fontWidth, Nat.cast_add]
    rw [hi.thickness] at hx
    rw [hcast]
    refine (hi.setCursor ?_ hi.line ?_ hi.inHeight).ctx _
    · exact (Nat.add_mod_right _ _).trans hi.column
    · omega

theorem Inv.termPrint (hi : s.Inv outer) (str : List (BitVec 8)) : (s.termPrint str).Inv outer := by
  rw [Console.termPrint]
  induction str.takeWhile (· ≠ 0) generalizing s with
  | nil => exact hi
  | cons c cs ih => exact ih (hi.termPrintChar c)

/-- The cursor after a backspace at the start of a line. -/
theorem removeChar_lineStart (hi : s.Inv outer) (hx : s.term.cursor.x = 0)
    (hy : s.term.cursor.y ≠ 0) :
    s.removeChar.term =
      { s.term with cursor := ⟨(outer / 9 - 1) * 9, s.term.cursor.y - 16⟩ } := by
  have hline := hi.line
  have hh := hi.heightLt
  have hin := hi.inHeight
  have hlt := hi.outerLt
  have hmin := hi.minWidth
  have hw := hi.width
  have hcol : ((s.term.charsPerLine : ℤ) - 1) * s.term.font.width = ((outer / 9 - 1) * 9 : ℕ) := by
    rw [hi.charsPerLine, hi.fontWidth]
    omega
  have hrow : (s.term.cursor.y : ℤ) - s.term.font.height = (s.term.cursor.y - 16 : ℕ) := by
    rw [hi.fontHeight]
    omega
  rw [removeChar, if_neg fun h => hy h.2]
  simp only [hx, if_true, Console.setCursor, hcol, hrow]
  rw [toCoord_natCast (by omega), toCoord_natCast (by omega)]

/-- A backspace keeps the cursor inside the body if it is not at the start of a line or the outer
width has enough room. -/
theorem Inv.removeChar (hi : s.Inv outer)
    (hok : s.term.cursor.x = 0 → s.term.cursor.y ≠ 0 → 6 ≤ outer % 9) :
    s.removeChar.Inv outer := by
  have hw := hi.width
  by_cases hx : s.term.cursor.x = 0
  · by_cases hy : s.term.cursor.y = 0
    · rw [Console.removeChar, if_pos ⟨hx, hy⟩]
      exact hi
    · have hline := hi.line
      have hin := hi.inHeight
      have hroom := hok hx hy
      have hmin := hi.minWidth
      have hterm := removeChar_lineStart hi hx hy
      refine ⟨?_, ?_, ?_, ?_, ?_, hi.outerLt, ?_, ?_, ?_, ?_, ?_, ?_, ?_⟩ <;> rw [hterm]
      · exact hi.fontWidth
      · exact hi.fontHeight
      · exact hi.thickness
      · exact hi.charsPerLine
      · exact hi.width
      · exact hi.minWidth
      · exact hi.heightLt
      · exact hi.minHeight
      · exact Nat.mul_mod_left _ _
      · dsimp only
        omega
      · dsimp only
        omega
      · dsimp only
        omega
  · rw [Console.removeChar, if_neg fun h => hx h.1]
    simp only [if_neg hx]
    have hcol := hi.column
    have hcast : (s.term.cursor.x : ℤ) - s.term.font.width = ((s.term.cursor.x - 9 : ℕ) : ℤ) := by
      rw [hi.fontWidth]
      omega
    rw [hcast]
    refine (hi.ctx _).setCursor ?_ hi.line ?_ hi.inHeight
    · omega
    · have hin := hi.inWidth
      exact (show s.term.cursor.x - 9 + 9 ≤ s.term.dims.width by omega)

/-- A call keeps the invariant if it is not a backspace that leaves the body. -/
theorem Inv.step (hi : s.Inv outer) (rodata : Bool → ℕ → BitVec 8) {c : Call}
    (hok : s.BackspaceOk outer c) : (s.step rodata c).Inv outer := by
  cases c with
  | termPrintMain str => exact hi.termPrint str
  | handleKeyStroke keyInfo =>
    rw [Console.step, handleKeyStroke]
    refine Inv.ctx ?_ _
    by_cases hback : keyInfo.backspace = true
    · rw [if_pos hback]
      exact hi.removeChar fun hx hy => hok ⟨hback, hx, hy⟩
    · rw [if_neg hback]
      by_cases henter : keyInfo.enter = true
      · rw [if_pos henter]
        exact hi.termNewLine.termPrint _
      · rw [if_neg henter]
        exact hi.termPrint _

/-- A backspace at the start of a line leaves the body if the outer width has not enough room. -/
theorem Inv.not_cursorIn_step (hi : s.Inv outer) (rodata : Bool → ℕ → BitVec 8) {c : Call}
    (hok : ¬ s.BackspaceOk outer c) : ¬ (s.step rodata c).term.CursorIn := by
  rw [BackspaceOk, Classical.not_imp] at hok
  obtain ⟨hstart, hroom⟩ := hok
  cases c with
  | termPrintMain str => exact absurd hstart id
  | handleKeyStroke keyInfo =>
    obtain ⟨hback, hx, hy⟩ := hstart
    have hterm : (s.step rodata (.handleKeyStroke keyInfo)).term = s.removeChar.term := by
      rw [Console.step, handleKeyStroke, if_pos hback]
    intro hin
    have hwidth := hin.width
    rw [hterm, removeChar_lineStart hi hx hy] at hwidth
    have hfw := hi.fontWidth
    have hw := hi.width
    have hmin := hi.minWidth
    dsimp only at hwidth
    omega

/-! ### Runs -/

/-- The terminal that `InitTerminal` makes with the font and the borders of the kernel. -/
theorem inv_initTerminal (ctx : GraphicsCtx) {dims : Dimensions} (topLeft : Coordinate) {font : Font}
    (bg border : RGB) (prompt : List (BitVec 8)) (hfw : font.width = 9) (hfh : font.height = 16)
    (hw : 70 ≤ dims.width) (hw16 : dims.width < 2 ^ 16) (hh : 38 ≤ dims.height)
    (hh16 : dims.height < 2 ^ 16) :
    (initTerminal ctx dims topLeft font bg border 3 prompt).Inv dims.width := by
  have hbw : toCoord ((dims.width : ℤ) - (3 : ℕ) * 2) = dims.width - 6 := by
    rw [toCoord]
    omega
  have hbh : toCoord ((dims.height : ℤ) - (3 : ℕ) * 2) = dims.height - 6 := by
    rw [toCoord]
    omega
  rw [initTerminal, render]
  refine Inv.termPrint ?_ _
  refine ⟨hfw, hfh, rfl, ?_, ?_, hw16, ?_, ?_, ?_, rfl, rfl, ?_, ?_⟩
  · change dims.width / font.width = _
    rw [hfw]
  · change toCoord ((dims.width : ℤ) - (3 : ℕ) * 2) + 6 = _
    omega
  · change 64 ≤ toCoord ((dims.width : ℤ) - (3 : ℕ) * 2)
    omega
  · change toCoord ((dims.height : ℤ) - (3 : ℕ) * 2) < _
    omega
  · change 32 ≤ toCoord ((dims.height : ℤ) - (3 : ℕ) * 2)
    omega
  · change 0 + 9 ≤ toCoord ((dims.width : ℤ) - (3 : ℕ) * 2)
    omega
  · change 0 + 16 ≤ toCoord ((dims.height : ℤ) - (3 : ℕ) * 2)
    omega

/-- The cursor stays in the body of the terminal exactly if no backspace comes at the start of a
line, other than the first, of a terminal whose outer width modulo 9 is below 6. -/
theorem cursor_in_body_iff (rodata : Bool → ℕ → BitVec 8) (ctx : GraphicsCtx) {dims : Dimensions}
    (topLeft : Coordinate) {font : Font} (bg border : RGB) (prompt : List (BitVec 8))
    (hfw : font.width = 9) (hfh : font.height = 16) (hw : 70 ≤ dims.width)
    (hw16 : dims.width < 2 ^ 16) (hh : 38 ≤ dims.height) (hh16 : dims.height < 2 ^ 16)
    (calls : List Call) :
    (∀ n, ((calls.take n).foldl (step rodata)
        (initTerminal ctx dims topLeft font bg border 3 prompt)).term.CursorIn) ↔
      Run.Along (step rodata) (BackspaceOk dims.width)
        (initTerminal ctx dims topLeft font bg border 3 prompt) calls :=
  Run.forall_take_iff_along (G := fun s => s.term.CursorIn) (fun _ hi => hi.cursorIn)
    (fun _ _ hi hok => hi.step rodata hok) (fun _ _ hi hok => hi.not_cursorIn_step rodata hok)
    (inv_initTerminal ctx topLeft bg border prompt hfw hfh hw hw16 hh hh16) calls

/-- A terminal with a blank font and the prompt `>`. -/
def blankTerminal (width : ℕ) : Console :=
  initTerminal ⟨⟨1, 64, 4, 32, ⟨8, 16⟩, ⟨8, 8⟩, ⟨8, 0⟩⟩, 0, 1, 0, 0⟩ ⟨width, 38⟩ ⟨0, 0⟩
    ⟨fun _ _ => 0, ⟨255, 255, 255⟩, 16, 9⟩ ⟨0, 0, 0⟩ ⟨255, 0, 0⟩ 3 [0x3e]

/-- A new line and a backspace. -/
def newLineBackspace : List Call :=
  [.termPrintMain [0x0a], .handleKeyStroke ⟨false, true, false, false, 0x0e⟩]

theorem cursor_in_body_seventy :
    Run.Along (step fun _ _ => 0) (BackspaceOk 70) (blankTerminal 70) newLineBackspace ∧
      ∀ n, ((newLineBackspace.take n).foldl (step fun _ _ => 0)
        (blankTerminal 70)).term.CursorIn := by
  have hok : Run.Along (step fun _ _ => 0) (BackspaceOk 70) (blankTerminal 70)
      newLineBackspace := by decide +kernel
  refine ⟨hok, (cursor_in_body_iff (fun _ _ => 0) _ ⟨0, 0⟩ _ _ [0x3e] rfl rfl ?_ ?_ ?_ ?_ _).mpr
    hok⟩
  · decide
  · decide
  · decide
  · decide

/-- With an outer width of 72, the last character of a line is in the border. -/
theorem cursor_leaves_body :
    ¬ ((newLineBackspace.take 2).foldl (step fun _ _ => 0) (blankTerminal 72)).term.CursorIn := by
  decide +kernel

end Console

end Vardar
