import Vardar.Graphics.Context
import Vardar.Interrupts.Keycodes

/-!
# The terminal

The main terminal of the kernel and the graphics context it draws to. The body of the terminal is
inside its borders, and the cursor counts from the corner of the body. Coordinates are
`uint16_t`s; sums and differences are `int`s that are stored in them.

## Main definitions

* `Vardar.Terminal`, `Vardar.Console`: the terminal, and with it the graphics context.
* `Vardar.Console.initTerminal`, `Vardar.Console.termPrint`, `Vardar.Console.scroll`,
  `Vardar.Console.handleKeyStroke`.
-/

namespace Vardar

open GraphicsCtx (toCoord)

/-- `Terminal`. -/
structure Terminal where
  dims : Dimensions
  font : Font
  charsPerLine : ℕ
  numLines : ℕ
  topLeft : Coordinate
  cursor : Coordinate
  bgColor : RGB
  borderColor : RGB
  borderThickness : ℕ
  prompt : List (BitVec 8)

/-- `main_term` and `GLOBAL_CTX`. -/
structure Console where
  ctx : GraphicsCtx
  term : Terminal

namespace Console

variable (s : Console)

/-- The place of the cursor on the screen. -/
def charCoords : Coordinate :=
  ⟨toCoord (s.term.topLeft.x + s.term.cursor.x), toCoord (s.term.topLeft.y + s.term.cursor.y)⟩

/-- One line of `Scroll`. -/
def scrollLine (ctx : GraphicsCtx) (i : ℕ) : GraphicsCtx :=
  (ctx.transpose ⟨s.term.topLeft.x, toCoord (i * s.term.font.height + s.term.topLeft.y)⟩
    ⟨s.term.dims.width, s.term.font.height⟩ (-1 * s.term.font.height) 0).writeBack

/-- `Scroll`. -/
def scroll : Console :=
  let ctx := (List.range' 1 s.term.numLines).foldl s.scrollLine s.ctx
  let finalRectTopLeft : Coordinate := ⟨s.term.topLeft.x,
    toCoord (s.term.topLeft.y + s.term.font.height * ((s.term.numLines : ℤ) - 1))⟩
  { s with
    ctx := (ctx.drawRect finalRectTopLeft ⟨s.term.dims.width, s.term.font.height⟩
      s.term.bgColor).writeBack }

/-- Set the cursor. -/
def setCursor (x y : ℤ) : Console :=
  { s with term := { s.term with cursor := ⟨toCoord x, toCoord y⟩ } }

/-- `TermNewLine`. -/
def termNewLine : Console :=
  let s := s.setCursor 0 s.term.cursor.y
  if s.term.cursor.y + s.term.font.height * 2 > s.term.dims.height then s.scroll
  else s.setCursor s.term.cursor.x (s.term.cursor.y + s.term.font.height)

/-- A round of `TermPrint`. -/
def termPrintChar (c : BitVec 8) : Console :=
  let maxY : ℤ := s.term.dims.width - s.term.borderThickness * 6
  let s :=
    if c = 0x0A ∨ s.term.cursor.x > maxY then s.termNewLine
    else s.setCursor (s.term.cursor.x + s.term.font.width) s.term.cursor.y
  { s with ctx := s.ctx.drawChar s.term.font s.charCoords c }

/-- `TermPrint`. -/
def termPrint (str : List (BitVec 8)) : Console :=
  (str.takeWhile (· ≠ 0)).foldl termPrintChar s

/-- `RenderBorders`. -/
def renderBorders : Console :=
  { s with
    ctx := s.ctx.drawRect
      ⟨toCoord ((s.term.topLeft.x : ℤ) - s.term.borderThickness),
        toCoord ((s.term.topLeft.y : ℤ) - s.term.borderThickness)⟩
      ⟨toCoord (s.term.dims.width + s.term.borderThickness * 2),
        toCoord (s.term.dims.height + s.term.borderThickness * 2)⟩ s.term.borderColor }

/-- `Render`. -/
def render : Console :=
  let s := s.renderBorders
  let s := { s with ctx := s.ctx.drawRect s.term.topLeft s.term.dims s.term.bgColor }
  s.termPrint s.term.prompt

/-- `InitTerminal`. -/
def initTerminal (ctx : GraphicsCtx) (dims : Dimensions) (topLeft : Coordinate) (font : Font)
    (bg border : RGB) (thickness : ℕ) (prompt : List (BitVec 8)) : Console :=
  render
    { ctx := ctx
      term :=
        { dims := ⟨toCoord ((dims.width : ℤ) - thickness * 2),
            toCoord ((dims.height : ℤ) - thickness * 2)⟩
          font := font
          charsPerLine := dims.width / font.width
          numLines := dims.height / font.height
          topLeft := ⟨toCoord (topLeft.x + thickness), toCoord (topLeft.y + thickness)⟩
          cursor := ⟨0, 0⟩
          bgColor := bg
          borderColor := border
          borderThickness := thickness
          prompt := prompt } }

/-- `RemoveChar`. -/
def removeChar : Console :=
  if s.term.cursor.x = 0 ∧ s.term.cursor.y = 0 then s
  else
    let s := { s with
      ctx := s.ctx.drawRect s.charCoords ⟨s.term.font.width, s.term.font.height⟩ s.term.bgColor }
    if s.term.cursor.x = 0 then
      s.setCursor (((s.term.charsPerLine : ℤ) - 1) * s.term.font.width)
        ((s.term.cursor.y : ℤ) - s.term.font.height)
    else s.setCursor ((s.term.cursor.x : ℤ) - s.term.font.width) s.term.cursor.y

/-- `HandleKeyStroke`. -/
def handleKeyStroke (rodata : Bool → ℕ → BitVec 8) (keyInfo : KeyInfo) : Console :=
  let c := charFromScancode rodata keyInfo
  let s :=
    if keyInfo.backspace then s.removeChar
    else if keyInfo.enter then s.termNewLine.termPrint s.term.prompt
    else s.termPrint [c, 0]
  { s with ctx := s.ctx.writeBack }

end Console

end Vardar
