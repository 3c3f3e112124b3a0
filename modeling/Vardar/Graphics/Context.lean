import Vardar.Utils.CString
import Vardar.Utils.Misc

/-!
# The graphics context

Drawing goes to a back buffer. The screen is divided into 64 bands of rows, and a 64-bit word says
which of them have been drawn to since they were copied to video memory.

The back buffer and video memory are two byte memories, so they do not overlap; an address in the
second counts from `framebuffer_addr`. Indices and rows are C `int`s that do not overflow for
rectangles inside the framebuffer; coordinates are taken modulo `2 ^ 16`.

Every call that draws ends with divisions by the height of a band, which trap if that is zero. For
`DrawRect` and `Transpose` there is also the call with the trap.

## Main definitions

* `Vardar.Framebuffer`, `Vardar.Font`, `Vardar.GraphicsCtx`.
* `Vardar.GraphicsCtx.clearScreen`, `Vardar.GraphicsCtx.writeBack`, `Vardar.GraphicsCtx.drawRect`,
  `Vardar.GraphicsCtx.drawChar`, `Vardar.GraphicsCtx.transpose`.
* `Vardar.GraphicsCtx.drawRect?`, `Vardar.GraphicsCtx.transpose?`: with the trap.
-/

namespace Vardar

open ByteMemory

/-! ### Colors, fonts and the framebuffer -/

/-- `RGB`. -/
structure RGB where
  r : BitVec 8
  g : BitVec 8
  b : BitVec 8

/-- `Coordinate`. -/
structure Coordinate where
  x : ℕ
  y : ℕ

/-- `Dimensions`. -/
structure Dimensions where
  width : ℕ
  height : ℕ

/-- The bits of a color in a pixel, from bit `shift` on. -/
structure ColorMask where
  size : BitVec 8
  shift : BitVec 8

/-- The fields of `stivale2_struct_tag_framebuffer` that are read. -/
structure Framebuffer where
  width : ℕ
  height : ℕ
  pitch : ℕ
  bpp : ℕ
  red : ColorMask
  green : ColorMask
  blue : ColorMask

/-- `Font`, with what is in memory around the matrix. -/
structure Font where
  matrix : ℤ → ℕ → BitVec 8
  rgb : RGB
  height : ℕ
  width : ℕ

/-- The bits of one color in `PackRgb`. The shift is unsigned, so `ABS_RIGHT_SHIFT` never shifts to
the left, and counts are taken modulo 32. -/
def packColor (v : BitVec 8) (mask : ColorMask) : BitVec 32 :=
  let shifted := v.setWidth 32 >>> ((8 - mask.size.setWidth 32).toNat % 32)
  let and := 2#32 <<< (mask.size.toNat % 32) - 1
  (shifted &&& and) <<< (mask.shift.toNat % 32)

/-- `PackRgb`. -/
def packRgb (rgb : RGB) (fb : Framebuffer) : BitVec 32 :=
  if fb.bpp ≠ 32 then 0
  else packColor rgb.r fb.red ||| packColor rgb.g fb.green ||| packColor rgb.b fb.blue

/-! ### The context -/

/-- `GraphicsCtx`, with the contents of the back buffer and of video memory. There are always 64
bands. -/
structure GraphicsCtx where
  fb : Framebuffer
  dirtyBlockStr : BitVec 64
  rowHeight : ℕ
  buffer : Mem
  screen : Mem

/-- `InitGraphicsCtx`. -/
def initGraphicsCtx (fb : Framebuffer) (buffer screen : Mem) : GraphicsCtx :=
  ⟨fb, 0, fb.height / 64 % 256, buffer, screen⟩

namespace GraphicsCtx

variable (g : GraphicsCtx)

/-- `PixelIndex`. -/
def pixelIndex (coords : Coordinate) : ℕ := coords.x + coords.y * g.fb.width

/-- Set `n` pixels of a buffer from an index on. -/
def fillPixels (m : Mem) (index : ℕ) (v : BitVec 32) : ℕ → Mem
  | 0 => m
  | n + 1 => store (fillPixels m index v n) (4 * (index + n)) 4 v.toNat

/-- `ClearScreen`. -/
def clearScreen (rgb : RGB) : GraphicsCtx :=
  { g with
    buffer := fillPixels g.buffer 0 (packRgb rgb g.fb) (g.fb.height * g.fb.width)
    dirtyBlockStr := 0xFFFFFFFFFFFFFFFF }

/-! ### Writing back -/

/-- `memmove` from the back buffer to video memory. -/
def copyToScreen (buffer screen : Mem) (dest src size : ℕ) : Mem := fun x =>
  if dest ≤ x ∧ x < dest + size then buffer (src + (x - dest)) else screen x

/-- Video memory after `n` rounds of the loop of `WriteBackCell`. -/
def writeBackRows (cellInd : ℕ) : ℕ → Mem
  | 0 => g.screen
  | n + 1 => copyToScreen g.buffer (writeBackRows cellInd n)
      (cellInd * g.rowHeight * g.fb.pitch + n * g.fb.pitch)
      (4 * (cellInd * g.rowHeight * g.fb.width + n * g.fb.width)) (g.fb.width * g.fb.bpp / 8)

/-- `WriteBackCell`. -/
def writeBackCell (cellInd : ℕ) : GraphicsCtx :=
  { g with
    screen := g.writeBackRows cellInd g.rowHeight
    dirtyBlockStr := clearNthBit g.dirtyBlockStr cellInd }

/-- `WriteBack`. -/
def writeBack : GraphicsCtx :=
  (List.range 64).foldl (fun g x =>
    if getNthBit g.dirtyBlockStr x ≠ 0 then g.writeBackCell x else g) g

/-! ### Drawing -/

/-- `SetNthBit` for `n` bands from a band on. -/
def setBands (d : BitVec 64) (start : ℤ) : ℕ → BitVec 64
  | 0 => d
  | n + 1 => setNthBit (setBands d start n) ((start + n) % 2 ^ 16).toNat

/-- The loop that marks the bands from `start` up to `stop`. -/
def markBands (d : BitVec 64) (start stop : ℤ) : BitVec 64 := setBands d start (stop - start).toNat

/-- Copies of the row at `dest` below it. -/
def copyRows (m : Mem) (dest size : ℕ) : ℕ → Mem
  | 0 => m
  | n + 1 => memmove (copyRows m dest size n) (4 * (dest + (n + 1) * g.fb.width)) (4 * dest) size

/-- `DrawRect`. -/
def drawRect (coords : Coordinate) (dims : Dimensions) (rgb : RGB) : GraphicsCtx :=
  let dest := g.pixelIndex coords
  let first := fillPixels g.buffer dest (packRgb rgb g.fb) dims.width
  let startingRow : ℤ := coords.y / g.rowHeight
  let endingRow : ℤ := (coords.y + dims.height) / g.rowHeight +
    if coords.y % g.rowHeight = 0 then 1 else 0
  { g with
    buffer := g.copyRows first dest (dims.width * g.fb.bpp / 8) (dims.height - 1)
    dirtyBlockStr := markBands g.dirtyBlockStr startingRow (endingRow + 1) }

/-- `DrawRect`, which traps if the bands have no rows. -/
def drawRect? (coords : Coordinate) (dims : Dimensions) (rgb : RGB) : Option GraphicsCtx :=
  if g.rowHeight = 0 then none else some (g.drawRect coords dims rgb)

/-- The pixels of one row of a character. -/
def drawCharRow (m : Mem) (v : BitVec 32) (row : BitVec 8) (index : ℕ) : ℕ → Mem
  | 0 => m
  | i + 1 =>
    let m := drawCharRow m v row index i
    if getNthBit (row.setWidth 64) i ≠ 0 then store m (4 * (index + i)) 4 v.toNat else m

/-- The first rows of a character. -/
def drawCharRows (m : Mem) (font : Font) (coords : Coordinate) (c : BitVec 8) : ℕ → Mem
  | 0 => m
  | j + 1 => drawCharRow (drawCharRows m font coords c j) (packRgb font.rgb g.fb)
      (font.matrix c.toInt j) (coords.x + (coords.y + j) * g.fb.width) font.width

/-- `DrawChar`. -/
def drawChar (font : Font) (coords : Coordinate) (c : BitVec 8) : GraphicsCtx :=
  let startingRow : ℤ := coords.y / g.rowHeight
  let endingRow : ℤ := (coords.y + font.height) / g.rowHeight +
    if 0 < (coords.y + font.height) % g.rowHeight then 1 else 0
  { g with
    buffer := g.drawCharRows g.buffer font coords c font.height
    dirtyBlockStr := markBands g.dirtyBlockStr startingRow endingRow }

/-- A coordinate of an `int`. -/
def toCoord (i : ℤ) : ℕ := (i % 2 ^ 16).toNat

theorem toCoord_natCast {n : ℕ} (hn : n < 2 ^ 16) : toCoord n = n := by
  rw [toCoord]
  omega

/-- The first rows that `Transpose` moves. -/
def transposeRows (m : Mem) (topLeft : Coordinate) (dims : Dimensions) (down left : ℤ) : ℕ → Mem
  | 0 => m
  | n + 1 =>
    let src := g.pixelIndex ⟨topLeft.x, toCoord (topLeft.y + n)⟩
    let dest := g.pixelIndex ⟨toCoord (topLeft.x + left), toCoord (topLeft.y + n + down)⟩
    memmove (transposeRows m topLeft dims down left n) (4 * dest) (4 * src)
      (dims.width * g.fb.bpp / 8)

/-- `Transpose`. -/
def transpose (topLeft : Coordinate) (dims : Dimensions) (down left : ℤ) : GraphicsCtx :=
  let topRow : ℤ := if 0 < down then topLeft.y else topLeft.y + down
  let bottomRow : ℤ := if 0 < down then topLeft.y + dims.height + down
    else topLeft.y + dims.height
  let topInvalidRow := topRow.tdiv g.rowHeight
  let bottomInvalidRow := bottomRow.tdiv g.rowHeight +
    if bottomRow.tmod g.rowHeight ≠ 0 then 1 else 0
  { g with
    buffer := g.transposeRows g.buffer topLeft dims down left dims.height
    dirtyBlockStr := markBands g.dirtyBlockStr topInvalidRow bottomInvalidRow }

/-- `Transpose`, which traps if the bands have no rows. -/
def transpose? (topLeft : Coordinate) (dims : Dimensions) (down left : ℤ) : Option GraphicsCtx :=
  if g.rowHeight = 0 then none else some (g.transpose topLeft dims down left)

end GraphicsCtx

end Vardar
