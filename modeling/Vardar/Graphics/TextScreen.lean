import Vardar.Graphics.Cursor
import Vardar.Graphics.Scroll
import Vardar.Lib.TextGrid

/-!
# What the terminal shows

The body of the terminal is a grid of cells of 9 by 16 pixels. `DrawChar` sets the pixels of a
character that are ink and leaves the others as they are, so it shows the character only where the
cell was blank. In every run of printing and keystrokes the pixels of the body are those of the text
of an abstract grid, and the pixels outside the body do not change.

## Main definitions

* `Vardar.Console.textStep`: the calls on the abstract grid.
* `Vardar.Console.Placed`: a body of whole lines inside the framebuffer.
* `Vardar.Console.ShowsText`: the back buffer shows a grid.

## Main results

* `Vardar.Console.showsText_of_run`.
-/

namespace Vardar

open ByteMemory TextGrid

namespace GraphicsCtx

variable {g : GraphicsCtx}

/-! ### The pixels of a character -/

/-- The pixels of a character that are drawn. Rows are eight bits wide. -/
def ink (font : Font) (c : BitVec 8) (i j : ℕ) : Prop :=
  getNthBit ((font.matrix c.toInt j).setWidth 64) i ≠ 0

instance (font : Font) (c : BitVec 8) (i j : ℕ) : Decidable (ink font c i j) :=
  inferInstanceAs (Decidable (_ ≠ _))

theorem px_drawCharRow (m : Mem) (v : BitVec 32) (row : BitVec 8) (index n k : ℕ) :
    px (drawCharRow m v row index n) k =
      if (index ≤ k ∧ k < index + n) ∧ getNthBit (row.setWidth 64) (k - index) ≠ 0 then v.toNat
      else px m k := by
  induction n with
  | zero => rw [if_neg (by omega)]; rfl
  | succ n ih =>
    rw [drawCharRow]
    by_cases hk : k = index + n
    · have hsub : k - index = n := by omega
      rw [if_neg (by omega)] at ih
      rw [hsub]
      split_ifs with hbit hin hin
      · rw [px_store, if_pos hk, Nat.mod_eq_of_lt v.isLt]
      · exact absurd ⟨by omega, hbit⟩ hin
      · exact absurd hin.2 hbit
      · exact ih
    · have hiff : (index ≤ k ∧ k < index + (n + 1)) ↔ index ≤ k ∧ k < index + n := by omega
      simp only [hiff]
      rw [← ih]
      split_ifs
      · rw [px_store, if_neg hk]
      · rfl

/-- The pixels of the first rows of a character. -/
theorem px_drawCharRows (m : Mem) {font : Font} {coords : Coordinate} {c : BitVec 8} {x : ℕ}
    (hin : coords.x + font.width ≤ g.fb.width) (hx : x < g.fb.width) (y n : ℕ) :
    px (g.drawCharRows m font coords c n) (x + y * g.fb.width) =
      if (coords.x ≤ x ∧ x < coords.x + font.width) ∧ (coords.y ≤ y ∧ y < coords.y + n) ∧
        ink font c (x - coords.x) (y - coords.y) then (packRgb font.rgb g.fb).toNat
      else px m (x + y * g.fb.width) := by
  induction n with
  | zero => rw [if_neg (by omega)]; rfl
  | succ n ih =>
    have hrow : (coords.x + (coords.y + n) * g.fb.width ≤ x + y * g.fb.width ∧
        x + y * g.fb.width < coords.x + (coords.y + n) * g.fb.width + font.width) ↔
        (coords.x ≤ x ∧ x < coords.x + font.width) ∧ y = coords.y + n := by
      have hmem : x + y * g.fb.width ∈
          rows g.fb.width (coords.x + (coords.y + n) * g.fb.width) font.width 1 ↔ _ :=
        mem_rows_iff hin hx
      rw [rows_one, mem_row] at hmem
      rw [hmem]
      omega
    rw [drawCharRows, px_drawCharRow, ih]
    by_cases hat : (coords.x ≤ x ∧ x < coords.x + font.width) ∧ y = coords.y + n
    · obtain ⟨hcol, rfl⟩ := hat
      have hsub : x + (coords.y + n) * g.fb.width - (coords.x + (coords.y + n) * g.fb.width) =
          x - coords.x := by omega
      rw [hsub, Nat.add_sub_cancel_left]
      by_cases hink : ink font c (x - coords.x) n
      · rw [if_pos ⟨hrow.mpr ⟨hcol, rfl⟩, hink⟩, if_pos ⟨hcol, by omega, hink⟩]
      · rw [if_neg fun h => hink h.2, if_neg (by omega), if_neg fun h => hink h.2.2]
    · rw [if_neg fun h => hat (hrow.mp h.1)]
      refine if_congr ⟨fun h => ⟨h.1, by omega, h.2.2⟩, fun h => ⟨h.1, ?_, h.2.2⟩⟩ rfl rfl
      have hne : y ≠ coords.y + n := fun heq => hat ⟨h.1, heq⟩
      omega

/-- `DrawChar` sets the pixels of the character that are ink. -/
theorem drawChar_pixel {font : Font} {coords : Coordinate} (c : BitVec 8) {x : ℕ}
    (hin : coords.x + font.width ≤ g.fb.width) (hx : x < g.fb.width) (y : ℕ) :
    (g.drawChar font coords c).pixel x y =
      if (coords.x ≤ x ∧ x < coords.x + font.width) ∧
        (coords.y ≤ y ∧ y < coords.y + font.height) ∧ ink font c (x - coords.x) (y - coords.y)
      then (packRgb font.rgb g.fb).toNat else g.pixel x y :=
  px_drawCharRows g.buffer hin hx y font.height

/-- `DrawRect` sets the pixels of its rectangle. -/
theorem drawRect_pixel (hbpp : g.fb.bpp = 32) {coords : Coordinate} {dims : Dimensions} (rgb : RGB)
    (hin : coords.x + dims.width ≤ g.fb.width) (hheight : 0 < dims.height) {x : ℕ}
    (hx : x < g.fb.width) (y : ℕ) :
    (g.drawRect coords dims rgb).pixel x y =
      if (coords.x ≤ x ∧ x < coords.x + dims.width) ∧ coords.y ≤ y ∧ y < coords.y + dims.height
      then (packRgb rgb g.fb).toNat else g.pixel x y := by
  have hdraw := paints_drawRect hbpp coords dims rgb (x + y * g.fb.width)
  rw [Nat.sub_add_cancel hheight, pixelIndex, mem_rows_iff hin hx] at hdraw
  rw [pixel, pixelIndex]
  split_ifs with hrect
  · exact hdraw.1 ⟨hrect.1.1, hrect.1.2, hrect.2⟩
  · exact hdraw.2 fun h => hrect ⟨⟨h.1, h.2.1⟩, h.2.2⟩

end GraphicsCtx

namespace Console

open GraphicsCtx (px pixel ink InRect toCoord toCoord_natCast)

variable {outer lines cols : ℕ} {s s' : Console} {g : Grid (BitVec 8)}

/-! ### The calls on the grid -/

/-- `TermPrint` on a grid. -/
def textPrint (lines cols : ℕ) (g : Grid (BitVec 8)) (str : List (BitVec 8)) : Grid (BitVec 8) :=
  (str.takeWhile (· ≠ 0)).foldl (fun g c => g.put lines cols (c = 0x0A) c) g

/-- A call on a grid. -/
def textStep (lines cols : ℕ) (prompt : List (BitVec 8)) (rodata : Bool → ℕ → BitVec 8)
    (g : Grid (BitVec 8)) : Call → Grid (BitVec 8)
  | .termPrintMain str => textPrint lines cols g str
  | .handleKeyStroke keyInfo =>
    if keyInfo.backspace then g.erase cols
    else if keyInfo.enter then textPrint lines cols (g.newLine lines) prompt
    else textPrint lines cols g [charFromScancode rodata keyInfo, 0]

/-! ### What the back buffer shows -/

/-- A body of whole lines inside a framebuffer of 32 bits for each pixel. -/
structure Placed (s : Console) : Prop where
  bpp : s.ctx.fb.bpp = 32
  fbWidth : s.ctx.fb.width < 2 ^ 16
  fbHeight : s.ctx.fb.height < 2 ^ 16
  right : s.term.topLeft.x + s.term.dims.width ≤ s.ctx.fb.width
  bottom : s.term.topLeft.y + s.term.dims.height ≤ s.ctx.fb.height
  numLines : s.term.numLines = s.term.dims.height / 16

namespace Same

theorem dims (h : s.Same s') : s'.term.dims = s.term.dims := by
  obtain ⟨cursor, hterm⟩ := h.term
  rw [hterm]

theorem topLeft (h : s.Same s') : s'.term.topLeft = s.term.topLeft := by
  obtain ⟨cursor, hterm⟩ := h.term
  rw [hterm]

theorem font (h : s.Same s') : s'.term.font = s.term.font := by
  obtain ⟨cursor, hterm⟩ := h.term
  rw [hterm]

theorem numLines (h : s.Same s') : s'.term.numLines = s.term.numLines := by
  obtain ⟨cursor, hterm⟩ := h.term
  rw [hterm]

theorem bgColor (h : s.Same s') : s'.term.bgColor = s.term.bgColor := by
  obtain ⟨cursor, hterm⟩ := h.term
  rw [hterm]

theorem prompt (h : s.Same s') : s'.term.prompt = s.term.prompt := by
  obtain ⟨cursor, hterm⟩ := h.term
  rw [hterm]

end Same

theorem Placed.congr (h : s.Placed) (hs : s.Same s') : s'.Placed := by
  obtain ⟨hbpp, hW, hH, hright, hbottom, hlines⟩ := h
  rw [← hs.fb] at hbpp hW hH hright hbottom
  rw [← hs.dims, ← hs.topLeft] at hright hbottom
  rw [← hs.dims, ← hs.numLines] at hlines
  exact ⟨hbpp, hW, hH, hright, hbottom, hlines⟩

/-- A pixel of a cell. -/
def cellPixel (s : Console) (o : Option (BitVec 8)) (i j : ℕ) : ℕ :=
  match o with
  | none => (packRgb s.term.bgColor s.ctx.fb).toNat
  | some c =>
    if ink s.term.font c i j then (packRgb s.term.font.rgb s.ctx.fb).toNat
    else (packRgb s.term.bgColor s.ctx.fb).toNat

theorem cellPixel_congr (hs : s.Same s') (o : Option (BitVec 8)) (i j : ℕ) :
    s'.cellPixel o i j = s.cellPixel o i j := by
  simp only [cellPixel, hs.font, hs.bgColor, hs.fb]

/-- The pixels of the body are those of the cells of a grid, and the pixels outside the body are
given. -/
structure Pixels (border : ℕ → ℕ → ℕ) (cell : ℕ → ℕ → Option (BitVec 8)) (s : Console) : Prop where
  body : ∀ x < s.term.dims.width, ∀ y < s.term.dims.height,
    s.ctx.pixel (s.term.topLeft.x + x) (s.term.topLeft.y + y) =
      s.cellPixel (cell (y / 16) (x / 9)) (x % 9) (y % 16)
  frame : ∀ x < s.ctx.fb.width, ∀ y < s.ctx.fb.height, ¬ InRect s.term.topLeft s.term.dims x y →
    s.ctx.pixel x y = border x y

/-- The back buffer shows a grid, and the cursor is where it is in the grid. -/
structure ShowsText (outer : ℕ) (border : ℕ → ℕ → ℕ) (g : Grid (BitVec 8)) (s : Console) :
    Prop where
  inv : s.Inv outer
  placed : s.Placed
  grid : g.Ok (s.term.dims.height / 16) (s.term.dims.width / 9)
  cursor : s.term.cursor = ⟨9 * g.col, 16 * g.row⟩
  pixels : s.Pixels border g.cell

variable {border : ℕ → ℕ → ℕ}

/-- Nothing is drawn. -/
theorem Pixels.congr {cell : ℕ → ℕ → Option (BitVec 8)} (h : s.Pixels border cell) (hs : s.Same s')
    (hctx : s'.ctx = s.ctx) : s'.Pixels border cell := by
  obtain ⟨hbody, hframe⟩ := h
  refine ⟨fun x hx y hy => ?_, fun x hx y hy hout => ?_⟩
  · rw [hs.dims] at hx hy
    rw [cellPixel_congr hs, hs.topLeft, hctx]
    exact hbody x hx y hy
  · rw [hctx] at hx hy ⊢
    rw [hs.dims, hs.topLeft] at hout
    exact hframe x hx y hy hout

/-- Rows of the body below the lines are not moved. -/
theorem scroll_below (hp : s.Placed) (hheight : 0 < s.term.font.height)
    (hlines : 0 < s.term.numLines)
    (hfit : s.term.numLines * s.term.font.height ≤ s.term.dims.height) {x y : ℕ}
    (hx : x < s.ctx.fb.width)
    (hy : s.term.topLeft.y + s.term.numLines * s.term.font.height ≤ y) :
    s.scroll.ctx.pixel x y = s.ctx.pixel x y := by
  have hbottom := hp.bottom
  have hright := hp.right
  have hW := hp.fbWidth
  have hH := hp.fbHeight
  have hsplit := lines_eq_last_add hlines
  have hmem := mem_lastLine_iff hright (by omega) (y := y) hx
  rw [scroll_pixel, ctx_pixel,
    (px_scroll hp.bpp (by omega) hheight hlines _).2 (by rw [hmem]; omega)]
  refine Moves.spans_of_notMem fun r hr k hk heq => ?_
  have hrow := (rowIndex_add_eq_iff hright (by omega) hk hx).mp heq
  omega

/-- `Scroll` moves the text up. -/
theorem Pixels.scroll (h : s.Pixels border g.cell) (hp : s.Placed)
    (hfh : s.term.font.height = 16) (hmin : 32 ≤ s.term.dims.height)
    (hg : g.Ok (s.term.dims.height / 16) (s.term.dims.width / 9)) :
    s.scroll.Pixels border (g.scroll (s.term.dims.height / 16)).cell := by
  have hnum := hp.numLines
  have hright := hp.right
  have hbottom := hp.bottom
  have hH := hp.fbHeight
  have hfit : s.term.numLines * s.term.font.height ≤ s.term.dims.height := by
    rw [hfh, hnum]
    exact Nat.div_mul_le_self _ _
  have hup : s.ScrollsUp := scrollsUp_of_fits hp.bpp hp.fbWidth (by omega) (by omega) hright hfit
    (by omega)
  have hs := same_scroll s
  refine ⟨fun x hx y hy => ?_, fun x hx y hy hout => ?_⟩
  · rw [hs.dims] at hx hy
    rw [cellPixel_congr hs, hs.topLeft]
    have hy16 : y = y / 16 * 16 + y % 16 := by omega
    have hmod : y % 16 < 16 := Nat.mod_lt _ (by decide)
    simp only [Grid.scroll]
    rcases Nat.lt_trichotomy (y / 16 + 1) s.term.numLines with hlt | heq | hgt
    · rw [if_pos (hnum ▸ hlt)]
      have hline := hup.lines (y / 16) hlt (s.term.topLeft.x + x) (by omega) (by omega) (y % 16)
        (hfh ▸ hmod)
      rw [hfh, Nat.add_assoc, ← hy16, Nat.add_assoc] at hline
      have hold := h.body x hx ((y / 16 + 1) * 16 + y % 16) (by omega)
      rw [hline, hold]
      congr 1
      · congr 1
        omega
      · omega
    · rw [if_neg (by omega)]
      have hlast := hup.last (s.term.topLeft.x + x) (by omega) (by omega) (y % 16) (hfh ▸ hmod)
      rw [hfh, ← heq, Nat.add_sub_cancel, Nat.add_assoc, ← hy16] at hlast
      exact hlast
    · rw [if_neg (by omega)]
      have hbelow := scroll_below hp (by omega) (by omega) hfit
        (x := s.term.topLeft.x + x) (y := s.term.topLeft.y + y) (by omega) (by rw [hfh]; omega)
      rw [hbelow, h.body x hx y hy]
      congr 1
      by_contra hne
      have hin := (hg.inside _ _ hne).1
      omega
  · rw [hs.fb] at hx hy
    rw [hs.dims, hs.topLeft] at hout
    rw [hup.frame x hx y hy hout, h.frame x hx y hy hout]

/-- The cell at the cursor. -/
theorem charCoords_eq (hp : s.Placed) (hcursor : s.term.cursor = ⟨9 * g.col, 16 * g.row⟩)
    (hg : g.Ok (s.term.dims.height / 16) (s.term.dims.width / 9)) :
    s.charCoords = ⟨s.term.topLeft.x + 9 * g.col, s.term.topLeft.y + 16 * g.row⟩ := by
  have hright := hp.right
  have hbottom := hp.bottom
  have hW := hp.fbWidth
  have hH := hp.fbHeight
  have hrow := hg.row
  have hcol := hg.col
  rw [charCoords, hcursor, ← Nat.cast_add, ← Nat.cast_add, toCoord_natCast (by dsimp only; omega),
    toCoord_natCast (by dsimp only; omega)]

/-- A change of the cell at the cursor. -/
theorem Pixels.set (h : s.Pixels border g.cell) (hp : s.Placed)
    (hg : g.Ok (s.term.dims.height / 16) (s.term.dims.width / 9)) (ctx : GraphicsCtx)
    (hfb : ctx.fb = s.ctx.fb) (o : Option (BitVec 8))
    (hin : ∀ x < 9, ∀ y < 16, ctx.pixel (s.term.topLeft.x + 9 * g.col + x)
      (s.term.topLeft.y + 16 * g.row + y) = s.cellPixel o x y)
    (hout : ∀ x < s.ctx.fb.width, ∀ y, ¬ ((s.term.topLeft.x + 9 * g.col ≤ x ∧
      x < s.term.topLeft.x + 9 * g.col + 9) ∧ s.term.topLeft.y + 16 * g.row ≤ y ∧
      y < s.term.topLeft.y + 16 * g.row + 16) → ctx.pixel x y = s.ctx.pixel x y) :
    ({ s with ctx := ctx } : Console).Pixels border (g.set o).cell := by
  have hs : s.Same { s with ctx := ctx } := same_of_fb hfb
  have hright := hp.right
  have hrow := hg.row
  have hcol := hg.col
  refine ⟨fun x hx y hy => ?_, fun x hx y hy hno => ?_⟩
  · have hx : x < s.term.dims.width := hx
    have hy : y < s.term.dims.height := hy
    rw [cellPixel_congr hs]
    simp only [Grid.set]
    split_ifs with hat
    · have hval := hin (x % 9) (Nat.mod_lt _ (by decide)) (y % 16) (Nat.mod_lt _ (by decide))
      rwa [show s.term.topLeft.x + 9 * g.col + x % 9 = s.term.topLeft.x + x by omega,
        show s.term.topLeft.y + 16 * g.row + y % 16 = s.term.topLeft.y + y by omega] at hval
    · rw [hout _ (by omega) _ (by omega)]
      exact h.body x hx y hy
  · have hx : x < s.ctx.fb.width := hfb ▸ hx
    have hy : y < s.ctx.fb.height := hfb ▸ hy
    have hno : ¬ InRect s.term.topLeft s.term.dims x y := hno
    refine (hout x hx y fun hcell => hno ?_).trans (h.frame x hx y hy hno)
    rw [InRect]
    omega

section Cell

variable (h : s.Pixels border g.cell) (hi : s.Inv outer) (hp : s.Placed)
  (hcursor : s.term.cursor = ⟨9 * g.col, 16 * g.row⟩)
  (hg : g.Ok (s.term.dims.height / 16) (s.term.dims.width / 9))
include h hi hp hcursor hg

/-- `DrawChar` on a blank cell shows the character. -/
theorem Pixels.drawChar (hblank : g.cell g.row g.col = none) (c : BitVec 8) :
    ({ s with ctx := s.ctx.drawChar s.term.font s.charCoords c } : Console).Pixels border
      (g.set (some c)).cell := by
  have hright := hp.right
  have hrow := hg.row
  have hcol := hg.col
  have hcoords := charCoords_eq hp hcursor hg
  have hdraw {x : ℕ} (hx : x < s.ctx.fb.width) (y : ℕ) :
      (s.ctx.drawChar s.term.font s.charCoords c).pixel x y =
        if (s.term.topLeft.x + 9 * g.col ≤ x ∧ x < s.term.topLeft.x + 9 * g.col + 9) ∧
          (s.term.topLeft.y + 16 * g.row ≤ y ∧ y < s.term.topLeft.y + 16 * g.row + 16) ∧
          ink s.term.font c (x - (s.term.topLeft.x + 9 * g.col))
            (y - (s.term.topLeft.y + 16 * g.row))
        then (packRgb s.term.font.rgb s.ctx.fb).toNat else s.ctx.pixel x y := by
    have hin : s.charCoords.x + s.term.font.width ≤ s.ctx.fb.width := by
      rw [hcoords, hi.fontWidth]
      dsimp only
      omega
    rw [GraphicsCtx.drawChar_pixel c hin hx]
    simp only [hcoords, hi.fontWidth, hi.fontHeight]
  refine h.set hp hg (s.ctx.drawChar s.term.font s.charCoords c) rfl (some c) (fun x hx y hy => ?_)
    fun x hx y hno => ?_
  · have hold := h.body (9 * g.col + x) (by omega) (16 * g.row + y) (by omega)
    rw [show (16 * g.row + y) / 16 = g.row by omega, show (9 * g.col + x) / 9 = g.col by omega,
      hblank, ← Nat.add_assoc, ← Nat.add_assoc] at hold
    rw [hdraw (by omega), hold, Nat.add_sub_cancel_left, Nat.add_sub_cancel_left]
    exact if_congr ⟨fun hink => hink.2.2, fun hink => ⟨by omega, by omega, hink⟩⟩ rfl rfl
  · rw [hdraw hx]
    exact if_neg fun hin => hno ⟨hin.1, hin.2.1⟩

/-- `DrawRect` clears a cell. -/
theorem Pixels.clear :
    ({ s with
      ctx := s.ctx.drawRect s.charCoords ⟨s.term.font.width, s.term.font.height⟩ s.term.bgColor }
        : Console).Pixels border (g.set none).cell := by
  have hright := hp.right
  have hrow := hg.row
  have hcol := hg.col
  have hcoords := charCoords_eq hp hcursor hg
  have hdraw {x : ℕ} (hx : x < s.ctx.fb.width) (y : ℕ) :
      (s.ctx.drawRect s.charCoords ⟨s.term.font.width, s.term.font.height⟩
        s.term.bgColor).pixel x y =
        if (s.term.topLeft.x + 9 * g.col ≤ x ∧ x < s.term.topLeft.x + 9 * g.col + 9) ∧
          s.term.topLeft.y + 16 * g.row ≤ y ∧ y < s.term.topLeft.y + 16 * g.row + 16
        then (packRgb s.term.bgColor s.ctx.fb).toNat else s.ctx.pixel x y := by
    have hin : s.charCoords.x + s.term.font.width ≤ s.ctx.fb.width := by
      rw [hcoords, hi.fontWidth]
      dsimp only
      omega
    have hheight : 0 < s.term.font.height := by
      rw [hi.fontHeight]
      decide
    rw [GraphicsCtx.drawRect_pixel hp.bpp _ hin hheight hx]
    simp only [hcoords, hi.fontWidth, hi.fontHeight]
  refine h.set hp hg (s.ctx.drawRect s.charCoords ⟨s.term.font.width, s.term.font.height⟩
    s.term.bgColor) rfl none (fun x hx y hy => ?_) fun x hx y hno => ?_
  · rw [hdraw (by omega), if_pos (by omega)]
    rfl
  · rw [hdraw hx, if_neg hno]

end Cell

/-! ### The calls -/

namespace ShowsText

/-- Only the cursor moves. -/
theorem move (h : s.ShowsText outer border g) {x y : ℕ} {k : Grid (BitVec 8)} {i j : ℤ}
    (hi : i = (9 * x : ℕ)) (hj : j = (16 * y : ℕ)) (hcell : k.cell = g.cell) (hcol : k.col = x)
    (hrow : k.row = y) (hok : k.Ok (s.term.dims.height / 16) (s.term.dims.width / 9)) :
    (s.setCursor i j).ShowsText outer border k := by
  have hs := s.same_setCursor i j
  have hright := h.placed.right
  have hbottom := h.placed.bottom
  have hW := h.placed.fbWidth
  have hH := h.placed.fbHeight
  have hx := hok.col
  have hy := hok.row
  have hinv := h.inv.setCursor (x := 9 * x) (y := 16 * y) (by omega) (by omega) (by omega)
    (by omega)
  rw [← hi, ← hj] at hinv
  refine ⟨hinv, h.placed.congr hs, hok, ?_, ?_⟩
  · rw [setCursor, hi, hj, toCoord_natCast (by omega), toCoord_natCast (by omega), hcol, hrow]
  · rw [hcell]
    exact h.pixels.congr hs rfl

theorem termNewLine (h : s.ShowsText outer border g) :
    s.termNewLine.ShowsText outer border (g.newLine (s.term.dims.height / 16)) := by
  have hfh := h.inv.fontHeight
  have hbottom := h.placed.bottom
  have hH := h.placed.fbHeight
  have hrow := h.grid.row
  have hok := (h.grid.newLine).1
  have hs := s.same_setCursor 0 s.term.cursor.y
  have hy : s.term.cursor.y = 16 * g.row := by rw [h.cursor]
  have hstart : (s.setCursor 0 s.term.cursor.y).term.cursor = ⟨0, 16 * g.row⟩ := by
    rw [setCursor, hy, toCoord_natCast (by omega)]
    rfl
  have hlast : (s.setCursor 0 s.term.cursor.y).term.cursor.y +
      (s.setCursor 0 s.term.cursor.y).term.font.height * 2 >
        (s.setCursor 0 s.term.cursor.y).term.dims.height ↔
      ¬ g.row + 1 < s.term.dims.height / 16 := by
    rw [hstart, hs.font, hs.dims, hfh]
    dsimp only
    omega
  have hinv := h.inv.termNewLine
  have hsame := same_termNewLine s
  rw [Console.termNewLine] at hinv hsame ⊢
  rw [Grid.newLine] at hok ⊢
  by_cases hnext : g.row + 1 < s.term.dims.height / 16
  · rw [if_neg fun hno => hlast.mp hno hnext]
    rw [if_pos hnext] at hok ⊢
    rw [hstart, hs.font, hfh]
    exact h.move (k := { g with row := g.row + 1, col := 0 }) rfl (by push_cast; ring) rfl rfl rfl
      hok
  · rw [if_pos (hlast.mpr hnext)] at hinv hsame ⊢
    rw [if_neg hnext] at hok ⊢
    have hpixels := (h.pixels.congr hs rfl).scroll (h.placed.congr hs) hfh
      h.inv.minHeight h.grid
    refine ⟨hinv, h.placed.congr hsame, ?_, ?_, hpixels⟩
    · rw [hsame.dims]
      exact hok
    · exact hstart

/-- A round of `TermPrint`. -/
theorem termPrintChar (h : s.ShowsText outer border g) (c : BitVec 8) :
    (s.termPrintChar c).ShowsText outer border
      (g.put (s.term.dims.height / 16) (s.term.dims.width / 9) (c = 0x0A) c) := by
  have hfull : (s.term.cursor.x : ℤ) > (s.term.dims.width : ℤ) - s.term.borderThickness * 6 ↔
      s.term.dims.width / 9 ≤ g.col + 1 := by
    rw [h.cursor, h.inv.thickness]
    push_cast
    omega
  have hadvance := h.grid.advance (c = 0x0A)
  have hinv := h.inv.termPrintChar c
  have hsame := same_termPrintChar s c
  -- the console before the character is drawn
  obtain ⟨s₁, hs₁, hchar, hshows⟩ : ∃ s₁ : Console, s.Same s₁ ∧
      s.termPrintChar c = { s₁ with ctx := s₁.ctx.drawChar s₁.term.font s₁.charCoords c } ∧
      s₁.ShowsText outer border
        (g.advance (s.term.dims.height / 16) (s.term.dims.width / 9) (c = 0x0A)) := by
    rw [Console.termPrintChar]
    rw [Grid.advance] at hadvance ⊢
    by_cases hnext : c = 0x0A ∨ s.term.dims.width / 9 ≤ g.col + 1
    · rw [if_pos (hnext.imp_right hfull.mpr), if_pos hnext]
      exact ⟨_, same_termNewLine s, rfl, h.termNewLine⟩
    · rw [if_neg fun hno => hnext (hno.imp_right hfull.mp), if_neg hnext]
      rw [if_neg hnext] at hadvance
      refine ⟨_, same_setCursor s _ _, rfl, h.move (x := g.col + 1) (y := g.row) ?_ ?_ rfl rfl rfl
        hadvance.1⟩
      · rw [h.cursor, h.inv.fontWidth]
        push_cast
        ring
      · rw [h.cursor]
  rw [hchar] at hinv hsame ⊢
  have hgrid := (hadvance.1).set (some c)
  have hpixels := hshows.pixels.drawChar hshows.inv hshows.placed hshows.cursor hshows.grid
    hadvance.2 c
  exact ⟨hinv, h.placed.congr hsame, by rw [hsame.dims]; exact hgrid, hshows.cursor, hpixels⟩

theorem foldl_termPrintChar (h : s.ShowsText outer border g) (cs : List (BitVec 8)) :
    s.Same (cs.foldl Console.termPrintChar s) ∧
      (cs.foldl Console.termPrintChar s).ShowsText outer border (cs.foldl (fun g c =>
        g.put (s.term.dims.height / 16) (s.term.dims.width / 9) (c = 0x0A) c) g) := by
  induction cs generalizing s g with
  | nil => exact ⟨⟨rfl, _, rfl⟩, h⟩
  | cons c cs ih =>
    have hsame := same_termPrintChar s c
    obtain ⟨hrest, hshows⟩ := ih (h.termPrintChar c)
    rw [hsame.dims] at hshows
    exact ⟨hsame.trans hrest, hshows⟩

/-- `TermPrint` shows the text on the grid. -/
theorem termPrint (h : s.ShowsText outer border g) (str : List (BitVec 8)) :
    (s.termPrint str).ShowsText outer border
      (textPrint (s.term.dims.height / 16) (s.term.dims.width / 9) g str) :=
  (h.foldl_termPrintChar _).2

/-- `RemoveChar` clears the cell at the cursor and steps back. -/
theorem removeChar (h : s.ShowsText outer border g)
    (hok : s.term.cursor.x = 0 → s.term.cursor.y ≠ 0 → 6 ≤ outer % 9) :
    s.removeChar.ShowsText outer border (g.erase (s.term.dims.width / 9)) := by
  have hx : s.term.cursor.x = 9 * g.col := by rw [h.cursor]
  have hy : s.term.cursor.y = 16 * g.row := by rw [h.cursor]
  have hgrid := h.grid.erase
  have hmin := h.inv.minWidth
  have hclear := h.pixels.clear h.inv h.placed h.cursor h.grid
  have hset := h.grid.set none
  -- the console after the cell has been cleared
  have hmid : ({ s with
      ctx := s.ctx.drawRect s.charCoords ⟨s.term.font.width, s.term.font.height⟩ s.term.bgColor }
        : Console).ShowsText outer border (g.set none) :=
    ⟨h.inv.ctx _, h.placed.congr (same_of_fb rfl), hset, h.cursor, hclear⟩
  rw [Console.removeChar]
  rw [Grid.erase] at hgrid ⊢
  have hcorner : s.term.cursor.x = 0 ∧ s.term.cursor.y = 0 ↔ g.row = 0 ∧ g.col = 0 := by omega
  by_cases hfirst : g.row = 0 ∧ g.col = 0
  · rw [if_pos (hcorner.mpr hfirst), if_pos hfirst]
    exact h
  · rw [if_neg hfirst] at hgrid
    rw [if_neg fun hno => hfirst (hcorner.mp hno), if_neg hfirst]
    by_cases hstart : g.col = 0
    · have hroom := hok (by omega) (by omega)
      have hw := h.inv.width
      have hline : s.term.cursor.x = 0 := by omega
      simp only [hline, hstart, if_true] at hgrid ⊢
      refine hmid.move (x := s.term.dims.width / 9 - 1) (y := g.row - 1) ?_ ?_ rfl rfl rfl hgrid
      · rw [h.inv.charsPerLine, h.inv.fontWidth]
        omega
      · rw [hy, h.inv.fontHeight]
        omega
    · have hline : ¬ s.term.cursor.x = 0 := by omega
      simp only [if_neg hline, if_neg hstart] at hgrid ⊢
      refine hmid.move (x := g.col - 1) (y := g.row) ?_ ?_ rfl rfl rfl hgrid
      · rw [hx, h.inv.fontWidth]
        omega
      · rw [hy]

/-- `WriteBack` does not change the back buffer. -/
theorem writeBack (h : s.ShowsText outer border g) :
    ({ s with ctx := s.ctx.writeBack } : Console).ShowsText outer border g := by
  obtain ⟨hfb, hbuffer⟩ := writeBack_keeps s.ctx
  have hs : s.Same { s with ctx := s.ctx.writeBack } := same_of_fb hfb
  have hpixel (x y : ℕ) : s.ctx.writeBack.pixel x y = s.ctx.pixel x y := by
    rw [pixel, pixel, GraphicsCtx.pixelIndex, GraphicsCtx.pixelIndex, hfb, hbuffer]
  refine ⟨h.inv.ctx _, h.placed.congr hs, h.grid, h.cursor, fun x hx y hy => ?_,
    fun x hx y hy hout => ?_⟩
  · rw [cellPixel_congr hs, hpixel]
    exact h.pixels.body x hx y hy
  · rw [hpixel]
    exact h.pixels.frame x (hfb ▸ hx) y (hfb ▸ hy) hout

/-- A call on the terminal is a call on the grid, if it is not a backspace that leaves the body. -/
theorem step (h : s.ShowsText outer border g) (rodata : Bool → ℕ → BitVec 8) {c : Call}
    (hok : s.BackspaceOk outer c) :
    (s.step rodata c).ShowsText outer border
      (textStep (s.term.dims.height / 16) (s.term.dims.width / 9) s.term.prompt rodata g c) := by
  cases c with
  | termPrintMain str => exact h.termPrint str
  | handleKeyStroke keyInfo =>
    rw [Console.step, handleKeyStroke, textStep]
    refine ShowsText.writeBack ?_
    by_cases hback : keyInfo.backspace = true
    · rw [if_pos hback, if_pos hback]
      exact h.removeChar fun hx hy => hok ⟨hback, hx, hy⟩
    · rw [if_neg hback, if_neg hback]
      by_cases henter : keyInfo.enter = true
      · rw [if_pos henter, if_pos henter]
        have hline := h.termNewLine.termPrint s.term.prompt
        rwa [(same_termNewLine s).dims] at hline
      · rw [if_neg henter, if_neg henter]
        exact h.termPrint _

theorem same_removeChar (s : Console) : s.Same s.removeChar := by
  rw [Console.removeChar]
  split_ifs with hfirst
  · exact ⟨rfl, _, rfl⟩
  · dsimp only
    split_ifs <;> exact ⟨rfl, _, rfl⟩

theorem same_step (rodata : Bool → ℕ → BitVec 8) (s : Console) (c : Call) :
    s.Same (s.step rodata c) := by
  cases c with
  | termPrintMain str => exact same_termPrint s str
  | handleKeyStroke keyInfo =>
    have hback (s' : Console) : s'.Same { s' with ctx := s'.ctx.writeBack } :=
      same_of_fb (writeBack_keeps _).1
    rw [Console.step, handleKeyStroke]
    refine Same.trans ?_ (hback _)
    split_ifs
    · exact same_removeChar s
    · exact (same_termNewLine s).trans (same_termPrint _ _)
    · exact same_termPrint s _

/-- A run of the terminal is a run of the grid. -/
theorem run (h : s.ShowsText outer border g) (rodata : Bool → ℕ → BitVec 8) {calls : List Call}
    (hrun : Run.Along (Console.step rodata) (BackspaceOk outer) s calls) :
    (calls.foldl (Console.step rodata) s).ShowsText outer border (calls.foldl
      (textStep (s.term.dims.height / 16) (s.term.dims.width / 9) s.term.prompt rodata) g) := by
  induction calls generalizing s g with
  | nil => exact h
  | cons c calls ih =>
    have hsame := same_step rodata s c
    have hrest := ih (h.step rodata hrun.1) hrun.2
    rwa [hsame.dims, hsame.prompt] at hrest

end ShowsText

/-! ### The terminal of the kernel -/

instance (coords : Coordinate) (dims : Dimensions) (x y : ℤ) : Decidable (InRect coords dims x y) :=
  inferInstanceAs (Decidable (_ ∧ _))

/-- The pixels outside the body of a new terminal: those of its borders, and those around it. -/
def around (ctx : GraphicsCtx) (dims : Dimensions) (topLeft : Coordinate) (border : RGB) (x y : ℕ) :
    ℕ :=
  if InRect topLeft dims x y then (packRgb border ctx.fb).toNat else ctx.pixel x y

/-- The terminal that `InitTerminal` makes, drawn without its prompt. -/
def drawn (ctx : GraphicsCtx) (dims : Dimensions) (topLeft : Coordinate) (font : Font)
    (bg border : RGB) (prompt : List (BitVec 8)) : Console :=
  let s := initTerminal ctx dims topLeft font bg border 3 []
  { s with term := { s.term with prompt := prompt } }

section Init

variable {ctx : GraphicsCtx} (dims : Dimensions) (topLeft : Coordinate) (font : Font)
  (bg border : RGB) (prompt : List (BitVec 8))

theorem initTerminal_eq_termPrint :
    initTerminal ctx dims topLeft font bg border 3 prompt =
      (drawn ctx dims topLeft font bg border prompt).termPrint prompt := rfl

variable (hW : ctx.fb.width < 2 ^ 16) (hH : ctx.fb.height < 2 ^ 16) (hw : 70 ≤ dims.width)
  (hh : 38 ≤ dims.height) (hright : topLeft.x + dims.width ≤ ctx.fb.width)
  (hbottom : topLeft.y + dims.height ≤ ctx.fb.height)
include hW hH hw hh hright hbottom

theorem drawn_topLeft : (drawn ctx dims topLeft font bg border prompt).term.topLeft =
    ⟨topLeft.x + 3, topLeft.y + 3⟩ := by
  change (⟨toCoord (topLeft.x + (3 : ℕ)), toCoord (topLeft.y + (3 : ℕ))⟩ : Coordinate) = _
  rw [toCoord, toCoord, Coordinate.mk.injEq]
  omega

theorem drawn_dims : (drawn ctx dims topLeft font bg border prompt).term.dims =
    ⟨dims.width - 6, dims.height - 6⟩ := by
  change (⟨toCoord ((dims.width : ℤ) - (3 : ℕ) * 2), toCoord ((dims.height : ℤ) - (3 : ℕ) * 2)⟩ :
    Dimensions) = _
  rw [toCoord, toCoord, Dimensions.mk.injEq]
  omega

/-- `Render` draws the outer rectangle, and the body over it. -/
theorem drawn_ctx : (drawn ctx dims topLeft font bg border prompt).ctx =
    (ctx.drawRect topLeft dims border).drawRect ⟨topLeft.x + 3, topLeft.y + 3⟩
      ⟨dims.width - 6, dims.height - 6⟩ bg := by
  have htop := drawn_topLeft dims topLeft font bg border prompt hW hH hw hh hright hbottom
  have hdims := drawn_dims dims topLeft font bg border prompt hW hH hw hh hright hbottom
  rw [← htop, ← hdims]
  change (ctx.drawRect
    ⟨toCoord (((drawn ctx dims topLeft font bg border prompt).term.topLeft.x : ℤ) - (3 : ℕ)),
      toCoord (((drawn ctx dims topLeft font bg border prompt).term.topLeft.y : ℤ) - (3 : ℕ))⟩
    ⟨toCoord ((drawn ctx dims topLeft font bg border prompt).term.dims.width + (3 : ℕ) * 2),
      toCoord ((drawn ctx dims topLeft font bg border prompt).term.dims.height + (3 : ℕ) * 2)⟩
    border).drawRect (drawn ctx dims topLeft font bg border prompt).term.topLeft
      (drawn ctx dims topLeft font bg border prompt).term.dims bg = _
  have houter : (⟨toCoord (((topLeft.x + 3 : ℕ) : ℤ) - (3 : ℕ)),
      toCoord (((topLeft.y + 3 : ℕ) : ℤ) - (3 : ℕ))⟩ : Coordinate) = topLeft := by
    rw [toCoord, toCoord, Coordinate.mk.injEq]
    omega
  have hsize : (⟨toCoord (((dims.width - 6 : ℕ) : ℤ) + (3 : ℕ) * 2),
      toCoord (((dims.height - 6 : ℕ) : ℤ) + (3 : ℕ) * 2)⟩ : Dimensions) = dims := by
    rw [toCoord, toCoord, Dimensions.mk.injEq]
    omega
  rw [htop, hdims, houter, hsize]

/-- A new terminal is blank. -/
theorem showsText_drawn (hbpp : ctx.fb.bpp = 32) (hfw : font.width = 9)
    (hfh : font.height = 16) (hlast : 6 ≤ dims.height % 16) :
    (drawn ctx dims topLeft font bg border prompt).ShowsText dims.width
      (around ctx dims topLeft border) .blank := by
  have hi := inv_initTerminal ctx topLeft bg border [] hfw hfh hw (by omega) hh (by omega)
  have htop := drawn_topLeft dims topLeft font bg border prompt hW hH hw hh hright hbottom
  have hdims := drawn_dims dims topLeft font bg border prompt hW hH hw hh hright hbottom
  have hctx := drawn_ctx dims topLeft font bg border prompt hW hH hw hh hright hbottom
  have hfb : (drawn ctx dims topLeft font bg border prompt).ctx.fb = ctx.fb := by rw [hctx]; rfl
  have hinv : (drawn ctx dims topLeft font bg border prompt).Inv dims.width :=
    ⟨hi.fontWidth, hi.fontHeight, hi.thickness, hi.charsPerLine, hi.width, hi.outerLt, hi.minWidth,
      hi.heightLt, hi.minHeight, hi.column, hi.line, hi.inWidth, hi.inHeight⟩
  have hplaced : (drawn ctx dims topLeft font bg border prompt).Placed := by
    refine ⟨hfb ▸ hbpp, hfb ▸ hW, hfb ▸ hH, ?_, ?_, ?_⟩
    · rw [hfb, htop, hdims]
      dsimp only
      omega
    · rw [hfb, htop, hdims]
      dsimp only
      omega
    · rw [hdims]
      change dims.height / font.height = (dims.height - 6) / 16
      rw [hfh]
      omega
  -- the body is blank and the rest is the outer rectangle and what was around it
  have hpixel {x : ℕ} (hx : x < ctx.fb.width) (y : ℕ) :
      (drawn ctx dims topLeft font bg border prompt).ctx.pixel x y =
        if InRect ⟨topLeft.x + 3, topLeft.y + 3⟩ ⟨dims.width - 6, dims.height - 6⟩ x y then
          (packRgb bg ctx.fb).toNat
        else around ctx dims topLeft border x y := by
    have hbody : ((ctx.drawRect topLeft dims border).drawRect ⟨topLeft.x + 3, topLeft.y + 3⟩
        ⟨dims.width - 6, dims.height - 6⟩ bg).pixel x y = _ :=
      GraphicsCtx.drawRect_pixel (g := ctx.drawRect topLeft dims border) hbpp bg
        (by change topLeft.x + 3 + (dims.width - 6) ≤ ctx.fb.width; omega) (by dsimp only; omega)
        hx y
    rw [hctx, hbody, GraphicsCtx.drawRect_pixel hbpp border hright (by omega) hx, around]
    simp only [InRect]
    refine if_congr (by omega) rfl (if_congr (by omega) rfl rfl)
  refine ⟨hinv, hplaced, ?_, rfl, fun x hx y hy => ?_, fun x hx y hy hout => ?_⟩
  · rw [hdims]
    exact Grid.ok_blank (by dsimp only; omega) (by dsimp only; omega)
  · rw [hdims] at hx hy
    dsimp only at hx hy
    rw [htop, hpixel (by dsimp only; omega), if_pos (by simp only [InRect]; omega)]
    simp only [cellPixel, Grid.blank, hfb]
    rfl
  · rw [hfb] at hx
    rw [htop, hdims] at hout
    rw [hpixel hx, if_neg hout]

/-- A new terminal shows its prompt. -/
theorem showsText_initTerminal (hbpp : ctx.fb.bpp = 32) (hfw : font.width = 9)
    (hfh : font.height = 16) (hlast : 6 ≤ dims.height % 16) :
    (initTerminal ctx dims topLeft font bg border 3 prompt).ShowsText dims.width
      (around ctx dims topLeft border)
      (textPrint ((dims.height - 6) / 16) ((dims.width - 6) / 9) .blank prompt) := by
  have hblank := showsText_drawn dims topLeft font bg border prompt hW hH hw hh hright hbottom hbpp
    hfw hfh hlast
  have hprompt := hblank.termPrint prompt
  rwa [drawn_dims dims topLeft font bg border prompt hW hH hw hh hright hbottom] at hprompt

/-- **The terminal shows its text.** For a terminal of the kernel inside the framebuffer, with the
part of the height after the last whole line at least that of both borders, and a run in which no
backspace leaves the body: every pixel of the body is that of the text on the grid, and the pixels
outside the body are those of the borders and those that were there before. -/
theorem showsText_of_run (hbpp : ctx.fb.bpp = 32) (hfw : font.width = 9) (hfh : font.height = 16)
    (hlast : 6 ≤ dims.height % 16) (rodata : Bool → ℕ → BitVec 8) {calls : List Call}
    (hrun : Run.Along (step rodata) (BackspaceOk dims.width)
      (initTerminal ctx dims topLeft font bg border 3 prompt) calls) :
    (calls.foldl (step rodata)
      (initTerminal ctx dims topLeft font bg border 3 prompt)).ShowsText dims.width
        (around ctx dims topLeft border)
        (calls.foldl (textStep ((dims.height - 6) / 16) ((dims.width - 6) / 9) prompt rodata)
          (textPrint ((dims.height - 6) / 16) ((dims.width - 6) / 9) .blank prompt)) := by
  have hstart := showsText_initTerminal dims topLeft font bg border prompt hW hH hw hh hright
    hbottom hbpp hfw hfh hlast
  have hsame := same_termPrint (drawn ctx dims topLeft font bg border prompt) prompt
  have hend := hstart.run rodata hrun
  rw [initTerminal_eq_termPrint, hsame.dims, hsame.prompt,
    drawn_dims dims topLeft font bg border prompt hW hH hw hh hright hbottom] at hend
  exact hend

end Init

/-- A framebuffer as wide as the smallest terminal. -/
def smallContext : GraphicsCtx :=
  ⟨⟨70, 64, 280, 32, ⟨8, 16⟩, ⟨8, 8⟩, ⟨8, 0⟩⟩, 0, 1, 0, 0⟩

/-- A terminal that fills the width of the framebuffer. -/
def smallTerminal : Console :=
  initTerminal smallContext ⟨70, 38⟩ ⟨0, 0⟩ ⟨fun _ _ => 0x18, ⟨255, 255, 255⟩, 16, 9⟩ ⟨0, 0, 0⟩
    ⟨255, 0, 0⟩ 3 [0x3e]

/-- A prompt, a new line and a backspace that goes back to the line of the prompt. -/
theorem showsText_of_run_newLine :
    (newLineBackspace.foldl (step fun _ _ => 0) smallTerminal).ShowsText 70
      (around smallContext ⟨70, 38⟩ ⟨0, 0⟩ ⟨255, 0, 0⟩)
      (newLineBackspace.foldl (textStep 2 7 [0x3e] fun _ _ => 0)
        (textPrint 2 7 .blank [0x3e])) := by
  have hrun : Run.Along (step fun _ _ => 0) (BackspaceOk 70) smallTerminal newLineBackspace :=
    ⟨fun _ => by decide, fun _ => by decide, trivial⟩
  exact @showsText_of_run smallContext ⟨70, 38⟩ ⟨0, 0⟩
    ⟨fun _ _ => 0x18, ⟨255, 255, 255⟩, 16, 9⟩ ⟨0, 0, 0⟩ ⟨255, 0, 0⟩ [0x3e] (by decide) (by decide)
    (by decide) (by decide) (by decide) (by decide) rfl rfl rfl (by decide) _ newLineBackspace hrun

end Console

end Vardar
