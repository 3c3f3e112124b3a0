import Vardar.Graphics.Pixels
import Vardar.Graphics.Terminal

/-!
# Scrolling

`Scroll` moves the text lines of the main terminal up by one, row after row, and clears the last
line. The lines are counted in the height with the borders, so the last of them can reach below the
body.

## Main definitions

* `Vardar.Console.ScrollsUp`: what `Scroll` is for.

## Main results

* `Vardar.Console.scroll_scrollsUp_iff`.
-/

namespace Vardar

namespace Console

open ByteMemory Moves GraphicsCtx

variable {s s' s'' : Console}

/-! ### What the calls keep -/

/-- Only the cursor and what is drawn differ. -/
structure Same (s s' : Console) : Prop where
  fb : s'.ctx.fb = s.ctx.fb
  term : ∃ cursor, s'.term = { s.term with cursor := cursor }

theorem Same.trans (h : s.Same s') (h' : s'.Same s'') : s.Same s'' := by
  obtain ⟨cursor, hterm⟩ := h.term
  obtain ⟨cursor', hterm'⟩ := h'.term
  exact ⟨h'.fb.trans h.fb, cursor', by rw [hterm', hterm]⟩

theorem same_setCursor (s : Console) (x y : ℤ) : s.Same (s.setCursor x y) := ⟨rfl, _, rfl⟩

theorem same_of_fb {ctx : GraphicsCtx} (h : ctx.fb = s.ctx.fb) : s.Same { s with ctx := ctx } :=
  ⟨h, s.term.cursor, rfl⟩

/-- `WriteBack` changes neither the framebuffer nor the back buffer. -/
theorem writeBack_keeps (g : GraphicsCtx) :
    g.writeBack.fb = g.fb ∧ g.writeBack.buffer = g.buffer := by
  rw [writeBack]
  generalize List.range 64 = bands
  induction bands generalizing g with
  | nil => exact ⟨rfl, rfl⟩
  | cons x bands ih =>
    rw [List.foldl_cons]
    obtain ⟨hfb, hbuffer⟩ := ih (if getNthBit g.dirtyBlockStr x ≠ 0 then g.writeBackCell x else g)
    rw [hfb, hbuffer]
    split_ifs <;> exact ⟨rfl, rfl⟩

theorem scrollLine_fb (s : Console) (ctx : GraphicsCtx) (i : ℕ) :
    (s.scrollLine ctx i).fb = ctx.fb := (writeBack_keeps _).1

theorem foldl_scrollLine_fb (s : Console) (ctx : GraphicsCtx) (is : List ℕ) :
    (is.foldl s.scrollLine ctx).fb = ctx.fb := by
  induction is generalizing ctx with
  | nil => rfl
  | cons i is ih => rw [List.foldl_cons, ih, scrollLine_fb]

theorem same_scroll (s : Console) : s.Same s.scroll :=
  same_of_fb (((writeBack_keeps _).1).trans (foldl_scrollLine_fb s s.ctx _))

theorem same_termNewLine (s : Console) : s.Same s.termNewLine := by
  have hstart := s.same_setCursor 0 s.term.cursor.y
  rw [termNewLine]
  split_ifs
  · exact hstart.trans (same_scroll _)
  · exact hstart.trans (same_setCursor _ _ _)

theorem same_termPrintChar (s : Console) (c : BitVec 8) : s.Same (s.termPrintChar c) := by
  rw [termPrintChar]
  split_ifs
  · exact s.same_termNewLine.trans (same_of_fb rfl)
  · exact (s.same_setCursor _ _).trans (same_of_fb rfl)

theorem same_termPrint (s : Console) (str : List (BitVec 8)) : s.Same (s.termPrint str) := by
  rw [termPrint]
  induction str.takeWhile (· ≠ 0) generalizing s with
  | nil => exact ⟨rfl, s.term.cursor, rfl⟩
  | cons c str ih => exact (s.same_termPrintChar c).trans (ih _)

/-- The screen is drawn, and nothing but the cursor moves. -/
theorem same_render (s : Console) : s.Same s.render := by
  have hborders : s.Same s.renderBorders := same_of_fb rfl
  have hbody : s.renderBorders.Same { s.renderBorders with
      ctx := s.renderBorders.ctx.drawRect s.term.topLeft s.term.dims s.term.bgColor } :=
    same_of_fb rfl
  exact (hborders.trans hbody).trans (same_termPrint _ _)

/-! ### The rows of the text -/

/-- The index of the first pixel of a row of the text. -/
def rowIndex (s : Console) (r : ℕ) : ℕ :=
  s.term.topLeft.x + toCoord (s.term.topLeft.y + r) * s.ctx.fb.width

/-- The pixels after some rows have been moved up by a line. -/
def movedUp (s : Console) : ℕ → ℕ → ℕ :=
  spans s.rowIndex (fun r => s.rowIndex (r + s.term.font.height)) s.term.dims.width
    (px s.ctx.buffer)

/-- Coordinates are taken modulo `2 ^ 16` once. -/
theorem toCoord_toCoord_add (a b : ℤ) : toCoord (toCoord a + b) = toCoord (a + b) := by
  simp only [toCoord]
  omega

/-- One line of `Scroll`. -/
theorem px_scrollLine (hbpp : s.ctx.fb.bpp = 32) (hx : s.term.topLeft.x < 2 ^ 16)
    {ctx : GraphicsCtx} (hfb : ctx.fb = s.ctx.fb) (k : ℕ) :
    px (s.scrollLine ctx (1 + k)).buffer =
      spans (fun r => s.rowIndex (k * s.term.font.height + r))
        (fun r => s.rowIndex (k * s.term.font.height + r + s.term.font.height)) s.term.dims.width
        (px ctx.buffer) s.term.font.height := by
  rw [scrollLine, (writeBack_keeps _).2, transpose]
  change px (ctx.transposeRows _ _ _ _ _ _) = _
  rw [px_transposeRows (by rw [hfb, hbpp])]
  refine spans_congr (fun r _ => ?_) (fun r _ => ?_) _
  · have hrow : (((1 + k : ℕ) : ℤ) * s.term.font.height + s.term.topLeft.y +
        (r + -1 * s.term.font.height)) =
        s.term.topLeft.y + ((k * s.term.font.height + r : ℕ) : ℤ) := by
      push_cast
      ring
    rw [pixelIndex, rowIndex, hfb, Int.add_zero, toCoord_natCast hx, Int.add_assoc,
      toCoord_toCoord_add, hrow]
  · have hrow : (((1 + k : ℕ) : ℤ) * s.term.font.height + s.term.topLeft.y + r) =
        s.term.topLeft.y + ((k * s.term.font.height + r + s.term.font.height : ℕ) : ℤ) := by
      push_cast
      ring
    rw [pixelIndex, rowIndex, hfb, toCoord_toCoord_add, hrow]

/-- The lines that `Scroll` moves. -/
theorem px_scrollLines (hbpp : s.ctx.fb.bpp = 32) (hx : s.term.topLeft.x < 2 ^ 16) (k : ℕ) :
    px ((List.range' 1 k).foldl s.scrollLine s.ctx).buffer =
      s.movedUp (k * s.term.font.height) := by
  induction k with
  | zero =>
    rw [Nat.zero_mul]
    rfl
  | succ k ih =>
    rw [List.range'_1_concat, List.foldl_append, List.foldl_cons, List.foldl_nil,
      px_scrollLine hbpp hx (foldl_scrollLine_fb s s.ctx _), ih, Nat.succ_mul]
    exact (spans_add s.rowIndex (fun r => s.rowIndex (r + s.term.font.height)) _ _ _ _).symm

/-- The pixels of the last line. -/
def lastLine (s : Console) : Set ℕ :=
  rows s.ctx.fb.width (s.rowIndex ((s.term.numLines - 1) * s.term.font.height)) s.term.dims.width
    s.term.font.height

/-- `Scroll` moves the rows of all lines, and then it paints the last line. -/
theorem px_scroll (hbpp : s.ctx.fb.bpp = 32) (hx : s.term.topLeft.x < 2 ^ 16)
    (hheight : 0 < s.term.font.height) (hlines : 0 < s.term.numLines) (i : ℕ) :
    (i ∈ s.lastLine → px s.scroll.ctx.buffer i = (packRgb s.term.bgColor s.ctx.fb).toNat) ∧
    (i ∉ s.lastLine → px s.scroll.ctx.buffer i =
      s.movedUp (s.term.numLines * s.term.font.height) i) := by
  have hfb := foldl_scrollLine_fb s s.ctx (List.range' 1 s.term.numLines)
  have hdraw := paints_drawRect (by rw [hfb, hbpp])
    ⟨s.term.topLeft.x,
      toCoord (s.term.topLeft.y + s.term.font.height * ((s.term.numLines : ℤ) - 1))⟩
    ⟨s.term.dims.width, s.term.font.height⟩ s.term.bgColor i
  have hrow : (s.term.topLeft.y + s.term.font.height * ((s.term.numLines : ℤ) - 1)) =
      s.term.topLeft.y + ((s.term.numLines - 1) * s.term.font.height : ℕ) := by
    push_cast [Nat.cast_sub (show 1 ≤ s.term.numLines from hlines)]
    ring
  rw [px_scrollLines hbpp hx, Nat.sub_add_cancel hheight, pixelIndex, hfb, hrow] at hdraw
  rw [scroll, (writeBack_keeps _).2, hrow]
  exact hdraw

/-! ### What `Scroll` is for -/

/-- The text has been moved up by one line and the last line has been cleared, and nothing outside
the body of the terminal has changed. -/
structure ScrollsUp (s : Console) : Prop where
  lines : ∀ k, k + 1 < s.term.numLines → ∀ x, s.term.topLeft.x ≤ x →
    x < s.term.topLeft.x + s.term.dims.width → ∀ j < s.term.font.height,
    s.scroll.ctx.pixel x (s.term.topLeft.y + k * s.term.font.height + j) =
      s.ctx.pixel x (s.term.topLeft.y + (k + 1) * s.term.font.height + j)
  last : ∀ x, s.term.topLeft.x ≤ x → x < s.term.topLeft.x + s.term.dims.width →
    ∀ j < s.term.font.height,
    s.scroll.ctx.pixel x
        (s.term.topLeft.y + (s.term.numLines - 1) * s.term.font.height + j) =
      (packRgb s.term.bgColor s.ctx.fb).toNat
  frame : ∀ x < s.ctx.fb.width, ∀ y < s.ctx.fb.height, ¬ InRect s.term.topLeft s.term.dims x y →
    s.scroll.ctx.pixel x y = s.ctx.pixel x y

/-- Another content of the back buffer. -/
def withBuffer (s : Console) (buffer : Mem) : Console :=
  { s with ctx := { s.ctx with buffer := buffer } }

theorem scroll_pixel (s : Console) (x y : ℕ) :
    s.scroll.ctx.pixel x y = px s.scroll.ctx.buffer (x + y * s.ctx.fb.width) := by
  rw [pixel, pixelIndex, (same_scroll s).fb]

theorem ctx_pixel (s : Console) (x y : ℕ) :
    s.ctx.pixel x y = px s.ctx.buffer (x + y * s.ctx.fb.width) := rfl

/-- A row whose coordinate is not taken modulo `2 ^ 16`. -/
theorem rowIndex_eq {r : ℕ} (hr : s.term.topLeft.y + r < 2 ^ 16) :
    s.rowIndex r = s.term.topLeft.x + (s.term.topLeft.y + r) * s.ctx.fb.width := by
  rw [rowIndex, ← Nat.cast_add, toCoord_natCast hr]

/-- The last line ends where the lines end. -/
theorem lines_eq_last_add (hlines : 0 < s.term.numLines) :
    s.term.numLines * s.term.font.height =
      (s.term.numLines - 1) * s.term.font.height + s.term.font.height := by
  rw [← Nat.succ_mul, Nat.succ_eq_add_one, Nat.sub_add_cancel hlines]

section Fits

variable (hright : s.term.topLeft.x + s.term.dims.width ≤ s.ctx.fb.width)
include hright

/-- The coordinates of a pixel of a row of the text. -/
theorem rowIndex_add_eq_iff {r k x y : ℕ} (hr : s.term.topLeft.y + r < 2 ^ 16)
    (hk : k < s.term.dims.width) (hx : x < s.ctx.fb.width) :
    s.rowIndex r + k = x + y * s.ctx.fb.width ↔
      s.term.topLeft.x + k = x ∧ s.term.topLeft.y + r = y := by
  rw [rowIndex_eq hr, Nat.add_right_comm]
  exact index_inj (by omega) hx

theorem mem_lastLine_iff
    (hrow : s.term.topLeft.y + (s.term.numLines - 1) * s.term.font.height < 2 ^ 16) {x y : ℕ}
    (hx : x < s.ctx.fb.width) :
    x + y * s.ctx.fb.width ∈ s.lastLine ↔
      s.term.topLeft.x ≤ x ∧ x < s.term.topLeft.x + s.term.dims.width ∧
      s.term.topLeft.y + (s.term.numLines - 1) * s.term.font.height ≤ y ∧
      y < s.term.topLeft.y + (s.term.numLines - 1) * s.term.font.height + s.term.font.height := by
  rw [lastLine, rowIndex_eq hrow]
  exact mem_rows_iff hright hx

/-- A row that is not in the last line gets the pixels from one line below. -/
theorem movedUp_rowIndex {n r k : ℕ} (hk : k < s.term.dims.width)
    (hn : s.term.topLeft.y + n ≤ 2 ^ 16) (hr : r + s.term.font.height < n) :
    s.movedUp n (s.rowIndex r + k) =
      px s.ctx.buffer (s.rowIndex (r + s.term.font.height) + k) := by
  have hindex {r' k' : ℕ} (hr' : r' < n) (hk' : k' < s.term.dims.width) {r'' : ℕ} (hr'' : r'' < n) :
      s.rowIndex r' + k' = s.rowIndex r'' + k → r' = r'' := by
    intro heq
    rw [rowIndex_eq (r := r'') (by omega), Nat.add_right_comm _ _ k,
      rowIndex_add_eq_iff hright (by omega) hk' (by omega)] at heq
    omega
  refine spans_of_unread (by omega) hk (fun r' hlt hr' k' hk' heq => ?_)
    fun r' hr' k' hk' heq => ?_
  · exact absurd (hindex hr' hk' (by omega) heq) hlt.ne'
  · have hrow := hindex (by omega) hk' hr heq
    omega

end Fits

/-- `Scroll` of a terminal with its lines inside the body and the body inside the framebuffer. -/
theorem scrollsUp_of_fits (hbpp : s.ctx.fb.bpp = 32) (hW : s.ctx.fb.width < 2 ^ 16)
    (hheight : 0 < s.term.font.height) (hlines : 0 < s.term.numLines)
    (hright : s.term.topLeft.x + s.term.dims.width ≤ s.ctx.fb.width)
    (hbottom : s.term.numLines * s.term.font.height ≤ s.term.dims.height)
    (hy : s.term.topLeft.y + s.term.dims.height < 2 ^ 16) : s.ScrollsUp := by
  have hpx := px_scroll hbpp (by omega) hheight hlines
  have hsplit := lines_eq_last_add hlines
  have hmem {x y : ℕ} (hx : x < s.ctx.fb.width) :=
    mem_lastLine_iff hright (by omega) (y := y) hx
  refine ⟨fun k hk x hlo hhi j hj => ?_, fun x hlo hhi j hj => ?_, fun x hx y hy hout => ?_⟩
  · have hrow : k * s.term.font.height + j + s.term.font.height <
        s.term.numLines * s.term.font.height := by
      have hle := Nat.mul_le_mul_right s.term.font.height (show k + 2 ≤ s.term.numLines by omega)
      rw [Nat.add_mul] at hle
      omega
    have hindex {r y : ℕ} (hr : s.term.topLeft.y + r < 2 ^ 16) (hry : s.term.topLeft.y + r = y) :
        s.rowIndex r + (x - s.term.topLeft.x) = x + y * s.ctx.fb.width :=
      (rowIndex_add_eq_iff hright hr (by omega) (by omega)).mpr ⟨by omega, hry⟩
    rw [scroll_pixel, ctx_pixel, (hpx _).2 (by rw [hmem (by omega)]; omega),
      ← hindex (r := k * s.term.font.height + j) (by omega) (by omega),
      movedUp_rowIndex hright (by omega) (by omega) hrow,
      hindex (y := s.term.topLeft.y + (k + 1) * s.term.font.height + j) (by omega)
        (by rw [Nat.succ_mul]; omega)]
  · rw [scroll_pixel]
    exact (hpx _).1 ((hmem (by omega)).mpr (by omega))
  · rw [InRect] at hout
    rw [scroll_pixel, ctx_pixel, (hpx _).2 (by rw [hmem hx]; omega)]
    refine spans_of_notMem fun r hr k hk heq => ?_
    have hrow := (rowIndex_add_eq_iff hright (by omega) hk hx).mp heq
    omega

/-- `Scroll` of a terminal without columns changes nothing. -/
theorem scrollsUp_of_width_zero (hbpp : s.ctx.fb.bpp = 32) (hx : s.term.topLeft.x < 2 ^ 16)
    (hheight : 0 < s.term.font.height) (hlines : 0 < s.term.numLines)
    (hwidth : s.term.dims.width = 0) : s.ScrollsUp := by
  have hpx := px_scroll hbpp hx hheight hlines
  refine ⟨fun k hk x hlo hhi => by omega, fun x hlo hhi => by omega, fun x hx y hy hout => ?_⟩
  have hempty : x + y * s.ctx.fb.width ∉ s.lastLine := by
    rintro ⟨r, -, hlo, hhi⟩
    omega
  rw [scroll_pixel, ctx_pixel, (hpx _).2 hempty]
  exact spans_of_notMem fun r _ k hk => by omega

/-- Lines that are longer than a row of the framebuffer overlap: the first pixel of the last line
belongs to the row above it, too. -/
theorem ScrollsUp.width_le (h : s.ScrollsUp) (hheight : 0 < s.term.font.height)
    (hlines : 2 ≤ s.term.numLines)
    (hbuffer : s.ctx.buffer = uniform ((packRgb s.term.bgColor s.ctx.fb).toNat + 1)) :
    s.term.dims.width ≤ s.ctx.fb.width := by
  by_contra! hlong
  obtain ⟨m, hm⟩ := Nat.exists_eq_add_of_le' hlines
  have hmoved := h.lines m (by omega) (s.term.topLeft.x + s.ctx.fb.width) (Nat.le_add_right _ _)
    (Nat.add_lt_add_left hlong _) (s.term.font.height - 1) (Nat.sub_lt hheight Nat.one_pos)
  have hlast := h.last s.term.topLeft.x le_rfl
    (Nat.lt_add_of_pos_right (Nat.zero_lt_of_lt hlong)) 0 hheight
  have hrow : s.term.topLeft.y + (s.term.numLines - 1) * s.term.font.height + 0 =
      s.term.topLeft.y + m * s.term.font.height + (s.term.font.height - 1) + 1 := by
    rw [hm, show m + 2 - 1 = m + 1 from rfl, Nat.succ_mul]
    omega
  rw [hrow, scroll_pixel, Nat.succ_mul] at hlast
  rw [scroll_pixel, ctx_pixel, hbuffer, px_uniform, Nat.add_right_comm, Nat.add_assoc] at hmoved
  have hlt := (packRgb s.term.bgColor s.ctx.fb).isLt
  omega

/-- A pixel one line below another one is a different pixel. -/
theorem px_dot_line {v p : ℕ} (hheight : 0 < s.term.font.height) (hwidth : 0 < s.ctx.fb.width) :
    px (dot v (v + 1) p) (p + s.term.font.height * s.ctx.fb.width) ≠ px (dot v (v + 1) p) p := by
  have hpos : 0 < s.term.font.height * s.ctx.fb.width := Nat.mul_pos hheight hwidth
  rw [px_dot, px_dot, if_pos rfl, if_neg (by omega)]
  omega

/-- A line that goes on in the next row of the framebuffer is outside the body there. -/
theorem ScrollsUp.right_le (h : s.ScrollsUp) (hheight : 0 < s.term.font.height)
    (hlines : 2 ≤ s.term.numLines) (hpos : 0 < s.term.dims.width)
    (hwidth : s.term.dims.width ≤ s.ctx.fb.width)
    (hx : s.term.topLeft.x < 2 * s.ctx.fb.width) (hy : s.term.topLeft.y + 1 < s.ctx.fb.height)
    {v : ℕ} (hbuffer : s.ctx.buffer =
      dot v (v + 1) (s.term.topLeft.x - s.ctx.fb.width + (s.term.topLeft.y + 1) * s.ctx.fb.width)) :
    s.term.topLeft.x + s.term.dims.width ≤ s.ctx.fb.width := by
  by_contra! hright
  set p := s.term.topLeft.x - s.ctx.fb.width + (s.term.topLeft.y + 1) * s.ctx.fb.width with hp
  have hkept := h.frame (s.term.topLeft.x - s.ctx.fb.width) (by omega) _ hy
    (by rw [InRect]; omega)
  have hmoved := h.lines 0 (by omega) (max s.term.topLeft.x s.ctx.fb.width) (by omega) (by omega) 0
    hheight
  have hindex : max s.term.topLeft.x s.ctx.fb.width +
      (s.term.topLeft.y + 0 * s.term.font.height + 0) * s.ctx.fb.width = p := by
    rw [hp, Nat.zero_mul, Nat.add_zero, Nat.add_zero, Nat.succ_mul]
    omega
  have hbelow : max s.term.topLeft.x s.ctx.fb.width +
      (s.term.topLeft.y + (0 + 1) * s.term.font.height + 0) * s.ctx.fb.width =
      p + s.term.font.height * s.ctx.fb.width := by
    rw [← hindex]
    ring
  rw [scroll_pixel, ctx_pixel, hbuffer] at hkept hmoved
  rw [hindex, hbelow, hkept] at hmoved
  exact px_dot_line hheight (by omega) hmoved.symm

/-- A line that reaches below the body is outside the body there. -/
theorem ScrollsUp.bottom_le (h : s.ScrollsUp) (hheight : 0 < s.term.font.height)
    (hwidth : 0 < s.term.dims.width)
    (hright : s.term.topLeft.x + s.term.dims.width ≤ s.ctx.fb.width)
    (hy : s.term.topLeft.y + s.term.dims.height < s.ctx.fb.height)
    (hbuffer : s.ctx.buffer = dot (packRgb s.term.bgColor s.ctx.fb).toNat
      ((packRgb s.term.bgColor s.ctx.fb).toNat + 1)
      (s.term.topLeft.x + (s.term.topLeft.y + s.term.dims.height) * s.ctx.fb.width)) :
    s.term.numLines * s.term.font.height ≤ s.term.dims.height := by
  by_contra! hbottom
  set p := s.term.topLeft.x + (s.term.topLeft.y + s.term.dims.height) * s.ctx.fb.width with hp
  have hkept := h.frame s.term.topLeft.x (by omega) _ hy (by rw [InRect]; omega)
  have hlines : 0 < s.term.numLines := Nat.pos_of_mul_pos_right (Nat.zero_lt_of_lt hbottom)
  rw [scroll_pixel, ctx_pixel, hbuffer, ← hp] at hkept
  rcases Nat.lt_or_ge s.term.dims.height ((s.term.numLines - 1) * s.term.font.height) with
    hline | hline
  · -- the row below the body belongs to a line that is moved
    have hk : s.term.dims.height / s.term.font.height < s.term.numLines - 1 :=
      (Nat.div_lt_iff_lt_mul hheight).mpr hline
    have hmoved := h.lines (s.term.dims.height / s.term.font.height) (by omega) s.term.topLeft.x
      le_rfl (by omega) (s.term.dims.height % s.term.font.height) (Nat.mod_lt _ hheight)
    have hrow := Nat.div_add_mod' s.term.dims.height s.term.font.height
    have hbelow : s.term.topLeft.x + (s.term.topLeft.y +
        (s.term.dims.height / s.term.font.height + 1) * s.term.font.height +
        s.term.dims.height % s.term.font.height) * s.ctx.fb.width =
        p + s.term.font.height * s.ctx.fb.width := by
      rw [hp]
      nth_rewrite 3 [← hrow]
      ring
    rw [scroll_pixel, ctx_pixel, hbuffer, Nat.add_assoc s.term.topLeft.y, hrow, ← hp, hbelow,
      hkept] at hmoved
    exact px_dot_line hheight (by omega) hmoved.symm
  · -- it belongs to the last line
    have hsplit := lines_eq_last_add hlines
    have hlast := h.last s.term.topLeft.x le_rfl (by omega)
      (s.term.dims.height - (s.term.numLines - 1) * s.term.font.height) (by omega)
    rw [scroll_pixel, Nat.add_assoc, Nat.add_sub_of_le hline, ← hp, hkept, px_dot, if_pos rfl]
      at hlast
    have hlt := (packRgb s.term.bgColor s.ctx.fb).isLt
    omega

/-- When `Scroll` is right for every content of the back buffer. -/
theorem forall_scrollsUp_iff (hbpp : s.ctx.fb.bpp = 32) (hW : s.ctx.fb.width < 2 ^ 16)
    (hH : s.ctx.fb.height < 2 ^ 16) (hheight : 0 < s.term.font.height)
    (hlines : 2 ≤ s.term.numLines) (hx : s.term.topLeft.x < 2 ^ 16)
    (hcolumns : s.term.dims.width ≤ s.ctx.fb.width →
      s.ctx.fb.width < s.term.topLeft.x + s.term.dims.width →
      0 < s.term.dims.width ∧ s.term.topLeft.x < 2 * s.ctx.fb.width)
    (hrows : s.term.topLeft.y + 1 < s.ctx.fb.height ∧
      s.term.topLeft.y + s.term.dims.height ≤ s.ctx.fb.height)
    (hborder : s.term.dims.height < s.term.numLines * s.term.font.height →
      s.term.topLeft.y + s.term.dims.height < s.ctx.fb.height) :
    (∀ buffer, (s.withBuffer buffer).ScrollsUp) ↔
      s.term.topLeft.x + s.term.dims.width ≤ s.ctx.fb.width ∧
        (s.term.dims.width = 0 ∨
          s.term.numLines * s.term.font.height ≤ s.term.dims.height) := by
  constructor
  · intro h
    have hwidth : s.term.dims.width ≤ s.ctx.fb.width :=
      (h (uniform ((packRgb s.term.bgColor s.ctx.fb).toNat + 1))).width_le hheight hlines rfl
    have hright : s.term.topLeft.x + s.term.dims.width ≤ s.ctx.fb.width := by
      by_contra! hover
      obtain ⟨hpos, hlt⟩ := hcolumns hwidth hover
      have hle := (h (dot 0 1 (s.term.topLeft.x - s.ctx.fb.width +
        (s.term.topLeft.y + 1) * s.ctx.fb.width))).right_le hheight hlines hpos hwidth hlt hrows.1
        rfl
      exact absurd hle (Nat.not_le_of_lt hover)
    refine ⟨hright, or_iff_not_imp_left.mpr fun hpos => ?_⟩
    by_contra! hbelow
    have hle := (h (dot (packRgb s.term.bgColor s.ctx.fb).toNat
      ((packRgb s.term.bgColor s.ctx.fb).toNat + 1) (s.term.topLeft.x +
        (s.term.topLeft.y + s.term.dims.height) * s.ctx.fb.width))).bottom_le hheight
      (Nat.pos_of_ne_zero hpos) hright (hborder hbelow) rfl
    exact absurd hle (Nat.not_le_of_lt hbelow)
  · rintro ⟨hright, hwidth | hbottom⟩ buffer
    · exact scrollsUp_of_width_zero hbpp hx hheight (Nat.zero_lt_of_lt hlines) hwidth
    · exact scrollsUp_of_fits hbpp hW hheight (Nat.zero_lt_of_lt hlines) hright hbottom
        (hrows.2.trans_lt hH)

/-- The terminal that `InitTerminal` makes, after the prompt has been printed. -/
theorem initTerminal_eq (ctx : GraphicsCtx) (dims : Dimensions) (topLeft : Coordinate) (font : Font)
    (bg border : RGB) (thickness : ℕ) (prompt : List (BitVec 8)) :
    let s := initTerminal ctx dims topLeft font bg border thickness prompt
    s.ctx.fb = ctx.fb ∧ ∃ cursor, s.term =
      { dims := ⟨toCoord ((dims.width : ℤ) - thickness * 2),
          toCoord ((dims.height : ℤ) - thickness * 2)⟩
        font := font
        charsPerLine := dims.width / font.width
        numLines := dims.height / font.height
        topLeft := ⟨toCoord (topLeft.x + thickness), toCoord (topLeft.y + thickness)⟩
        cursor := cursor
        bgColor := bg
        borderColor := border
        borderThickness := thickness
        prompt := prompt } := by
  exact ⟨(same_render _).fb, (same_render _).term⟩

/-- **When `Scroll` moves the text up and nothing else.** For every terminal that `InitTerminal`
makes in a rectangle inside the framebuffer, with a body of at least two lines: `Scroll` is right
for every content of the back buffer if and only if the columns of the body stay inside the
framebuffer, as they do if the width is not below that of both borders, and the part of the height
after the last whole line is at least that of both borders, or there are no columns. -/
theorem scroll_scrollsUp_iff {ctx : GraphicsCtx} (hbpp : ctx.fb.bpp = 32)
    (hW : ctx.fb.width < 2 ^ 16) (hH : ctx.fb.height < 2 ^ 16) {dims : Dimensions}
    {topLeft : Coordinate} {font : Font} (bg border : RGB) {thickness : ℕ}
    (prompt : List (BitVec 8)) (hthickness : thickness < 2 ^ 8) (hheight : 0 < font.height)
    (hright : topLeft.x + dims.width ≤ ctx.fb.width)
    (hbottom : topLeft.y + dims.height ≤ ctx.fb.height)
    (hbody : 2 * font.height + 2 * thickness ≤ dims.height) :
    (∀ buffer, ((initTerminal ctx dims topLeft font bg border thickness prompt).withBuffer
        buffer).ScrollsUp) ↔
      (2 * thickness ≤ dims.width ∨
        toCoord (topLeft.x + thickness) + toCoord ((dims.width : ℤ) - thickness * 2) ≤
          ctx.fb.width) ∧
      (dims.width = 2 * thickness ∨ 2 * thickness ≤ dims.height % font.height) := by
  obtain ⟨hfb, cursor, hterm⟩ :=
    initTerminal_eq ctx dims topLeft font bg border thickness prompt
  generalize initTerminal ctx dims topLeft font bg border thickness prompt = s at hfb hterm ⊢
  have hfont : s.term.font.height = font.height := by rw [hterm]
  have hnum : s.term.numLines = dims.height / font.height := by rw [hterm]
  have hx : s.term.topLeft.x = toCoord (topLeft.x + thickness) := by rw [hterm]
  have hw : s.term.dims.width = toCoord ((dims.width : ℤ) - thickness * 2) := by rw [hterm]
  have hy : s.term.topLeft.y = topLeft.y + thickness := by
    rw [hterm]
    exact toCoord_of_lt rfl (by omega)
  have hh : s.term.dims.height + 2 * thickness = dims.height := by
    rw [hterm]
    change toCoord ((dims.height : ℤ) - thickness * 2) + 2 * thickness = dims.height
    rw [toCoord]
    omega
  have hlines : 2 ≤ dims.height / font.height := by
    rw [Nat.le_div_iff_mul_le hheight]
    omega
  have hdiv := Nat.div_add_mod' dims.height font.height
  rw [← hfb] at hbpp hW hH hright hbottom ⊢
  rw [← hnum] at hlines hdiv
  rw [← hfont] at hheight hdiv hbody ⊢
  rw [← hx, ← hw]
  rw [toCoord] at hx hw
  have hcolumns : s.term.topLeft.x + s.term.dims.width ≤ s.ctx.fb.width ↔
      2 * thickness ≤ dims.width ∨ s.term.topLeft.x + s.term.dims.width ≤ s.ctx.fb.width := by
    omega
  have hempty : s.term.dims.width = 0 ↔ dims.width = 2 * thickness := by omega
  have hrows : s.term.numLines * s.term.font.height ≤ s.term.dims.height ↔
      2 * thickness ≤ dims.height % s.term.font.height := by omega
  rw [← hcolumns, ← hempty, ← hrows]
  refine forall_scrollsUp_iff hbpp hW hH hheight hlines (by omega) ?_ ⟨by omega, by omega⟩ ?_
  · intro hle hlt
    omega
  · intro hlt
    omega

/-- A terminal with a blank font and no prompt in a framebuffer of eight columns. -/
def narrowTerminal (height : ℕ) : Console :=
  initTerminal (initGraphicsCtx { columnFramebuffer 64 with width := 8, pitch := 32 } 0 0)
    ⟨8, height⟩ ⟨0, 0⟩ ⟨fun _ _ => 0, ⟨255, 0, 0⟩, 16, 9⟩ ⟨0, 0, 0⟩ ⟨255, 255, 255⟩ 3 []

/-- Three lines of 16 rows in 54 rows with the borders, and one pixel in the second line. -/
theorem scroll_scrollsUp_three_lines :
    ((narrowTerminal 54).withBuffer (dot 0 1 (3 + 20 * 8))).ScrollsUp := by
  refine (scroll_scrollsUp_iff ?_ ?_ ?_ _ _ [] ?_ ?_ ?_ ?_ ?_).mpr ⟨.inl ?_, .inr ?_⟩ _ <;> decide

/-- Four lines of 16 rows in 64 rows with the borders: the last line is cleared, and with it a pixel
of the border below. -/
theorem scroll_clears_border :
    let s := (narrowTerminal 64).withBuffer (dot 0 1 (3 + 61 * 8))
    2 * s.term.font.height ≤ s.term.dims.height ∧
      ¬ InRect s.term.topLeft s.term.dims 3 61 ∧ s.ctx.pixel 3 61 = 1 ∧
      s.scroll.ctx.pixel 3 61 = 0 ∧ ¬ s.ScrollsUp := by
  intro s
  have hout : ¬ InRect s.term.topLeft s.term.dims 3 61 := by
    rw [InRect]
    decide
  have hold : s.ctx.pixel 3 61 = 1 := by
    rw [ctx_pixel]
    exact px_dot 0 1 _ _
  have hlast : 3 + 61 * s.ctx.fb.width ∈ s.lastLine := by
    rw [mem_lastLine_iff] <;> decide
  have hnew : s.scroll.ctx.pixel 3 61 = 0 := by
    rw [scroll_pixel, (px_scroll rfl (by decide) (by decide) (by decide) _).1 hlast]
    decide
  refine ⟨by decide, hout, hold, hnew, fun h => ?_⟩
  have hkept := h.frame 3 (by decide) 61 (by decide) hout
  rw [hold, hnew] at hkept
  exact absurd hkept (by decide)

end Console

end Vardar
