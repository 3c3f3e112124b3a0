import Vardar.Graphics.TextScreen
import Vardar.Graphics.DoubleBuffer

/-!
# The text in video memory

`SetNthBit` marks the first 32 bands as it should, whatever is drawn, so their rows in video memory
are those of the back buffer after each `WriteBack`. The height need not be a multiple of 64.

## Main definitions

* `Vardar.GraphicsCtx.Tracked`: the rows of the first 32 bands that differ lie in dirty bands.
* `Vardar.GraphicsCtx.Flushed`: none of these rows differs.

## Main results

* `Vardar.Console.Tracked.step`: the calls on a terminal keep the record of dirty bands sound.
* `Vardar.Console.Tracked.flushed_handleKeyStroke`.
-/

namespace Vardar

open ByteMemory

namespace GraphicsCtx

variable {g g' : GraphicsCtx} {a b : ℕ}

/-! ### The first 32 bands -/

/-- The rows of the first 32 bands. -/
def upper (g : GraphicsCtx) : Set ℕ := {y | y / g.rowHeight < 32}

/-- The rows of the first 32 bands that differ lie in dirty bands. -/
structure Tracked (g : GraphicsCtx) : Prop where
  framed : g.Framed
  sound : DirtyTracking.Sound (· / g.rowHeight) g.upper g.view

/-- The rows of the first 32 bands are those of the back buffer. -/
def Flushed (g : GraphicsCtx) : Prop := ∀ y ∈ g.upper, g.screenRow y = g.bufferRow y

/-- A call that draws to some rows and passes their bands when it marks bands. -/
theorem Tracked.draw (h : g.Tracked) (bands : ℤ × ℤ) (hfb : g'.fb = g.fb)
    (hrow : g'.rowHeight = g.rowHeight) (hscreen : g'.screen = g.screen)
    (hkeep : KeepsRows g.fb.width a b g.buffer g'.buffer)
    (hdirty : g'.dirtyBlockStr = markBands g.dirtyBlockStr bands.1 bands.2)
    (hcover : ∀ y, a ≤ y → y < b → bands.1 ≤ (y / g.rowHeight : ℕ) ∧
      (y / g.rowHeight : ℕ) < bands.2) : g'.Tracked := by
  refine ⟨h.framed.congr hfb hrow, ?_⟩
  rw [upper, hrow]
  refine DirtyTracking.Sound.draw h.sound {y | a ≤ y ∧ y < b} ?_ (fun y hy => ?_)
    (fun n hn => ?_) fun y hy hvis => ?_
  · funext y k
    change g'.screenRow y k = g.screenRow y k
    rw [screenRow, screenRow, hfb, hscreen]
  · have hout : ¬ (a ≤ y ∧ y < b) := hy
    exact bufferRow_eq_of_keepsRows hfb hkeep (by omega)
  · have hbit : g.dirtyBlockStr.getLsbD n = true := hn
    change g'.dirtyBlockStr.getLsbD n = true
    rw [hdirty]
    exact getLsbD_markBands_of_getLsbD _ _ (BitVec.lt_of_getLsbD hbit) hbit
  · have hlt : y / g.rowHeight < 32 := hvis
    have hcov := hcover y hy.1 hy.2
    change g'.dirtyBlockStr.getLsbD (y / g.rowHeight) = true
    rw [hdirty]
    generalize y / g.rowHeight = n at hlt hcov ⊢
    exact getLsbD_markBands_of_mem hcov (by omega) (Or.inl (by omega))

theorem Tracked.drawRect (h : g.Tracked) {coords : Coordinate} {dims : Dimensions}
    (hx : coords.x + dims.width ≤ g.fb.width) (rgb : RGB) :
    (g.drawRect coords dims rgb).Tracked := by
  refine h.draw (g.rectBands coords dims) rfl rfl rfl (keepsRows_drawRect h.framed.bpp hx rgb) rfl
    fun y hlo hhi => ?_
  have hstart : coords.y / g.rowHeight ≤ y / g.rowHeight := Nat.div_le_div_right hlo
  have hstop : y / g.rowHeight ≤ (coords.y + dims.height) / g.rowHeight :=
    Nat.div_le_div_right (by omega)
  have hcast : ((coords.y : ℤ) + dims.height) / g.rowHeight =
      ((coords.y + dims.height) / g.rowHeight : ℕ) := by push_cast; rfl
  have hcast' : (coords.y : ℤ) / g.rowHeight = (coords.y / g.rowHeight : ℕ) := by push_cast; rfl
  simp only [rectBands, hcast, hcast']
  split_ifs <;> omega

theorem Tracked.drawChar (h : g.Tracked) {font : Font} {coords : Coordinate}
    (hx : coords.x + font.width ≤ g.fb.width) (c : BitVec 8) :
    (g.drawChar font coords c).Tracked := by
  refine h.draw (g.charBands font coords) rfl rfl rfl (keepsRows_drawChar hx c) rfl
    fun y hlo hhi => ?_
  have hstart : coords.y / g.rowHeight ≤ y / g.rowHeight := Nat.div_le_div_right hlo
  have hstop := div_lt_of_lt_ceil h.framed.rowHeight_pos hhi
  constructor
  · change ((coords.y / g.rowHeight : ℕ) : ℤ) ≤ _
    exact_mod_cast hstart
  · change _ < (((coords.y + font.height) / g.rowHeight : ℕ) : ℤ) + _
    split_ifs at hstop ⊢ <;> omega

/-- A move upwards. -/
theorem Tracked.transpose (h : g.Tracked) {topLeft : Coordinate} {dims : Dimensions} {n : ℕ}
    (hn : n ≤ topLeft.y) (hx : topLeft.x + dims.width ≤ g.fb.width)
    (hy : topLeft.y - n + dims.height < 2 ^ 16) :
    (g.transpose topLeft dims (-1 * n) 0).Tracked := by
  have hdest : (topLeft.y : ℤ) + -1 * n = (topLeft.y - n : ℕ) := by omega
  have hkeep : KeepsRows g.fb.width (topLeft.y - n) (topLeft.y - n + dims.height) g.buffer
      (g.transpose topLeft dims (-1 * n) 0).buffer :=
    keepsRows_transpose h.framed.bpp h.framed.width hdest (add_zero _) hx hy
  refine h.draw (g.transposeBands topLeft dims (-1 * n)) rfl rfl rfl hkeep rfl fun y hlo hhi => ?_
  have hrange : transposeRange topLeft dims (-1 * n) =
      (((topLeft.y - n : ℕ) : ℤ), ((topLeft.y + dims.height : ℕ) : ℤ)) := by
    rw [transposeRange, if_neg (by omega), if_neg (by omega), hdest, Nat.cast_add]
  have hstart : (topLeft.y - n) / g.rowHeight ≤ y / g.rowHeight := Nat.div_le_div_right hlo
  have hbelow : y < topLeft.y + dims.height := by omega
  have hstop := div_lt_of_lt_ceil h.framed.rowHeight_pos hbelow
  rw [transposeBands, hrange]
  constructor
  · change (((topLeft.y - n) / g.rowHeight : ℕ) : ℤ) ≤ _
    exact_mod_cast hstart
  · change _ < (((topLeft.y + dims.height) / g.rowHeight : ℕ) : ℤ) +
      if (((topLeft.y + dims.height) % g.rowHeight : ℕ) : ℤ) ≠ 0 then 1 else 0
    split_ifs at hstop ⊢ <;> omega

theorem Tracked.clearScreen (hf : g.Framed) (rgb : RGB) : (g.clearScreen rgb).Tracked := by
  refine ⟨hf.congr rfl rfl, fun y hy _ => ?_⟩
  have hlt : y / g.rowHeight < 32 := hy
  change (0xFFFFFFFFFFFFFFFF : BitVec 64).getLsbD (y / g.rowHeight) = true
  rw [show (0xFFFFFFFFFFFFFFFF : BitVec 64) = BitVec.allOnes 64 from rfl, BitVec.getLsbD_allOnes,
    decide_eq_true (by omega)]

theorem Tracked.writeBackCell (h : g.Tracked) {n : ℕ} (hn : n < 64) :
    (g.writeBackCell n).Tracked := by
  have hrow := screenRow_writeBackRows h.framed n g.rowHeight
  refine ⟨h.framed.congr rfl rfl,
    h.sound.flush n rfl (fun y _ hy => ?_) (fun y _ hy => ?_) fun c hc hne => ?_⟩
  · have hin := (h.framed.band_iff y n).mp hy
    exact (hrow y).trans (if_pos hin)
  · have hout : ¬ (n * g.rowHeight ≤ y ∧ y < n * g.rowHeight + g.rowHeight) :=
      fun hc => hy ((h.framed.band_iff y n).mpr hc)
    exact (hrow y).trans (if_neg hout)
  · have hbit : g.dirtyBlockStr.getLsbD c = true := hc
    change (clearNthBit g.dirtyBlockStr n).getLsbD c = true
    rw [getLsbD_clearNthBit _ hn, hbit, decide_eq_true hne, Bool.and_self]

/-- The rounds of `WriteBack` up to a band leave the bands before it clean. -/
theorem Tracked.writeBackCells (h : g.Tracked) {n : ℕ} (hn : n ≤ 64) :
    ((List.range n).foldl (fun g x =>
        if getNthBit g.dirtyBlockStr x ≠ 0 then g.writeBackCell x else g) g).Tracked ∧
      ∀ i < n, ((List.range n).foldl (fun g x =>
        if getNthBit g.dirtyBlockStr x ≠ 0 then g.writeBackCell x else g)
          g).dirtyBlockStr.getLsbD i = false := by
  induction n with
  | zero => exact ⟨h, fun i hi => absurd hi (Nat.not_lt_zero i)⟩
  | succ n ih =>
    rw [List.range_succ, List.foldl_append, List.foldl_cons, List.foldl_nil]
    obtain ⟨htracked, hclean⟩ := ih (by omega)
    have hlt : n < 64 := by omega
    set g₁ := (List.range n).foldl (fun g x =>
      if getNthBit g.dirtyBlockStr x ≠ 0 then g.writeBackCell x else g) g
    by_cases hbit : getNthBit g₁.dirtyBlockStr n ≠ 0
    · rw [if_pos hbit]
      refine ⟨htracked.writeBackCell hlt, fun i hi => ?_⟩
      change (clearNthBit g₁.dirtyBlockStr n).getLsbD i = false
      rw [getLsbD_clearNthBit _ hlt]
      by_cases hin : i = n
      · rw [hin, decide_eq_false (by simp), Bool.and_false]
      · rw [hclean i (by omega), Bool.false_and]
    · rw [if_neg hbit]
      refine ⟨htracked, fun i hi => ?_⟩
      by_cases hin : i = n
      · by_contra htrue
        rw [Bool.not_eq_false, hin, ← getNthBit_eq_one_iff _ hlt] at htrue
        exact hbit (by rw [htrue]; decide)
      · exact hclean i (by omega)

theorem Tracked.writeBack (h : g.Tracked) : g.writeBack.Tracked := (h.writeBackCells le_rfl).1

/-- After `WriteBack`, the rows of the first 32 bands are those of the back buffer. -/
theorem Tracked.flushed_writeBack (h : g.Tracked) : g.writeBack.Flushed := by
  obtain ⟨htracked, hclean⟩ := h.writeBackCells le_rfl
  intro y hy
  have hlt : y / g.writeBack.rowHeight < 32 := hy
  refine htracked.sound.front_eq_back hy fun hdirty => ?_
  have hfalse := hclean (y / g.writeBack.rowHeight) (by omega)
  exact Bool.false_ne_true (hfalse.symm.trans hdirty)

/-- A pixel of video memory. -/
def screenPixel (g : GraphicsCtx) (x y : ℕ) : ℕ := load g.screen (y * g.fb.pitch + 4 * x) 4

/-- The pixels of the rows that have been written back. -/
theorem Flushed.screenPixel_eq (h : g.Flushed) {x y : ℕ} (hx : x < g.fb.width) (hy : y ∈ g.upper) :
    g.screenPixel x y = g.pixel x y := by
  have hbytes : ∀ k < 4 * g.fb.width,
      g.screen (y * g.fb.pitch + k) = g.buffer (4 * (y * g.fb.width) + k) := by
    intro k hk
    have hbyte := congrFun (h y hy) k
    rwa [screenRow, bufferRow, if_pos hk, if_pos hk] at hbyte
  have hindex : 4 * g.pixelIndex ⟨x, y⟩ = 4 * (y * g.fb.width) + 4 * x := by
    rw [pixelIndex, Nat.mul_add, Nat.add_comm]
  rw [screenPixel, pixel, px, hindex]
  exact load_congr_add hbytes (4 * x) (by omega)

end GraphicsCtx

namespace Console

open GraphicsCtx (toCoord toCoord_natCast)

variable {outer : ℕ} {s : Console}

/-! ### The calls on a terminal -/

/-- A terminal inside the framebuffer, with a sound record of dirty bands. -/
structure Tracked (outer : ℕ) (s : Console) : Prop where
  inv : s.Inv outer
  placed : s.Placed
  ctx : s.ctx.Tracked

theorem charCoords_right (hi : s.Inv outer) (hp : s.Placed) :
    s.charCoords.x + s.term.font.width ≤ s.ctx.fb.width := by
  have hright := hp.right
  have hW := hp.fbWidth
  have hin := hi.inWidth
  rw [charCoords, ← Nat.cast_add, toCoord_natCast (by omega), hi.fontWidth]
  dsimp only
  omega

namespace Tracked

theorem setCursor_of_inv (h : s.Tracked outer) {x y : ℤ} (hi : (s.setCursor x y).Inv outer) :
    (s.setCursor x y).Tracked outer :=
  ⟨hi, h.placed.congr (same_setCursor s x y), h.ctx⟩

theorem drawChar (h : s.Tracked outer) (c : BitVec 8) :
    ({ s with ctx := s.ctx.drawChar s.term.font s.charCoords c } : Console).Tracked outer :=
  ⟨h.inv.ctx _, h.placed.congr (same_of_fb rfl),
    h.ctx.drawChar (charCoords_right h.inv h.placed) c⟩

theorem writeBack (h : s.Tracked outer) :
    ({ s with ctx := s.ctx.writeBack } : Console).Tracked outer :=
  ⟨h.inv.ctx _, h.placed.congr (same_of_fb (writeBack_keeps _).1), h.ctx.writeBack⟩

theorem scrollLine (h : s.Tracked outer) {ctx : GraphicsCtx} (hctx : ctx.Tracked)
    (hfb : ctx.fb = s.ctx.fb) {i : ℕ} (hi : 1 ≤ i) (hlines : i ≤ s.term.numLines) :
    (s.scrollLine ctx i).Tracked := by
  have hright := h.placed.right
  have hbottom := h.placed.bottom
  have hH := h.placed.fbHeight
  have hnum := h.placed.numLines
  have hfh := h.inv.fontHeight
  have hy : toCoord (i * s.term.font.height + s.term.topLeft.y) = i * 16 + s.term.topLeft.y := by
    rw [hfh, ← Nat.cast_mul, ← Nat.cast_add, toCoord_natCast (by omega)]
  rw [Console.scrollLine, hy]
  refine (hctx.transpose ?_ ?_ ?_).writeBack
  · dsimp only
    omega
  · rw [hfb]
    exact hright
  · dsimp only
    omega

theorem scroll (h : s.Tracked outer) : s.scroll.Tracked outer := by
  have hfold (is : List ℕ) (his : ∀ i ∈ is, 1 ≤ i ∧ i ≤ s.term.numLines) (ctx : GraphicsCtx)
      (hctx : ctx.Tracked) (hfb : ctx.fb = s.ctx.fb) : (is.foldl s.scrollLine ctx).Tracked := by
    induction is generalizing ctx with
    | nil => exact hctx
    | cons i is ih =>
      obtain ⟨hlo, hhi⟩ := his i List.mem_cons_self
      exact ih (fun j hj => his j (List.mem_cons_of_mem _ hj)) _
        (h.scrollLine hctx hfb hlo hhi) ((scrollLine_fb s ctx i).trans hfb)
  have hlines := hfold (List.range' 1 s.term.numLines)
    (fun i hi => by rw [List.mem_range'_1] at hi; omega) s.ctx h.ctx rfl
  refine ⟨h.inv.ctx _, h.placed.congr (same_scroll s), (hlines.drawRect ?_ _).writeBack⟩
  rw [foldl_scrollLine_fb]
  exact h.placed.right

theorem termNewLine (h : s.Tracked outer) : s.termNewLine.Tracked outer := by
  have hstart : (s.setCursor 0 s.term.cursor.y).Tracked outer :=
    h.setCursor_of_inv (h.inv.setCursor (x := 0) (by decide) h.inv.line
      (by have := h.inv.minWidth; omega) h.inv.inHeight)
  have hinv := h.inv.termNewLine
  rw [Console.termNewLine] at hinv ⊢
  split_ifs at hinv ⊢
  · exact hstart.scroll
  · exact hstart.setCursor_of_inv hinv

/-- `TermPrint` of a character moves the cursor and draws it. -/
theorem termPrintChar (h : s.Tracked outer) (c : BitVec 8) : (s.termPrintChar c).Tracked outer := by
  have hinv := h.inv.termPrintChar c
  rw [Console.termPrintChar] at hinv ⊢
  split_ifs at hinv ⊢
  · exact h.termNewLine.drawChar c
  · exact (h.setCursor_of_inv (hinv.ctx _)).drawChar c

theorem termPrint (h : s.Tracked outer) (str : List (BitVec 8)) :
    (s.termPrint str).Tracked outer := by
  rw [Console.termPrint]
  induction str.takeWhile (· ≠ 0) generalizing s with
  | nil => exact h
  | cons c cs ih => exact ih (h.termPrintChar c)

theorem removeChar (h : s.Tracked outer)
    (hok : s.term.cursor.x = 0 → s.term.cursor.y ≠ 0 → 6 ≤ outer % 9) :
    s.removeChar.Tracked outer := by
  have hinv := h.inv.removeChar hok
  rw [Console.removeChar] at hinv ⊢
  split_ifs at hinv ⊢
  · exact h
  · have hclear : (s.ctx.drawRect s.charCoords ⟨s.term.font.width, s.term.font.height⟩
        s.term.bgColor).Tracked := h.ctx.drawRect (charCoords_right h.inv h.placed) _
    dsimp only at hinv ⊢
    split_ifs at hinv ⊢ <;> exact ⟨hinv, h.placed.congr ⟨rfl, _, rfl⟩, hclear⟩

/-- `HandleKeyStroke` before its `WriteBack`. -/
theorem handleKeyStroke (h : s.Tracked outer) (rodata : Bool → ℕ → BitVec 8) {keyInfo : KeyInfo}
    (hok : s.BackspaceOk outer (.handleKeyStroke keyInfo)) :
    (s.handleKeyStroke rodata keyInfo).Tracked outer ∧
      (s.handleKeyStroke rodata keyInfo).ctx.Flushed := by
  have hkeys : (if keyInfo.backspace then s.removeChar
      else if keyInfo.enter then s.termNewLine.termPrint s.term.prompt
      else s.termPrint [charFromScancode rodata keyInfo, 0]).Tracked outer := by
    split_ifs with hback henter
    · exact h.removeChar fun hx hy => hok ⟨hback, hx, hy⟩
    · exact h.termNewLine.termPrint _
    · exact h.termPrint _
  rw [Console.handleKeyStroke]
  exact ⟨hkeys.writeBack, hkeys.ctx.flushed_writeBack⟩

end Tracked

/-- A new terminal, after `WriteBack`. -/
theorem tracked_initTerminal {ctx : GraphicsCtx} (hctx : ctx.Tracked) (dims : Dimensions)
    (topLeft : Coordinate) (font : Font) (bg border : RGB) (prompt : List (BitVec 8))
    (hH : ctx.fb.height < 2 ^ 16) (hw : 70 ≤ dims.width) (hh : 38 ≤ dims.height)
    (hright : topLeft.x + dims.width ≤ ctx.fb.width)
    (hbottom : topLeft.y + dims.height ≤ ctx.fb.height) (hfw : font.width = 9)
    (hfh : font.height = 16) (hlast : 6 ≤ dims.height % 16) :
    (initTerminal ctx dims topLeft font bg border 3 prompt).Tracked dims.width := by
  have hW := hctx.framed.width
  have hblank := showsText_drawn dims topLeft font bg border prompt hW hH hw hh hright hbottom
    hctx.framed.bpp hfw hfh hlast
  have hrects : (drawn ctx dims topLeft font bg border prompt).ctx.Tracked := by
    rw [drawn_ctx dims topLeft font bg border prompt hW hH hw hh hright hbottom]
    refine (hctx.drawRect hright border).drawRect ?_ bg
    change topLeft.x + 3 + (dims.width - 6) ≤ ctx.fb.width
    omega
  exact Tracked.termPrint ⟨hblank.inv, hblank.placed, hrects⟩ prompt

end Console

end Vardar
