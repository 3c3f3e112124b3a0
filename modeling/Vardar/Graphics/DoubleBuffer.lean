import Vardar.Graphics.Context
import Vardar.Lib.DirtyTracking
import Vardar.Lib.RecordArray
import Vardar.Lib.Run

/-!
# Double buffering

After `WriteBack`, the screen shows what was drawn if the record of dirty bands is sound. It covers
all rows only if the height is a multiple of 64, and a band in the lower half of the screen is
marked only together with band 31, since `SetNthBit` shifts an `int`.

## Main definitions

* `Vardar.GraphicsCtx.Draws`: the drawing calls, with `Vardar.GraphicsCtx.step`.
* `Vardar.GraphicsCtx.Inside`, `Vardar.GraphicsCtx.Marks`: the calls inside the framebuffer, and
  those that mark the bands they draw to.
* `Vardar.GraphicsCtx.Shows`: the visible pixels are those of the back buffer.

## Main results

* `Vardar.GraphicsCtx.Inv.step`: a call keeps the record of dirty bands sound.
* `Vardar.GraphicsCtx.shows_of_run`: the screen after a run.
-/

namespace Vardar

open ByteMemory

/-- The framebuffers that fit the back buffer, with 32 bits for each pixel, rows that do not overlap
and at least one row in a band. -/
structure Framebuffer.Fits (fb : Framebuffer) : Prop where
  bpp : fb.bpp = 32
  pitch : 4 * fb.width ≤ fb.pitch
  width : fb.width < 2 ^ 16
  height : 64 ≤ fb.height
  bands : fb.height / 64 ≤ 255
  size : fb.width * fb.height ≤ 4147200

namespace GraphicsCtx

variable {g : GraphicsCtx} {m m' : Mem} {W a b : ℕ}

/-! ### Writing rows of the back buffer -/

/-- Only rows from `a` up to `b` are written. -/
def KeepsRows (W a b : ℕ) (m m' : Mem) : Prop :=
  ∀ x, x < 4 * (a * W) ∨ 4 * (b * W) ≤ x → m' x = m x

theorem KeepsRows.trans {m'' : Mem} (h : KeepsRows W a b m m') (h' : KeepsRows W a b m' m'') :
    KeepsRows W a b m m'' := fun x hx => (h' x hx).trans (h x hx)

theorem KeepsRows.refl (W a b : ℕ) (m : Mem) : KeepsRows W a b m m := fun _ _ => rfl

theorem KeepsRows.mono {a' b' : ℕ} (h : KeepsRows W a b m m') (ha : a' ≤ a) (hb : b ≤ b') :
    KeepsRows W a' b' m m' := by
  intro x hx
  have hma := Nat.mul_le_mul_right W ha
  have hmb := Nat.mul_le_mul_right W hb
  exact h x (by omega)

/-- A write of pixels in one row. -/
theorem keepsRows_of_range {x y n : ℕ} (hx : x + n ≤ W)
    (h : ∀ k, k < 4 * (x + y * W) ∨ 4 * (x + y * W) + 4 * n ≤ k → m' k = m k) :
    KeepsRows W y (y + 1) m m' := by
  intro k hk
  have hnext : (y + 1) * W = y * W + W := Nat.succ_mul y W
  exact h k (by omega)

theorem fillPixels_of_notMem {index n x : ℕ} {v : BitVec 32}
    (h : x < 4 * index ∨ 4 * index + 4 * n ≤ x) : fillPixels m index v n x = m x := by
  induction n with
  | zero => rfl
  | succ n ih => rw [fillPixels, store_of_notMem (by omega), ih (by omega)]

theorem drawCharRow_of_notMem {index n x : ℕ} {v : BitVec 32} {row : BitVec 8}
    (h : x < 4 * index ∨ 4 * index + 4 * n ≤ x) : drawCharRow m v row index n x = m x := by
  induction n with
  | zero => rfl
  | succ n ih =>
    rw [drawCharRow]
    split_ifs
    · rw [store_of_notMem (by omega), ih (by omega)]
    · exact ih (by omega)

theorem size_eq (hbpp : g.fb.bpp = 32) (w : ℕ) : w * g.fb.bpp / 8 = 4 * w := by
  rw [hbpp]
  omega

/-- A rectangle is drawn row by row; its first row is drawn even if its height is zero. -/
theorem keepsRows_drawRect (hbpp : g.fb.bpp = 32) {coords : Coordinate} {dims : Dimensions}
    (hx : coords.x + dims.width ≤ g.fb.width) (rgb : RGB) :
    KeepsRows g.fb.width coords.y (max (coords.y + dims.height) (coords.y + 1)) g.buffer
      (g.drawRect coords dims rgb).buffer := by
  have hfirst : KeepsRows g.fb.width coords.y (coords.y + 1) g.buffer
      (fillPixels g.buffer (g.pixelIndex coords) (packRgb rgb g.fb) dims.width) :=
    keepsRows_of_range hx fun k hk => fillPixels_of_notMem hk
  have hrows : ∀ n m, KeepsRows g.fb.width coords.y (coords.y + n + 1) m
      (g.copyRows m (g.pixelIndex coords) (dims.width * g.fb.bpp / 8) n) := by
    intro n m
    induction n with
    | zero => exact KeepsRows.refl _ _ _ _
    | succ n ih =>
      refine (ih.mono le_rfl (by omega)).trans ?_
      refine KeepsRows.mono (a := coords.y + (n + 1)) (b := coords.y + (n + 1) + 1) ?_ (by omega)
        le_rfl
      refine keepsRows_of_range hx fun k hk => memmove_of_notMem ?_
      rw [size_eq hbpp, pixelIndex, add_assoc, ← Nat.add_mul]
      exact hk
  refine (hfirst.mono le_rfl (le_max_right _ _)).trans ?_
  exact (hrows (dims.height - 1) _).mono le_rfl (by omega)

theorem keepsRows_drawChar {font : Font} {coords : Coordinate}
    (hx : coords.x + font.width ≤ g.fb.width) (c : BitVec 8) :
    KeepsRows g.fb.width coords.y (coords.y + font.height) g.buffer
      (g.drawChar font coords c).buffer := by
  have hrows : ∀ n, KeepsRows g.fb.width coords.y (coords.y + n) g.buffer
      (g.drawCharRows g.buffer font coords c n) := by
    intro n
    induction n with
    | zero => exact KeepsRows.refl _ _ _ _
    | succ n ih =>
      refine (ih.mono le_rfl (by omega)).trans ?_
      refine KeepsRows.mono (a := coords.y + n) (b := coords.y + n + 1) ?_ (by omega) le_rfl
      exact keepsRows_of_range hx fun k hk => drawCharRow_of_notMem hk
  exact hrows font.height

theorem toCoord_of_lt {i : ℤ} {n : ℕ} (h : i = n) (hn : n < 2 ^ 16) : toCoord i = n := by
  rw [h, toCoord_natCast hn]

/-- The rows that `Transpose` moves to are written. -/
theorem keepsRows_transpose (hbpp : g.fb.bpp = 32) {topLeft : Coordinate} {dims : Dimensions}
    {down left : ℤ} {x y : ℕ} (hW : g.fb.width < 2 ^ 16) (hy : (topLeft.y : ℤ) + down = y)
    (hx : (topLeft.x : ℤ) + left = x) (hxW : x + dims.width ≤ g.fb.width)
    (hyH : y + dims.height < 2 ^ 16) :
    KeepsRows g.fb.width y (y + dims.height) g.buffer
      (g.transpose topLeft dims down left).buffer := by
  have hrows : ∀ n ≤ dims.height, KeepsRows g.fb.width y (y + n) g.buffer
      (g.transposeRows g.buffer topLeft dims down left n) := by
    intro n hn
    induction n with
    | zero => exact KeepsRows.refl _ _ _ _
    | succ n ih =>
      refine ((ih (by omega)).mono le_rfl (by omega)).trans ?_
      refine KeepsRows.mono (a := y + n) (b := y + n + 1) ?_ (by omega) le_rfl
      refine keepsRows_of_range hxW fun k hk => ?_
      rw [transposeRows, toCoord_of_lt hx (by omega),
        toCoord_of_lt (show (topLeft.y : ℤ) + n + down = (y + n : ℕ) by omega) (by omega)]
      refine memmove_of_notMem ?_
      rw [size_eq hbpp, pixelIndex]
      exact hk
  exact hrows dims.height le_rfl

/-! ### Rows and bands -/

/-- A row of the back buffer. -/
def bufferRow (g : GraphicsCtx) (y k : ℕ) : BitVec 8 :=
  if k < 4 * g.fb.width then g.buffer (4 * (y * g.fb.width) + k) else 0

/-- A row of the screen. -/
def screenRow (g : GraphicsCtx) (y k : ℕ) : BitVec 8 :=
  if k < 4 * g.fb.width then g.screen (y * g.fb.pitch + k) else 0

/-- The rows and the dirty bands. -/
def view (g : GraphicsCtx) : DirtyTracking ℕ ℕ (ℕ → BitVec 8) where
  front := g.screenRow
  back := g.bufferRow
  dirty := {n | g.dirtyBlockStr.getLsbD n = true}

/-- A context made by `InitGraphicsCtx` for a framebuffer of the kernel. -/
structure Framed (g : GraphicsCtx) : Prop extends g.fb.Fits where
  rowHeight : g.rowHeight = g.fb.height / 64

theorem bufferRow_eq_of_keepsRows {g' : GraphicsCtx} (hfb : g'.fb = g.fb)
    (h : KeepsRows g.fb.width a b g.buffer g'.buffer) {y : ℕ} (hy : y < a ∨ b ≤ y) :
    g'.bufferRow y = g.bufferRow y := by
  funext k
  rw [bufferRow, bufferRow, hfb]
  split_ifs with hk
  · apply h
    rcases hy with hy | hy
    · have hle : (y + 1) * g.fb.width ≤ a * g.fb.width := Nat.mul_le_mul_right _ hy
      rw [Nat.succ_mul] at hle
      omega
    · have hle : b * g.fb.width ≤ y * g.fb.width := Nat.mul_le_mul_right _ hy
      omega
  · rfl

/-- A byte of a row lies in the copy of that row only. -/
theorem row_byte_iff {p y q k n : ℕ} (hn : n ≤ p) (hk : k < n) :
    (q * p ≤ y * p + k ∧ y * p + k < q * p + n) ↔ y = q := by
  constructor
  · rintro ⟨hlo, hhi⟩
    by_contra hne
    rcases Nat.lt_or_gt_of_ne hne with hlt | hgt
    · have hle : (y + 1) * p ≤ q * p := Nat.mul_le_mul_right _ hlt
      rw [Nat.succ_mul] at hle
      omega
    · have hle : (q + 1) * p ≤ y * p := Nat.mul_le_mul_right _ hgt
      rw [Nat.succ_mul] at hle
      omega
  · rintro rfl
    omega

/-- The rows of the screen after some rounds of `WriteBackCell`. -/
theorem screenRow_writeBackRows (hf : g.Framed) (cellInd n y : ℕ) :
    screenRow { g with screen := g.writeBackRows cellInd n } y =
      if cellInd * g.rowHeight ≤ y ∧ y < cellInd * g.rowHeight + n then g.bufferRow y
      else g.screenRow y := by
  induction n with
  | zero => rw [if_neg (by omega), writeBackRows]
  | succ n ih =>
    funext k
    have hdest : cellInd * g.rowHeight * g.fb.pitch + n * g.fb.pitch =
        (cellInd * g.rowHeight + n) * g.fb.pitch := (Nat.add_mul ..).symm
    have hsrc : cellInd * g.rowHeight * g.fb.width + n * g.fb.width =
        (cellInd * g.rowHeight + n) * g.fb.width := (Nat.add_mul ..).symm
    by_cases hk : k < 4 * g.fb.width
    · have hrow := row_byte_iff (y := y) (q := cellInd * g.rowHeight + n) hf.pitch hk
      have hih := congrFun ih k
      simp only [screenRow, if_pos hk] at hih
      simp only [screenRow, if_pos hk, writeBackRows, copyToScreen, size_eq hf.bpp, hdest, hsrc,
        hrow]
      by_cases hy : y = cellInd * g.rowHeight + n
      · rw [if_pos hy, if_pos (by omega), bufferRow, if_pos hk, hy, Nat.add_sub_cancel_left]
      · rw [if_neg hy, hih]
        by_cases hin : cellInd * g.rowHeight ≤ y ∧ y < cellInd * g.rowHeight + n
        · rw [if_pos hin, if_pos (by omega)]
        · rw [if_neg hin, if_neg (by omega), screenRow, if_pos hk]
    · by_cases hin : cellInd * g.rowHeight ≤ y ∧ y < cellInd * g.rowHeight + (n + 1)
      · rw [if_pos hin, screenRow, bufferRow, if_neg hk, if_neg hk]
      · rw [if_neg hin, screenRow, screenRow, if_neg hk, if_neg hk]

/-! ### The record of dirty bands -/

/-- Every row that differs lies in a dirty band. -/
def DirtySound (g : GraphicsCtx) : Prop :=
  DirtyTracking.Sound (· / g.rowHeight) {y | y < g.fb.height} g.view

theorem Framed.rowHeight_pos (hf : g.Framed) : 0 < g.rowHeight := by
  have := hf.height
  rw [hf.rowHeight]
  omega

/-- A row is in a band. -/
theorem Framed.band_iff (hf : g.Framed) (y n : ℕ) :
    y / g.rowHeight = n ↔ n * g.rowHeight ≤ y ∧ y < n * g.rowHeight + g.rowHeight := by
  rw [Nat.div_eq_iff hf.rowHeight_pos]
  have hpos := hf.rowHeight_pos
  omega

theorem DirtySound.writeBackCell (hf : g.Framed) (hs : g.DirtySound) {n : ℕ} (hn : n < 64) :
    (g.writeBackCell n).DirtySound := by
  have hrow := screenRow_writeBackRows hf n g.rowHeight
  refine hs.flush n rfl (fun y _ hy => ?_) (fun y _ hy => ?_) fun c hc hne => ?_
  · have hin := (hf.band_iff y n).mp hy
    exact (hrow y).trans (if_pos hin)
  · have hout : ¬ (n * g.rowHeight ≤ y ∧ y < n * g.rowHeight + g.rowHeight) :=
      fun hc => hy ((hf.band_iff y n).mpr hc)
    exact (hrow y).trans (if_neg hout)
  · have hbit : g.dirtyBlockStr.getLsbD c = true := hc
    change (clearNthBit g.dirtyBlockStr n).getLsbD c = true
    rw [getLsbD_clearNthBit _ hn, hbit, decide_eq_true hne, Bool.and_self]

/-- What the rounds of `WriteBack` up to a band leave. -/
structure WrittenBack (g g' : GraphicsCtx) (n : ℕ) : Prop where
  fb : g'.fb = g.fb
  rowHeight : g'.rowHeight = g.rowHeight
  buffer : g'.buffer = g.buffer
  sound : g'.DirtySound
  clean : ∀ i < n, g'.dirtyBlockStr.getLsbD i = false

theorem Framed.congr {g' : GraphicsCtx} (hf : g.Framed) (hfb : g'.fb = g.fb)
    (hrow : g'.rowHeight = g.rowHeight) : g'.Framed := by
  refine ⟨?_, ?_⟩
  · rw [hfb]
    exact hf.toFits
  · rw [hrow, hfb]
    exact hf.rowHeight

/-- `WriteBack` leaves no dirty band. -/
theorem writtenBack_writeBack (hf : g.Framed) (hs : g.DirtySound) :
    WrittenBack g g.writeBack 64 := by
  have hrounds : ∀ n ≤ 64, WrittenBack g ((List.range n).foldl (fun g x =>
      if getNthBit g.dirtyBlockStr x ≠ 0 then g.writeBackCell x else g) g) n := by
    intro n hn
    induction n with
    | zero => exact ⟨rfl, rfl, rfl, hs, fun i hi => absurd hi (Nat.not_lt_zero i)⟩
    | succ n ih =>
      rw [List.range_succ, List.foldl_append, List.foldl_cons, List.foldl_nil]
      obtain ⟨hfb, hrow, hbuf, hsound, hclean⟩ := ih (by omega)
      set g₁ := (List.range n).foldl (fun g x =>
        if getNthBit g.dirtyBlockStr x ≠ 0 then g.writeBackCell x else g) g
      have hlt : n < 64 := by omega
      by_cases hbit : getNthBit g₁.dirtyBlockStr n ≠ 0
      · rw [if_pos hbit]
        refine ⟨hfb, hrow, hbuf, hsound.writeBackCell (hf.congr hfb hrow) hlt, fun i hi => ?_⟩
        change (clearNthBit g₁.dirtyBlockStr n).getLsbD i = false
        rw [getLsbD_clearNthBit _ hlt]
        by_cases hin : i = n
        · simp [hin]
        · rw [hclean i (by omega), Bool.false_and]
      · rw [if_neg hbit]
        refine ⟨hfb, hrow, hbuf, hsound, fun i hi => ?_⟩
        by_cases hin : i = n
        · by_contra htrue
          rw [Bool.not_eq_false, hin, ← getNthBit_eq_one_iff _ hlt] at htrue
          exact hbit (by rw [htrue]; decide)
        · exact hclean i (by omega)
  exact hrounds 64 le_rfl

/-! ### Marking bands -/

theorem getLsbD_markBands_of_getLsbD {d : BitVec 64} (start stop : ℤ) {i : ℕ} (hi : i < 64)
    (h : d.getLsbD i = true) : (markBands d start stop).getLsbD i = true := by
  rw [markBands]
  induction (stop - start).toNat with
  | zero => exact h
  | succ n ih => rw [setBands, getLsbD_setNthBit _ _ hi, ih, Bool.true_or]

/-- A band that the loop passes is marked as `SetNthBit` does it. -/
theorem getLsbD_markBands_of_mem {d : BitVec 64} {start stop j : ℤ} (hj : start ≤ j ∧ j < stop)
    {i : ℕ} (hi : i < 64) (h : (i : ℤ) = j % 32 ∨ (j % 32 = 31 ∧ 31 ≤ i)) :
    (markBands d start stop).getLsbD i = true := by
  have hrounds : ∀ n : ℕ, j < start + n → (setBands d start n).getLsbD i = true := by
    intro n hn
    induction n with
    | zero => omega
    | succ n ih =>
      rw [setBands, getLsbD_setNthBit _ _ hi]
      by_cases hlt : j < start + n
      · rw [ih hlt, Bool.true_or]
      · have hjn : j = start + n := by omega
        have hbit : i = ((start + n) % 2 ^ 16).toNat % 32 ∨
            (((start + n) % 2 ^ 16).toNat % 32 = 31 ∧ 31 ≤ i) := by omega
        rw [decide_eq_true hbit, Bool.or_true]
  exact hrounds _ (by omega)

/-- The bands of the lower half of the screen that are drawn to are dirty already, or the loop that
marks bands passes one with a number equal to 31 modulo 32. -/
def BandsMarked (g : GraphicsCtx) (a b : ℕ) (bands : ℤ × ℤ) : Prop :=
  ∀ y, a ≤ y → y < b → 32 ≤ y / g.rowHeight →
    g.dirtyBlockStr.getLsbD (y / g.rowHeight) = true ∨
      ∃ i, bands.1 ≤ i ∧ i < bands.2 ∧ i % 32 = 31

/-- A call that draws to some rows and marks their bands. -/
theorem DirtySound.draw {g' : GraphicsCtx} (hf : g.Framed) (h64 : g.fb.height % 64 = 0)
    (hs : g.DirtySound) (bands : ℤ × ℤ) (hfb : g'.fb = g.fb)
    (hrow : g'.rowHeight = g.rowHeight) (hscreen : g'.screen = g.screen)
    (hkeep : KeepsRows g.fb.width a b g.buffer g'.buffer)
    (hdirty : g'.dirtyBlockStr = markBands g.dirtyBlockStr bands.1 bands.2)
    (hcover : ∀ y, a ≤ y → y < b → bands.1 ≤ (y / g.rowHeight : ℕ) ∧
      (y / g.rowHeight : ℕ) < bands.2)
    (hmarked : BandsMarked g a b bands) : g'.DirtySound := by
  have hband : ∀ y < g.fb.height, y / g.rowHeight < 64 := by
    intro y hy
    rw [Nat.div_lt_iff_lt_mul hf.rowHeight_pos, hf.rowHeight]
    omega
  rw [DirtySound, hfb, hrow]
  refine DirtyTracking.Sound.draw hs {y | a ≤ y ∧ y < b} ?_ (fun y hy => ?_) (fun n hn => ?_)
    fun y hy hvis => ?_
  · funext y k
    change g'.screenRow y k = g.screenRow y k
    rw [screenRow, screenRow, hfb, hscreen]
  · have hout : ¬ (a ≤ y ∧ y < b) := hy
    exact bufferRow_eq_of_keepsRows hfb hkeep (by omega)
  · have hbit : g.dirtyBlockStr.getLsbD n = true := hn
    have hlt : n < 64 := BitVec.lt_of_getLsbD hbit
    change g'.dirtyBlockStr.getLsbD n = true
    rw [hdirty]
    exact getLsbD_markBands_of_getLsbD _ _ hlt hbit
  · have hlt := hband y hvis
    have hcov := hcover y hy.1 hy.2
    have hhalf := hmarked y hy.1 hy.2
    change g'.dirtyBlockStr.getLsbD (y / g.rowHeight) = true
    rw [hdirty]
    generalize y / g.rowHeight = n at hlt hcov hhalf ⊢
    by_cases h32 : 32 ≤ n
    · rcases hhalf h32 with hbit | ⟨i, hlo, hhi, hmod⟩
      · exact getLsbD_markBands_of_getLsbD _ _ hlt hbit
      · exact getLsbD_markBands_of_mem ⟨hlo, hhi⟩ hlt (Or.inr ⟨hmod, by omega⟩)
    · exact getLsbD_markBands_of_mem hcov hlt (Or.inl (by omega))

/-! ### Drawing calls -/

/-- The calls that draw and `WriteBack`. -/
inductive Draws
  | clearScreen (rgb : RGB)
  | drawRect (coords : Coordinate) (dims : Dimensions) (rgb : RGB)
  | drawChar (font : Font) (coords : Coordinate) (c : BitVec 8)
  | transpose (topLeft : Coordinate) (dims : Dimensions) (down left : ℤ)
  | writeBack

/-- A call. -/
def step (g : GraphicsCtx) : Draws → GraphicsCtx
  | .clearScreen rgb => g.clearScreen rgb
  | .drawRect coords dims rgb => g.drawRect coords dims rgb
  | .drawChar font coords c => g.drawChar font coords c
  | .transpose topLeft dims down left => g.transpose topLeft dims down left
  | .writeBack => g.writeBack

/-- The rectangles of a call lie inside the framebuffer. -/
def Inside (g : GraphicsCtx) : Draws → Prop
  | .clearScreen _ => True
  | .drawRect coords dims _ => coords.x + dims.width ≤ g.fb.width ∧
      coords.y + dims.height ≤ g.fb.height
  | .drawChar font coords _ => coords.x + font.width ≤ g.fb.width ∧
      coords.y + font.height ≤ g.fb.height
  | .transpose topLeft dims down left => topLeft.x + dims.width ≤ g.fb.width ∧
      topLeft.y + dims.height ≤ g.fb.height ∧ 0 ≤ topLeft.x + left ∧
      topLeft.x + left + dims.width ≤ g.fb.width ∧ 0 ≤ topLeft.y + down ∧
      topLeft.y + down + dims.height ≤ g.fb.height
  | .writeBack => True

/-- The bands that `DrawRect` marks. -/
def rectBands (g : GraphicsCtx) (coords : Coordinate) (dims : Dimensions) : ℤ × ℤ :=
  (coords.y / g.rowHeight, (coords.y + dims.height) / g.rowHeight +
    (if coords.y % g.rowHeight = 0 then 1 else 0) + 1)

/-- The bands that `DrawChar` marks. -/
def charBands (g : GraphicsCtx) (font : Font) (coords : Coordinate) : ℤ × ℤ :=
  (coords.y / g.rowHeight, (coords.y + font.height) / g.rowHeight +
    if 0 < (coords.y + font.height) % g.rowHeight then 1 else 0)

/-- The first row that `Transpose` marks and the row after the last. -/
def transposeRange (topLeft : Coordinate) (dims : Dimensions) (down : ℤ) : ℤ × ℤ :=
  (if 0 < down then (topLeft.y : ℤ) else topLeft.y + down,
    if 0 < down then topLeft.y + dims.height + down else topLeft.y + dims.height)

/-- The bands that `Transpose` marks. -/
def transposeBands (g : GraphicsCtx) (topLeft : Coordinate) (dims : Dimensions) (down : ℤ) :
    ℤ × ℤ :=
  ((transposeRange topLeft dims down).1.tdiv g.rowHeight,
    (transposeRange topLeft dims down).2.tdiv g.rowHeight +
      if (transposeRange topLeft dims down).2.tmod g.rowHeight ≠ 0 then 1 else 0)

/-- The calls that mark the bands they draw to. -/
def Marks (g : GraphicsCtx) : Draws → Prop
  | .clearScreen _ => True
  | .drawRect coords dims _ => BandsMarked g coords.y (max (coords.y + dims.height) (coords.y + 1))
      (g.rectBands coords dims)
  | .drawChar font coords _ => BandsMarked g coords.y (coords.y + font.height)
      (g.charBands font coords)
  | .transpose topLeft dims down _ => BandsMarked g (topLeft.y + down).toNat
      ((topLeft.y + down).toNat + dims.height) (g.transposeBands topLeft dims down)
  | .writeBack => True

/-- What the calls keep. -/
structure Inv (g : GraphicsCtx) : Prop where
  framed : g.Framed
  height : g.fb.height % 64 = 0
  sound : g.DirtySound

theorem Inv.clearScreen (hf : g.Framed) (h64 : g.fb.height % 64 = 0) (rgb : RGB) :
    (g.clearScreen rgb).Inv := by
  refine ⟨hf.congr rfl rfl, h64, fun y hy _ => ?_⟩
  have hlt : y / g.rowHeight < 64 := by
    have hy' : y < g.fb.height := hy
    rw [Nat.div_lt_iff_lt_mul hf.rowHeight_pos, hf.rowHeight]
    omega
  change (0xFFFFFFFFFFFFFFFF : BitVec 64).getLsbD (y / g.rowHeight) = true
  rw [show (0xFFFFFFFFFFFFFFFF : BitVec 64) = BitVec.allOnes 64 from rfl,
    BitVec.getLsbD_allOnes, decide_eq_true hlt]

theorem Inv.drawRect (hi : g.Inv) {coords : Coordinate} {dims : Dimensions} {rgb : RGB}
    (hin : g.Inside (.drawRect coords dims rgb)) (hm : g.Marks (.drawRect coords dims rgb)) :
    (g.drawRect coords dims rgb).Inv := by
  refine ⟨hi.framed.congr rfl rfl, hi.height, ?_⟩
  refine DirtySound.draw hi.framed hi.height hi.sound (g.rectBands coords dims) rfl rfl rfl
    (keepsRows_drawRect hi.framed.bpp hin.1 rgb) rfl (fun y hlo hhi => ?_) hm
  have hstart : coords.y / g.rowHeight ≤ y / g.rowHeight := Nat.div_le_div_right hlo
  have hstop : y / g.rowHeight ≤ (coords.y + dims.height) / g.rowHeight :=
    Nat.div_le_div_right (by omega)
  have hcast : ((coords.y : ℤ) + dims.height) / g.rowHeight =
      ((coords.y + dims.height) / g.rowHeight : ℕ) := by push_cast; rfl
  have hcast' : (coords.y : ℤ) / g.rowHeight = (coords.y / g.rowHeight : ℕ) := by push_cast; rfl
  simp only [rectBands, hcast, hcast']
  split_ifs <;> omega

/-- The bands of a range of rows. -/
theorem div_lt_of_lt_ceil {r y stop : ℕ} (hr : 0 < r) (hy : y < stop) :
    y / r < stop / r + if 0 < stop % r then 1 else 0 := by
  have hstop := Nat.div_add_mod stop r
  rw [Nat.div_lt_iff_lt_mul hr]
  split_ifs with hmod
  · have hlt := Nat.mod_lt stop hr
    rw [Nat.succ_mul, Nat.mul_comm (stop / r) r]
    omega
  · rw [Nat.add_zero, Nat.mul_comm (stop / r) r]
    omega

theorem Inv.drawChar (hi : g.Inv) {font : Font} {coords : Coordinate} {c : BitVec 8}
    (hin : g.Inside (.drawChar font coords c)) (hm : g.Marks (.drawChar font coords c)) :
    (g.drawChar font coords c).Inv := by
  refine ⟨hi.framed.congr rfl rfl, hi.height, ?_⟩
  refine DirtySound.draw hi.framed hi.height hi.sound (g.charBands font coords) rfl rfl rfl
    (keepsRows_drawChar hin.1 c) rfl (fun y hlo hhi => ?_) hm
  have hstart : coords.y / g.rowHeight ≤ y / g.rowHeight := Nat.div_le_div_right hlo
  have hstop := div_lt_of_lt_ceil hi.framed.rowHeight_pos hhi
  constructor
  · change ((coords.y / g.rowHeight : ℕ) : ℤ) ≤ _
    exact_mod_cast hstart
  · change _ < (((coords.y + font.height) / g.rowHeight : ℕ) : ℤ) + _
    split_ifs at hstop ⊢ <;> omega

/-- `Transpose` marks the rows it moves to. -/
theorem transposeRange_of_inside {topLeft : Coordinate} {dims : Dimensions} {down left : ℤ}
    (hin : g.Inside (.transpose topLeft dims down left)) :
    ∃ top bottom : ℕ, transposeRange topLeft dims down = (↑top, ↑bottom) ∧
      top ≤ (topLeft.y + down).toNat ∧ (topLeft.y + down).toNat + dims.height ≤ bottom := by
  obtain ⟨-, -, -, -, hy, -⟩ := hin
  rw [transposeRange]
  by_cases hdown : 0 < down
  · refine ⟨topLeft.y, (topLeft.y + dims.height + down).toNat, ?_, by omega, by omega⟩
    rw [if_pos hdown, if_pos hdown, Int.toNat_of_nonneg (by omega)]
  · refine ⟨(topLeft.y + down).toNat, topLeft.y + dims.height, ?_, le_rfl, by omega⟩
    rw [if_neg hdown, if_neg hdown, Int.toNat_of_nonneg (by omega), Nat.cast_add]

theorem Inv.transpose (hi : g.Inv) {topLeft : Coordinate} {dims : Dimensions} {down left : ℤ}
    (hin : g.Inside (.transpose topLeft dims down left))
    (hm : g.Marks (.transpose topLeft dims down left)) :
    (g.transpose topLeft dims down left).Inv := by
  obtain ⟨top, bottom, hrange, htop, hbottom⟩ := transposeRange_of_inside hin
  obtain ⟨-, -, hx, hxW, hy, hyH⟩ := hin
  have hbands := hi.framed.bands
  have hkeep : KeepsRows g.fb.width (topLeft.y + down).toNat
      ((topLeft.y + down).toNat + dims.height) g.buffer
      (g.transpose topLeft dims down left).buffer :=
    keepsRows_transpose hi.framed.bpp hi.framed.width (Int.toNat_of_nonneg hy).symm
      (Int.toNat_of_nonneg hx).symm (by omega) (by omega)
  refine ⟨hi.framed.congr rfl rfl, hi.height, ?_⟩
  refine DirtySound.draw hi.framed hi.height hi.sound (g.transposeBands topLeft dims down) rfl rfl
    rfl hkeep rfl (fun y hlo hhi => ?_) hm
  have hstart : top / g.rowHeight ≤ y / g.rowHeight := Nat.div_le_div_right (htop.trans hlo)
  have hstop := div_lt_of_lt_ceil hi.framed.rowHeight_pos (hhi.trans_le hbottom)
  rw [transposeBands, hrange]
  constructor
  · change ((top / g.rowHeight : ℕ) : ℤ) ≤ _
    exact_mod_cast hstart
  · change _ < ((bottom / g.rowHeight : ℕ) : ℤ) + if ((bottom % g.rowHeight : ℕ) : ℤ) ≠ 0 then 1
      else 0
    split_ifs at hstop ⊢ <;> omega

theorem Inv.writeBack (hi : g.Inv) : g.writeBack.Inv := by
  obtain ⟨hfb, hrow, -, hsound, -⟩ := writtenBack_writeBack hi.framed hi.sound
  refine ⟨hi.framed.congr hfb hrow, ?_, hsound⟩
  rw [hfb]
  exact hi.height

/-- Every call that marks what it draws keeps the record sound. -/
theorem Inv.step (hi : g.Inv) {d : Draws} (hin : g.Inside d) (hm : g.Marks d) : (g.step d).Inv := by
  cases d with
  | clearScreen rgb => exact Inv.clearScreen hi.framed hi.height rgb
  | drawRect coords dims rgb => exact hi.drawRect hin hm
  | drawChar font coords c => exact hi.drawChar hin hm
  | transpose topLeft dims down left => exact hi.transpose hin hm
  | writeBack => exact hi.writeBack

/-! ### What the screen shows -/

/-- Every visible pixel is the pixel of the back buffer. -/
def Shows (g : GraphicsCtx) : Prop :=
  ∀ x y, x < g.fb.width → y < g.fb.height →
    load g.screen (y * g.fb.pitch + 4 * x) 4 = load g.buffer (4 * g.pixelIndex ⟨x, y⟩) 4

theorem Inv.shows_writeBack (hi : g.Inv) : g.writeBack.Shows := by
  intro x y hx hy
  have hinv := hi.writeBack
  have hclean := (writtenBack_writeBack hi.framed hi.sound).clean
  set g' := g.writeBack
  have hlt : y / g'.rowHeight < 64 := by
    have h64 := hinv.height
    rw [Nat.div_lt_iff_lt_mul hinv.framed.rowHeight_pos, hinv.framed.rowHeight]
    omega
  have hrow : g'.screenRow y = g'.bufferRow y := by
    refine hinv.sound.front_eq_back hy fun hdirty => ?_
    exact Bool.false_ne_true ((hclean _ hlt).symm.trans hdirty)
  have hbytes : ∀ k < 4 * g'.fb.width,
      g'.screen (y * g'.fb.pitch + k) = g'.buffer (4 * (y * g'.fb.width) + k) := by
    intro k hk
    have hbyte := congrFun hrow k
    rwa [screenRow, bufferRow, if_pos hk, if_pos hk] at hbyte
  have hindex : 4 * g'.pixelIndex ⟨x, y⟩ = 4 * (y * g'.fb.width) + 4 * x := by
    rw [pixelIndex, Nat.mul_add, Nat.add_comm]
  rw [hindex]
  exact load_congr_add hbytes (4 * x) (by omega)

theorem framed_initGraphicsCtx {fb : Framebuffer} (hfb : fb.Fits) (buffer screen : Mem) :
    (initGraphicsCtx fb buffer screen).Framed :=
  ⟨hfb, Nat.mod_eq_of_lt (Nat.lt_succ_of_le hfb.bands)⟩

/-- After a run that begins with `ClearScreen` and ends with `WriteBack`, the screen shows the back
buffer, if the bands of each call are marked and the height is a multiple of 64. -/
theorem shows_of_run {fb : Framebuffer} (hfb : fb.Fits) (h64 : fb.height % 64 = 0)
    (buffer screen : Mem) (rgb : RGB) {ds : List Draws}
    (hrun : Run.Along step (fun g d => g.Inside d ∧ g.Marks d)
      ((initGraphicsCtx fb buffer screen).clearScreen rgb) ds) :
    (ds.foldl step ((initGraphicsCtx fb buffer screen).clearScreen rgb)).writeBack.Shows := by
  have hinv : ((initGraphicsCtx fb buffer screen).clearScreen rgb).Inv :=
    Inv.clearScreen (framed_initGraphicsCtx hfb buffer screen) h64 rgb
  exact Inv.shows_writeBack (hrun.invariant (fun g d hi hd => hi.step hd.1 hd.2) hinv)

/-- A framebuffer with one column. -/
def columnFramebuffer (height : ℕ) : Framebuffer :=
  ⟨1, height, 4, 32, ⟨8, 16⟩, ⟨8, 8⟩, ⟨8, 0⟩⟩

/-- A white rectangle in the second band. -/
theorem shows_of_run_rect :
    ([Draws.writeBack, .drawRect ⟨0, 2⟩ ⟨1, 1⟩ ⟨255, 255, 255⟩].foldl step
      ((initGraphicsCtx (columnFramebuffer 128) 0 0).clearScreen ⟨0, 0, 0⟩)).writeBack.Shows := by
  have hfits : (columnFramebuffer 128).Fits := by constructor <;> decide
  refine shows_of_run hfits rfl 0 0 _ ⟨⟨trivial, trivial⟩, ⟨⟨?_, ?_⟩, fun y _ hhi h32 => ?_⟩, trivial⟩
  · decide +kernel
  · decide +kernel
  · have hrow : (((initGraphicsCtx (columnFramebuffer 128) 0 0).clearScreen
        ⟨0, 0, 0⟩).step .writeBack).rowHeight = 2 := by decide +kernel
    have hlt : y < 3 := hhi
    rw [hrow] at h32
    omega

/-- The rows after the last band of 64 are never written back. -/
theorem last_row_not_shown :
    (columnFramebuffer 65).Fits ∧
      ¬ ((initGraphicsCtx (columnFramebuffer 65) 0 0).clearScreen
        ⟨255, 255, 255⟩).writeBack.Shows := by
  refine ⟨by constructor <;> decide, fun h => ?_⟩
  have hpixel := h 0 64 (by decide +kernel) (by decide +kernel)
  exact absurd hpixel (by decide +kernel)

/-- A rectangle in band 32 marks band 0 instead. -/
example : ¬ ([Draws.writeBack, .drawRect ⟨0, 64⟩ ⟨1, 1⟩ ⟨255, 255, 255⟩].foldl step
    ((initGraphicsCtx (columnFramebuffer 128) 0 0).clearScreen ⟨0, 0, 0⟩)).writeBack.Shows := by
  intro h
  have hpixel := h 0 64 (by decide +kernel) (by decide +kernel)
  exact absurd hpixel (by decide +kernel)

end GraphicsCtx

end Vardar
