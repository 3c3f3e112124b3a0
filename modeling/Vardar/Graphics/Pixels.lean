import Vardar.Graphics.DoubleBuffer
import Vardar.Lib.Moves

/-!
# The pixels of the back buffer

The back buffer as a sequence of pixels of four bytes. A `memmove` of whole pixels is a move of
pixels, and drawing a rectangle paints a set of them.

`DrawRect` paints its first row before it looks at the height, so it differs from the loop that is
kept in its comment for a rectangle of height zero. `Transpose` moves the rows from top to bottom.
If it moves them down by less than the height, it reads rows that it has written.

The bands that a call marks are in `Vardar.Graphics.DoubleBuffer`. In a framebuffer of less than 64
rows the division by the height of a band traps after the pixels have been drawn, and the call does
not return.

## Main definitions

* `Vardar.Framebuffer.InBackBuffer`: the framebuffers that the back buffer is for.
* `Vardar.GraphicsCtx.px`, `Vardar.GraphicsCtx.pixel`: the pixels by index and by coordinates.
* `Vardar.GraphicsCtx.Paints`: a set of pixels gets one value.
* `Vardar.GraphicsCtx.plainRect`: the loop in the comment of `DrawRect`.
* `Vardar.GraphicsCtx.Moved`: what `Transpose` is for.

## Main results

* `Vardar.GraphicsCtx.px_memmove`: `memmove` as a move of pixels.
* `Vardar.GraphicsCtx.drawRect_eq_plainRect_iff`, `Vardar.GraphicsCtx.transpose_moved_iff`.
-/

namespace Vardar

open ByteMemory Moves

/-- A framebuffer of 32 bits for each pixel with no more pixels than `BACK_BUFFER`. -/
structure Framebuffer.InBackBuffer (fb : Framebuffer) : Prop where
  bpp : fb.bpp = 32
  size : fb.width * fb.height ≤ 4147200

namespace GraphicsCtx

variable {g : GraphicsCtx} {m m' m₁ m₂ : Mem}

/-! ### Pixels -/

/-- The pixel with an index. -/
def px (m : Mem) (i : ℕ) : ℕ := load m (4 * i) 4

/-- The pixel at some coordinates. -/
def pixel (g : GraphicsCtx) (x y : ℕ) : ℕ := px g.buffer (g.pixelIndex ⟨x, y⟩)

/-- The pixels determine the memory. -/
theorem px_injective (h : ∀ i, px m i = px m' i) : m = m' := by
  funext x
  have hload := h (x / 4)
  simp only [px, load] at hload
  have hlt (y : ℕ) : (m y).toNat < 256 := (m y).isLt
  have hlt' (y : ℕ) : (m' y).toNat < 256 := (m' y).isLt
  have h₀ := hlt (4 * (x / 4))
  have h₁ := hlt (4 * (x / 4) + 1)
  have h₂ := hlt (4 * (x / 4) + 1 + 1)
  have h₃ := hlt (4 * (x / 4) + 1 + 1 + 1)
  have h₀' := hlt' (4 * (x / 4))
  have h₁' := hlt' (4 * (x / 4) + 1)
  have h₂' := hlt' (4 * (x / 4) + 1 + 1)
  have h₃' := hlt' (4 * (x / 4) + 1 + 1 + 1)
  apply BitVec.eq_of_toNat_eq
  obtain hx | hx | hx | hx : x = 4 * (x / 4) ∨ x = 4 * (x / 4) + 1 ∨ x = 4 * (x / 4) + 1 + 1 ∨
      x = 4 * (x / 4) + 1 + 1 + 1 := by omega
  all_goals
    rw [hx]
    omega

/-- A store of a pixel. -/
theorem px_store (m : Mem) (i v j : ℕ) :
    px (store m (4 * i) 4 v) j = if j = i then v % 2 ^ 32 else px m j := by
  by_cases hj : j = i
  · rw [if_pos hj, hj, px, load_store_self]
    rfl
  · rw [if_neg hj, px, load_store_of_disjoint (by omega), px]

/-- `memmove` of whole pixels. -/
theorem px_memmove (m : Mem) (dest src w : ℕ) :
    px (memmove m (4 * dest) (4 * src) (4 * w)) =
      single (fun i => dest ≤ i ∧ i < dest + w) (fun i => src + (i - dest)) (px m) := by
  funext i
  rw [px, single]
  split_ifs with hi
  · have hbytes : ∀ k < 4 * w, memmove m (4 * dest) (4 * src) (4 * w) (4 * dest + k) =
        m (4 * src + k) := by
      intro k hk
      rw [memmove_apply, if_pos (by omega), Nat.add_sub_cancel_left]
    have hload := load_congr_add hbytes (4 * (i - dest)) (n := 4) (by omega)
    rw [← Nat.mul_add, ← Nat.mul_add, Nat.add_sub_of_le hi.1] at hload
    exact hload
  · exact load_congr fun x hx hx' => memmove_of_notMem (by omega)

/-- A back buffer with one value for all pixels. -/
def uniform (v : ℕ) : Mem := fun x => BitVec.ofNat 8 (v / 256 ^ (x % 4))

/-- A back buffer with one value for all pixels but one. -/
def dot (v c p : ℕ) : Mem := store (uniform v) (4 * p) 4 c

theorem px_uniform (v i : ℕ) : px (uniform v) i = v % 2 ^ 32 := by
  have h₀ : 4 * i % 4 = 0 := by omega
  have h₁ : (4 * i + 1) % 4 = 1 := by omega
  have h₂ : (4 * i + 1 + 1) % 4 = 2 := by omega
  have h₃ : (4 * i + 1 + 1 + 1) % 4 = 3 := by omega
  simp only [px, load, uniform, h₀, h₁, h₂, h₃, BitVec.toNat_ofNat]
  omega

theorem px_dot (v c p i : ℕ) :
    px (dot v c p) i = if i = p then c % 2 ^ 32 else v % 2 ^ 32 := by
  rw [dot, px_store, px_uniform]

/-! ### Painting -/

/-- The pixels in a set get a value, and no other pixel changes. -/
def Paints (S : Set ℕ) (v : ℕ) (m m' : Mem) : Prop :=
  ∀ i, (i ∈ S → px m' i = v) ∧ (i ∉ S → px m' i = px m i)

theorem Paints.unique {S : Set ℕ} {v : ℕ} (h₁ : Paints S v m m₁) (h₂ : Paints S v m m₂) :
    m₁ = m₂ := by
  refine px_injective fun i => ?_
  by_cases hi : i ∈ S
  · rw [(h₁ i).1 hi, (h₂ i).1 hi]
  · rw [(h₁ i).2 hi, (h₂ i).2 hi]

/-- Painting one set and then another one. -/
theorem Paints.union {S T : Set ℕ} {v : ℕ} (h₁ : Paints S v m m₁) (h₂ : Paints T v m₁ m₂) :
    Paints (S ∪ T) v m m₂ := by
  intro i
  by_cases hT : i ∈ T
  · exact ⟨fun _ => (h₂ i).1 hT, fun hout => absurd (.inr hT) hout⟩
  · rw [Set.mem_union, or_iff_left hT, (h₂ i).2 hT]
    exact h₁ i

/-- Pixels from an index on. -/
def row (index width : ℕ) : Set ℕ := {i | index ≤ i ∧ i < index + width}

theorem mem_row {index width i : ℕ} : i ∈ row index width ↔ index ≤ i ∧ i < index + width := Iff.rfl

theorem paints_fillPixels (m : Mem) (index : ℕ) (v : BitVec 32) (n : ℕ) :
    Paints (row index n) v.toNat m (fillPixels m index v n) := by
  induction n with
  | zero => exact fun i => ⟨fun hi => absurd hi (by rw [mem_row]; omega), fun _ => rfl⟩
  | succ n ih =>
    intro i
    rw [fillPixels, px_store, Nat.mod_eq_of_lt v.isLt]
    by_cases hi : i = index + n
    · rw [if_pos hi]
      exact ⟨fun _ => rfl, fun hout => absurd (by rw [mem_row]; omega) hout⟩
    · have hrow : i ∈ row index (n + 1) ↔ i ∈ row index n := by
        rw [mem_row, mem_row]
        omega
      rw [if_neg hi, hrow]
      exact ih i

/-- A copy of pixels that all have one value. -/
theorem paints_memmove {dest src w v : ℕ} (h : ∀ i ∈ row src w, px m i = v) :
    Paints (row dest w) v m (memmove m (4 * dest) (4 * src) (4 * w)) := by
  intro i
  rw [px_memmove, single]
  by_cases hi : dest ≤ i ∧ i < dest + w
  · rw [if_pos hi]
    exact ⟨fun _ => h _ ⟨by omega, by omega⟩, fun hout => absurd hi hout⟩
  · rw [if_neg hi]
    exact ⟨fun hin => absurd hin hi, fun _ => rfl⟩

/-- The pixels of some rows of a rectangle, by the index of its corner. -/
def rows (W dest width n : ℕ) : Set ℕ := {i | ∃ r < n, dest + r * W ≤ i ∧ i < dest + r * W + width}

theorem rows_succ (W dest width n : ℕ) :
    rows W dest width (n + 1) = rows W dest width n ∪ row (dest + n * W) width := by
  ext i
  constructor
  · rintro ⟨r, hr, hi⟩
    rcases Nat.lt_succ_iff_lt_or_eq.mp hr with hr | rfl
    · exact .inl ⟨r, hr, hi⟩
    · exact .inr hi
  · rintro (⟨r, hr, hi⟩ | hi)
    · exact ⟨r, Nat.lt_succ_of_lt hr, hi⟩
    · exact ⟨n, Nat.lt_succ_self n, hi⟩

theorem rows_one (W dest width : ℕ) : rows W dest width 1 = row dest width := by
  ext i
  constructor
  · rintro ⟨r, hr, hi⟩
    obtain rfl := Nat.lt_one_iff.mp hr
    rwa [Nat.zero_mul, Nat.add_zero] at hi
  · intro hi
    exact ⟨0, Nat.one_pos, by rwa [Nat.zero_mul, Nat.add_zero]⟩

/-- The row at a corner and copies of it below. -/
theorem paints_copyRows (m : Mem) (dest width : ℕ) (v : BitVec 32) (n : ℕ) :
    Paints (rows g.fb.width dest width (n + 1)) v.toNat m
      (g.copyRows (fillPixels m dest v width) dest (4 * width) n) := by
  induction n with
  | zero =>
    rw [rows_one]
    exact paints_fillPixels m dest v width
  | succ n ih =>
    rw [rows_succ]
    refine ih.union (paints_memmove fun i hi => (ih i).1 ⟨0, Nat.succ_pos n, ?_⟩)
    rwa [Nat.zero_mul, Nat.add_zero]

/-- `DrawRect` paints the rows of its rectangle, and at least one row. -/
theorem paints_drawRect (hbpp : g.fb.bpp = 32) (coords : Coordinate) (dims : Dimensions)
    (rgb : RGB) :
    Paints (rows g.fb.width (g.pixelIndex coords) dims.width (dims.height - 1 + 1))
      (packRgb rgb g.fb).toNat g.buffer (g.drawRect coords dims rgb).buffer := by
  rw [drawRect, size_eq hbpp]
  exact paints_copyRows _ _ _ _ _

/-! ### The loop in the comment -/

/-- The first rows of the loop that is kept in the comment of `DrawRect`. -/
def plainRows (m : Mem) (dest width : ℕ) (v : BitVec 32) : ℕ → Mem
  | 0 => m
  | i + 1 => fillPixels (plainRows m dest width v i) (dest + i * g.fb.width) v width

/-- The loop that is kept in the comment of `DrawRect`. -/
def plainRect (g : GraphicsCtx) (coords : Coordinate) (dims : Dimensions) (rgb : RGB) : Mem :=
  g.plainRows g.buffer (g.pixelIndex coords) dims.width (packRgb rgb g.fb) dims.height

theorem paints_plainRows (m : Mem) (dest width : ℕ) (v : BitVec 32) (n : ℕ) :
    Paints (rows g.fb.width dest width n) v.toNat m (g.plainRows m dest width v n) := by
  induction n with
  | zero => exact fun i => ⟨fun ⟨r, hr, _⟩ => absurd hr (Nat.not_lt_zero r), fun _ => rfl⟩
  | succ n ih =>
    rw [rows_succ]
    exact ih.union (paints_fillPixels _ _ v width)

/-! ### Coordinates -/

/-- Coordinates inside a rectangle. -/
def InRect (coords : Coordinate) (dims : Dimensions) (x y : ℤ) : Prop :=
  coords.x ≤ x ∧ x < coords.x + dims.width ∧ coords.y ≤ y ∧ y < coords.y + dims.height

/-- An index determines the coordinates. -/
theorem index_inj {W x x' y y' : ℕ} (hx : x < W) (hx' : x' < W) :
    x + y * W = x' + y' * W ↔ x = x' ∧ y = y' := by
  constructor
  · intro h
    have hpos : 0 < W := Nat.zero_lt_of_lt hx
    have hy : y = y' := by
      have hdiv := congrArg (· / W) h
      simp only [Nat.add_mul_div_right _ _ hpos, Nat.div_eq_of_lt hx, Nat.div_eq_of_lt hx',
        Nat.zero_add] at hdiv
      exact hdiv
    exact ⟨by rw [hy] at h; exact Nat.add_right_cancel h, hy⟩
  · rintro ⟨rfl, rfl⟩
    rfl

theorem mem_rows_iff {W cx cy w n x y : ℕ} (hw : cx + w ≤ W) (hx : x < W) :
    x + y * W ∈ rows W (cx + cy * W) w n ↔ cx ≤ x ∧ x < cx + w ∧ cy ≤ y ∧ y < cy + n := by
  constructor
  · rintro ⟨r, hr, hlo, hhi⟩
    obtain ⟨k, hk⟩ := Nat.exists_eq_add_of_le hlo
    have hindex : x + y * W = cx + k + (cy + r) * W := by
      rw [hk]
      ring
    obtain ⟨rfl, rfl⟩ := (index_inj hx (by omega)).mp hindex
    omega
  · rintro ⟨hlo, hhi, hy, hy'⟩
    obtain ⟨r, rfl⟩ := Nat.exists_eq_add_of_le hy
    refine ⟨r, by omega, ?_⟩
    rw [Nat.add_mul]
    omega

theorem exists_drawRect?_iff {coords : Coordinate} {dims : Dimensions} {rgb : RGB}
    {P : GraphicsCtx → Prop} : (∃ g', g.drawRect? coords dims rgb = some g' ∧ P g') ↔
      g.rowHeight ≠ 0 ∧ P (g.drawRect coords dims rgb) := by
  rw [drawRect?]
  split_ifs with hrow <;> simp [hrow]

/-- **`DrawRect` and the loop in its comment.** For every back buffer, color and rectangle inside
the framebuffer, `DrawRect` returns and leaves the same back buffer as the loop if and only if the
bands have rows, and the rectangle has a row or the pixels of its first row have the color already;
and the loop sets each pixel of the rectangle and no other. -/
theorem drawRect_eq_plainRect_iff (hfb : g.fb.InBackBuffer) {coords : Coordinate}
    {dims : Dimensions} {rgb : RGB} (hin : g.Inside (.drawRect coords dims rgb)) :
    ((∃ g', g.drawRect? coords dims rgb = some g' ∧ g'.buffer = g.plainRect coords dims rgb) ↔
      g.rowHeight ≠ 0 ∧ (0 < dims.height ∨ ∀ k < dims.width,
        g.pixel (coords.x + k) coords.y = (packRgb rgb g.fb).toNat)) ∧
    ∀ x y : ℕ, x < g.fb.width →
      (InRect coords dims x y →
        pixel { g with buffer := g.plainRect coords dims rgb } x y = (packRgb rgb g.fb).toNat) ∧
      (¬ InRect coords dims x y →
        pixel { g with buffer := g.plainRect coords dims rgb } x y = g.pixel x y) := by
  have hplain : Paints (rows g.fb.width (g.pixelIndex coords) dims.width dims.height)
      (packRgb rgb g.fb).toNat g.buffer (g.plainRect coords dims rgb) := paints_plainRows _ _ _ _ _
  have hdraw := paints_drawRect hfb.bpp coords dims rgb
  constructor
  · refine exists_drawRect?_iff.trans (and_congr_right fun _ => ?_)
    by_cases hheight : 0 < dims.height
    · refine iff_of_true ?_ (.inl hheight)
      rw [Nat.sub_add_cancel hheight] at hdraw
      exact hdraw.unique hplain
    · obtain hzero : dims.height = 0 := by omega
      have hfirst (k : ℕ) : g.pixelIndex ⟨coords.x + k, coords.y⟩ = g.pixelIndex coords + k := by
        rw [pixelIndex, pixelIndex]
        ring
      have hrow {i : ℕ} : i ∈ rows g.fb.width (g.pixelIndex coords) dims.width
          (dims.height - 1 + 1) ↔ ∃ k < dims.width, i = g.pixelIndex coords + k := by
        rw [show dims.height - 1 + 1 = 1 by omega, rows_one, mem_row]
        constructor
        · intro hi
          exact ⟨i - g.pixelIndex coords, by omega, by omega⟩
        · rintro ⟨k, hk, rfl⟩
          omega
      have hsame : g.plainRect coords dims rgb = g.buffer := by
        rw [plainRect, hzero, plainRows]
      rw [or_iff_right hheight, hsame]
      constructor
      · intro heq k hk
        rw [pixel, hfirst, ← (hdraw _).1 (hrow.mpr ⟨k, hk, rfl⟩), heq]
      · intro hcolor
        refine px_injective fun i => ?_
        by_cases hi : i ∈ rows g.fb.width (g.pixelIndex coords) dims.width (dims.height - 1 + 1)
        · obtain ⟨k, hk, rfl⟩ := hrow.mp hi
          rw [(hdraw _).1 hi, ← hfirst, ← hcolor k hk, pixel]
        · exact (hdraw i).2 hi
  · intro x y hx
    have hrect : InRect coords dims x y ↔
        x + y * g.fb.width ∈ rows g.fb.width (g.pixelIndex coords) dims.width dims.height := by
      rw [pixelIndex, mem_rows_iff hin.1 hx, InRect]
      omega
    rw [hrect]
    exact hplain (x + y * g.fb.width)

/-- A framebuffer of five columns. -/
def fiveColumns : Framebuffer := { columnFramebuffer 64 with width := 5, pitch := 20 }

theorem fiveColumns_inBackBuffer : fiveColumns.InBackBuffer := ⟨rfl, by decide⟩

/-- A white rectangle of three columns and four rows. -/
theorem drawRect_eq_plainRect_white :
    let g := initGraphicsCtx fiveColumns 0 0
    ∃ g', g.drawRect? ⟨1, 2⟩ ⟨3, 4⟩ ⟨255, 255, 255⟩ = some g' ∧
      g'.buffer = g.plainRect ⟨1, 2⟩ ⟨3, 4⟩ ⟨255, 255, 255⟩ := by
  intro g
  have hin : g.Inside (.drawRect ⟨1, 2⟩ ⟨3, 4⟩ ⟨255, 255, 255⟩) := ⟨by decide, by decide⟩
  exact (drawRect_eq_plainRect_iff fiveColumns_inBackBuffer hin).1.mpr
    ⟨by decide, .inl (by decide)⟩

/-- A white rectangle of height zero. -/
theorem drawRect_zero_height :
    let g := initGraphicsCtx (columnFramebuffer 64) 0 0
    g.Inside (.drawRect ⟨0, 0⟩ ⟨1, 0⟩ ⟨255, 255, 255⟩) ∧
      (g.drawRect ⟨0, 0⟩ ⟨1, 0⟩ ⟨255, 255, 255⟩).pixel 0 0 = 0xFFFFFF ∧
      (g.drawRect ⟨0, 0⟩ ⟨1, 0⟩ ⟨255, 255, 255⟩).buffer ≠
        g.plainRect ⟨0, 0⟩ ⟨1, 0⟩ ⟨255, 255, 255⟩ := by
  intro g
  refine ⟨⟨by decide, by decide⟩, by decide +kernel, fun h => ?_⟩
  have hpx := congrArg (px · 0) h
  exact absurd hpx (by decide +kernel)

/-! ### `Transpose` -/

/-- The rows that `Transpose` moves, as moves of spans of pixels. -/
theorem px_transposeRows (hbpp : g.fb.bpp = 32) (m : Mem) (topLeft : Coordinate) (dims : Dimensions)
    (down left : ℤ) (n : ℕ) :
    px (g.transposeRows m topLeft dims down left n) =
      spans
        (fun r => g.pixelIndex ⟨toCoord (topLeft.x + left), toCoord (topLeft.y + r + down)⟩)
        (fun r => g.pixelIndex ⟨topLeft.x, toCoord (topLeft.y + r)⟩) dims.width (px m) n := by
  induction n with
  | zero => rfl
  | succ n ih =>
    rw [transposeRows, size_eq hbpp, px_memmove, ih]
    rfl

/-- The pixels of a rectangle have been moved as if through a temporary. -/
structure Moved (g g' : GraphicsCtx) (topLeft : Coordinate) (dims : Dimensions) (down left : ℤ) :
    Prop where
  inside : ∀ x y : ℕ, InRect topLeft dims x y →
    g'.pixel (x + left).toNat (y + down).toNat = g.pixel x y
  outside : ∀ x y : ℕ, x < g.fb.width → ¬ InRect topLeft dims (x - left) (y - down) →
    g'.pixel x y = g.pixel x y

/-- The pixels that lie in both rectangles have the values already that are moved there. -/
def Repeats (g : GraphicsCtx) (topLeft : Coordinate) (dims : Dimensions) (down left : ℤ) : Prop :=
  ∀ x y : ℕ, InRect topLeft dims x y → InRect topLeft dims (x - left) (y - down) →
    g.pixel x y = g.pixel (x - left).toNat (y - down).toNat

section Transpose

variable {topLeft : Coordinate} {dims : Dimensions} {down left : ℤ}

/-- The pixels after `Transpose`, with the corner of the rectangle they are moved to. -/
theorem px_transpose (hbpp : g.fb.bpp = 32) (hW : g.fb.width < 2 ^ 16) (hH : g.fb.height < 2 ^ 16)
    (hin : g.Inside (.transpose topLeft dims down left)) :
    ∃ x' y' : ℕ, (x' : ℤ) = topLeft.x + left ∧ (y' : ℤ) = topLeft.y + down ∧
      x' + dims.width ≤ g.fb.width ∧
      px (g.transpose topLeft dims down left).buffer =
        spans (fun r => x' + (y' + r) * g.fb.width)
          (fun r => topLeft.x + (topLeft.y + r) * g.fb.width) dims.width (px g.buffer)
          dims.height := by
  obtain ⟨hxW, hyH, hx, hxW', hy, hyH'⟩ := hin
  refine ⟨(topLeft.x + left).toNat, (topLeft.y + down).toNat, by omega, by omega, by omega, ?_⟩
  rw [transpose, px_transposeRows hbpp]
  refine spans_congr (fun r hr => ?_) (fun r hr => ?_) _
  · rw [pixelIndex, toCoord_of_lt (n := (topLeft.x + left).toNat) (by omega) (by omega),
      toCoord_of_lt (n := (topLeft.y + down).toNat + r) (by omega) (by omega)]
  · rw [pixelIndex, toCoord_of_lt (n := topLeft.y + r) (by omega) (by omega)]

/-- The pixels outside the rectangle that is moved to are unchanged. -/
theorem transpose_outside (hbpp : g.fb.bpp = 32) (hW : g.fb.width < 2 ^ 16)
    (hH : g.fb.height < 2 ^ 16) (hin : g.Inside (.transpose topLeft dims down left)) {x y : ℕ}
    (hx : x < g.fb.width) (hout : ¬ InRect topLeft dims (x - left) (y - down)) :
    (g.transpose topLeft dims down left).pixel x y = g.pixel x y := by
  obtain ⟨x', y', hx', hy', hw', hpx⟩ := px_transpose hbpp hW hH hin
  rw [pixel, hpx]
  refine spans_of_notMem fun r hr k hk heq => hout ?_
  rw [Nat.add_right_comm] at heq
  obtain ⟨rfl, rfl⟩ := (index_inj (by omega) hx).mp heq
  rw [InRect]
  omega

/-- The rectangle has been moved if every span has the pixels it had before. -/
theorem transpose_inside_iff {g' : GraphicsCtx} (hfb : g'.fb = g.fb) {x' y' : ℕ}
    (hx' : (x' : ℤ) = topLeft.x + left) (hy' : (y' : ℤ) = topLeft.y + down) :
    (∀ x y : ℕ, InRect topLeft dims x y →
        g'.pixel (x + left).toNat (y + down).toNat = g.pixel x y) ↔
      ∀ r < dims.height, ∀ k < dims.width, px g'.buffer (x' + (y' + r) * g.fb.width + k) =
        px g.buffer (topLeft.x + (topLeft.y + r) * g.fb.width + k) := by
  have hspan (r k : ℕ) :
      (g'.pixel (((topLeft.x + k : ℕ) : ℤ) + left).toNat (((topLeft.y + r : ℕ) : ℤ) + down).toNat =
          g.pixel (topLeft.x + k) (topLeft.y + r)) ↔
        px g'.buffer (x' + (y' + r) * g.fb.width + k) =
          px g.buffer (topLeft.x + (topLeft.y + r) * g.fb.width + k) := by
    have hcol : (((topLeft.x + k : ℕ) : ℤ) + left).toNat = x' + k := by omega
    have hrow : (((topLeft.y + r : ℕ) : ℤ) + down).toNat = y' + r := by omega
    rw [pixel, pixel, pixelIndex, pixelIndex, hfb, hcol, hrow, Nat.add_right_comm,
      Nat.add_right_comm topLeft.x]
  constructor
  · intro h r hr k hk
    exact (hspan r k).mp (h _ _ (by rw [InRect]; omega))
  · intro h x y hrect
    rw [InRect] at hrect
    obtain ⟨k, rfl⟩ := Nat.exists_eq_add_of_le (show topLeft.x ≤ x by omega)
    obtain ⟨r, rfl⟩ := Nat.exists_eq_add_of_le (show topLeft.y ≤ y by omega)
    exact (hspan r k).mpr (h r (by omega) k (by omega))

/-- A span is read after it has been written only if the rectangle is moved down. -/
theorem repeats_iff (hxW : topLeft.x + dims.width ≤ g.fb.width) {x' y' : ℕ}
    (hx' : (x' : ℤ) = topLeft.x + left) (hy' : (y' : ℤ) = topLeft.y + down)
    (hw' : x' + dims.width ≤ g.fb.width) :
    (∀ r < dims.height, ∀ k < dims.width, ∀ r' < r, ∀ k' < dims.width,
      topLeft.x + (topLeft.y + r) * g.fb.width + k = x' + (y' + r') * g.fb.width + k' →
        px g.buffer (topLeft.x + (topLeft.y + r) * g.fb.width + k) =
          px g.buffer (topLeft.x + (topLeft.y + r') * g.fb.width + k')) ↔
      down ≤ 0 ∨ g.Repeats topLeft dims down left := by
  have hindex (x y k : ℕ) : x + y * g.fb.width + k = x + k + y * g.fb.width :=
    Nat.add_right_comm _ _ _
  constructor
  · intro h
    refine or_iff_not_imp_left.mpr fun hdown x y hrect hrect' => ?_
    rw [InRect] at hrect hrect'
    obtain ⟨k, rfl⟩ := Nat.exists_eq_add_of_le (show topLeft.x ≤ x by omega)
    obtain ⟨r, rfl⟩ := Nat.exists_eq_add_of_le (show topLeft.y ≤ y by omega)
    obtain ⟨k', hk'⟩ : ∃ k' : ℕ, (topLeft.x : ℤ) + k' = (topLeft.x + k : ℕ) - left :=
      ⟨((topLeft.x + k : ℕ) - left - topLeft.x).toNat, by omega⟩
    obtain ⟨r', hr'⟩ : ∃ r' : ℕ, (topLeft.y : ℤ) + r' = (topLeft.y + r : ℕ) - down :=
      ⟨((topLeft.y + r : ℕ) - down - topLeft.y).toNat, by omega⟩
    have hval := h r (by omega) k (by omega) r' (by omega) k' (by omega)
    simp only [hindex] at hval
    rw [← hk', ← hr']
    refine hval ?_
    rw [show topLeft.x + k = x' + k' by omega, show topLeft.y + r = y' + r' by omega]
  · intro h r hr k hk r' hr' k' hk' heq
    rw [hindex, hindex] at heq
    obtain ⟨hcol, hrow⟩ := (index_inj (by omega) (by omega)).mp heq
    rcases h with hdown | hrep
    · omega
    · have hval := hrep (topLeft.x + k) (topLeft.y + r) (by rw [InRect]; omega)
        (by rw [InRect]; omega)
      rw [show (((topLeft.x + k : ℕ) : ℤ) - left).toNat = topLeft.x + k' by omega,
        show (((topLeft.y + r : ℕ) : ℤ) - down).toNat = topLeft.y + r' by omega] at hval
      rw [hindex, hindex]
      exact hval

/-- `Transpose` moves the pixels as if through a temporary, or it moves them down and they do not
repeat. -/
theorem moved_transpose_iff (hbpp : g.fb.bpp = 32) (hW : g.fb.width < 2 ^ 16)
    (hH : g.fb.height < 2 ^ 16) (hin : g.Inside (.transpose topLeft dims down left)) :
    Moved g (g.transpose topLeft dims down left) topLeft dims down left ↔
      down ≤ 0 ∨ g.Repeats topLeft dims down left := by
  obtain ⟨x', y', hx', hy', hw', hpx⟩ := px_transpose hbpp hW hH hin
  have hinside : (∀ x y : ℕ, InRect topLeft dims x y →
      (g.transpose topLeft dims down left).pixel (x + left).toNat (y + down).toNat =
        g.pixel x y) ↔ _ := transpose_inside_iff (by rfl) hx' hy'
  have honce : ∀ r < dims.height, ∀ r' < dims.height, ∀ k < dims.width, ∀ k' < dims.width,
      x' + (y' + r) * g.fb.width + k = x' + (y' + r') * g.fb.width + k' → r = r' := by
    intro r hr r' hr' k hk k' hk' heq
    rw [Nat.add_right_comm, Nat.add_right_comm x' _ k'] at heq
    have hrow := ((index_inj (by omega) (by omega)).mp heq).2
    omega
  have hsim := forall_spans_eq_iff (s := fun r => topLeft.x + (topLeft.y + r) * g.fb.width)
    (f := px g.buffer) honce
  rw [← repeats_iff hin.1 hx' hy' hw', ← hsim, ← hpx, ← hinside]
  exact ⟨fun h => h.inside, fun h => ⟨h, fun x y hx => transpose_outside hbpp hW hH hin hx⟩⟩

theorem exists_transpose?_iff {P : GraphicsCtx → Prop} :
    (∃ g', g.transpose? topLeft dims down left = some g' ∧ P g') ↔
      g.rowHeight ≠ 0 ∧ P (g.transpose topLeft dims down left) := by
  rw [transpose?]
  split_ifs with hrow <;> simp [hrow]

/-- **When `Transpose` is a simultaneous move.** For every rectangle and offsets that stay inside
the framebuffer: `Transpose` returns and has moved the pixels as if through a temporary if and only
if the bands have rows, and the pixels are not moved down, or those that lie in both rectangles have
the values already that are moved there. It is so for every back buffer if and only if the bands
have rows, and the pixels are not moved down, or the rectangles are disjoint. -/
theorem transpose_moved_iff (hfb : g.fb.InBackBuffer) (hW : g.fb.width < 2 ^ 16)
    (hH : g.fb.height < 2 ^ 16) (hin : g.Inside (.transpose topLeft dims down left)) :
    ((∃ g', g.transpose? topLeft dims down left = some g' ∧ Moved g g' topLeft dims down left) ↔
      g.rowHeight ≠ 0 ∧ (down ≤ 0 ∨ g.Repeats topLeft dims down left)) ∧
    ((∀ buffer, let g₁ := { g with buffer := buffer }
        ∃ g', g₁.transpose? topLeft dims down left = some g' ∧
          Moved g₁ g' topLeft dims down left) ↔
      g.rowHeight ≠ 0 ∧ (down ≤ 0 ∨ dims.height ≤ down ∨ dims.width ≤ left.natAbs)) := by
  refine ⟨exists_transpose?_iff.trans (and_congr_right fun _ =>
    moved_transpose_iff hfb.bpp hW hH hin), ?_⟩
  have hiff (buffer : Mem) :=
    moved_transpose_iff (g := { g with buffer := buffer }) hfb.bpp hW hH hin
  dsimp only
  simp only [exists_transpose?_iff, forall_and_left]
  refine and_congr_right fun _ => ?_
  constructor
  · intro h
    by_contra hcond
    -- one pixel in both rectangles that differs from the pixel that is moved there
    obtain ⟨u, hu⟩ : ∃ u : ℕ, (u : ℤ) = topLeft.x + max left 0 :=
      ⟨(topLeft.x + max left 0).toNat, by omega⟩
    obtain ⟨v, hv⟩ : ∃ v : ℕ, (v : ℤ) = topLeft.y + down := ⟨(topLeft.y + down).toNat, by omega⟩
    have hrep := ((hiff (dot 0 1 (u + v * g.fb.width))).mp (h _)).resolve_left (by omega)
    have hxW := hin.1
    have hval := hrep u v (by rw [InRect]; omega) (by rw [InRect]; omega)
    have hne : ((u : ℤ) - left).toNat + ((v : ℤ) - down).toNat * g.fb.width ≠
        u + v * g.fb.width := by
      intro heq
      have hrow := ((index_inj (by omega) (by omega)).mp heq).2
      omega
    rw [pixel, pixel, pixelIndex, pixelIndex, px_dot, px_dot, if_pos rfl, if_neg hne] at hval
    exact absurd hval (by decide)
  · intro hcond buffer
    refine (hiff buffer).mpr ?_
    rcases hcond with hdown | hcond
    · exact .inl hdown
    · refine .inr fun x y hrect hrect' => ?_
      rw [InRect] at hrect hrect'
      omega

end Transpose

/-- Four rows of three pixels moved up by one and to the right by one. -/
theorem transpose_moved_up :
    let g : GraphicsCtx := initGraphicsCtx fiveColumns (dot 0 1 7) 0
    ∃ g', g.transpose? ⟨1, 1⟩ ⟨3, 4⟩ (-1) 1 = some g' ∧ Moved g g' ⟨1, 1⟩ ⟨3, 4⟩ (-1) 1 := by
  intro g
  have hin : g.Inside (.transpose ⟨1, 1⟩ ⟨3, 4⟩ (-1) 1) := by
    refine ⟨?_, ?_, ?_, ?_, ?_, ?_⟩ <;> decide
  exact (transpose_moved_iff fiveColumns_inBackBuffer (by decide) (by decide) hin).1.mpr
    ⟨by decide, .inl (by decide)⟩

/-- Two rows moved down by one: the second row is read after it has been overwritten. -/
theorem transpose_down_smears :
    let g : GraphicsCtx := initGraphicsCtx (columnFramebuffer 64) (dot 0 1 0) 0
    g.Inside (.transpose ⟨0, 0⟩ ⟨1, 2⟩ 1 0) ∧ g.pixel 0 1 = 0 ∧
      (g.transpose ⟨0, 0⟩ ⟨1, 2⟩ 1 0).pixel 0 2 = 1 ∧
      ¬ Moved g (g.transpose ⟨0, 0⟩ ⟨1, 2⟩ 1 0) ⟨0, 0⟩ ⟨1, 2⟩ 1 0 := by
  intro g
  have hold : g.pixel 0 1 = 0 := by decide +kernel
  have hnew : (g.transpose ⟨0, 0⟩ ⟨1, 2⟩ 1 0).pixel 0 2 = 1 := by decide +kernel
  refine ⟨?_, hold, hnew, fun h => ?_⟩
  · refine ⟨?_, ?_, ?_, ?_, ?_, ?_⟩ <;> decide
  · have hmoved : (g.transpose ⟨0, 0⟩ ⟨1, 2⟩ 1 0).pixel 0 2 = g.pixel 0 1 :=
      h.inside 0 1 (by rw [InRect]; decide)
    rw [hold, hnew] at hmoved
    exact absurd hmoved (by decide)

end GraphicsCtx

end Vardar
