import Vardar.Graphics.Display
import Vardar.Interrupts.Keyboard

/-!
# From the keyboard to video memory

`_start` clears the screen, makes a terminal in the upper half and sets `HandleKeyStroke` as the
consumer of keystrokes, which `Isr1Handler` calls. After every sequence of scancodes, video memory
shows the text that an editor with nothing but a grid and the modifier keys makes of them.

## Main definitions

* `Vardar.Desktop`: `KEY_INFO` and the console, with `Vardar.Desktop.isr1`.
* `Vardar.Editor`: `KEY_INFO` and a grid, with `Vardar.Editor.isr1`.
* `Vardar.Editor.pixel`: the pixels of the editor on the screen.

## Main results

* `Vardar.Desktop.shows_typing`.
-/

namespace Vardar

open ByteMemory TextGrid

open Console (textStep textPrint around)

/-! ### The code -/

/-- `KEY_INFO` and the main terminal. -/
structure Desktop where
  info : KeyInfo
  console : Console

/-- The keyboard interrupt, with `HandleKeyStroke` as the consumer of keystrokes. -/
def Desktop.isr1 (rodata : Bool → ℕ → BitVec 8) (d : Desktop) (code : BitVec 8) : Desktop :=
  let r := isr1Handler d.info code
  ⟨r.1, r.2.elim d.console (d.console.handleKeyStroke rodata)⟩

/-- The screen that `_start` leaves. -/
def Desktop.boot (fb : Framebuffer) (buffer screen : Mem) (font : Font)
    (prompt : List (BitVec 8)) : Desktop :=
  let ctx := (initGraphicsCtx fb buffer screen).clearScreen ⟨0, 0, 0⟩
  let s := Console.initTerminal ctx ⟨fb.width, fb.height / 2⟩ ⟨0, 0⟩ font ⟨15, 90, 94⟩
    ⟨255, 255, 255⟩ 3 prompt
  ⟨⟨false, false, false, false, 0⟩, { s with ctx := s.ctx.writeBack }⟩

/-! ### The editor -/

/-- The modifier keys and a grid. -/
structure Editor where
  info : KeyInfo
  grid : Grid (BitVec 8)

namespace Editor

/-- A scancode. -/
def isr1 (lines cols : ℕ) (prompt : List (BitVec 8)) (rodata : Bool → ℕ → BitVec 8) (e : Editor)
    (code : BitVec 8) : Editor :=
  let r := isr1Handler e.info code
  ⟨r.1, r.2.elim e.grid fun key => textStep lines cols prompt rodata e.grid (.handleKeyStroke key)⟩

/-- The editor with the prompt. -/
def boot (lines cols : ℕ) (prompt : List (BitVec 8)) : Editor :=
  ⟨⟨false, false, false, false, 0⟩, textPrint lines cols .blank prompt⟩

/-- No backspace goes back to the line before, or the lines are as long as the terminal counts
them. -/
def StaysOnLine (width : ℕ) (e : Editor) (code : BitVec 8) : Prop :=
  ∀ key ∈ (isr1Handler e.info code).2, key.backspace = true → e.grid.col = 0 → e.grid.row ≠ 0 →
    6 ≤ width % 9

instance (width : ℕ) (e : Editor) (code : BitVec 8) : Decidable (e.StaysOnLine width code) :=
  inferInstanceAs (Decidable (∀ _ ∈ (isr1Handler e.info code).2, _))

/-- The pixels of the editor in the upper half of the screen: the text, or the borders. -/
def pixel (fb : Framebuffer) (font : Font) (e : Editor) (x y : ℕ) : ℕ :=
  if 3 ≤ x ∧ x + 3 < fb.width ∧ 3 ≤ y ∧ y + 3 < fb.height / 2 then
    match e.grid.cell ((y - 3) / 16) ((x - 3) / 9) with
    | some c =>
      if GraphicsCtx.ink font c ((x - 3) % 9) ((y - 3) % 16) then (packRgb font.rgb fb).toNat
      else (packRgb ⟨15, 90, 94⟩ fb).toNat
    | none => (packRgb ⟨15, 90, 94⟩ fb).toNat
  else (packRgb ⟨255, 255, 255⟩ fb).toNat

end Editor

/-! ### The simulation -/

namespace Desktop

variable {fb : Framebuffer} {buffer screen : Mem} {font : Font} {prompt : List (BitVec 8)}
  {d : Desktop} {e : Editor}

/-- The screen shows the editor. -/
structure Refines (start : Console) (border : ℕ → ℕ → ℕ) (outer : ℕ) (d : Desktop) (e : Editor) :
    Prop where
  info : d.info = e.info
  same : start.Same d.console
  text : d.console.ShowsText outer border e.grid
  tracked : d.console.Tracked outer
  flushed : d.console.ctx.Flushed

theorem same_handleKeyStroke (rodata : Bool → ℕ → BitVec 8) (s : Console) (key : KeyInfo) :
    s.Same (s.handleKeyStroke rodata key) :=
  Console.ShowsText.same_step rodata s (.handleKeyStroke key)

/-- One interrupt. -/
theorem Refines.isr1 {start : Console} {border : ℕ → ℕ → ℕ} {outer : ℕ}
    (h : Refines start border outer d e) (rodata : Bool → ℕ → BitVec 8) {code : BitVec 8}
    (hok : e.StaysOnLine outer code) :
    Refines start border outer (d.isr1 rodata code)
      (e.isr1 (start.term.dims.height / 16) (start.term.dims.width / 9) start.term.prompt rodata
        code) := by
  rw [Desktop.isr1, Editor.isr1, h.info]
  rw [Editor.StaysOnLine] at hok
  cases hkey : (isr1Handler e.info code).2 with
  | none => exact ⟨rfl, h.same, h.text, h.tracked, h.flushed⟩
  | some key =>
    have hback : d.console.BackspaceOk outer (.handleKeyStroke key) := by
      rintro ⟨hback, hx, hy⟩
      rw [h.text.cursor] at hx hy
      dsimp only at hx hy
      exact hok key hkey hback (by omega) (by omega)
    have htext := h.text.step rodata hback
    obtain ⟨htracked, hflushed⟩ := h.tracked.handleKeyStroke rodata hback
    rw [h.same.dims, h.same.prompt] at htext
    exact ⟨rfl, h.same.trans (same_handleKeyStroke rodata d.console key), htext, htracked, hflushed⟩

/-- The borders of the terminal of `_start`. -/
def borders (fb : Framebuffer) (buffer screen : Mem) : ℕ → ℕ → ℕ :=
  around ((initGraphicsCtx fb buffer screen).clearScreen ⟨0, 0, 0⟩) ⟨fb.width, fb.height / 2⟩ ⟨0, 0⟩
    ⟨255, 255, 255⟩

section Boot

variable (buffer screen font prompt) (hfb : fb.Fits) (hw : 70 ≤ fb.width) (hh : 76 ≤ fb.height)
include hfb hw hh

omit hfb hw hh in
/-- Printing the prompt keeps the constants of the terminal. -/
theorem boot_same : (Console.drawn ((initGraphicsCtx fb buffer screen).clearScreen ⟨0, 0, 0⟩)
      ⟨fb.width, fb.height / 2⟩ ⟨0, 0⟩ font ⟨15, 90, 94⟩ ⟨255, 255, 255⟩ prompt).Same
        (boot fb buffer screen font prompt).console :=
  (Console.same_termPrint _ prompt).trans (Console.same_of_fb (Console.writeBack_keeps _).1)

/-- The body of the terminal. -/
theorem boot_body : (boot fb buffer screen font prompt).console.term.dims =
      ⟨fb.width - 6, fb.height / 2 - 6⟩ ∧
    (boot fb buffer screen font prompt).console.term.topLeft = ⟨3, 3⟩ := by
  have hbands := hfb.bands
  have hsame := @boot_same fb buffer screen font prompt
  have hH : fb.height < 2 ^ 16 := by omega
  have hhalf : 38 ≤ fb.height / 2 := by omega
  have hleft : (⟨0, 0⟩ : Coordinate).x + fb.width ≤ fb.width := (Nat.zero_add _).le
  have htop : (⟨0, 0⟩ : Coordinate).y + fb.height / 2 ≤ fb.height := by dsimp only; omega
  rw [hsame.dims, hsame.topLeft, Console.drawn_dims _ _ _ _ _ _ hfb.width hH hw hhalf hleft htop,
    Console.drawn_topLeft _ _ _ _ _ _ hfb.width hH hw hhalf hleft htop]
  exact ⟨rfl, rfl⟩

/-- The pixels of a screen that shows the editor. -/
theorem Refines.screenPixel_eq (h : Refines (boot fb buffer screen font prompt).console
      (borders fb buffer screen) fb.width d e) {x y : ℕ} (hx : x < fb.width)
    (hy : y < 32 * (fb.height / 64)) :
    d.console.ctx.screenPixel x y = e.pixel fb font x y := by
  obtain ⟨hdims, htopLeft⟩ := boot_body buffer screen font prompt hfb hw hh
  rw [← h.same.dims] at hdims
  rw [← h.same.topLeft] at htopLeft
  have hsame := (boot_same buffer screen font prompt).trans h.same
  have hctx : d.console.ctx.fb = fb := hsame.fb
  have hfont : d.console.term.font = font := hsame.font
  have hbg : d.console.term.bgColor = ⟨15, 90, 94⟩ := hsame.bgColor
  have hband : y / d.console.ctx.rowHeight < 32 := by
    rw [h.tracked.ctx.framed.rowHeight, hctx]
    exact Nat.div_lt_of_lt_mul (by omega)
  rw [h.flushed.screenPixel_eq (hctx ▸ hx) hband]
  have hbody := h.text.pixels.body
  have hframe := h.text.pixels.frame
  simp only [hdims, htopLeft, hctx] at hbody hframe
  rw [Editor.pixel]
  split_ifs with hin
  · have hpixel := hbody (x - 3) (by omega) (y - 3) (by omega)
    rw [show 3 + (x - 3) = x by omega, show 3 + (y - 3) = y by omega] at hpixel
    rw [hpixel]
    cases e.grid.cell ((y - 3) / 16) ((x - 3) / 9) with
    | none => simp only [Console.cellPixel, hbg, hctx]
    | some c => simp only [Console.cellPixel, hbg, hfont, hctx]
  · rw [hframe x hx y (by omega) (by simp only [GraphicsCtx.InRect]; omega), borders, around]
    exact if_pos (by simp only [GraphicsCtx.InRect]; omega)

variable (hlast : 6 ≤ fb.height / 2 % 16) (hfw : font.width = 9) (hfh : font.height = 16)
include hlast hfw hfh

/-- The screen that `_start` leaves shows the prompt. -/
theorem boot_refines : Refines (boot fb buffer screen font prompt).console
      (borders fb buffer screen) fb.width (boot fb buffer screen font prompt)
      (.boot ((fb.height / 2 - 6) / 16) ((fb.width - 6) / 9) prompt) := by
  have hbands := hfb.bands
  have hctx := GraphicsCtx.Tracked.clearScreen
    (GraphicsCtx.framed_initGraphicsCtx hfb buffer screen) ⟨0, 0, 0⟩
  have hH : fb.height < 2 ^ 16 := by omega
  have hhalf : 38 ≤ fb.height / 2 := by omega
  have hleft : (⟨0, 0⟩ : Coordinate).x + fb.width ≤ fb.width := (Nat.zero_add _).le
  have htop : (⟨0, 0⟩ : Coordinate).y + fb.height / 2 ≤ fb.height := by dsimp only; omega
  have htracked := Console.tracked_initTerminal hctx ⟨fb.width, fb.height / 2⟩ ⟨0, 0⟩ font
    ⟨15, 90, 94⟩ ⟨255, 255, 255⟩ prompt hH hw hhalf hleft htop hfw hfh hlast
  have htext := Console.showsText_initTerminal ⟨fb.width, fb.height / 2⟩ ⟨0, 0⟩ font ⟨15, 90, 94⟩
    ⟨255, 255, 255⟩ prompt hfb.width hH hw hhalf hleft htop hctx.framed.bpp hfw hfh hlast
  exact ⟨rfl, ⟨rfl, _, rfl⟩, htext.writeBack, htracked.writeBack, htracked.ctx.flushed_writeBack⟩

/-- **Typing is shown on the screen.** After every sequence of scancodes in which no backspace goes
back to the line before, unless the width has room for it, the pixels of the first 32 bands of video
memory are those of the editor. -/
theorem shows_typing (rodata : Bool → ℕ → BitVec 8) {codes : List (BitVec 8)}
    (hrun : Run.Along (Editor.isr1 ((fb.height / 2 - 6) / 16) ((fb.width - 6) / 9) prompt rodata)
      (Editor.StaysOnLine fb.width) (.boot ((fb.height / 2 - 6) / 16) ((fb.width - 6) / 9) prompt)
      codes) {x y : ℕ} (hx : x < fb.width) (hy : y < 32 * (fb.height / 64)) :
    (codes.foldl (isr1 rodata) (boot fb buffer screen font prompt)).console.ctx.screenPixel x y =
      (codes.foldl (Editor.isr1 ((fb.height / 2 - 6) / 16) ((fb.width - 6) / 9) prompt rodata)
        (.boot ((fb.height / 2 - 6) / 16) ((fb.width - 6) / 9) prompt)).pixel fb font x y := by
  obtain ⟨hdims, -⟩ := boot_body buffer screen font prompt hfb hw hh
  have hprompt : (boot fb buffer screen font prompt).console.term.prompt = prompt :=
    (boot_same buffer screen font prompt).prompt
  have hstep (e : Editor) (d : Desktop) (code : BitVec 8)
      (h : Refines (boot fb buffer screen font prompt).console (borders fb buffer screen) fb.width
        d e)
      (hok : e.StaysOnLine fb.width code) :
      Refines (boot fb buffer screen font prompt).console (borders fb buffer screen) fb.width
        (d.isr1 rodata code)
        (e.isr1 ((fb.height / 2 - 6) / 16) ((fb.width - 6) / 9) prompt rodata code) := by
    have hkey := h.isr1 rodata hok
    rwa [hdims, hprompt] at hkey
  have hend := hrun.simulation (R := fun e d => Refines _ _ fb.width d e) hstep
    (boot_refines buffer screen font prompt hfb hw hh hlast hfw hfh)
  exact hend.screenPixel_eq buffer screen font prompt hfb hw hh hx hy

end Boot

/-- The framebuffer of the smallest terminal of `_start`. -/
def smallFramebuffer : Framebuffer := ⟨70, 76, 280, 32, ⟨8, 16⟩, ⟨8, 8⟩, ⟨8, 0⟩⟩

/-- A font of vertical bars. -/
def barFont : Font := ⟨fun _ _ => 0x18, ⟨255, 0, 0⟩, 16, 9⟩

/-- The shift key, `q` and their releases show a character after the prompt. -/
theorem shows_typing_shift :
    ([0x2a, 0x10, 0x90, 0xaa].foldl (isr1 fun _ _ => 0)
      (boot smallFramebuffer 0 0 barFont [0x3e])).console.ctx.screenPixel 24 3 = 0xff0000 := by
  have hfits : smallFramebuffer.Fits := by constructor <;> decide
  rw [shows_typing 0 0 barFont [0x3e] hfits (by decide) (by decide) (by decide) rfl rfl _
    (by decide) (by decide) (by decide)]
  decide

end Desktop

end Vardar
