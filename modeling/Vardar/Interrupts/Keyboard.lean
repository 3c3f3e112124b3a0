import Vardar.Interrupts.Keycodes
import Vardar.Lib.Run

/-!
# The keyboard interrupt

`Isr1Handler` keeps a flag for each modifier. Both shift keys set and clear the same flag, so the
release of one of them loses the other.

## Main definitions

* `Vardar.isr1Handler`.
* `Vardar.Keyboard`: the state of the handler and the keys that are held.
* `Vardar.Keyboard.Tracks`: the flags say which keys are held.

## Main results

* `Vardar.Keyboard.tracks_iff`.
-/

namespace Vardar

/-! ### The handler -/

/-- `BACKSPACE_PRESSED`. -/
def backspacePressed : BitVec 8 := 0x0E

/-- `BACKSPACE_RELEASED`. -/
def backspaceReleased : BitVec 8 := 0x8E

/-- `ENTER_PRESSED`. -/
def enterPressed : BitVec 8 := 0x1C

/-- `ENTER_RELEASED`. -/
def enterReleased : BitVec 8 := 0x9C

/-- `LEFT_SHIFT_PRESSED`. -/
def leftShiftPressed : BitVec 8 := 0x2A

/-- `LEFT_SHIFT_RELEASED`. -/
def leftShiftReleased : BitVec 8 := 0xAA

/-- `RIGHT_SHIFT_PRESSED`. -/
def rightShiftPressed : BitVec 8 := 0x36

/-- `RIGHT_SHIFT_RELEASED`. -/
def rightShiftReleased : BitVec 8 := 0xB6

/-- `CTRL_PRESSED`. -/
def ctrlPressed : BitVec 8 := 0x1E

/-- `CTRL_RELEASED`. -/
def ctrlReleased : BitVec 8 := 0x9E

/-- The switch of `Isr1Handler`. -/
def switchScancode (keyInfo : KeyInfo) : KeyInfo :=
  let code := keyInfo.scancode
  if code = backspacePressed then { keyInfo with backspace := true }
  else if code = backspaceReleased then { keyInfo with backspace := false }
  else if code = enterPressed then { keyInfo with enter := true }
  else if code = enterReleased then { keyInfo with enter := false }
  else if code = leftShiftPressed ∨ code = rightShiftPressed then { keyInfo with shift := true }
  else if code = leftShiftReleased ∨ code = rightShiftReleased then
    { keyInfo with shift := false, scancode := 0 }
  else if code = ctrlPressed then { keyInfo with ctrl := true }
  else if code = ctrlReleased then { keyInfo with ctrl := false }
  else keyInfo

/-- `Isr1Handler` on the byte read from the keyboard: `KEY_INFO`, and what the consumer of keystrokes
is notified with. -/
def isr1Handler (keyInfo : KeyInfo) (code : BitVec 8) : KeyInfo × Option KeyInfo :=
  let keyInfo := switchScancode { keyInfo with scancode := code }
  (keyInfo, if keyInfo.scancode < 0x80 then some keyInfo else none)

/-! ### Keys that are held -/

/-- `KEY_INFO`, and the keys that are held by their press codes. -/
structure Keyboard where
  info : KeyInfo
  held : BitVec 8 → Bool

namespace Keyboard

/-- No key is held and no flag is set. -/
def boot : Keyboard := ⟨⟨false, false, false, false, 0⟩, fun _ => false⟩

/-- A scancode. The release code of a key is its press code with the highest bit set. -/
def step (k : Keyboard) (code : BitVec 8) : Keyboard where
  info := (isr1Handler k.info code).1
  held := Function.update k.held (code &&& 0x7F) (decide (code < 0x80))

/-- The flags are those of the keys that are held. -/
structure Tracks (k : Keyboard) : Prop where
  shift : k.info.shift = (k.held leftShiftPressed || k.held rightShiftPressed)
  enter : k.info.enter = k.held enterPressed
  backspace : k.info.backspace = k.held backspacePressed
  ctrl : k.info.ctrl = k.held ctrlPressed

/-- A shift key is not released while the other one is held. -/
def ShiftReleaseOk (k : Keyboard) (code : BitVec 8) : Prop :=
  (code = leftShiftReleased → k.held rightShiftPressed = false) ∧
    (code = rightShiftReleased → k.held leftShiftPressed = false)

instance (k : Keyboard) (code : BitVec 8) : Decidable (k.ShiftReleaseOk code) :=
  inferInstanceAs (Decidable (_ ∧ _))

variable {k : Keyboard} {code : BitVec 8}

/-- A flag of one key. -/
def flag (pressed released : BitVec 8) (old : Bool) (code : BitVec 8) : Bool :=
  if code = pressed then true else if code = released then false else old

/-- The flags after a scancode. -/
theorem isr1Handler_flags (k : KeyInfo) (code : BitVec 8) :
    (isr1Handler k code).1.backspace = flag backspacePressed backspaceReleased k.backspace code ∧
      (isr1Handler k code).1.enter = flag enterPressed enterReleased k.enter code ∧
      (isr1Handler k code).1.ctrl = flag ctrlPressed ctrlReleased k.ctrl code ∧
      (isr1Handler k code).1.shift = flag leftShiftPressed leftShiftReleased
        (flag rightShiftPressed rightShiftReleased k.shift code) code := by
  by_cases hbp : code = backspacePressed
  · subst hbp
    exact ⟨rfl, rfl, rfl, rfl⟩
  by_cases hbr : code = backspaceReleased
  · subst hbr
    exact ⟨rfl, rfl, rfl, rfl⟩
  by_cases hep : code = enterPressed
  · subst hep
    exact ⟨rfl, rfl, rfl, rfl⟩
  by_cases her : code = enterReleased
  · subst her
    exact ⟨rfl, rfl, rfl, rfl⟩
  by_cases hlp : code = leftShiftPressed
  · subst hlp
    exact ⟨rfl, rfl, rfl, rfl⟩
  by_cases hrp : code = rightShiftPressed
  · subst hrp
    exact ⟨rfl, rfl, rfl, rfl⟩
  by_cases hlr : code = leftShiftReleased
  · subst hlr
    exact ⟨rfl, rfl, rfl, rfl⟩
  by_cases hrr : code = rightShiftReleased
  · subst hrr
    exact ⟨rfl, rfl, rfl, rfl⟩
  by_cases hcp : code = ctrlPressed
  · subst hcp
    exact ⟨rfl, rfl, rfl, rfl⟩
  by_cases hcr : code = ctrlReleased
  · subst hcr
    exact ⟨rfl, rfl, rfl, rfl⟩
  simp only [isr1Handler, switchScancode, flag, hbp, hbr, hep, her, hlp, hrp, hlr, hrr, hcp, hcr,
    or_self, if_false, and_self]

/-- A scancode presses or releases the key it belongs to. -/
theorem held_step {pressed released : BitVec 8}
    (hkey : ∀ code : BitVec 8, code &&& 0x7F = pressed ↔ code = pressed ∨ code = released)
    (hp : pressed < 0x80) (hr : ¬ released < 0x80) (k : Keyboard) (code : BitVec 8) :
    (k.step code).held pressed = flag pressed released (k.held pressed) code := by
  rw [flag]
  change Function.update k.held (code &&& 0x7F) (decide (code < 0x80)) pressed = _
  by_cases hcp : code = pressed
  · rw [if_pos hcp, (hkey code).mpr (Or.inl hcp), Function.update_self, hcp, decide_eq_true hp]
  · rw [if_neg hcp]
    by_cases hcr : code = released
    · rw [if_pos hcr, (hkey code).mpr (Or.inr hcr), Function.update_self, hcr, decide_eq_false hr]
    · rw [if_neg hcr, Function.update_of_ne]
      intro hne
      rcases (hkey code).mp hne.symm with hc | hc
      · exact hcp hc
      · exact hcr hc

/-- The keys of the flags after a scancode. -/
theorem held_modifiers (k : Keyboard) (code : BitVec 8) :
    (k.step code).held backspacePressed =
        flag backspacePressed backspaceReleased (k.held backspacePressed) code ∧
      (k.step code).held enterPressed = flag enterPressed enterReleased (k.held enterPressed) code ∧
      (k.step code).held ctrlPressed = flag ctrlPressed ctrlReleased (k.held ctrlPressed) code ∧
      (k.step code).held leftShiftPressed =
        flag leftShiftPressed leftShiftReleased (k.held leftShiftPressed) code ∧
      (k.step code).held rightShiftPressed =
        flag rightShiftPressed rightShiftReleased (k.held rightShiftPressed) code :=
  ⟨held_step (by decide) (by decide) (by decide) k code,
    held_step (by decide) (by decide) (by decide) k code,
    held_step (by decide) (by decide) (by decide) k code,
    held_step (by decide) (by decide) (by decide) k code,
    held_step (by decide) (by decide) (by decide) k code⟩

/-- The shift flag after a scancode is right, if it was right before, exactly if no shift key is
released while the other one is held. -/
theorem shift_step_iff (hk : k.Tracks) :
    (k.step code).info.shift =
        ((k.step code).held leftShiftPressed || (k.step code).held rightShiftPressed) ↔
      k.ShiftReleaseOk code := by
  obtain ⟨-, -, -, hleft, hright⟩ := held_modifiers k code
  obtain ⟨-, -, -, hshift⟩ := isr1Handler_flags k.info code
  rw [hleft, hright]
  change (isr1Handler k.info code).1.shift = _ ↔ _
  rw [hshift, hk.shift, ShiftReleaseOk]
  by_cases hlp : code = leftShiftPressed
  · rw [hlp]
    exact iff_of_true rfl ⟨fun h => absurd h (by decide), fun h => absurd h (by decide)⟩
  by_cases hrp : code = rightShiftPressed
  · rw [hrp]
    refine iff_of_true ?_ ⟨fun h => absurd h (by decide), fun h => absurd h (by decide)⟩
    exact (Bool.or_true _).symm
  by_cases hlr : code = leftShiftReleased
  · rw [hlr]
    refine Iff.trans ?_ (and_iff_left fun h => absurd h (by decide)).symm
    refine Iff.trans ?_ (forall_prop_of_true rfl).symm
    exact eq_comm
  by_cases hrr : code = rightShiftReleased
  · rw [hrr]
    refine Iff.trans ?_ (and_iff_right fun h => absurd h (by decide)).symm
    refine Iff.trans ?_ (forall_prop_of_true rfl).symm
    change false = (k.held leftShiftPressed || false) ↔ _
    rw [Bool.or_false]
    exact eq_comm
  · simp only [flag, if_neg hlp, if_neg hrp, if_neg hlr, if_neg hrr]
    exact iff_of_true trivial ⟨fun h => absurd h hlr, fun h => absurd h hrr⟩

theorem Tracks.step (hk : k.Tracks) (hok : k.ShiftReleaseOk code) : (k.step code).Tracks := by
  obtain ⟨hback, henter, hctrl, -, -⟩ := held_modifiers k code
  obtain ⟨fback, fenter, fctrl, -⟩ := isr1Handler_flags k.info code
  refine ⟨(shift_step_iff hk).mpr hok, ?_, ?_, ?_⟩
  · rw [henter, ← hk.enter]
    exact fenter
  · rw [hback, ← hk.backspace]
    exact fback
  · rw [hctrl, ← hk.ctrl]
    exact fctrl

/-- The flags say which keys are held, after every scancode of a sequence, exactly if no shift key is
released in it while the other one is held. -/
theorem tracks_iff (codes : List (BitVec 8)) :
    (∀ n, ((codes.take n).foldl step boot).Tracks) ↔ Run.Along step ShiftReleaseOk boot codes :=
  Run.forall_take_iff_along (I := Tracks) (fun _ hk => hk) (fun _ _ hk hok => hk.step hok)
    (fun _ _ hk hok hk' => hok ((shift_step_iff hk).mp hk'.shift)) ⟨rfl, rfl, rfl, rfl⟩ codes

/-- Only keys that are held are released. -/
def Physical (k : Keyboard) (code : BitVec 8) : Prop :=
  0x80 ≤ code → k.held (code &&& 0x7F) = true

instance (k : Keyboard) (code : BitVec 8) : Decidable (k.Physical code) :=
  inferInstanceAs (Decidable (_ → _))

/-- Both shift keys are pressed and the left one is released. -/
theorem shift_lost_after_release :
    Run.Along step Physical boot [leftShiftPressed, rightShiftPressed, leftShiftReleased] ∧
      ¬ ([leftShiftPressed, rightShiftPressed, leftShiftReleased].foldl step boot).Tracks :=
  ⟨by decide, fun h => absurd h.shift (by decide)⟩

end Keyboard

end Vardar
