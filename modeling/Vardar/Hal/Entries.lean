import Vardar.Hal.IoApic

/-!
# Redirection entries

An entry is read back without its upper dword, up to its lowest bit, and writing an entry changes
that entry only. Register numbers are bytes, so pins that are equal modulo 128 share an entry.

## Main definitions

* `Vardar.Ioredtbl.readBack`: what `ioapic_read_entry` makes of an entry.
* `Vardar.Hal.Registered`: the registered controllers have disjoint ranges of interrupts.
* `Vardar.Hal.Has`: the interrupts of a controller.

## Main results

* `Vardar.Hal.Registered.ioapicFromGsi_iff`, `Vardar.Hal.readEntry_eq`,
  `Vardar.Hal.entryAt_writeEntry`.
-/

namespace Vardar

open BitField

/-! ### What is read back -/

namespace Ioredtbl

/-- What `ioapic_read_entry` makes of an entry. -/
def readBack (e : Ioredtbl) : Ioredtbl :=
  e.lowerDword.setWidth 64 ||| (e.upperDword <<< 31).setWidth 64

theorem getLsbD_readBack (e : Ioredtbl) (i : ℕ) :
    e.readBack.getLsbD i =
      (decide (i < 32) && (e.getLsbD i || (decide (i = 31) && e.getLsbD 32))) := by
  simp only [readBack, BitVec.getLsbD_or, BitVec.getLsbD_setWidth, BitVec.getLsbD_shiftLeft,
    lowerDword, upperDword, getLsbD_get]
  by_cases hi : i < 32
  · by_cases h31 : i = 31
    · subst h31
      simp
    · have hlt : i < 31 := by omega
      simp [hi, h31, hlt, show i < 64 by omega]
  · simp [hi]

theorem get_readBack {lo w : ℕ} (h : lo + w ≤ 31) (e : Ioredtbl) :
    get lo w e.readBack = get lo w e := by
  apply BitVec.eq_of_getLsbD_eq
  intro i hi
  have hlt : lo + i < 32 := by omega
  have hne : lo + i ≠ 31 := by omega
  simp [getLsbD_get, getLsbD_readBack, hlt, hne]

theorem destination_readBack (e : Ioredtbl) : e.readBack.destination = 0 := by
  apply BitVec.eq_of_getLsbD_eq
  intro i hi
  rw [destination, getLsbD_get, getLsbD_readBack, decide_eq_false (show ¬ 56 + i < 32 by omega)]
  simp

theorem get_eq_zero_iff {lo w : ℕ} (e : Ioredtbl) :
    get lo w e = 0 ↔ ∀ i, lo ≤ i → i < lo + w → e.getLsbD i = false := by
  constructor
  · intro hzero i hlo hhi
    have hbit := congrArg (fun x => x.getLsbD (i - lo)) hzero
    simp only [getLsbD_get, Nat.add_sub_cancel' hlo] at hbit
    simpa [show i - lo < w by omega] using hbit
  · intro hzero
    apply BitVec.eq_of_getLsbD_eq
    intro i hi
    rw [getLsbD_get, hzero (lo + i) (by omega) (by omega)]
    simp

/-- Reading back keeps the bits outside a field when the other bits of the upper dword are zero. -/
theorem agreeOutside_readBack_iff {lo w : ℕ} (h : lo + w ≤ 31 ∨ 32 < lo) (e : Ioredtbl) :
    AgreeOutside lo w e.readBack e ↔
      ∀ i, 32 ≤ i → (i < lo ∨ lo + w ≤ i) → e.getLsbD i = false := by
  constructor
  · intro hag i hlo hi
    have hbit := hag i hi
    rw [getLsbD_readBack] at hbit
    simpa [show ¬ i < 32 by omega] using hbit.symm
  · intro hzero i hi
    rw [getLsbD_readBack]
    by_cases hlt : i < 32
    · rw [hzero 32 (by omega) (by omega)]
      simp [hlt]
    · simp [hlt, hzero i (by omega) hi]

end Ioredtbl

namespace Hal

variable {h : Hal} {a b : IoApic} {gsi p : ℕ}

/-! ### Registered controllers -/

/-- The interrupts of the registered controllers: each has between one and 120 pins, and no two
share an interrupt or a register file. -/
structure Registered (h : Hal) : Prop where
  pins : ∀ i a, h.ioapics i = some a → 0 < a.numPins ∧ a.numPins ≤ 120
  range : ∀ i a, h.ioapics i = some a → a.minGsi + a.numPins ≤ 2 ^ 32
  disjoint : ∀ i j a b, h.ioapics i = some a → h.ioapics j = some b → i ≠ j →
    a.minGsi + a.numPins ≤ b.minGsi ∨ b.minGsi + b.numPins ≤ a.minGsi
  apart : ∀ i j a b, h.ioapics i = some a → h.ioapics j = some b → i ≠ j → a.ioregsel ≠ b.ioregsel

/-- The interrupts of a controller. -/
def Has (a : IoApic) (gsi : ℕ) : Prop := a.minGsi ≤ gsi ∧ gsi < a.minGsi + a.numPins

theorem covers_iff (hp : 0 < a.numPins) (hr : a.minGsi + a.numPins ≤ 2 ^ 32) :
    covers a gsi = true ↔ Has a gsi := by
  have hmax : (a.minGsi + a.numPins + (2 ^ 32 - 1)) % 2 ^ 32 = a.minGsi + a.numPins - 1 := by omega
  rw [covers, decide_eq_true_iff, hmax, Has]
  omega

theorem Registered.eq_of_has {i j : Fin 16} (hr : h.Registered) (ha : h.ioapics i = some a)
    (hb : h.ioapics j = some b) (hga : Has a gsi) (hgb : Has b gsi) : i = j := by
  by_contra hne
  have hd := hr.disjoint i j a b ha hb hne
  rw [Has] at hga hgb
  omega

/-- The lookup finds the controller of an interrupt, if all have pins and no two share an
interrupt. -/
theorem ioapicFromGsi_eq_some_iff
    (hpins : ∀ i b, h.ioapics i = some b → 0 < b.numPins ∧ b.minGsi + b.numPins ≤ 2 ^ 32)
    (honly : ∀ i j b b', h.ioapics i = some b → h.ioapics j = some b' → Has b gsi → Has b' gsi →
      i = j) :
    h.ioapicFromGsi gsi = some a ↔ ∃ i, h.ioapics i = some a ∧ Has a gsi := by
  have hcov : ∀ i b, h.ioapics i = some b → (covers b gsi = true ↔ Has b gsi) := fun i b hb =>
    covers_iff (hpins i b hb).1 (hpins i b hb).2
  constructor
  · intro hfrom
    obtain ⟨i, -, hi⟩ := List.exists_of_findSome?_eq_some hfrom
    obtain ⟨ha, hc⟩ := Option.filter_eq_some_iff.mp hi
    exact ⟨i, ha, (hcov i a ha).mp hc⟩
  · rintro ⟨i, ha, hg⟩
    have hsome : (h.ioapicFromGsi gsi).isSome := by
      rw [ioapicFromGsi, List.findSome?_isSome_iff]
      refine ⟨i, List.mem_finRange i, ?_⟩
      rw [Option.filter_eq_some_iff.mpr ⟨ha, (hcov i a ha).mpr hg⟩]
      rfl
    obtain ⟨b, hfrom⟩ := Option.isSome_iff_exists.mp hsome
    obtain ⟨j, -, hj⟩ := List.exists_of_findSome?_eq_some hfrom
    obtain ⟨hb, hc⟩ := Option.filter_eq_some_iff.mp hj
    have hij := honly i j a b ha hb hg ((hcov j b hb).mp hc)
    subst hij
    rw [hfrom, ← hb, ha]

theorem Registered.ioapicFromGsi_iff (hr : h.Registered) :
    h.ioapicFromGsi gsi = some a ↔ ∃ i, h.ioapics i = some a ∧ Has a gsi :=
  ioapicFromGsi_eq_some_iff (fun i b hb => ⟨(hr.pins i b hb).1, hr.range i b hb⟩)
    fun _ _ _ _ hb hb' => hr.eq_of_has hb hb'

/-- One controller is registered. -/
theorem registered_of_one {i : Fin 16} (hio : h.ioapics = Function.update (fun _ => none) i (some a))
    (hp : 0 < a.numPins ∧ a.numPins ≤ 120) (hr : a.minGsi + a.numPins ≤ 2 ^ 32) :
    h.Registered := by
  have hone : ∀ j b, h.ioapics j = some b → j = i ∧ b = a := by
    intro j b hb
    rw [hio] at hb
    by_cases hj : j = i
    · rw [hj, Function.update_self, Option.some.injEq] at hb
      exact ⟨hj, hb.symm⟩
    · rw [Function.update_of_ne hj] at hb
      exact absurd hb (by simp)
  refine ⟨fun j b hb => ?_, fun j b hb => ?_, fun j k b b' hb hb' hne => ?_,
    fun j k b b' hb hb' hne => ?_⟩
  · rw [(hone j b hb).2]
    exact hp
  · rw [(hone j b hb).2]
    exact hr
  · exact absurd ((hone j b hb).1.trans (hone k b' hb').1.symm) hne
  · exact absurd ((hone j b hb).1.trans (hone k b' hb').1.symm) hne

/-! ### Reading and writing entries -/

theorem Has.pin_eq (hg : Has a gsi) (hr : a.minGsi + a.numPins ≤ 2 ^ 32) :
    pin a gsi = gsi - a.minGsi := by
  rw [Has] at hg
  rw [pin]
  omega

theorem readEntry_eq (h : Hal) (a : IoApic) (gsi : ℕ) :
    h.readEntry a gsi = (h.entryAt a (pin a gsi)).readBack := by
  have hlow : (h.entryAt a (pin a gsi)).lowerDword = h.regs a.ioregsel (lowerReg (pin a gsi)) := by
    apply BitVec.eq_of_getLsbD_eq
    intro i hi
    rw [Ioredtbl.lowerDword, getLsbD_get, entryAt, BitVec.getLsbD_append]
    simp [hi]
  have hupp : (h.entryAt a (pin a gsi)).upperDword = h.regs a.ioregsel (upperReg (pin a gsi)) := by
    apply BitVec.eq_of_getLsbD_eq
    intro i hi
    rw [Ioredtbl.upperDword, getLsbD_get, entryAt, BitVec.getLsbD_append]
    simp [hi]
  rw [Ioredtbl.readBack, hlow, hupp]
  rfl

theorem lowerReg_eq_iff {p q : ℕ} : lowerReg p = lowerReg q ↔ p % 128 = q % 128 := by
  rw [lowerReg, lowerReg, ← BitVec.toNat_inj, BitVec.toNat_ofNat, BitVec.toNat_ofNat]
  omega

theorem upperReg_eq_iff {p q : ℕ} : upperReg p = upperReg q ↔ p % 128 = q % 128 := by
  rw [upperReg, upperReg, ← BitVec.toNat_inj, BitVec.toNat_ofNat, BitVec.toNat_ofNat]
  omega

theorem lowerReg_ne_upperReg {p q : ℕ} : lowerReg p ≠ upperReg q := by
  rw [lowerReg, upperReg, ne_eq, ← BitVec.toNat_inj, BitVec.toNat_ofNat, BitVec.toNat_ofNat]
  omega

theorem append_dwords (e : Ioredtbl) : e.upperDword ++ e.lowerDword = e := by
  apply BitVec.eq_of_getLsbD_eq
  intro i hi
  rw [BitVec.getLsbD_append, Ioredtbl.upperDword, Ioredtbl.lowerDword, getLsbD_get, getLsbD_get]
  by_cases hlt : i < 32
  · simp [hlt]
  · simp [hlt, show 32 + (i - 32) = i by omega, show i - 32 < 32 by omega]

/-- Writing an entry changes that entry only. -/
theorem entryAt_writeEntry (h : Hal) (a b : IoApic) (gsi p : ℕ) (e : Ioredtbl) :
    (h.writeEntry a gsi e).entryAt b p =
      if b.ioregsel = a.ioregsel ∧ p % 128 = pin a gsi % 128 then e else h.entryAt b p := by
  by_cases hreg : b.ioregsel = a.ioregsel
  · by_cases hpin : p % 128 = pin a gsi % 128
    · rw [if_pos ⟨hreg, hpin⟩, entryAt, hreg, lowerReg_eq_iff.mpr hpin, upperReg_eq_iff.mpr hpin]
      simp [writeEntry, ioapicWrite, lowerReg_ne_upperReg, append_dwords]
    · rw [if_neg fun hc => hpin hc.2, entryAt, entryAt, hreg]
      simp [writeEntry, ioapicWrite, lowerReg_ne_upperReg, lowerReg_ne_upperReg.symm,
        lowerReg_eq_iff, upperReg_eq_iff, hpin]
  · rw [if_neg fun hc => hreg hc.1, entryAt, entryAt]
    simp [writeEntry, ioapicWrite, hreg]

theorem entryAt_congr {h h' : Hal} (hregs : h.regs = h'.regs) (b : IoApic) (p : ℕ) :
    h.entryAt b p = h'.entryAt b p := by
  rw [entryAt, entryAt, hregs]

end Hal

end Vardar
