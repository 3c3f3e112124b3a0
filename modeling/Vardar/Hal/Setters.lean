import Vardar.Hal.Entries

/-!
# Setters of redirection entries

A setter reads an entry back, replaces a field and writes the entry. `ioapic_read_entry` loses the
upper dword, up to its lowest bit, so a setter that writes also clears it.

## Main definitions

* `Vardar.Hal.Setter`: the five setters with their arguments.
* `Vardar.Hal.Setter.SetsOneField`: what a setter is for.
* `Vardar.Hal.Setter.Keeps`: the entries of which a setter loses nothing.

## Main results

* `Vardar.Hal.Setter.setsOneField_iff`.
-/

namespace Vardar

open BitField

namespace Hal

variable {h : Hal} {a b : IoApic} {gsi p : ℕ}

/-! ### The setters -/

/-- The setters with their arguments. -/
inductive Setter
  | mask (masked : Bool)
  | vector (vector : BitVec 8)
  | triggerMode (triggerMode : TriggerMode)
  | polarity (polarity : PinPolarity)
  | destination (lapicId : BitVec 8)

namespace Setter

/-- The call of a setter. -/
def run : Setter → Hal → ℕ → Bool × Hal
  | mask masked, h, gsi => h.ioapicSetGsiMask gsi masked
  | vector v, h, gsi => h.ioapicSetGsiVector gsi v
  | triggerMode t, h, gsi => h.ioapicSetGsiTriggerMode gsi t
  | polarity q, h, gsi => h.ioapicSetGsiPolarity gsi q
  | destination lapicId, h, gsi => h.ioapicRerouteGsi gsi lapicId

/-- The first bit of the field a setter names. -/
def lo : Setter → ℕ
  | mask _ => 16
  | vector _ => 0
  | triggerMode _ => 15
  | polarity _ => 13
  | destination _ => 56

/-- The width of the field a setter names. -/
def width : Setter → ℕ
  | mask _ => 1
  | vector _ => 8
  | triggerMode _ => 1
  | polarity _ => 1
  | destination _ => 8

/-- The value requested. -/
def value : (s : Setter) → BitVec s.width
  | mask masked => BitVec.ofBool masked
  | vector v => v
  | triggerMode t => t.bit
  | polarity q => q.bit
  | destination lapicId => lapicId

/-- The entries for which a setter does not refuse its arguments. -/
def accepts (gsi : ℕ) (e : Ioredtbl) : Setter → Bool
  | mask _ => true
  | vector v => 15 < v.toNat
  | triggerMode t => ¬ (gsi = 0 ∧ t ≠ .levelSensitive) ∧
      ¬ ((e.deliveryMode = icrNmi ∨ e.deliveryMode = icrSmi) ∧ t ≠ .edgeSensitive)
  | polarity q => ¬ (e.deliveryMode = icrSmi ∧ q ≠ .activeHigh)
  | destination _ => true

/-- A setter sets the field it names of the interrupt's entry and changes nothing else of the
entries of the registered controllers. When it fails it changes nothing. -/
structure SetsOneField (s : Setter) (h : Hal) (gsi : ℕ) : Prop where
  has : (s.run h gsi).1 = true → ∃ i a, h.ioapics i = some a ∧ Has a gsi
  field : (s.run h gsi).1 = true → ∀ i a, h.ioapics i = some a → ∀ p < a.numPins,
    a.minGsi + p = gsi → get s.lo s.width ((s.run h gsi).2.entryAt a p) = s.value
  fields : (s.run h gsi).1 = true → ∀ i a, h.ioapics i = some a → ∀ p < a.numPins,
    a.minGsi + p = gsi → AgreeOutside s.lo s.width ((s.run h gsi).2.entryAt a p) (h.entryAt a p)
  entries : (s.run h gsi).1 = true → ∀ i a, h.ioapics i = some a → ∀ p < a.numPins,
    a.minGsi + p ≠ gsi → (s.run h gsi).2.entryAt a p = h.entryAt a p
  refused : (s.run h gsi).1 = false → (s.run h gsi).2 = h

/-- The entries of which a setter loses nothing. A destination is never read back, so a request for
destination zero is ignored. -/
def Keeps (e : Ioredtbl) : Setter → Prop
  | mask masked => e.mask = BitVec.ofBool masked ∨ e.upperDword = 0
  | vector v => e.vector = v ∨ e.upperDword = 0
  | triggerMode t => e.triggerMode = t.bit ∨ e.upperDword = 0
  | polarity q => e.polarity = q.bit ∨ e.upperDword = 0
  | destination lapicId => if lapicId = 0 then e.destination = 0 else get 32 24 e = 0

/-- What a setter that does not refuse leaves of an entry. -/
def result (s : Setter) (e : Ioredtbl) : Ioredtbl :=
  if get s.lo s.width e.readBack = s.value then e else set s.lo s.value e.readBack

theorem lo_add_width_le (s : Setter) : s.lo + s.width ≤ 64 := by
  cases s <;> simp [lo, width]

theorem agreeOutside_set_iff (s : Setter) (e : Ioredtbl) :
    AgreeOutside s.lo s.width (set s.lo s.value e.readBack) e ↔
      AgreeOutside s.lo s.width e.readBack e := by
  have hout : ∀ i, i < s.lo ∨ s.lo + s.width ≤ i →
      (set s.lo s.value e.readBack).getLsbD i = e.readBack.getLsbD i := by
    intro i hi
    rw [getLsbD_set s.lo_add_width_le, if_neg (by omega)]
  constructor
  · intro hag i hi
    rw [← hout i hi]
    exact hag i hi
  · intro hag i hi
    rw [hout i hi]
    exact hag i hi

/-- A field of the lower dword is read back, so a setter keeps an entry that has the value. -/
theorem low_field_iff (s : Setter) (hlo : s.lo + s.width ≤ 31) (e : Ioredtbl) :
    get s.lo s.width (s.result e) = s.value ∧ AgreeOutside s.lo s.width (s.result e) e ↔
      get s.lo s.width e = s.value ∨ e.upperDword = 0 := by
  rw [result, Ioredtbl.get_readBack hlo]
  by_cases hv : get s.lo s.width e = s.value
  · simp [hv, AgreeOutside.refl]
  · rw [if_neg hv, get_set s.lo_add_width_le, agreeOutside_set_iff,
      Ioredtbl.agreeOutside_readBack_iff (Or.inl hlo), Ioredtbl.upperDword,
      Ioredtbl.get_eq_zero_iff]
    simp only [hv, true_and, false_or]
    constructor
    · intro hzero i hi _
      exact hzero i hi (by omega)
    · intro hzero i hi _
      by_cases hin : i < 64
      · exact hzero i hi hin
      · exact BitVec.getLsbD_of_ge e i (by omega)

theorem destination_iff (lapicId : BitVec 8) (e : Ioredtbl) :
    get 56 8 ((destination lapicId).result e) = lapicId ∧
      AgreeOutside 56 8 ((destination lapicId).result e) e ↔ (destination lapicId).Keeps e := by
  have hread : get 56 8 e.readBack = 0 := e.destination_readBack
  by_cases hz : lapicId = 0
  · have hres : (destination lapicId).result e = e := if_pos (hread.trans hz.symm)
    rw [hres, Keeps, if_pos hz, hz]
    exact and_iff_left (AgreeOutside.refl 56 8 e)
  · have hres : (destination lapicId).result e = set 56 lapicId e.readBack :=
      if_neg fun hc => hz (hc.symm.trans hread)
    have hset := agreeOutside_set_iff (destination lapicId) e
    rw [hres, Keeps, if_neg hz, get_set (by decide), Ioredtbl.get_eq_zero_iff]
    rw [show AgreeOutside 56 8 (set 56 lapicId e.readBack) e ↔ _ from hset.trans
      (Ioredtbl.agreeOutside_readBack_iff (Or.inr (by simp [lo])) e)]
    simp only [true_and, lo, width]
    constructor
    · intro hzero i hi hlt
      exact hzero i hi (by omega)
    · intro hzero i hi hout
      by_cases hin : i < 64
      · exact hzero i hi (by omega)
      · exact BitVec.getLsbD_of_ge e i (by omega)

/-- A setter leaves the requested entry exactly of the entries it keeps. -/
theorem result_iff (s : Setter) (e : Ioredtbl) :
    get s.lo s.width (s.result e) = s.value ∧ AgreeOutside s.lo s.width (s.result e) e ↔
      s.Keeps e := by
  cases s with
  | mask masked => exact low_field_iff (mask masked) (by simp [lo, width]) e
  | vector v => exact low_field_iff (vector v) (by simp [lo, width]) e
  | triggerMode t => exact low_field_iff (triggerMode t) (by simp [lo, width]) e
  | polarity q => exact low_field_iff (polarity q) (by simp [lo, width]) e
  | destination lapicId => exact destination_iff lapicId e

/-! ### Calls -/

theorem run_of_none (s : Setter) (hno : h.ioapicFromGsi gsi = none) : s.run h gsi = (false, h) := by
  cases s with
  | mask masked => simp [run, ioapicSetGsiMask, setField, hno]
  | vector v => simp [run, ioapicSetGsiVector, hno]
  | triggerMode t => simp [run, ioapicSetGsiTriggerMode, setField, hno]
  | polarity q => simp [run, ioapicSetGsiPolarity, setField, hno]
  | destination lapicId => simp [run, ioapicRerouteGsi, setField, hno]

theorem deliveryMode_readBack (e : Ioredtbl) : e.readBack.deliveryMode = e.deliveryMode :=
  Ioredtbl.get_readBack (by decide) e

theorem run_of_not_accepts (s : Setter) (ha : h.ioapicFromGsi gsi = some a)
    (hacc : s.accepts gsi (h.entryAt a (pin a gsi)) = false) : s.run h gsi = (false, h) := by
  cases s with
  | mask masked => simp [accepts] at hacc
  | vector v =>
    have hv : ¬ 15 < v.toNat := by simpa [accepts] using hacc
    simp only [run, ioapicSetGsiVector, ha, if_pos hv]
  | triggerMode t =>
    rw [accepts, decide_eq_false_iff_not, not_and_or, not_not, not_not] at hacc
    simp only [run, ioapicSetGsiTriggerMode, setField, ha, readEntry_eq, deliveryMode_readBack]
    by_cases hz : gsi = 0 ∧ t ≠ .levelSensitive
    · rw [if_pos hz]
    · rw [if_neg hz, if_pos (decide_eq_true (hacc.resolve_left hz))]
  | polarity q =>
    rw [accepts, decide_eq_false_iff_not, not_not] at hacc
    simp only [run, ioapicSetGsiPolarity, setField, ha, readEntry_eq, deliveryMode_readBack]
    rw [if_pos (decide_eq_true hacc)]
  | destination lapicId => simp [accepts] at hacc

theorem setField_of_accepts {w : ℕ} {lo : ℕ} {v : BitVec w} {refuse : Ioredtbl → Bool}
    (ha : h.ioapicFromGsi gsi = some a) (hacc : refuse (h.entryAt a (pin a gsi)).readBack = false) :
    setField lo v refuse h gsi =
      (true, if get lo w (h.entryAt a (pin a gsi)).readBack = v then h else
        h.writeEntry a gsi (set lo v (h.entryAt a (pin a gsi)).readBack)) := by
  simp only [setField, ha, readEntry_eq, hacc, Bool.false_eq_true, if_false]
  by_cases hv : get lo w (h.entryAt a (pin a gsi)).readBack = v
  · rw [if_neg (not_not.mpr hv), if_pos hv]
  · rw [if_pos hv, if_neg hv]

/-- A setter that does not refuse writes the entry read back with its field replaced, unless the
field has the value already. -/
theorem run_of_accepts (s : Setter) (ha : h.ioapicFromGsi gsi = some a)
    (hacc : s.accepts gsi (h.entryAt a (pin a gsi)) = true) :
    (s.run h gsi).1 = true ∧ (s.run h gsi).2.regs =
      (if get s.lo s.width (h.entryAt a (pin a gsi)).readBack = s.value then h else
        h.writeEntry a gsi (set s.lo s.value (h.entryAt a (pin a gsi)).readBack)).regs := by
  cases s with
  | mask masked =>
    rw [run, ioapicSetGsiMask, setField_of_accepts ha rfl]
    exact ⟨rfl, rfl⟩
  | vector v =>
    have hv : 15 < v.toNat := by simpa [accepts] using hacc
    simp only [run, ioapicSetGsiVector, ha, if_neg (not_not.mpr hv), readEntry_eq]
    by_cases hw : (h.entryAt a (pin a gsi)).readBack.vector = v
    · have hread : get (vector v).lo (vector v).width (h.entryAt a (pin a gsi)).readBack =
        (vector v).value := hw
      rw [if_neg (not_not.mpr hw), if_pos hread]
      exact ⟨rfl, rfl⟩
    · have hread : ¬ get (vector v).lo (vector v).width (h.entryAt a (pin a gsi)).readBack =
        (vector v).value := hw
      rw [if_pos hw, if_neg hread]
      exact ⟨rfl, rfl⟩
  | triggerMode t =>
    rw [accepts, decide_eq_true_iff] at hacc
    rw [run, ioapicSetGsiTriggerMode, if_neg hacc.1, setField_of_accepts ha]
    · exact ⟨rfl, rfl⟩
    · rw [deliveryMode_readBack]
      exact decide_eq_false hacc.2
  | polarity q =>
    rw [accepts, decide_eq_true_iff] at hacc
    rw [run, ioapicSetGsiPolarity, setField_of_accepts ha]
    · exact ⟨rfl, rfl⟩
    · rw [deliveryMode_readBack]
      exact decide_eq_false hacc
  | destination lapicId =>
    rw [run, ioapicRerouteGsi, setField_of_accepts ha rfl]
    exact ⟨rfl, rfl⟩

/-- The entries after a setter that does not refuse. -/
theorem entryAt_run (s : Setter) (hr : h.Registered) {i j : Fin 16} (ha : h.ioapics i = some a)
    (hg : Has a gsi) (hacc : s.accepts gsi (h.entryAt a (gsi - a.minGsi)) = true)
    (hb : h.ioapics j = some b) (hp : p < b.numPins) :
    (s.run h gsi).2.entryAt b p =
      if b.minGsi + p = gsi then s.result (h.entryAt b p) else h.entryAt b p := by
  have hpin : pin a gsi = gsi - a.minGsi := hg.pin_eq (hr.range i a ha)
  have hlt := hr.pins i a ha
  have hfrom := hr.ioapicFromGsi_iff.mpr ⟨i, ha, hg⟩
  rw [← hpin] at hacc
  rw [entryAt_congr (s.run_of_accepts hfrom hacc).2]
  have hsame : b.ioregsel = a.ioregsel ∧ p = pin a gsi ↔ b.minGsi + p = gsi := by
    rw [Has] at hg
    by_cases hij : i = j
    · subst hij
      rw [ha, Option.some.injEq] at hb
      subst hb
      simp only [true_and]
      omega
    · have hne := hr.apart i j a b ha hb hij
      have hdis := hr.disjoint i j a b ha hb hij
      simp only [hne.symm, false_and, false_iff]
      omega
  by_cases hsb : b.minGsi + p = gsi
  · obtain ⟨hreg, rfl⟩ := hsame.mpr hsb
    rw [if_pos hsb, result]
    have heq : h.entryAt b (pin a gsi) = h.entryAt a (pin a gsi) := by
      rw [entryAt, entryAt, hreg]
    rw [heq]
    by_cases hv : get s.lo s.width (h.entryAt a (pin a gsi)).readBack = s.value
    · rw [if_pos hv, if_pos hv, heq]
    · rw [if_neg hv, if_neg hv, entryAt_writeEntry, if_pos ⟨hreg, rfl⟩]
  · rw [if_neg hsb]
    by_cases hv : get s.lo s.width (h.entryAt a (pin a gsi)).readBack = s.value
    · rw [if_pos hv]
    · rw [if_neg hv, entryAt_writeEntry, if_neg]
      rintro ⟨hreg, hmod⟩
      have hpb := hr.pins j b hb
      rw [Has] at hg
      exact hsb (hsame.mp ⟨hreg, by omega⟩)

/-- A call that succeeds found the controller and did not refuse. -/
theorem accepts_of_run (s : Setter) (hr : h.Registered) (hrun : (s.run h gsi).1 = true) :
    ∃ i a, h.ioapics i = some a ∧ Has a gsi ∧
      s.accepts gsi (h.entryAt a (gsi - a.minGsi)) = true := by
  match hfrom : h.ioapicFromGsi gsi with
  | none =>
    rw [s.run_of_none hfrom] at hrun
    exact absurd hrun Bool.false_ne_true
  | some a =>
    obtain ⟨i, ha, hg⟩ := hr.ioapicFromGsi_iff.mp hfrom
    refine ⟨i, a, ha, hg, ?_⟩
    by_contra hacc
    rw [← hg.pin_eq (hr.range i a ha)] at hacc
    rw [s.run_of_not_accepts hfrom (Bool.not_eq_true _ ▸ hacc)] at hrun
    exact absurd hrun Bool.false_ne_true

/-- A call that fails changes nothing. -/
theorem run_snd_of_fst_eq_false (s : Setter) (hrun : (s.run h gsi).1 = false) :
    (s.run h gsi).2 = h := by
  match hfrom : h.ioapicFromGsi gsi with
  | none => rw [s.run_of_none hfrom]
  | some a =>
    by_cases hacc : s.accepts gsi (h.entryAt a (pin a gsi)) = true
    · rw [(s.run_of_accepts hfrom hacc).1] at hrun
      exact absurd hrun.symm Bool.false_ne_true
    · rw [s.run_of_not_accepts hfrom (Bool.not_eq_true _ ▸ hacc)]

/-- A setter does what it is for exactly when it refuses or loses nothing of the entry. -/
theorem setsOneField_iff (s : Setter) (hr : h.Registered) (gsi : ℕ) :
    s.SetsOneField h gsi ↔ ∀ i a, h.ioapics i = some a → Has a gsi →
      s.accepts gsi (h.entryAt a (gsi - a.minGsi)) = true →
        s.Keeps (h.entryAt a (gsi - a.minGsi)) := by
  constructor
  · intro hset i a ha hg hacc
    have hrun : (s.run h gsi).1 = true := by
      rw [← hg.pin_eq (hr.range i a ha)] at hacc
      exact (s.run_of_accepts (hr.ioapicFromGsi_iff.mpr ⟨i, ha, hg⟩) hacc).1
    have hadd : a.minGsi + (gsi - a.minGsi) = gsi := Nat.add_sub_cancel' hg.1
    have hp : gsi - a.minGsi < a.numPins := by
      have := hg.2
      omega
    have hentry := s.entryAt_run hr ha hg hacc ha hp
    rw [if_pos hadd] at hentry
    have hfield := hset.field hrun i a ha _ hp hadd
    have hfields := hset.fields hrun i a ha _ hp hadd
    rw [hentry] at hfield hfields
    exact (s.result_iff _).mp ⟨hfield, hfields⟩
  · intro hkeeps
    have hresult : (s.run h gsi).1 = true → ∀ i a, h.ioapics i = some a → ∀ p < a.numPins,
        a.minGsi + p = gsi → (s.run h gsi).2.entryAt a p = s.result (h.entryAt a p) ∧
          s.Keeps (h.entryAt a p) := by
      intro hrun i a ha p hp hadd
      obtain ⟨j, b, hb, hg, hacc⟩ := s.accepts_of_run hr hrun
      have hga : Has a gsi := ⟨by omega, by omega⟩
      have hij := hr.eq_of_has ha hb hga hg
      subst hij
      rw [ha, Option.some.injEq] at hb
      subst hb
      have hsub : gsi - a.minGsi = p := by omega
      refine ⟨?_, hsub ▸ hkeeps i a ha hg hacc⟩
      rw [s.entryAt_run hr ha hg hacc ha hp, if_pos hadd]
    refine ⟨fun hrun => ?_, fun hrun i a ha p hp hadd => ?_, fun hrun i a ha p hp hadd => ?_,
      fun hrun i a ha p hp hadd => ?_, s.run_snd_of_fst_eq_false⟩
    · obtain ⟨i, a, ha, hg, -⟩ := s.accepts_of_run hr hrun
      exact ⟨i, a, ha, hg⟩
    · obtain ⟨hentry, hk⟩ := hresult hrun i a ha p hp hadd
      rw [hentry]
      exact ((s.result_iff _).mpr hk).1
    · obtain ⟨hentry, hk⟩ := hresult hrun i a ha p hp hadd
      rw [hentry]
      exact ((s.result_iff _).mpr hk).2
    · obtain ⟨j, b, hb, hg, hacc⟩ := s.accepts_of_run hr hrun
      rw [s.entryAt_run hr hb hg hacc ha hp, if_neg hadd]

/-- One controller of 24 pins at its usual address, with all entries zero but for the destination
of interrupt 1. -/
def oneController (destination : BitVec 8) : Hal where
  regs _ offset := if offset = upperReg 1 then destination ++ (0 : BitVec 24) else 0
  ioapics := Function.update (fun _ => none) 0 (some ⟨0xFEC00000, 0, 24, true, 0⟩)
  vectorAttrs _ := ⟨0, 0, 0, 0⟩

theorem oneController_registered (destination : BitVec 8) :
    (oneController destination).Registered :=
  registered_of_one rfl (by decide) (by decide)

/-- Masking an interrupt routed to LAPIC 0 sets its mask only. -/
theorem setsOneField_mask_zero : (mask true).SetsOneField (oneController 0) 1 := by
  rw [setsOneField_iff _ (oneController_registered 0)]
  intro i a ha _ _
  refine Or.inr ?_
  apply BitVec.eq_of_getLsbD_eq
  intro k hk
  rw [Ioredtbl.upperDword, getLsbD_get, entryAt, BitVec.getLsbD_append]
  simp [oneController]

/-- Masking an interrupt routed to LAPIC 5 routes it to LAPIC 0. -/
theorem mask_loses_destination :
    (oneController 5).Registered ∧ ¬ (mask true).SetsOneField (oneController 5) 1 := by
  refine ⟨oneController_registered 5, fun hset => ?_⟩
  have hbit := hset.fields (by decide +kernel) 0 ⟨0xFEC00000, 0, 24, true, 0⟩ rfl 1 (by decide) rfl 56
    (by decide)
  revert hbit
  decide +kernel

end Setter

end Hal

end Vardar
