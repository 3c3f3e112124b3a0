import Vardar.Acpi.Records
import Vardar.Lib.BitField

/-!
# The I/O APIC driver

An I/O APIC is a register file behind a select register and a window; a read returns the last value
written. Each pin has a redirection entry of 64 bits in two registers. The driver keeps a table of
the controllers it knows, indexed by their hardware ids, and for each vector the interrupt it
believes to have the vector.

Global system interrupts are numbers below `2 ^ 32`. The fields of an entry that nobody sets keep
the bits that were on the stack, which are a parameter, as is the id of the boot processor's LAPIC.
`PrintK` lines are left out.

## Main definitions

* `Vardar.Hal`: register files, `IOAPICS` and `VECTOR_ATTRS`.
* `Vardar.Hal.readEntry`, `Vardar.Hal.writeEntry`, `Vardar.Hal.entryAt`.
* `Vardar.Hal.ioapicSetGsiMask` and the other setters, `Vardar.Hal.ioapicRouteIrq`,
  `Vardar.Hal.registerIoapic`, `Vardar.Hal.intAttrsFromVector`.
-/

namespace Vardar

open BitField

/-! ### Redirection entries -/

/-- `pin_polarity_t`. -/
inductive PinPolarity
  | activeHigh
  | activeLow
  deriving DecidableEq

/-- `trigger_mode_t`. -/
inductive TriggerMode
  | edgeSensitive
  | levelSensitive
  deriving DecidableEq

/-- The bit of a polarity. -/
def PinPolarity.bit : PinPolarity → BitVec 1
  | activeHigh => 0
  | activeLow => 1

/-- The bit of a trigger mode. -/
def TriggerMode.bit : TriggerMode → BitVec 1
  | edgeSensitive => 0
  | levelSensitive => 1

/-- `ICR_FIXED`. -/
def icrFixed : BitVec 3 := 0b000

/-- `ICR_SMI`. -/
def icrSmi : BitVec 3 := 0b010

/-- `ICR_NMI`. -/
def icrNmi : BitVec 3 := 0b100

/-- `IOAPIC_PHYSICAL`. -/
def ioapicPhysical : BitVec 1 := 0

/-- `ioredtbl_t`. -/
abbrev Ioredtbl : Type := BitVec 64

namespace Ioredtbl

/-- The `vector` field. -/
def vector (e : Ioredtbl) : BitVec 8 := get 0 8 e

/-- The `delivery_mode` field. -/
def deliveryMode (e : Ioredtbl) : BitVec 3 := get 8 3 e

/-- The `polarity` field. -/
def polarity (e : Ioredtbl) : BitVec 1 := get 13 1 e

/-- The `trigger_mode` field. -/
def triggerMode (e : Ioredtbl) : BitVec 1 := get 15 1 e

/-- The `mask` field. -/
def mask (e : Ioredtbl) : BitVec 1 := get 16 1 e

/-- The `destination` field. -/
def destination (e : Ioredtbl) : BitVec 8 := get 56 8 e

/-- `lower_dword`. -/
def lowerDword (e : Ioredtbl) : BitVec 32 := get 0 32 e

/-- `upper_dword`. -/
def upperDword (e : Ioredtbl) : BitVec 32 := get 32 32 e

/-- An entry with the fields that `initialize_ioapic_ints` sets, over the bits on the stack. -/
def make (junk : Ioredtbl) (vector : BitVec 8) (deliveryMode : BitVec 3) (polarity : PinPolarity)
    (triggerMode : TriggerMode) (mask : BitVec 1) : Ioredtbl :=
  set 11 ioapicPhysical (set 16 mask (set 15 triggerMode.bit (set 13 polarity.bit
    (set 8 deliveryMode (set 0 vector junk)))))

end Ioredtbl

/-! ### Controllers -/

/-- `IOAPICS` has 16 places. -/
instance neZeroIoapics : NeZero 16 := ⟨by decide⟩

/-- `ioapic_t`; a slot of `IOAPICS` that is not present is `none`. -/
structure IoApic where
  ioregsel : ℕ
  minGsi : ℕ
  numPins : ℕ
  hasEoi : Bool
  apicId : Fin 16

/-- `int_attr_t`. -/
structure IntAttr where
  attrs : Ioredtbl
  gsi : ℕ
  irq : BitVec 8
  ioapicInd : Fin 16

/-- The register files by the address of their select register, `IOAPICS` and `VECTOR_ATTRS`. -/
structure Hal where
  regs : ℕ → BitVec 8 → BitVec 32
  ioapics : Fin 16 → Option IoApic
  vectorAttrs : BitVec 8 → IntAttr

namespace Hal

/-- `ioapic_read`. -/
def ioapicRead (h : Hal) (a : IoApic) (offset : BitVec 8) : BitVec 32 := h.regs a.ioregsel offset

/-- `ioapic_write`. -/
def ioapicWrite (h : Hal) (a : IoApic) (offset : BitVec 8) (val : BitVec 32) : Hal :=
  let file := Function.update (h.regs a.ioregsel) offset val
  { h with regs := Function.update h.regs a.ioregsel file }

/-- `pin`, a 32-bit difference. -/
def pin (a : IoApic) (gsi : ℕ) : ℕ := (gsi + (2 ^ 32 - a.minGsi)) % 2 ^ 32

/-- The register of the lower dword of a pin's entry. -/
def lowerReg (pin : ℕ) : BitVec 8 := BitVec.ofNat 8 (0x10 + pin * 2)

/-- The register of the upper dword of a pin's entry. -/
def upperReg (pin : ℕ) : BitVec 8 := BitVec.ofNat 8 (0x11 + pin * 2)

/-- `ioapic_write_entry`. -/
def writeEntry (h : Hal) (a : IoApic) (gsi : ℕ) (e : Ioredtbl) : Hal :=
  (h.ioapicWrite a (lowerReg (pin a gsi)) e.lowerDword).ioapicWrite a (upperReg (pin a gsi))
    e.upperDword

/-- `ioapic_read_entry`. The upper register is shifted as a 32-bit number. -/
def readEntry (h : Hal) (a : IoApic) (gsi : ℕ) : Ioredtbl :=
  (h.ioapicRead a (lowerReg (pin a gsi))).setWidth 64 |||
    (h.ioapicRead a (upperReg (pin a gsi)) <<< 31).setWidth 64

/-- The entry of a pin as the hardware has it. -/
def entryAt (h : Hal) (a : IoApic) (p : ℕ) : Ioredtbl :=
  h.regs a.ioregsel (upperReg p) ++ h.regs a.ioregsel (lowerReg p)

/-- The interrupts of a controller, as `ioapic_from_gsi` compares them. -/
def covers (a : IoApic) (gsi : ℕ) : Bool :=
  a.minGsi ≤ gsi ∧ gsi ≤ (a.minGsi + a.numPins + (2 ^ 32 - 1)) % 2 ^ 32

/-- `ioapic_from_gsi`. -/
def ioapicFromGsi (h : Hal) (gsi : ℕ) : Option IoApic :=
  (List.finRange 16).findSome? fun i => (h.ioapics i).filter fun a => covers a gsi

/-! ### Setters -/

/-- The common part of the setters: refuse some entries, and write the field if it differs. -/
def setField {w : ℕ} (lo : ℕ) (v : BitVec w) (refuse : Ioredtbl → Bool) (h : Hal) (gsi : ℕ) :
    Bool × Hal :=
  match h.ioapicFromGsi gsi with
  | none => (false, h)
  | some a =>
    let e := h.readEntry a gsi
    if refuse e then (false, h)
    else if get lo w e ≠ v then (true, h.writeEntry a gsi (set lo v e)) else (true, h)

/-- `ioapic_set_gsi_mask`. -/
def ioapicSetGsiMask (h : Hal) (gsi : ℕ) (masked : Bool) : Bool × Hal :=
  setField 16 (BitVec.ofBool masked) (fun _ => false) h gsi

/-- `ioapic_set_gsi_polarity`: SMIs are always active high. -/
def ioapicSetGsiPolarity (h : Hal) (gsi : ℕ) (polarity : PinPolarity) : Bool × Hal :=
  setField 13 polarity.bit (fun e => e.deliveryMode = icrSmi ∧ polarity ≠ .activeHigh) h gsi

/-- `ioapic_reroute_gsi`. -/
def ioapicRerouteGsi (h : Hal) (gsi : ℕ) (lapicId : BitVec 8) : Bool × Hal :=
  setField 56 lapicId (fun _ => false) h gsi

/-- `ioapic_set_gsi_trigger_mode`: EXTINTs are level-sensitive, NMIs and SMIs edge-sensitive. -/
def ioapicSetGsiTriggerMode (h : Hal) (gsi : ℕ) (triggerMode : TriggerMode) : Bool × Hal :=
  if gsi = 0 ∧ triggerMode ≠ .levelSensitive then (false, h)
  else setField 15 triggerMode.bit (fun e =>
    (e.deliveryMode = icrNmi ∨ e.deliveryMode = icrSmi) ∧ triggerMode ≠ .edgeSensitive) h gsi

/-- `ioapic_set_gsi_vector`. -/
def ioapicSetGsiVector (h : Hal) (gsi : ℕ) (vector : BitVec 8) : Bool × Hal :=
  match h.ioapicFromGsi gsi with
  | none => (false, h)
  | some a =>
    if ¬ 15 < vector.toNat then (false, h)
    else
      let e := h.readEntry a gsi
      if e.vector ≠ vector then
        let h := h.writeEntry a gsi (set 0 vector e)
        let attr := { h.vectorAttrs vector with gsi := gsi }
        (true, { h with vectorAttrs := Function.update h.vectorAttrs vector attr })
      else (true, h)

/-! ### Programming vectors -/

/-- `ioapic_route_irq`. -/
def ioapicRouteIrq (isos : List IntSourceOverrideRecord) (h : Hal) (irq recLapicId vector : BitVec 8)
    (masked : Bool) : Bool × Hal :=
  let gsi := gsiFromIrq isos irq
  match h.ioapicFromGsi gsi with
  | none => (false, h)
  | some a =>
    let e := h.readEntry a gsi
    (true, h.writeEntry a gsi (set 16 (BitVec.ofBool masked) (set 56 recLapicId
      (set 15 TriggerMode.edgeSensitive.bit (set 8 icrFixed (set 13 PinPolarity.activeHigh.bit
        (set 0 vector e)))))))

/-- `int_attrs_from_vector`, with an entry to fill. -/
def intAttrsFromVector (h : Hal) (vector : BitVec 8) : Option Ioredtbl :=
  (h.ioapicFromGsi (h.vectorAttrs vector).gsi).map fun a =>
    h.readEntry a (h.vectorAttrs vector).gsi

/-- `get_pin_polarity`. -/
def getPinPolarity (flags : BitVec 16) : PinPolarity :=
  if flags &&& 2 ≠ 0 then .activeHigh else .activeLow

/-- `get_trigger_mode`. -/
def getTriggerMode (flags : BitVec 16) : TriggerMode :=
  if flags &&& 8 ≠ 0 then .levelSensitive else .edgeSensitive

/-- What `initialize_ioapic_ints` looks up and the values it gets from elsewhere. -/
structure Sources where
  isos : List IntSourceOverrideRecord
  nmiSources : List NmiSourceRecord
  bspLapicId : BitVec 8
  junk : ℕ → Ioredtbl

/-- The entry `initialize_ioapic_ints` makes for an interrupt, without its destination. Interrupt
numbers from `2 ^ 31` on are negative as an `int`, and so below `MAX_ISA_IRQ`. -/
def initialEntry (c : Sources) (gsi : ℕ) : Ioredtbl :=
  let v := BitVec.ofNat 8 (gsi + 0x20)
  if gsi < 16 ∨ 2 ^ 31 ≤ gsi then
    Ioredtbl.make (c.junk gsi) v icrFixed .activeHigh .edgeSensitive 1
  else match gsiGetIso c.isos gsi with
    | some iso => Ioredtbl.make (c.junk gsi) (iso.irqSource + 0x20) icrFixed
        (getPinPolarity iso.flags) (getTriggerMode iso.flags) 1
    | none => match gsiGetNmiSource c.nmiSources gsi with
      | some nmi => Ioredtbl.make (c.junk gsi) v icrNmi (getPinPolarity nmi.flags)
          (getTriggerMode nmi.flags) 0
      | none => Ioredtbl.make (c.junk gsi) v icrFixed .activeHigh .levelSensitive 1

/-- One round of the loop of `initialize_ioapic_ints`. -/
def initializeGsi (c : Sources) (a : IoApic) (gsi : ℕ) (h : Hal) : Hal :=
  if gsi = 0 then h
  else
    let e := initialEntry c gsi
    let attr := ⟨e, gsi, e.vector - 0x20, a.apicId⟩
    let h := { h with vectorAttrs := Function.update h.vectorAttrs e.vector attr }
    h.writeEntry a gsi (set 56 c.bspLapicId e)

/-- The loop of `initialize_ioapic_ints`, from `gsi` on. It makes `num_pins` rounds at most. -/
def initializeFrom (c : Sources) (a : IoApic) : ℕ → ℕ → Hal → Hal
  | 0, _, h => h
  | rounds + 1, gsi, h =>
    if gsi < (a.minGsi + a.numPins) % 2 ^ 32 then
      initializeFrom c a rounds ((gsi + 1) % 2 ^ 32) (initializeGsi c a gsi h)
    else h

/-- `initialize_ioapic_ints`. -/
def initializeIoapicInts (c : Sources) (a : IoApic) (h : Hal) : Hal :=
  initializeFrom c a a.numPins a.minGsi h

/-- The `ioapic_t` that `register_ioapic` makes of a record and the ID and version registers. -/
def makeIoApic (record : IoApicRecord) (ioapicIdReg ioapicVerReg : BitVec 32) : IoApic where
  ioregsel := record.ioApicAddr.toNat
  minGsi := record.gsib.toNat
  numPins := ((get 16 8 ioapicVerReg).toNat + 1) % 256
  hasEoi := 0x20 ≤ (get 0 8 ioapicVerReg).toNat
  apicId := (get 24 4 ioapicIdReg).toFin

/-- The `ioapic_t` for the registers of a controller. -/
def ioapicOf (h : Hal) (record : IoApicRecord) : IoApic :=
  makeIoApic record (h.regs record.ioApicAddr.toNat 0) (h.regs record.ioApicAddr.toNat 1)

/-- `register_ioapic`. -/
def registerIoapic (c : Sources) (record : IoApicRecord) (h : Hal) : Hal :=
  let a := h.ioapicOf record
  initializeIoapicInts c a { h with ioapics := Function.update h.ioapics a.apicId (some a) }

end Hal

end Vardar
