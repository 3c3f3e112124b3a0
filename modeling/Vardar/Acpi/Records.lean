import Mathlib.Data.BitVec
import Mathlib.Data.List.Basic
import Vardar.Lib.Word

/-!
# Records of the interrupt controller table

The MADT is a list of records of several kinds. `SMP_INFO` keeps five kinds in arrays; here they
are lists, with the lookups that the interrupt controllers' drivers use.

## Main definitions

* `Vardar.IoApicRecord`, `Vardar.IntSourceOverrideRecord`, `Vardar.NmiSourceRecord`,
  `Vardar.NmiRecord`, `Vardar.ProcessorLocalApic`, `Vardar.LApicAddrOverrideRecord`.
* `Vardar.gsiGetIso`, `Vardar.gsiGetNmiSource`, `Vardar.gsiFromIrq`, `Vardar.getIsoFromIrq`.
* `Vardar.findApicFromGsi`.
-/

namespace Vardar

/-- `MadtRecordHeader`. -/
structure MadtRecordHeader where
  recordType : BitVec 8
  recordLen : BitVec 8
  deriving DecidableEq

/-- `ProcessorLocalApic`. -/
structure ProcessorLocalApic where
  header : MadtRecordHeader
  acpiProcessorId : BitVec 8
  apicId : BitVec 8
  flags : BitVec 32
  deriving DecidableEq

/-- `IoApicRecord`. -/
structure IoApicRecord where
  header : MadtRecordHeader
  ioApicId : BitVec 8
  reserved : BitVec 8
  ioApicAddr : BitVec 32
  gsib : BitVec 32
  deriving DecidableEq

/-- `IntSourceOverrideRecord`. -/
structure IntSourceOverrideRecord where
  header : MadtRecordHeader
  busSource : BitVec 8
  irqSource : BitVec 8
  gsi : BitVec 32
  flags : BitVec 16
  deriving DecidableEq

/-- `NmiSourceRecord`. -/
structure NmiSourceRecord where
  header : MadtRecordHeader
  nmiSource : BitVec 8
  reserved : BitVec 8
  flags : BitVec 16
  gsi : BitVec 32
  deriving DecidableEq

/-- `NmiRecord`; `lint` is the byte of a `bool`. -/
structure NmiRecord where
  header : MadtRecordHeader
  acpiProcessorId : BitVec 8
  flags : BitVec 16
  lint : BitVec 8
  deriving DecidableEq

/-- `LApicAddrOverrideRecord`. -/
structure LApicAddrOverrideRecord where
  header : MadtRecordHeader
  reserved : BitVec 16
  localApicAddr : BitVec 64
  deriving DecidableEq

/-- `gsi_get_iso`, over the overrides collected so far. -/
def gsiGetIso (isos : List IntSourceOverrideRecord) (gsi : ℕ) : Option IntSourceOverrideRecord :=
  isos.find? fun r => r.gsi.toNat = gsi

/-- `gsi_get_nmi_source`, over the sources collected so far. -/
def gsiGetNmiSource (nmiSources : List NmiSourceRecord) (gsi : ℕ) : Option NmiSourceRecord :=
  nmiSources.find? fun r => r.gsi.toNat = gsi

/-- `gsi_from_irq`: identity unless there is an override. -/
def gsiFromIrq (isos : List IntSourceOverrideRecord) (irq : BitVec 8) : ℕ :=
  ((isos.find? fun r => r.irqSource = irq).map fun r => r.gsi.toNat).getD irq.toNat

/-- `get_iso_from_irq`. -/
def getIsoFromIrq (isos : List IntSourceOverrideRecord) (irq : BitVec 8) :
    Option IntSourceOverrideRecord :=
  gsiGetIso isos (gsiFromIrq isos irq)

/-- The loop of `find_apic_from_gsi`, from record `i` on. `max_gsib` is an `int`; it is compared as
an unsigned number. -/
def findApicFrom (gsi : ℕ) : List IoApicRecord → ℕ → ℤ → ℤ → ℤ
  | [], _, apicInd, _ => apicInd
  | r :: records, i, apicInd, maxGsib =>
    if r.gsib.toNat ≤ gsi ∧ (maxGsib % 2 ^ 32).toNat ≤ r.gsib.toNat then
      findApicFrom gsi records (i + 1) i (Word.int32 r.gsib.toNat)
    else findApicFrom gsi records (i + 1) apicInd maxGsib

/-- `find_apic_from_gsi`, over the records of `SMP_INFO`. -/
def findApicFromGsi (ioApics : List IoApicRecord) (gsi : ℕ) : ℤ := findApicFrom gsi ioApics 0 (-1) 0

end Vardar
