import Vardar.Hal.IoApic
import Vardar.Lib.RecordArray
import Vardar.Vmm.Vmm

/-!
# Parsing the MADT

`ParseMadt` walks over the records of the table, copies five kinds of them into arrays of one frame
each, and registers each I/O APIC as soon as its record is read, with the overrides and NMI sources
collected so far.

The address of the table is a parameter, as are the addresses of the I/O APICs' registers, the id of
the boot processor's LAPIC and the bits on the stack when an I/O APIC is registered. The address in
a record is not checked: where it is not that of an I/O APIC, `register_ioapic` reads and writes two
words of memory. A table length is read as an `int`. The walk does not end when a record has length
zero, so it takes a bound on its rounds.

## Main definitions

* `Vardar.SmpInfo`: `SMP_INFO`. `Vardar.Madt.State`: the machine, `SMP_INFO` and the controllers.
* `Vardar.Madt.State.registerIoapic`: `register_ioapic` on the whole state.
* `Vardar.Madt.parseRecord`, `Vardar.Madt.parseMadt`.

## Main results

* `Vardar.Madt.State.registerIoapic_of_controller`, `Vardar.Madt.State.registerIoapic_stays`.
-/

namespace Vardar

open ByteMemory Word

/-- `smp_info_t`. -/
structure SmpInfo where
  numIoApics : ℕ
  ioApics : ℕ
  numLapics : ℕ
  lapics : ℕ
  numIsos : ℕ
  isos : ℕ
  numNmiSources : ℕ
  nmiSources : ℕ
  numNmis : ℕ
  nmis : ℕ
  lapicAddr : BitVec 64

/-- `DEFAULT_LAPIC_ADDR`. -/
def defaultLapicAddr : BitVec 64 := 0xFEE00000

/-- `SMP_INFO` before `ParseMadt`. -/
def SmpInfo.initial : SmpInfo := ⟨0, 0, 0, 0, 0, 0, 0, 0, 0, 0, defaultLapicAddr⟩

namespace Madt

/-! ### Layouts of the records -/

/-- The header of a record. -/
def readHeader (m : Mem) (a : ℕ) : MadtRecordHeader := ⟨m a, m (a + 1)⟩

/-- The bytes of a header. -/
def encodeHeader (r : MadtRecordHeader) : List (BitVec 8) := [r.recordType, r.recordLen]

theorem readHeader_congr {m m' : Mem} {a a' size : ℕ}
    (h : ∀ i < size, m (a + i) = m' (a' + i)) (hs : 2 ≤ size) :
    readHeader m a = readHeader m' a' := by
  have h₀ : m a = m' a' := h 0 (by omega)
  rw [readHeader, readHeader, h₀, h 1 (by omega)]

theorem readHeader_of_holds {m : Mem} {a : ℕ} {r : MadtRecordHeader} {l : List (BitVec 8)}
    (h : Holds m a (encodeHeader r ++ l)) : readHeader m a = r := by
  rw [encodeHeader, List.cons_append, List.cons_append, holds_cons, holds_cons] at h
  rw [readHeader, h.1, h.2.1]

/-- `ProcessorLocalApic` in memory. -/
def lapicLayout : Layout ProcessorLocalApic where
  size := 8
  read m a := ⟨readHeader m a, m (a + 2), m (a + 3), BitVec.ofNat (8 * 4) (load m (a + 4) 4)⟩
  encode r := encodeHeader r.header ++ ([r.acpiProcessorId, r.apicId] ++ bytes 4 r.flags.toNat)
  length_encode r := by simp [encodeHeader]
  read_congr h := by
    rw [readHeader_congr h (by decide), h 2 (by decide), h 3 (by decide),
      load_congr_add h 4 (by decide)]
  read_encode {m a r} h := by
    rw [readHeader_of_holds h]
    simp only [holds_append, holds_cons, encodeHeader, List.length_cons, List.length_nil] at h
    obtain ⟨-, ⟨h₂, h₃, -⟩, hflags⟩ := h
    rw [h₂, h₃, ofNat_load_of_holds hflags]

/-- `IoApicRecord` in memory. -/
def ioApicLayout : Layout IoApicRecord where
  size := 12
  read m a := ⟨readHeader m a, m (a + 2), m (a + 3), BitVec.ofNat (8 * 4) (load m (a + 4) 4),
    BitVec.ofNat (8 * 4) (load m (a + 8) 4)⟩
  encode r := encodeHeader r.header ++ ([r.ioApicId, r.reserved] ++
    (bytes 4 r.ioApicAddr.toNat ++ bytes 4 r.gsib.toNat))
  length_encode r := by simp [encodeHeader]
  read_congr h := by
    rw [readHeader_congr h (by decide), h 2 (by decide), h 3 (by decide),
      load_congr_add h 4 (by decide), load_congr_add h 8 (by decide)]
  read_encode {m a r} h := by
    rw [readHeader_of_holds h]
    simp only [holds_append, holds_cons, encodeHeader, List.length_cons, List.length_nil,
      length_bytes] at h
    obtain ⟨-, ⟨h₂, h₃, -⟩, haddr, hgsib⟩ := h
    rw [h₂, h₃, ofNat_load_of_holds haddr, ofNat_load_of_holds hgsib]

/-- `IntSourceOverrideRecord` in memory. -/
def isoLayout : Layout IntSourceOverrideRecord where
  size := 10
  read m a := ⟨readHeader m a, m (a + 2), m (a + 3), BitVec.ofNat (8 * 4) (load m (a + 4) 4),
    BitVec.ofNat (8 * 2) (load m (a + 8) 2)⟩
  encode r := encodeHeader r.header ++ ([r.busSource, r.irqSource] ++
    (bytes 4 r.gsi.toNat ++ bytes 2 r.flags.toNat))
  length_encode r := by simp [encodeHeader]
  read_congr h := by
    rw [readHeader_congr h (by decide), h 2 (by decide), h 3 (by decide),
      load_congr_add h 4 (by decide), load_congr_add h 8 (by decide)]
  read_encode {m a r} h := by
    rw [readHeader_of_holds h]
    simp only [holds_append, holds_cons, encodeHeader, List.length_cons, List.length_nil,
      length_bytes] at h
    obtain ⟨-, ⟨h₂, h₃, -⟩, hgsi, hflags⟩ := h
    rw [h₂, h₃, ofNat_load_of_holds hgsi, ofNat_load_of_holds hflags]

/-- `NmiSourceRecord` in memory. -/
def nmiSourceLayout : Layout NmiSourceRecord where
  size := 10
  read m a := ⟨readHeader m a, m (a + 2), m (a + 3), BitVec.ofNat (8 * 2) (load m (a + 4) 2),
    BitVec.ofNat (8 * 4) (load m (a + 6) 4)⟩
  encode r := encodeHeader r.header ++ ([r.nmiSource, r.reserved] ++
    (bytes 2 r.flags.toNat ++ bytes 4 r.gsi.toNat))
  length_encode r := by simp [encodeHeader]
  read_congr h := by
    rw [readHeader_congr h (by decide), h 2 (by decide), h 3 (by decide),
      load_congr_add h 4 (by decide), load_congr_add h 6 (by decide)]
  read_encode {m a r} h := by
    rw [readHeader_of_holds h]
    simp only [holds_append, holds_cons, encodeHeader, List.length_cons, List.length_nil,
      length_bytes] at h
    obtain ⟨-, ⟨h₂, h₃, -⟩, hflags, hgsi⟩ := h
    rw [h₂, h₃, ofNat_load_of_holds hflags, ofNat_load_of_holds hgsi]

/-- `NmiRecord` in memory. -/
def nmiLayout : Layout NmiRecord where
  size := 6
  read m a := ⟨readHeader m a, m (a + 2), BitVec.ofNat (8 * 2) (load m (a + 3) 2), m (a + 5)⟩
  encode r := encodeHeader r.header ++ ([r.acpiProcessorId] ++ (bytes 2 r.flags.toNat ++ [r.lint]))
  length_encode r := by simp [encodeHeader]
  read_congr h := by
    rw [readHeader_congr h (by decide), h 2 (by decide), load_congr_add h 3 (by decide),
      h 5 (by decide)]
  read_encode {m a r} h := by
    rw [readHeader_of_holds h]
    simp only [holds_append, holds_cons, encodeHeader, List.length_cons, List.length_nil,
      length_bytes] at h
    obtain ⟨-, ⟨h₂, -⟩, hflags, hlint, -⟩ := h
    rw [h₂, ofNat_load_of_holds hflags, hlint]

/-- `LApicAddrOverrideRecord` in memory. -/
def lapicAddrLayout : Layout LApicAddrOverrideRecord where
  size := 12
  read m a := ⟨readHeader m a, BitVec.ofNat (8 * 2) (load m (a + 2) 2),
    BitVec.ofNat (8 * 8) (load m (a + 4) 8)⟩
  encode r := encodeHeader r.header ++
    (bytes 2 r.reserved.toNat ++ bytes 8 r.localApicAddr.toNat)
  length_encode r := by simp [encodeHeader]
  read_congr h := by
    rw [readHeader_congr h (by decide), load_congr_add h 2 (by decide),
      load_congr_add h 4 (by decide)]
  read_encode {m a r} h := by
    rw [readHeader_of_holds h]
    simp only [holds_append, holds_cons, encodeHeader, List.length_cons, List.length_nil,
      length_bytes] at h
    obtain ⟨-, hres, haddr⟩ := h
    rw [ofNat_load_of_holds hres, ofNat_load_of_holds haddr]

/-! ### The state -/

/-- What registering an I/O APIC gets from elsewhere: the addresses where the registers of an I/O
APIC are, the id of the boot processor's LAPIC, and the bits on the stack for each I/O APIC and
interrupt. -/
structure Env where
  bspLapicId : BitVec 8
  junk : ℕ → ℕ → Ioredtbl
  controller : ℕ → Bool

/-- The machine, `SMP_INFO` and the controllers. -/
structure State where
  machine : Machine
  smp : SmpInfo
  hal : Hal

namespace State

/-- The sources `initialize_ioapic_ints` looks up in `SMP_INFO`. -/
def sources (env : Env) (s : State) : Hal.Sources where
  isos := isoLayout.array s.machine.mem s.smp.isos s.smp.numIsos
  nmiSources := nmiSourceLayout.array s.machine.mem s.smp.nmiSources s.smp.numNmiSources
  bspLapicId := env.bspLapicId
  junk := env.junk (s.smp.numIoApics - 1)

/-- Store a word of 32 bits. -/
def storeWord (s : State) (addr : ℕ) (v : ℕ) : State :=
  { s with machine := { s.machine with mem := store s.machine.mem addr 4 v } }

/-! ### Registering an I/O APIC -/

/-- `ioapic_read`. Without a controller at the address, `ioregsel` and `iowin` are words of
memory. -/
def ioapicRead (env : Env) (addr : ℕ) (offset : BitVec 8) (s : State) : BitVec 32 × State :=
  if env.controller addr then (s.hal.regs addr offset, s)
  else
    let s := s.storeWord addr offset.toNat
    (BitVec.ofNat 32 (load s.machine.mem (addr + 0x10) 4), s)

/-- `ioapic_write`. -/
def ioapicWrite (env : Env) (a : IoApic) (offset : BitVec 8) (val : BitVec 32) (s : State) :
    State :=
  if env.controller a.ioregsel then { s with hal := s.hal.ioapicWrite a offset val }
  else (s.storeWord a.ioregsel offset.toNat).storeWord (a.ioregsel + 0x10) val.toNat

/-- `ioapic_write_entry`. -/
def writeEntry (env : Env) (a : IoApic) (gsi : ℕ) (e : Ioredtbl) (s : State) : State :=
  (s.ioapicWrite env a (Hal.lowerReg (Hal.pin a gsi)) e.lowerDword).ioapicWrite env a
    (Hal.upperReg (Hal.pin a gsi)) e.upperDword

/-- One round of the loop of `initialize_ioapic_ints`. -/
def initializeGsi (env : Env) (a : IoApic) (gsi : ℕ) (s : State) : State :=
  if gsi = 0 then s
  else
    let e := Hal.initialEntry (s.sources env) gsi
    let attr := ⟨e, gsi, e.vector - 0x20, a.apicId⟩
    let vectorAttrs := Function.update s.hal.vectorAttrs e.vector attr
    let s := { s with hal := { s.hal with vectorAttrs := vectorAttrs } }
    s.writeEntry env a gsi (BitField.set 56 env.bspLapicId e)

/-- The loop of `initialize_ioapic_ints`, from `gsi` on. It makes `num_pins` rounds at most. -/
def initializeFrom (env : Env) (a : IoApic) : ℕ → ℕ → State → State
  | 0, _, s => s
  | rounds + 1, gsi, s =>
    if gsi < (a.minGsi + a.numPins) % 2 ^ 32 then
      initializeFrom env a rounds ((gsi + 1) % 2 ^ 32) (s.initializeGsi env a gsi)
    else s

/-- `register_ioapic`. -/
def registerIoapic (env : Env) (record : IoApicRecord) (s : State) : State :=
  let (ioapicIdReg, s) := s.ioapicRead env record.ioApicAddr.toNat 0
  let (ioapicVerReg, s) := s.ioapicRead env record.ioApicAddr.toNat 1
  let a := Hal.makeIoApic record ioapicIdReg ioapicVerReg
  let ioapics := Function.update s.hal.ioapics a.apicId (some a)
  let s := { s with hal := { s.hal with ioapics := ioapics } }
  s.initializeFrom env a a.numPins a.minGsi

/-! With a controller at the address, only the controllers change. -/

section Controller

variable {env : Env} {a : IoApic} {addr : ℕ}

theorem ioapicRead_of_controller (h : env.controller addr = true) (offset : BitVec 8) (s : State) :
    s.ioapicRead env addr offset = (s.hal.regs addr offset, s) :=
  if_pos h

theorem writeEntry_of_controller (h : env.controller a.ioregsel = true) (gsi : ℕ) (e : Ioredtbl)
    (s : State) : s.writeEntry env a gsi e = { s with hal := s.hal.writeEntry a gsi e } := by
  simp only [writeEntry, ioapicWrite, if_pos h, Hal.writeEntry]

theorem initializeGsi_of_controller (h : env.controller a.ioregsel = true) (gsi : ℕ) (s : State) :
    s.initializeGsi env a gsi =
      { s with hal := s.hal.initializeGsi (s.sources env) a gsi } := by
  by_cases hz : gsi = 0
  · simp only [initializeGsi, Hal.initializeGsi, if_pos hz]
  · simp only [initializeGsi, Hal.initializeGsi, if_neg hz, writeEntry_of_controller h]
    rfl

theorem initializeFrom_of_controller (h : env.controller a.ioregsel = true) (rounds gsi : ℕ)
    (s : State) : s.initializeFrom env a rounds gsi =
      { s with hal := s.hal.initializeFrom (s.sources env) a rounds gsi } := by
  induction rounds generalizing gsi s with
  | zero => rfl
  | succ rounds ih =>
    rw [initializeFrom, Hal.initializeFrom]
    split_ifs with hlt
    · rw [ih, initializeGsi_of_controller h]
      rfl
    · rfl

theorem registerIoapic_of_controller {record : IoApicRecord}
    (h : env.controller record.ioApicAddr.toNat = true) (s : State) :
    s.registerIoapic env record =
      { s with hal := s.hal.registerIoapic (s.sources env) record } := by
  simp only [registerIoapic, ioapicRead_of_controller h]
  exact initializeFrom_of_controller h _ _ _

end Controller

/-! Without one, the two words change. -/

/-- The bytes of `ioregsel` and `iowin`. -/
def window (addr : ℕ) : Set ℕ := {x | addr ≤ x ∧ x < addr + 4 ∨ addr + 0x10 ≤ x ∧ x < addr + 0x14}

/-- What registering an I/O APIC leaves: `SMP_INFO`, the frames, and the memory outside the two
words. -/
structure Stays (addr : ℕ) (s s' : State) : Prop where
  smp : s'.smp = s.smp
  frames : s'.machine.frames = s.machine.frames
  next : s'.machine.next = s.machine.next
  mem : ∀ x, x ∉ window addr → s'.machine.mem x = s.machine.mem x

namespace Stays

variable {env : Env} {a : IoApic} {addr : ℕ} {s s₁ s₂ : State}

theorem refl (addr : ℕ) (s : State) : Stays addr s s := ⟨rfl, rfl, rfl, fun _ _ => rfl⟩

theorem trans (h : Stays addr s s₁) (h' : Stays addr s₁ s₂) : Stays addr s s₂ :=
  ⟨h'.smp.trans h.smp, h'.frames.trans h.frames, h'.next.trans h.next,
    fun x hx => (h'.mem x hx).trans (h.mem x hx)⟩

theorem hal (addr : ℕ) (s : State) (h : Hal) : Stays addr s { s with hal := h } :=
  ⟨rfl, rfl, rfl, fun _ _ => rfl⟩

theorem select (addr : ℕ) (s : State) (v : ℕ) : Stays addr s (s.storeWord addr v) := by
  refine ⟨rfl, rfl, rfl, fun x hx => store_of_notMem ?_⟩
  rw [window, Set.mem_ofPred_eq] at hx
  omega

theorem value (addr : ℕ) (s : State) (v : ℕ) : Stays addr s (s.storeWord (addr + 0x10) v) := by
  refine ⟨rfl, rfl, rfl, fun x hx => store_of_notMem ?_⟩
  rw [window, Set.mem_ofPred_eq] at hx
  omega

theorem ioapicRead (env : Env) (addr : ℕ) (offset : BitVec 8) (s : State) :
    Stays addr s (s.ioapicRead env addr offset).2 := by
  rw [State.ioapicRead]
  split_ifs
  · exact refl addr s
  · exact select addr s _

theorem ioapicWrite (env : Env) (a : IoApic) (offset : BitVec 8) (val : BitVec 32) (s : State) :
    Stays a.ioregsel s (s.ioapicWrite env a offset val) := by
  rw [State.ioapicWrite]
  split_ifs
  · exact hal a.ioregsel s _
  · exact (select a.ioregsel s _).trans (value a.ioregsel _ _)

theorem initializeGsi (env : Env) (a : IoApic) (gsi : ℕ) (s : State) :
    Stays a.ioregsel s (s.initializeGsi env a gsi) := by
  by_cases hz : gsi = 0
  · rw [State.initializeGsi, if_pos hz]
    exact refl a.ioregsel s
  · simp only [State.initializeGsi, if_neg hz, writeEntry]
    exact ((hal a.ioregsel s _).trans (ioapicWrite env a _ _ _)).trans (ioapicWrite env a _ _ _)

theorem initializeFrom (env : Env) (a : IoApic) (rounds gsi : ℕ) (s : State) :
    Stays a.ioregsel s (s.initializeFrom env a rounds gsi) := by
  induction rounds generalizing gsi s with
  | zero => exact refl a.ioregsel s
  | succ rounds ih =>
    rw [State.initializeFrom]
    split_ifs
    · exact (initializeGsi env a gsi s).trans (ih _ _)
    · exact refl a.ioregsel s

end Stays

/-- Registering an I/O APIC stores into the two words at its address at most. -/
theorem registerIoapic_stays (env : Env) (record : IoApicRecord) (s : State) :
    Stays record.ioApicAddr.toNat s (s.registerIoapic env record) := by
  have hid := Stays.ioapicRead env record.ioApicAddr.toNat 0 s
  have hver := Stays.ioapicRead env record.ioApicAddr.toNat 1
    (s.ioapicRead env record.ioApicAddr.toNat 0).2
  simp only [registerIoapic]
  exact (hid.trans hver).trans ((Stays.hal _ _ _).trans
    (Stays.initializeFrom env (Hal.makeIoApic record _ _) _ _ _))

end State

/-- The registers of an I/O APIC are those of a controller, or words of memory apart from some
bytes. -/
def Env.Spares (env : Env) (addr : ℕ) (bytes : Set ℕ) : Prop :=
  env.controller addr = true ∨ ∀ x ∈ State.window addr, x ∉ bytes

theorem State.mem_registerIoapic {env : Env} {record : IoApicRecord} {bytes : Set ℕ} {x : ℕ}
    (h : env.Spares record.ioApicAddr.toNat bytes) (hx : x ∈ bytes) (s : State) :
    (s.registerIoapic env record).machine.mem x = s.machine.mem x := by
  rcases h with hcontroller | hapart
  · rw [registerIoapic_of_controller hcontroller]
  · exact (registerIoapic_stays env record s).mem x fun hwindow => hapart x hwindow hx

/-! ### `ParseMadt` -/

/-- Copy a record behind the last element of an array. -/
def State.append {α : Type} (s : State) (L : Layout α) (array num record : ℕ) : Machine :=
  { s.machine with mem := move s.machine.mem (array + L.size * num) record L.size }

/-- The `switch` on the type of a record. -/
def parseRecord (env : Env) (record : ℕ) (s : State) : State :=
  match (s.machine.mem record).toNat with
  | 0x00 =>
    { s with
      machine := s.append lapicLayout s.smp.lapics s.smp.numLapics record
      smp := { s.smp with numLapics := s.smp.numLapics + 1 } }
  | 0x01 =>
    let ioapicRecord := ioApicLayout.read s.machine.mem record
    let s := { s with
      machine := s.append ioApicLayout s.smp.ioApics s.smp.numIoApics record
      smp := { s.smp with numIoApics := s.smp.numIoApics + 1 } }
    s.registerIoapic env ioapicRecord
  | 0x02 =>
    { s with
      machine := s.append isoLayout s.smp.isos s.smp.numIsos record
      smp := { s.smp with numIsos := s.smp.numIsos + 1 } }
  | 0x03 =>
    { s with
      machine := s.append nmiSourceLayout s.smp.nmiSources s.smp.numNmiSources record
      smp := { s.smp with numNmiSources := s.smp.numNmiSources + 1 } }
  | 0x04 =>
    { s with
      machine := s.append nmiLayout s.smp.nmis s.smp.numNmis record
      smp := { s.smp with numNmis := s.smp.numNmis + 1 } }
  | 0x05 =>
    let addr := lapicAddrLayout.read s.machine.mem record
    { s with smp := { s.smp with lapicAddr := addr.localApicAddr } }
  | _ => s

/-- `MADT_RECORDS_OFFSET`. -/
def madtRecordsOffset : ℕ := 0x2C

/-- The loop of `ParseMadt`, from offset `i` on. -/
def parseRecords (env : Env) (madt : ℕ) (madtLen : ℤ) : ℕ → ℕ → State → Option State
  | 0, _, _ => none
  | fuel + 1, i, s =>
    if (madtRecordsOffset + i : ℤ) < madtLen then
      let record := madt + madtRecordsOffset + i
      let recordLen := (s.machine.mem (record + 1)).toNat
      parseRecords env madt madtLen fuel (i + recordLen) (parseRecord env record s)
    else some s

/-- `AllocFirstFrame`, as a pointer. -/
def State.allocFirstFrame (s : State) : ℕ × State :=
  (s.machine.allocFirstFrame.1.getD 0, { s with machine := s.machine.allocFirstFrame.2 })

/-- The arrays of `SMP_INFO`. -/
def allocArrays (s : State) : State :=
  let (f, s) := s.allocFirstFrame
  let s := { s with smp := { s.smp with ioApics := f } }
  let (f, s) := s.allocFirstFrame
  let s := { s with smp := { s.smp with lapics := f } }
  let (f, s) := s.allocFirstFrame
  let s := { s with smp := { s.smp with isos := f } }
  let (f, s) := s.allocFirstFrame
  let s := { s with smp := { s.smp with nmiSources := f } }
  let (f, s) := s.allocFirstFrame
  { s with smp := { s.smp with nmis := f } }

/-- `ParseMadt`, for a table at `madt`. -/
def parseMadt (env : Env) (fuel madt : ℕ) (s : State) : Option State :=
  let madtLen := int32 (load s.machine.mem (madt + 4) 4)
  parseRecords env madt madtLen fuel 0 (allocArrays s)

end Madt

end Vardar
