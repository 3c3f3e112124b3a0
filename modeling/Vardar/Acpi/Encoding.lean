import Vardar.Acpi.Madt

/-!
# The encoding of the MADT

A table is the encoding of a list of records. `ParseMadt` collects the records of the list: its
state always matches what was collected from the records so far, which is a fold over the list.

## Main definitions

* `Vardar.MadtRecord`, `Vardar.MadtRecord.encode`, `Vardar.MadtRecord.WellFormed`.
* `Vardar.Madt.Kind`: the kinds of records that have an array.
* `Vardar.Madt.Collected`, `Vardar.Madt.Collected.add`: what is collected from records.
* `Vardar.Madt.Apart`: the frames of the arrays are apart from each other and from the table.
* `Vardar.Madt.Env.Clear`: registering the I/O APICs stores into neither.
* `Vardar.Madt.Matches`: a state of the parser has collected something.
* `Vardar.Madt.Table`: the encoding of a list of records is in memory.

## Main results

* `Vardar.Madt.parseRecords_collects`: the loop collects the records of the table.
* `Vardar.Madt.parseMadt_collects`, `Vardar.Madt.parseMadt_inverts`.
-/

namespace Vardar

open ByteMemory Word

/-! ### Records -/

/-- The records of a table. The last kind are those that `ParseMadt` ignores. -/
inductive MadtRecord
  | lapic (r : ProcessorLocalApic)
  | ioApic (r : IoApicRecord)
  | iso (r : IntSourceOverrideRecord)
  | nmiSource (r : NmiSourceRecord)
  | nmi (r : NmiRecord)
  | lapicAddr (r : LApicAddrOverrideRecord)
  | other (header : MadtRecordHeader) (body : List (BitVec 8))
  deriving DecidableEq

namespace MadtRecord

/-- The header of a record. -/
def header : MadtRecord → MadtRecordHeader
  | lapic r => r.header
  | ioApic r => r.header
  | iso r => r.header
  | nmiSource r => r.header
  | nmi r => r.header
  | lapicAddr r => r.header
  | other header _ => header

/-- The bytes of a record. -/
def encode : MadtRecord → List (BitVec 8)
  | lapic r => Madt.lapicLayout.encode r
  | ioApic r => Madt.ioApicLayout.encode r
  | iso r => Madt.isoLayout.encode r
  | nmiSource r => Madt.nmiSourceLayout.encode r
  | nmi r => Madt.nmiLayout.encode r
  | lapicAddr r => Madt.lapicAddrLayout.encode r
  | other header body => Madt.encodeHeader header ++ body

/-- The types that the kind of a record has. -/
def HasType (n : ℕ) : MadtRecord → Prop
  | lapic _ => n = 0
  | ioApic _ => n = 1
  | iso _ => n = 2
  | nmiSource _ => n = 3
  | nmi _ => n = 4
  | lapicAddr _ => n = 5
  | other _ _ => 5 < n

/-- The type and the length in the header are those of the record. -/
structure WellFormed (r : MadtRecord) : Prop where
  type : r.HasType r.header.recordType.toNat
  len : r.header.recordLen.toNat = r.encode.length

/-- The address of an address override. -/
def lapicAddr? : MadtRecord → Option (BitVec 64)
  | lapicAddr r => some r.localApicAddr
  | _ => none

end MadtRecord

namespace Madt

/-! ### Kinds of records -/

/-- The kinds of records that are kept, in the order in which their arrays are allocated. -/
inductive Kind
  | ioApic
  | lapic
  | iso
  | nmiSource
  | nmi
  deriving DecidableEq

namespace Kind

/-- The position of the array in the order of allocation. -/
def order : Kind → ℕ
  | ioApic => 0
  | lapic => 1
  | iso => 2
  | nmiSource => 3
  | nmi => 4

/-- The records of a kind. -/
abbrev Record : Kind → Type
  | ioApic => IoApicRecord
  | lapic => ProcessorLocalApic
  | iso => IntSourceOverrideRecord
  | nmiSource => NmiSourceRecord
  | nmi => NmiRecord

/-- The layout of a kind. -/
def layout : (k : Kind) → Layout k.Record
  | ioApic => ioApicLayout
  | lapic => lapicLayout
  | iso => isoLayout
  | nmiSource => nmiSourceLayout
  | nmi => nmiLayout

/-- The type of the records of a kind. -/
def type : Kind → ℕ
  | lapic => 0x00
  | ioApic => 0x01
  | iso => 0x02
  | nmiSource => 0x03
  | nmi => 0x04

/-- The record, if it is of the kind. -/
def of? : (k : Kind) → MadtRecord → Option k.Record
  | ioApic, .ioApic r => some r
  | lapic, .lapic r => some r
  | iso, .iso r => some r
  | nmiSource, .nmiSource r => some r
  | nmi, .nmi r => some r
  | _, _ => none

end Kind

theorem mem_filterMap_ioApic {r : IoApicRecord} {l : List MadtRecord} :
    r ∈ l.filterMap (Kind.of? .ioApic) ↔ MadtRecord.ioApic r ∈ l := by
  rw [List.mem_filterMap]
  constructor
  · rintro ⟨x, hx, hof⟩
    cases x with
    | ioApic r' => exact (Option.some.inj hof) ▸ hx
    | lapic r' => nomatch hof
    | iso r' => nomatch hof
    | nmiSource r' => nomatch hof
    | nmi r' => nomatch hof
    | lapicAddr r' => nomatch hof
    | other header body => nomatch hof
  · intro hmem
    exact ⟨_, hmem, rfl⟩

/-- The address of the array of a kind. -/
def frame (smp : SmpInfo) : Kind → ℕ
  | .ioApic => smp.ioApics
  | .lapic => smp.lapics
  | .iso => smp.isos
  | .nmiSource => smp.nmiSources
  | .nmi => smp.nmis

/-- The number of records of a kind. -/
def num (smp : SmpInfo) : Kind → ℕ
  | .ioApic => smp.numIoApics
  | .lapic => smp.numLapics
  | .iso => smp.numIsos
  | .nmiSource => smp.numNmiSources
  | .nmi => smp.numNmis

/-- One record more of a kind. -/
def bump (smp : SmpInfo) : Kind → SmpInfo
  | .ioApic => { smp with numIoApics := smp.numIoApics + 1 }
  | .lapic => { smp with numLapics := smp.numLapics + 1 }
  | .iso => { smp with numIsos := smp.numIsos + 1 }
  | .nmiSource => { smp with numNmiSources := smp.numNmiSources + 1 }
  | .nmi => { smp with numNmis := smp.numNmis + 1 }

theorem frame_bump (smp : SmpInfo) (k j : Kind) : frame (bump smp k) j = frame smp j := by
  cases k <;> rfl

theorem num_bump_self (smp : SmpInfo) (k : Kind) : num (bump smp k) k = num smp k + 1 := by
  cases k <;> rfl

theorem num_bump_of_ne (smp : SmpInfo) {k j : Kind} (h : j ≠ k) :
    num (bump smp k) j = num smp j := by
  cases k <;> cases j <;> first | rfl | exact absurd rfl h

theorem lapicAddr_bump (smp : SmpInfo) (k : Kind) : (bump smp k).lapicAddr = smp.lapicAddr := by
  cases k <;> rfl

/-! ### Collecting -/

/-- What `ParseMadt` collects. -/
structure Collected where
  lapics : List ProcessorLocalApic
  ioApics : List IoApicRecord
  isos : List IntSourceOverrideRecord
  nmiSources : List NmiSourceRecord
  nmis : List NmiRecord
  lapicAddr : BitVec 64
  hal : Hal

namespace Collected

/-- Nothing is collected yet. -/
def empty (hal : Hal) : Collected := ⟨[], [], [], [], [], defaultLapicAddr, hal⟩

/-- The records of a kind. -/
def list (c : Collected) : (k : Kind) → List k.Record
  | .ioApic => c.ioApics
  | .lapic => c.lapics
  | .iso => c.isos
  | .nmiSource => c.nmiSources
  | .nmi => c.nmis

/-- One record more of a kind. -/
def push (c : Collected) : (k : Kind) → k.Record → Collected
  | .ioApic, r => { c with ioApics := c.ioApics ++ [r] }
  | .lapic, r => { c with lapics := c.lapics ++ [r] }
  | .iso, r => { c with isos := c.isos ++ [r] }
  | .nmiSource, r => { c with nmiSources := c.nmiSources ++ [r] }
  | .nmi, r => { c with nmis := c.nmis ++ [r] }

theorem list_push_self (c : Collected) (k : Kind) (r : k.Record) :
    (c.push k r).list k = c.list k ++ [r] := by
  cases k <;> rfl

theorem list_push_of_ne (c : Collected) {k j : Kind} (h : j ≠ k) (r : k.Record) :
    (c.push k r).list j = c.list j := by
  cases k <;> cases j <;> first | rfl | exact absurd rfl h

theorem lapicAddr_push (c : Collected) (k : Kind) (r : k.Record) :
    (c.push k r).lapicAddr = c.lapicAddr := by
  cases k <;> rfl

theorem hal_push (c : Collected) (k : Kind) (r : k.Record) : (c.push k r).hal = c.hal := by
  cases k <;> rfl

theorem mem_ioApics_push (c : Collected) (k : Kind) (r : k.Record) {x : IoApicRecord}
    (hx : x ∈ c.ioApics) : x ∈ (c.push k r).ioApics := by
  cases k with
  | ioApic => exact List.mem_append_left [r] hx
  | lapic | iso | nmiSource | nmi => exact hx

/-- The sources for the next I/O APIC. -/
def sources (env : Env) (c : Collected) : Hal.Sources :=
  ⟨c.isos, c.nmiSources, env.bspLapicId, env.junk c.ioApics.length⟩

/-- Collect a record. -/
def add (env : Env) (c : Collected) : MadtRecord → Collected
  | .lapic r => c.push .lapic r
  | .ioApic r => { c.push .ioApic r with hal := c.hal.registerIoapic (c.sources env) r }
  | .iso r => c.push .iso r
  | .nmiSource r => c.push .nmiSource r
  | .nmi r => c.push .nmi r
  | .lapicAddr r => { c with lapicAddr := r.localApicAddr }
  | .other _ _ => c

/-- The arrays fit in a frame each. -/
def Fits (c : Collected) : Prop := ∀ k, k.layout.size * (c.list k).length ≤ frameSize

theorem list_add (env : Env) (c : Collected) (r : MadtRecord) (k : Kind) :
    (c.add env r).list k = c.list k ++ (k.of? r).toList := by
  cases r <;> cases k <;> first | rfl | exact (List.append_nil _).symm

variable (env : Env) (records : List MadtRecord) (c : Collected)

/-- The records of a kind are collected in order. -/
theorem list_foldl_add (k : Kind) :
    (records.foldl (add env) c).list k = c.list k ++ records.filterMap k.of? := by
  induction records generalizing c with
  | nil => simp
  | cons r records ih =>
    rw [List.foldl_cons, ih, list_add, List.append_assoc]
    cases hk : k.of? r with
    | none => simp [hk]
    | some x => simp [hk]

/-- The last address counts. -/
theorem lapicAddr_foldl_add : (records.foldl (add env) c).lapicAddr =
    (records.filterMap MadtRecord.lapicAddr?).getLast?.getD c.lapicAddr := by
  induction records generalizing c with
  | nil => rfl
  | cons r records ih =>
    rw [List.foldl_cons, ih]
    cases r with
    | lapicAddr r =>
      have hcons : (MadtRecord.lapicAddr r :: records).filterMap MadtRecord.lapicAddr? =
          r.localApicAddr :: records.filterMap MadtRecord.lapicAddr? := rfl
      rw [hcons, List.getLast?_cons, Option.getD_some]
      rfl
    | lapic r => rfl
    | ioApic r => rfl
    | iso r => rfl
    | nmiSource r => rfl
    | nmi r => rfl
    | other header body => rfl

theorem Fits.of_foldl_add (h : (records.foldl (add env) c).Fits) : c.Fits := by
  intro k
  have hk := h k
  rw [list_foldl_add, List.length_append, Nat.mul_add] at hk
  omega

end Collected

/-! ### States that match -/

/-- The frames of the arrays overlap neither each other nor a table of the given length. -/
structure Apart (f : Kind → ℕ) (madt len : ℕ) : Prop where
  frames : ∀ j k, j ≠ k → f j + frameSize ≤ f k ∨ f k + frameSize ≤ f j
  table : ∀ k, f k + frameSize ≤ madt ∨ madt + len ≤ f k

/-- The bytes of a table of the given length and of the frames. -/
def used (f : Kind → ℕ) (madt len : ℕ) : Set ℕ :=
  {x | madt ≤ x ∧ x < madt + len ∨ ∃ k, f k ≤ x ∧ x < f k + frameSize}

/-- The addresses in some records are those of I/O APICs. -/
def Env.Controls (env : Env) (records : List MadtRecord) : Prop :=
  ∀ r, MadtRecord.ioApic r ∈ records → env.controller r.ioApicAddr.toNat = true

/-- Registering the I/O APICs of some records stores neither into the table nor into the frames. -/
def Env.Clear (env : Env) (f : Kind → ℕ) (madt len : ℕ) (records : List MadtRecord) : Prop :=
  ∀ r, MadtRecord.ioApic r ∈ records → env.Spares r.ioApicAddr.toNat (used f madt len)

theorem Env.Controls.clear {env : Env} {f : Kind → ℕ} {madt len : ℕ} {records : List MadtRecord}
    (h : env.Controls records) : env.Clear f madt len records :=
  fun r hr => .inl (h r hr)

/-- The state of the parser has collected something into the frames. Controllers are known if the
I/O APICs have some. -/
structure Matches (env : Env) (f : Kind → ℕ) (s : State) (c : Collected) : Prop where
  frame : ∀ k, frame s.smp k = f k
  list : ∀ k, k.layout.array s.machine.mem (f k) (num s.smp k) = c.list k
  lapicAddr : s.smp.lapicAddr = c.lapicAddr
  hal : (∀ r ∈ c.ioApics, env.controller r.ioApicAddr.toNat = true) → s.hal = c.hal

theorem Matches.num {env : Env} {f : Kind → ℕ} {s : State} {c : Collected}
    (hm : Matches env f s c) (k : Kind) : num s.smp k = (c.list k).length := by
  rw [← hm.list k, Layout.length_array]

/-- A state with one record more of a kind, as the branches of the `switch` make it. -/
def appended (s : State) (k : Kind) (record : ℕ) : State :=
  { s with machine := s.append k.layout (frame s.smp k) (num s.smp k) record, smp := bump s.smp k }

/-- The branches of the `switch` that only append a record. -/
theorem parseRecord_of_type {env : Env} {record : ℕ} {s : State} {k : Kind}
    (h : (s.machine.mem record).toNat = k.type) (hk : k ≠ .ioApic) :
    parseRecord env record s = appended s k record := by
  cases k with
  | ioApic => exact absurd rfl hk
  | lapic | iso | nmiSource | nmi =>
    simp only [parseRecord, h, Kind.type]
    rfl

/-- The branch of the `switch` that also registers an I/O APIC. -/
theorem parseRecord_ioApic {env : Env} {record : ℕ} {s : State}
    (h : (s.machine.mem record).toNat = Kind.ioApic.type) :
    parseRecord env record s = (appended s .ioApic record).registerIoapic env
      (ioApicLayout.read s.machine.mem record) := by
  simp only [parseRecord, h, Kind.type]
  rfl

/-- The state after a step matches, and the table stays. -/
def Steps (env : Env) (f : Kind → ℕ) (madt len : ℕ) (s s' : State) (c' : Collected) : Prop :=
  Matches env f s' c' ∧ ∀ x, madt ≤ x → x < madt + len → s'.machine.mem x = s.machine.mem x

section Step

variable {env : Env} {f : Kind → ℕ} {s : State} {c : Collected} {r : MadtRecord}
  {record madt len : ℕ}

theorem steps_appended (hap : Apart f madt len) (hm : Matches env f s c) (hfit : c.Fits) {k : Kind}
    {r : k.Record} (hfit' : (c.push k r).Fits)
    (hrec : Holds s.machine.mem record (k.layout.encode r)) :
    Steps env f madt len s (appended s k record) (c.push k r) := by
  have hk := hfit' k
  rw [Collected.list_push_self, List.length_append, List.length_singleton, ← hm.num k,
    Nat.mul_succ] at hk
  have hmem : ∀ x, x < f k ∨ f k + frameSize ≤ x →
      (appended s k record).machine.mem x = s.machine.mem x := by
    intro x hx
    rw [← hm.frame k] at hx
    exact move_of_notMem (by omega)
  refine ⟨⟨fun j => ?_, fun j => ?_, ?_, ?_⟩, fun x hx hx' => hmem x ?_⟩
  · exact (frame_bump s.smp k j).trans (hm.frame j)
  · by_cases hj : j = k
    · subst hj
      rw [Collected.list_push_self, ← hm.list j, ← j.layout.read_encode hrec, ← hm.frame j]
      exact (congrArg _ (num_bump_self s.smp j)).trans (j.layout.array_move ..)
    · have hsize := hfit j
      rw [← hm.num j] at hsize
      have hd := hap.frames j k hj
      rw [Collected.list_push_of_ne c hj, ← hm.list j]
      exact (congrArg _ (num_bump_of_ne s.smp hj)).trans
        (j.layout.array_congr fun x hx hx' => hmem x (by omega))
  · exact (lapicAddr_bump s.smp k).trans (hm.lapicAddr.trans (c.lapicAddr_push k r).symm)
  · exact fun hio => (hm.hal fun x hx => hio x (c.mem_ioApics_push k r hx)).trans
      (c.hal_push k r).symm
  · have ht := hap.table k
    omega

theorem readHeader_of_encode {m : Mem} {a : ℕ} (h : Holds m a r.encode) :
    readHeader m a = r.header := by
  cases r with
  | lapic r => exact readHeader_of_holds h
  | ioApic r => exact readHeader_of_holds h
  | iso r => exact readHeader_of_holds h
  | nmiSource r => exact readHeader_of_holds h
  | nmi r => exact readHeader_of_holds h
  | lapicAddr r => exact readHeader_of_holds h
  | other header body => exact readHeader_of_holds h

/-- Registering an I/O APIC uses what was collected before its record. -/
theorem sources_appended {r : IoApicRecord}
    (hm : Matches env f (appended s .ioApic record) (c.push .ioApic r)) :
    (appended s .ioApic record).sources env = c.sources env := by
  have hiso := hm.list .iso
  have hsrc := hm.list .nmiSource
  have hnum := hm.num .ioApic
  rw [← hm.frame .iso] at hiso
  rw [← hm.frame .nmiSource] at hsrc
  rw [Collected.list_push_self, List.length_append, List.length_singleton] at hnum
  have hjunk : (appended s .ioApic record).smp.numIoApics - 1 = c.ioApics.length :=
    Nat.sub_eq_of_eq_add hnum
  rw [State.sources, Collected.sources, hjunk]
  exact congrArg₂ (Hal.Sources.mk · · _ _) hiso hsrc

/-- Registering an I/O APIC after its record is stored. -/
theorem steps_registerIoapic {r : IoApicRecord}
    (hspares : env.Spares r.ioApicAddr.toNat (used f madt len)) (hfit : (c.push .ioApic r).Fits)
    (hm : Steps env f madt len s (appended s .ioApic record) (c.push .ioApic r)) :
    Steps env f madt len s ((appended s .ioApic record).registerIoapic env r)
      (c.add env (.ioApic r)) := by
  obtain ⟨hm, htable⟩ := hm
  have hstays := State.registerIoapic_stays env r (appended s .ioApic record)
  refine ⟨⟨fun k => ?_, fun k => ?_, ?_, fun hio => ?_⟩, fun x hx hx' => ?_⟩
  · rw [hstays.smp, hm.frame k]
  · have hk := hfit k
    rw [← hm.num k] at hk
    rw [hstays.smp]
    refine Eq.trans (k.layout.array_congr fun x hx hx' => ?_) (hm.list k)
    exact State.mem_registerIoapic hspares (.inr ⟨k, hx, by omega⟩) _
  · rw [hstays.smp]
    exact hm.lapicAddr
  · rw [State.registerIoapic_of_controller (hio r (List.mem_append_right _ List.mem_cons_self)),
      sources_appended hm]
    exact congrArg (Hal.registerIoapic (c.sources env) r) (hm.hal hio)
  · rw [State.mem_registerIoapic hspares (.inl ⟨hx, hx'⟩), htable x hx hx']

/-- A record is collected. -/
theorem parseRecord_steps (hap : Apart f madt len) (hm : Matches env f s c)
    (hfit : (c.add env r).Fits) (hwf : r.WellFormed) (hclear : env.Clear f madt len [r])
    (hrec : Holds s.machine.mem record r.encode) :
    Steps env f madt len s (parseRecord env record s) (c.add env r) := by
  have htype : (s.machine.mem record).toNat = r.header.recordType.toNat := by
    rw [← readHeader_of_encode hrec]
    rfl
  have hbefore : c.Fits := Collected.Fits.of_foldl_add env [r] c hfit
  cases r with
  | lapic r =>
    rw [parseRecord_of_type (k := .lapic) (htype.trans hwf.type) (by decide)]
    exact steps_appended hap hm hbefore hfit hrec
  | ioApic r =>
    rw [parseRecord_ioApic (htype.trans hwf.type), ioApicLayout.read_encode hrec]
    exact steps_registerIoapic (hclear r List.mem_cons_self) hfit
      (steps_appended hap hm hbefore (k := .ioApic) hfit hrec)
  | iso r =>
    rw [parseRecord_of_type (k := .iso) (htype.trans hwf.type) (by decide)]
    exact steps_appended hap hm hbefore hfit hrec
  | nmiSource r =>
    rw [parseRecord_of_type (k := .nmiSource) (htype.trans hwf.type) (by decide)]
    exact steps_appended hap hm hbefore hfit hrec
  | nmi r =>
    rw [parseRecord_of_type (k := .nmi) (htype.trans hwf.type) (by decide)]
    exact steps_appended hap hm hbefore hfit hrec
  | lapicAddr r =>
    have hfive : (s.machine.mem record).toNat = 5 := htype.trans hwf.type
    have hparse : parseRecord env record s =
        { s with smp := { s.smp with lapicAddr := r.localApicAddr } } := by
      simp only [parseRecord, hfive, lapicAddrLayout.read_encode hrec]
    rw [hparse]
    exact ⟨⟨fun k => hm.frame k, fun k => hm.list k, rfl, hm.hal⟩, fun _ _ _ => rfl⟩
  | other header body =>
    have hlt : 5 < (s.machine.mem record).toNat := htype ▸ hwf.type
    have hparse : parseRecord env record s = s := by
      rw [parseRecord]
      split
      all_goals first | omega | rfl
    rw [hparse]
    exact ⟨hm, fun _ _ _ => rfl⟩

/-- The loop collects the records that are left. -/
theorem parseRecords_collects (hap : Apart f madt len) (records : List MadtRecord)
    (hwf : ∀ r ∈ records, r.WellFormed) (hclear : env.Clear f madt len records) {i fuel : ℕ}
    (hfuel : records.length < fuel) (hm : Matches env f s c)
    (hfit : (records.foldl (Collected.add env) c).Fits)
    (hholds : Holds s.machine.mem (madt + madtRecordsOffset + i)
      (records.flatMap MadtRecord.encode))
    (hlen : madtRecordsOffset + i + (records.flatMap MadtRecord.encode).length = len) :
    ∃ s', parseRecords env madt len fuel i s = some s' ∧
      Matches env f s' (records.foldl (Collected.add env) c) := by
  induction records generalizing i fuel s c with
  | nil =>
    obtain ⟨fuel, rfl⟩ := Nat.exists_eq_add_of_lt hfuel
    refine ⟨s, ?_, hm⟩
    rw [parseRecords, if_neg]
    rw [List.flatMap_nil, List.length_nil] at hlen
    omega
  | cons r records ih =>
    obtain ⟨fuel, rfl⟩ := Nat.exists_eq_succ_of_ne_zero (Nat.ne_zero_of_lt hfuel)
    have hwfr := hwf r List.mem_cons_self
    rw [List.flatMap_cons, holds_append] at hholds
    rw [List.flatMap_cons, List.length_append] at hlen
    rw [List.length_cons] at hfuel
    have hheader := readHeader_of_encode hholds.1
    have hrecordLen : (s.machine.mem (madt + madtRecordsOffset + i + 1)).toNat =
        r.encode.length := by
      rw [← hwfr.len, ← hheader]
      rfl
    -- a record has at least its header
    have hpos : 2 ≤ r.encode.length := by
      cases r with
      | other header body => simp [MadtRecord.encode, encodeHeader]
      | lapic r => simp [MadtRecord.encode, lapicLayout, encodeHeader]
      | ioApic r => simp [MadtRecord.encode, ioApicLayout, encodeHeader]
      | iso r => simp [MadtRecord.encode, isoLayout, encodeHeader]
      | nmiSource r => simp [MadtRecord.encode, nmiSourceLayout, encodeHeader]
      | nmi r => simp [MadtRecord.encode, nmiLayout, encodeHeader]
      | lapicAddr r => simp [MadtRecord.encode, lapicAddrLayout, encodeHeader]
    have hfitr : (c.add env r).Fits := Collected.Fits.of_foldl_add env records _ hfit
    have hclearr : env.Clear f madt len [r] := fun x hx =>
      hclear x (List.mem_cons.mpr (.inl (List.mem_singleton.mp hx)))
    obtain ⟨hm', hmem⟩ := parseRecord_steps hap hm hfitr hwfr hclearr hholds.1
    have hrest : Holds (parseRecord env (madt + madtRecordsOffset + i) s).machine.mem
        (madt + madtRecordsOffset + (i + r.encode.length))
        (records.flatMap MadtRecord.encode) := by
      rw [← add_assoc]
      exact hholds.2.congr fun x hx hx' => (hmem x (by omega) (by omega)).symm
    obtain ⟨s', hparse, hmatch⟩ := ih (fun r' hr' => hwf r' (List.mem_cons_of_mem r hr'))
      (fun x hx => hclear x (List.mem_cons_of_mem r hx)) (Nat.lt_of_succ_lt_succ hfuel) hm' hfit
      hrest (by omega)
    refine ⟨s', ?_, hmatch⟩
    rw [parseRecords, if_pos (by omega)]
    simp only [hrecordLen]
    exact hparse

/-- The state after the arrays are allocated. -/
theorem allocArrays_eq (hsmp : s.smp = SmpInfo.initial)
    (hf : ∀ k : Kind, s.machine.frames (s.machine.next + k.order) = some (f k)) :
    allocArrays s = ⟨⟨fill (fill (fill (fill (fill s.machine.mem (f .ioApic) 0 frameSize)
      (f .lapic) 0 frameSize) (f .iso) 0 frameSize) (f .nmiSource) 0 frameSize) (f .nmi) 0
        frameSize, s.machine.frames, s.machine.next + 5⟩,
      ⟨0, f .ioApic, 0, f .lapic, 0, f .iso, 0, f .nmiSource, 0, f .nmi, defaultLapicAddr⟩,
      s.hal⟩ := by
  have h₀ : s.machine.frames s.machine.next = _ := hf .ioApic
  have h₁ : s.machine.frames (s.machine.next + 1) = _ := hf .lapic
  have h₂ : s.machine.frames (s.machine.next + 2) = _ := hf .iso
  have h₃ : s.machine.frames (s.machine.next + 3) = _ := hf .nmiSource
  have h₄ : s.machine.frames (s.machine.next + 4) = _ := hf .nmi
  simp [allocArrays, State.allocFirstFrame, Machine.allocFirstFrame, Machine.take, h₀, h₁, h₂,
    h₃, h₄, hsmp, SmpInfo.initial, memset_zero]

/-- The arrays are empty, and the table stays. -/
theorem allocArrays_matches (env : Env) (hap : Apart f madt len) (hsmp : s.smp = SmpInfo.initial)
    (hf : ∀ k : Kind, s.machine.frames (s.machine.next + k.order) = some (f k)) :
    Steps env f madt len s (allocArrays s) (Collected.empty s.hal) := by
  rw [allocArrays_eq hsmp hf]
  refine ⟨⟨fun k => ?_, fun k => ?_, rfl, fun _ => rfl⟩, fun x hx hx' => ?_⟩
  · cases k <;> rfl
  · cases k <;> rfl
  · have hout : ∀ k, x < f k ∨ f k + frameSize ≤ x := fun k => by
      have := hap.table k
      omega
    simp only
    rw [fill_of_notMem (hout .nmi), fill_of_notMem (hout .nmiSource), fill_of_notMem (hout .iso),
      fill_of_notMem (hout .lapic), fill_of_notMem (hout .ioApic)]

end Step

/-! ### Tables -/

/-- The table at `madt` is the encoding of a list of records. -/
structure Table (m : Mem) (madt : ℕ) (records : List MadtRecord) : Prop where
  wellFormed : ∀ r ∈ records, r.WellFormed
  len : load m (madt + 4) 4 = madtRecordsOffset + (records.flatMap MadtRecord.encode).length
  lt : madtRecordsOffset + (records.flatMap MadtRecord.encode).length < 2 ^ 31
  holds : Holds m (madt + madtRecordsOffset) (records.flatMap MadtRecord.encode)

/-- A table of records is to be parsed: `SMP_INFO` is as at boot, five frames apart from the table
can be allocated, and the records of each kind fit in one. -/
structure Ready (f : Kind → ℕ) (fuel madt : ℕ) (s : State) (records : List MadtRecord) : Prop where
  table : Table s.machine.mem madt records
  apart : Apart f madt (madtRecordsOffset + (records.flatMap MadtRecord.encode).length)
  smp : s.smp = SmpInfo.initial
  frames : ∀ k : Kind, s.machine.frames (s.machine.next + k.order) = some (f k)
  fits : ∀ k : Kind, k.layout.size * (records.filterMap k.of?).length ≤ frameSize
  fuel : records.length < fuel

section ParseMadt

variable {env : Env} {f : Kind → ℕ} {s : State} {madt fuel : ℕ} {records : List MadtRecord}

/-- `ParseMadt` collects the records of the table. -/
theorem parseMadt_collects (hr : Ready f fuel madt s records)
    (hclear : env.Clear f madt (madtRecordsOffset + (records.flatMap MadtRecord.encode).length)
      records) :
    ∃ s', parseMadt env fuel madt s = some s' ∧
      Matches env f s' (records.foldl (Collected.add env) (Collected.empty s.hal)) := by
  obtain ⟨hm, hmem⟩ := allocArrays_matches env hr.apart hr.smp hr.frames
  have hempty : ∀ k, (Collected.empty s.hal).list k = [] := fun k => by cases k <;> rfl
  have hfit : (records.foldl (Collected.add env) (Collected.empty s.hal)).Fits := by
    intro k
    rw [Collected.list_foldl_add, hempty k, List.nil_append]
    exact hr.fits k
  have hlen : int32 (load s.machine.mem (madt + 4) 4) =
      (madtRecordsOffset + (records.flatMap MadtRecord.encode).length : ℕ) := by
    rw [hr.table.len]
    exact int32_natCast hr.table.lt
  have hholds : Holds (allocArrays s).machine.mem (madt + madtRecordsOffset + 0)
      (records.flatMap MadtRecord.encode) :=
    hr.table.holds.congr fun x hx hx' => (hmem x (by omega) (by omega)).symm
  rw [parseMadt]
  simp only [hlen]
  exact parseRecords_collects hr.apart records hr.table.wellFormed hclear hr.fuel hm hfit hholds
    rfl

/-- The controllers that are collected if all I/O APICs have one. -/
theorem Matches.hal_eq {c : Collected} (hc : c.ioApics = [])
    (hm : Matches env f s (records.foldl (Collected.add env) c)) (hio : env.Controls records) :
    s.hal = (records.foldl (Collected.add env) c).hal := by
  refine hm.hal fun r hr => ?_
  have hlist : (records.foldl (Collected.add env) c).ioApics =
      c.ioApics ++ records.filterMap (Kind.of? .ioApic) :=
    Collected.list_foldl_add env records c .ioApic
  rw [hlist, hc, List.nil_append] at hr
  exact hio r (mem_filterMap_ioApic.mp hr)

/-- `ParseMadt` inverts the encoding when the registers of the I/O APICs are apart from the table
and the frames: it ends, and its arrays are the records of the five kinds in table order. -/
theorem parseMadt_inverts (hr : Ready f fuel madt s records)
    (hclear : env.Clear f madt (madtRecordsOffset + (records.flatMap MadtRecord.encode).length)
      records) :
    ∃ s', parseMadt env fuel madt s = some s' ∧
      (∀ k : Kind, k.layout.array s'.machine.mem (frame s'.smp k) (num s'.smp k) =
        records.filterMap k.of? ∧ num s'.smp k = (records.filterMap k.of?).length) ∧
      s'.smp.lapicAddr =
        (records.filterMap MadtRecord.lapicAddr?).getLast?.getD defaultLapicAddr := by
  obtain ⟨s', hparse, hm⟩ := parseMadt_collects hr hclear
  have hlist : ∀ k : Kind,
      (records.foldl (Collected.add env) (Collected.empty s.hal)).list k =
        records.filterMap k.of? := by
    intro k
    rw [Collected.list_foldl_add]
    cases k <;> rfl
  refine ⟨s', hparse, fun k => ⟨?_, ?_⟩, ?_⟩
  · rw [hm.frame k, hm.list k, hlist k]
  · rw [hm.num k, hlist k]
  · rw [hm.lapicAddr, Collected.lapicAddr_foldl_add]
    rfl

end ParseMadt

/-- A memory with the table of some records. -/
def tableMem (madt : ℕ) (records : List MadtRecord) : Mem := fun x =>
  (bytes 4 0 ++ (bytes 4 (madtRecordsOffset + (records.flatMap MadtRecord.encode).length) ++
    (List.replicate 36 0 ++ records.flatMap MadtRecord.encode))).getD (x - madt) 0

theorem tableMem_table (madt : ℕ) {records : List MadtRecord} (hwf : ∀ r ∈ records, r.WellFormed)
    (hlt : madtRecordsOffset + (records.flatMap MadtRecord.encode).length < 2 ^ 31) :
    Table (tableMem madt records) madt records := by
  refine ⟨hwf, ?_, hlt, ?_⟩
  · have hholds := holds_getD madt (bytes 4 0) (bytes 4 (madtRecordsOffset +
      (records.flatMap MadtRecord.encode).length)) (List.replicate 36 0 ++
        records.flatMap MadtRecord.encode)
    rw [length_bytes] at hholds
    refine (load_of_holds hholds).trans (Nat.mod_eq_of_lt ?_)
    omega
  · have hpre : (bytes 4 0 ++ (bytes 4 (madtRecordsOffset +
        (records.flatMap MadtRecord.encode).length) ++ List.replicate 36 0)).length =
        madtRecordsOffset := by
      simp [madtRecordsOffset]
    have hholds := holds_getD madt (bytes 4 0 ++ (bytes 4 (madtRecordsOffset +
      (records.flatMap MadtRecord.encode).length) ++ List.replicate 36 0))
      (records.flatMap MadtRecord.encode) []
    rw [hpre] at hholds
    simp only [List.append_assoc, List.append_nil] at hholds
    exact hholds

/-- Free frames from `0x10000` on. -/
def freeFrame (n : ℕ) : ℕ := 0x10000 + 0x1000 * n

/-- A machine with the table of some records at `0x1000`, and free frames. -/
def stateOf (records : List MadtRecord) (hal : Hal) : State where
  machine := ⟨tableMem 0x1000 records, fun n => some (freeFrame n), 0⟩
  smp := SmpInfo.initial
  hal := hal

/-- The frames of that machine. -/
def framesOf (k : Kind) : ℕ := freeFrame (0 + k.order)

theorem le_framesOf (k : Kind) : 0x10000 ≤ framesOf k := Nat.le_add_right _ _

theorem framesOf_apart {len : ℕ} (h : len ≤ 0xF000) : Apart framesOf 0x1000 len := by
  refine ⟨fun j k hjk => ?_, fun k => Or.inr ?_⟩
  · cases j <;> cases k <;> first | exact absurd rfl hjk | decide +kernel
  · have hge := le_framesOf k
    omega

theorem stateOf_ready {records : List MadtRecord} (hal : Hal) {fuel : ℕ}
    (hwf : ∀ r ∈ records, r.WellFormed)
    (hlen : madtRecordsOffset + (records.flatMap MadtRecord.encode).length ≤ 0xF000)
    (hshort : records.length ≤ 300) (hfuel : records.length < fuel) :
    Ready framesOf fuel 0x1000 (stateOf records hal) records := by
  have hfit : ∀ k : Kind, k.layout.size * (records.filterMap k.of?).length ≤ frameSize := by
    intro k
    have hle := List.length_filterMap_le k.of? records
    have hsize : k.layout.size ≤ 12 := by cases k <;> decide
    calc k.layout.size * (records.filterMap k.of?).length ≤ 12 * 300 := by gcongr; omega
      _ ≤ frameSize := by decide
  have hlt : madtRecordsOffset + (records.flatMap MadtRecord.encode).length < 2 ^ 31 := by omega
  refine ⟨?_, framesOf_apart hlen, rfl, fun k => rfl, hfit, hfuel⟩
  simp only [stateOf]
  exact tableMem_table 0x1000 hwf hlt

/-- No controllers, and zeros in all registers. -/
def noHal : Hal := ⟨fun _ _ => 0, fun _ => none, fun _ => ⟨0, 0, 0, 0⟩⟩

/-- I/O APICs from `0xFEC00000` on, and zeros on the stack. -/
def sampleEnv : Env := ⟨0, fun _ _ => 0, fun addr => 0xFEC00000 ≤ addr⟩

/-- A LAPIC, a record of an unknown type, an I/O APIC, one without a controller, and an address
override. -/
def sampleRecords : List MadtRecord :=
  [.lapic ⟨⟨0, 8⟩, 3, 7, 1⟩, .other ⟨9, 4⟩ [1, 2], .ioApic ⟨⟨1, 12⟩, 0, 0, 0xFEC00000, 0⟩,
    .ioApic ⟨⟨1, 12⟩, 1, 0, 0x8000, 24⟩, .lapicAddr ⟨⟨5, 12⟩, 0, 0xFEE01000⟩]

theorem parseMadt_inverts_sample :
    ∃ s', parseMadt sampleEnv 6 0x1000 (stateOf sampleRecords noHal) = some s' ∧
      lapicLayout.array s'.machine.mem s'.smp.lapics s'.smp.numLapics = [⟨⟨0, 8⟩, 3, 7, 1⟩] ∧
      s'.smp.numIoApics = 2 ∧ s'.smp.lapicAddr = 0xFEE01000 := by
  have hwf : ∀ r ∈ sampleRecords, r.WellFormed := by
    intro r hr
    simp only [sampleRecords, List.mem_cons, List.not_mem_nil, or_false] at hr
    rcases hr with rfl | rfl | rfl | rfl | rfl
    · exact ⟨rfl, rfl⟩
    · exact ⟨show 5 < 9 by decide, rfl⟩
    · exact ⟨rfl, rfl⟩
    · exact ⟨rfl, rfl⟩
    · exact ⟨rfl, rfl⟩
  have hclear : sampleEnv.Clear framesOf 0x1000
      (madtRecordsOffset + (sampleRecords.flatMap MadtRecord.encode).length) sampleRecords := by
    intro r hr
    simp only [sampleRecords, List.mem_cons, List.not_mem_nil, or_false, reduceCtorEq, false_or,
      MadtRecord.ioApic.injEq] at hr
    rcases hr with rfl | rfl
    · exact .inl (by decide)
    · -- the words at `0x8000` and `0x8010` lie between the table and the frames
      have hlen : madtRecordsOffset + (sampleRecords.flatMap MadtRecord.encode).length = 92 := by
        decide +kernel
      refine .inr fun x hx hx' => ?_
      have hwindow : 0x8000 ≤ x ∧ x < 0x8004 ∨ 0x8010 ≤ x ∧ x < 0x8014 := hx
      rw [hlen] at hx'
      rcases hx' with htable | ⟨k, hk, -⟩
      · omega
      · have hge := le_framesOf k
        omega
  obtain ⟨s', hparse, hlists, haddr⟩ := parseMadt_inverts
    (stateOf_ready noHal hwf (by decide +kernel) (by decide) (show _ < 6 by decide)) hclear
  exact ⟨s', hparse, (hlists .lapic).1, (hlists .ioApic).2, haddr⟩

/-- An I/O APIC whose address is that of the flags of the next record, a processor that is not
enabled. -/
def clashingRecords : List MadtRecord :=
  [.ioApic ⟨⟨1, 12⟩, 0, 0, 0x103C, 0⟩, .lapic ⟨⟨0, 8⟩, 1, 1, 0⟩]

/-- Registering the I/O APIC stores 1, the number of the version register, over the flags. -/
theorem parseMadt_overwrites_table :
    Ready framesOf 3 0x1000 (stateOf clashingRecords noHal) clashingRecords ∧
      ∃ s', parseMadt sampleEnv 3 0x1000 (stateOf clashingRecords noHal) = some s' ∧
        lapicLayout.array s'.machine.mem s'.smp.lapics s'.smp.numLapics = [⟨⟨0, 8⟩, 1, 1, 1⟩] ∧
        lapicLayout.array s'.machine.mem s'.smp.lapics s'.smp.numLapics ≠
          clashingRecords.filterMap (Kind.of? .lapic) := by
  refine ⟨?_, ?_⟩
  · refine stateOf_ready noHal (fun r hr => ?_) (by decide +kernel) (by decide) (by decide)
    simp only [clashingRecords, List.mem_cons, List.not_mem_nil, or_false] at hr
    rcases hr with rfl | rfl
    · exact ⟨rfl, rfl⟩
    · exact ⟨rfl, rfl⟩
  · have hparse : (parseMadt sampleEnv 3 0x1000 (stateOf clashingRecords noHal)).map
        (fun s' => lapicLayout.array s'.machine.mem s'.smp.lapics s'.smp.numLapics) =
          some [⟨⟨0, 8⟩, 1, 1, 1⟩] := by
      decide +kernel
    obtain ⟨s', hs', hlapics⟩ := Option.map_eq_some_iff.mp hparse
    refine ⟨s', hs', hlapics, fun heq => ?_⟩
    rw [hlapics] at heq
    revert heq
    decide

end Madt

end Vardar
