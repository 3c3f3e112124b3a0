import Mathlib.Algebra.BigOperators.Group.Finset.Basic
import Vardar.Lib.FirstMatch
import Vardar.Lib.Word
import Vardar.Utils.CString

/-!
# The ACPI root table

The bootloader gives the address of the RSDP, which points to a root table: an RSDT with 32-bit
entries or, from version 2 on, an XSDT with 64-bit entries. `FindTable` walks over the entries and
returns the first table with the signature and a valid checksum. Lengths are 32-bit fields that are
passed to the checksum loop as an `int`; one with bit 31 set is negative there, the loop adds up no
byte, and the table is valid.

## Main definitions

* `Vardar.Acpi.initAcpi`, `Vardar.Acpi.initRsdp`, `Vardar.Acpi.initSdt`, `Vardar.Acpi.findTable`.
* `Vardar.Acpi.listed`: the tables a root table lists.
* `Vardar.Acpi.IsTable`: a table with a signature whose bytes add up to zero.
* `Vardar.Acpi.RsdpValid`: the checksums of the RSDP.

## Main results

* `Vardar.Acpi.findTable_eq_find?`: the loop of `FindTable` as a search of the list.
* `Vardar.Acpi.findTable_exact_iff`: when `FindTable` finds the right table.
* `Vardar.Acpi.initAcpi_accepts_iff`: when `InitAcpi` accepts valid tables only.
-/

namespace Vardar.Acpi

open ByteMemory Word FirstMatch

/-! ### Checksums -/

/-- `checksum` after the given number of rounds. -/
def checksum (m : Mem) (table : ℕ) : ℕ → ℤ
  | 0 => 0
  | i + 1 => int32 (checksum m table i + (m (table + i)).toNat)

/-- `(checksum & 0xff) == 0x00`. -/
def lowByteIsZero (checksum : ℤ) : Bool := checksum % 256 = 0

/-- `ValidateSdtChecksum`. -/
def validateSdtChecksum (m : Mem) (sdt : ℕ) (len : ℤ) : Bool :=
  lowByteIsZero (checksum m sdt len.toNat)

/-- `ValidateRsdpChecksum`. -/
def validateRsdpChecksum (m : Mem) (rsdp : ℕ) (revision : BitVec 8) : Bool :=
  let v1Valid := lowByteIsZero (checksum m rsdp 20)
  if revision = 0 then v1Valid else v1Valid && lowByteIsZero (checksum m rsdp 36)

/-! ### The root table -/

/-- `RsdpDescriptor`, the fields that are used. -/
structure RsdpDescriptor where
  revision : BitVec 8
  rsdtAddr : ℕ
  xsdtAddr : ℕ

/-- `GenericSdt`, with the length of its header only. -/
structure GenericSdt where
  length : ℕ
  next : ℕ
  usesXsdt : Bool

/-- The descriptor at an address. -/
def readRsdp (m : Mem) (rsdp : ℕ) : RsdpDescriptor :=
  ⟨m (rsdp + 15), load m (rsdp + 16) 4, load m (rsdp + 24) 8⟩

/-- `InitRsdp`: the result and `RSDP_TABLE`. -/
def initRsdp (m : Mem) (rsdp : ℕ) : Bool × RsdpDescriptor :=
  (validateRsdpChecksum m rsdp (readRsdp m rsdp).revision, readRsdp m rsdp)

/-- The `length` field of a table. -/
def tableLength (m : Mem) (sdt : ℕ) : ℕ := load m (sdt + 4) 4

/-- `InitSdt`: the result and `SDT_HEAD`. -/
def initSdt (m : Mem) (rsdpTable : RsdpDescriptor) : Bool × GenericSdt :=
  let usesXsdt : Bool := 2 ≤ rsdpTable.revision.toNat
  let root := if usesXsdt then rsdpTable.xsdtAddr else rsdpTable.rsdtAddr
  (validateSdtChecksum m root (int32 (tableLength m root)),
    ⟨tableLength m root, root + 36, usesXsdt⟩)

/-- `InitAcpi`: the result and `SDT_HEAD`. -/
def initAcpi (m : Mem) (rsdp : ℕ) (sdtHead : GenericSdt) : ℤ × GenericSdt :=
  match initRsdp m rsdp with
  | (false, _) => (-1, sdtHead)
  | (true, rsdpTable) => (0, (initSdt m rsdpTable).2)

/-! ### `FindTable` -/

/-- `entry_size`. -/
def GenericSdt.entrySize (h : GenericSdt) : ℕ := if h.usesXsdt then 8 else 4

/-- `num_entries`. -/
def GenericSdt.numEntries (h : GenericSdt) : ℤ := int32 ↑(sub64 h.length 36 / h.entrySize)

/-- Entry `i` of the root table. -/
def GenericSdt.entry (m : Mem) (h : GenericSdt) (i : ℕ) : ℕ :=
  load m (h.next + h.entrySize * i) h.entrySize

/-- `signatures_match && valid_checksum`. -/
def accepts (m : Mem) (tableId : ℕ → BitVec 8) (sdt : ℕ) : Bool :=
  strncmp (fun i => m (sdt + i)) tableId 4 = 0 &&
    validateSdtChecksum m sdt (int32 (tableLength m sdt))

/-- The loop of `FindTable`, from entry `i` on. -/
def findTableFrom (m : Mem) (h : GenericSdt) (tableId : ℕ → BitVec 8) : ℕ → ℕ → Option ℕ
  | 0, _ => none
  | rounds + 1, i =>
    if accepts m tableId (h.entry m i) then some (h.entry m i)
    else findTableFrom m h tableId rounds (i + 1)

/-- `FindTable`. -/
def findTable (m : Mem) (h : GenericSdt) (tableId : ℕ → BitVec 8) : Option ℕ :=
  findTableFrom m h tableId h.numEntries.toNat 0

/-! ### The tables that are listed -/

/-- The tables a root table lists. -/
def listed (m : Mem) (h : GenericSdt) : List ℕ :=
  (List.range ((h.length - 36) / h.entrySize)).map (h.entry m)

/-- The bytes of the table add up to zero. -/
def SumsToZero (m : Mem) (sdt : ℕ) : Prop :=
  (∑ i ∈ Finset.range (tableLength m sdt), (m (sdt + i)).toNat) % 256 = 0

/-- A table with the signature whose bytes add up to zero. -/
def IsTable (m : Mem) (id : List (BitVec 8)) (sdt : ℕ) : Prop := Holds m sdt id ∧ SumsToZero m sdt

instance (m : Mem) (sdt : ℕ) : Decidable (SumsToZero m sdt) :=
  inferInstanceAs (Decidable (_ = _))

instance (m : Mem) (id : List (BitVec 8)) (sdt : ℕ) : Decidable (IsTable m id sdt) :=
  inferInstanceAs (Decidable (_ ∧ _))

variable {m : Mem} {h h' : GenericSdt} {id : List (BitVec 8)} {sdt : ℕ}

theorem findTableFrom_eq_find? (m : Mem) (h : GenericSdt) (tableId : ℕ → BitVec 8) (n i : ℕ) :
    findTableFrom m h tableId n i =
      ((List.range' i n).map (h.entry m)).find? (accepts m tableId) := by
  induction n generalizing i with
  | zero => rfl
  | succ n ih =>
    rw [findTableFrom, List.range'_succ, List.map_cons]
    split_ifs with hacc
    · rw [List.find?_cons_of_pos hacc]
    · rw [List.find?_cons_of_neg hacc, ih]

/-- The number of entries is an `int`. -/
theorem numEntries_toNat (hge : 36 ≤ h.length) (hlt : h.length < 2 ^ 32) :
    h.numEntries.toNat = (h.length - 36) / h.entrySize := by
  have hsize : 4 ≤ h.entrySize := by
    rw [GenericSdt.entrySize]
    split_ifs <;> decide
  have hle : (h.length - 36) / h.entrySize ≤ (h.length - 36) / 4 :=
    Nat.div_le_div_left hsize (by decide)
  rw [GenericSdt.numEntries, sub64_of_le hge (by omega), int32_natCast (by omega),
    Int.toNat_natCast]

/-- `FindTable` searches the tables that are listed. -/
theorem findTable_eq_find? (m : Mem) (hge : 36 ≤ h.length) (hlt : h.length < 2 ^ 32)
    (tableId : ℕ → BitVec 8) : findTable m h tableId = (listed m h).find? (accepts m tableId) := by
  rw [findTable, findTableFrom_eq_find?, numEntries_toNat hge hlt, listed, List.range_eq_range']

theorem int32_emod (i : ℤ) : int32 i % 256 = i % 256 := by
  rw [int32, Int.bmod_def]
  omega

theorem checksum_emod (m : Mem) (a n : ℕ) :
    checksum m a n % 256 = ((∑ i ∈ Finset.range n, (m (a + i)).toNat : ℕ) : ℤ) % 256 := by
  induction n with
  | zero => rfl
  | succ n ih =>
    rw [checksum, int32_emod, Finset.sum_range_succ]
    omega

/-- A length below `2 ^ 31` is checked as it should be, and a longer table is always valid. -/
theorem validateSdtChecksum_iff (m : Mem) (sdt : ℕ) :
    validateSdtChecksum m sdt (int32 (tableLength m sdt)) = true ↔
      2 ^ 31 ≤ tableLength m sdt ∨ SumsToZero m sdt := by
  have hlt : tableLength m sdt < 2 ^ 32 := load_lt m (sdt + 4) 4
  rw [validateSdtChecksum, lowByteIsZero, decide_eq_true_iff, checksum_emod]
  by_cases hlong : 2 ^ 31 ≤ tableLength m sdt
  · have hneg : (int32 (tableLength m sdt)).toNat = 0 := by
      rw [int32, Int.bmod_def]
      omega
    rw [hneg]
    exact iff_of_true rfl (.inl hlong)
  · rw [int32_natCast (by omega), Int.toNat_natCast, or_iff_right hlong, SumsToZero]
    omega

theorem accepts_iff (hid : id.length = 4) (hnul : ∀ c ∈ id, c ≠ 0) :
    accepts m (fun i => id.getD i 0) sdt = true ↔
      Holds m sdt id ∧ (2 ^ 31 ≤ tableLength m sdt ∨ SumsToZero m sdt) := by
  rw [accepts, Bool.and_eq_true, decide_eq_true_iff, validateSdtChecksum_iff, ← hid,
    strncmp_eq_zero_iff_holds hnul]

/-- **When `FindTable` is exact.** For every root table and every signature, `FindTable` returns the
first table listed that has the signature and whose bytes add up to zero, and every other root table
with the same list gives the same answer, if and only if every table listed that has the signature,
a length of `2 ^ 31` or more and bytes that do not add up to zero comes behind a right one. -/
theorem findTable_exact_iff (m : Mem) (hge : 36 ≤ h.length) (hlt : h.length < 2 ^ 32)
    (hid : id.length = 4) (hnul : ∀ c ∈ id, c ≠ 0) :
    (findTable m h (fun i => id.getD i 0) = (listed m h).find? (fun t => IsTable m id t) ∧
      ∀ h' : GenericSdt, 36 ≤ h'.length → h'.length < 2 ^ 32 → listed m h' = listed m h →
        findTable m h' (fun i => id.getD i 0) = findTable m h (fun i => id.getD i 0)) ↔
    ∀ l₁ t l₂, listed m h = l₁ ++ t :: l₂ → Holds m t id → 2 ^ 31 ≤ tableLength m t →
      ¬ SumsToZero m t → ∃ u ∈ l₁, IsTable m id u := by
  have hsame : ∀ h' : GenericSdt, 36 ≤ h'.length → h'.length < 2 ^ 32 → listed m h' = listed m h →
      findTable m h' (fun i => id.getD i 0) = findTable m h (fun i => id.getD i 0) := by
    intro h' hge' hlt' heq
    rw [findTable_eq_find? m hge' hlt', findTable_eq_find? m hge hlt, heq]
  rw [and_iff_left hsame, findTable_eq_find? m hge hlt, find?_eq_find?_iff_of_imp]
  · refine forall_congr' fun l₁ => forall_congr' fun t => forall_congr' fun l₂ =>
      forall_congr' fun _ => ?_
    rw [accepts_iff hid hnul, decide_eq_false_iff_not, IsTable]
    simp only [decide_eq_true_eq]
    constructor
    · intro hexact hid' hlong hsum
      exact hexact ⟨hid', .inl hlong⟩ fun ht => hsum ht.2
    · rintro hbehind ⟨hid', hlen⟩ hnot
      have hsum : ¬ SumsToZero m t := fun hsum => hnot ⟨hid', hsum⟩
      exact hbehind hid' (hlen.resolve_right hsum) hsum
  · intro t _ ht
    rw [decide_eq_true_iff] at ht
    exact (accepts_iff hid hnul).mpr ⟨ht.1, .inr ht.2⟩

/-- An RSDT at `0x1000` with one entry, for a table at `0x2000` with the signature `APIC` and the
given length and checksum fields. -/
def oneTable (length : ℕ) (checksum : BitVec 8) : Mem := fun x =>
  if x < 0x1000 then 0
  else if x < 0x2000 then
    ([82, 83, 68, 84] ++ bytes 4 40 ++ List.replicate 28 0 ++ bytes 4 0x2000).getD (x - 0x1000) 0
  else ([65, 80, 73, 67] ++ bytes 4 length ++ [0, checksum]).getD (x - 0x2000) 0

/-- `"APIC"`. -/
def apic : List (BitVec 8) := [65, 80, 73, 67]

/-- An RSDT at `0x1000` with two entries, for tables of 44 bytes with the signature `APIC`. The bytes
of the table at `0x2000` do not add up to zero, those of the table at `0x3000` do. -/
def twoTables : Mem := fun x =>
  if x < 0x1000 then 0
  else if x < 0x2000 then
    ([82, 83, 68, 84] ++ bytes 4 44 ++ List.replicate 28 0 ++ bytes 4 0x2000 ++
      bytes 4 0x3000).getD (x - 0x1000) 0
  else if x < 0x3000 then ([65, 80, 73, 67] ++ bytes 4 44 ++ [0, 182]).getD (x - 0x2000) 0
  else ([65, 80, 73, 67] ++ bytes 4 44 ++ [0, 183]).getD (x - 0x3000) 0

/-- The second table is found. -/
theorem findTable_exact_apic :
    findTable twoTables (initSdt twoTables ⟨0, 0x1000, 0⟩).2 (fun i => apic.getD i 0) =
      some 0x3000 := by
  have hlisted : listed twoTables (initSdt twoTables ⟨0, 0x1000, 0⟩).2 = [0x2000, 0x3000] := by
    decide +kernel
  refine ((findTable_exact_iff twoTables (by decide +kernel) (by decide +kernel) rfl
    (by decide)).mpr fun l₁ t l₂ heq _ hlong => ?_).1.trans ?_
  · rw [hlisted] at heq
    have ht : t ∈ [0x2000, 0x3000] := heq ▸ List.mem_append_right l₁ List.mem_cons_self
    simp only [List.mem_cons, List.not_mem_nil, or_false] at ht
    rcases ht with rfl | rfl
    · exact absurd hlong (by decide +kernel)
    · exact absurd hlong (by decide +kernel)
  · rw [hlisted]
    decide +kernel

/-- The bytes of a table of `2 ^ 31` bytes, of which all but the first ten are zero. -/
theorem not_sumsToZero_oneTable : ¬ SumsToZero (oneTable (2 ^ 31) 0) 0x2000 := by
  obtain ⟨n, hlength⟩ : ∃ n, tableLength (oneTable (2 ^ 31) 0) 0x2000 = 10 + n :=
    ⟨2 ^ 31 - 10, by decide +kernel⟩
  have hrest : ∀ i, (oneTable (2 ^ 31) 0 (0x2000 + (10 + i))).toNat = 0 := by
    intro i
    simp [oneTable]
  rw [SumsToZero, hlength, Finset.sum_range_add, Finset.sum_eq_zero fun i _ => hrest i]
  decide +kernel

/-- A table of `2 ^ 31` bytes whose bytes do not add up to zero is found. -/
theorem findTable_accepts_long :
    let m := oneTable (2 ^ 31) 0
    let h := (initSdt m ⟨0, 0x1000, 0⟩).2
    findTable m h (fun i => apic.getD i 0) = some 0x2000 ∧
      (listed m h).find? (fun t => IsTable m apic t) = none := by
  intro m h
  refine ⟨by decide +kernel, ?_⟩
  rw [show listed m h = [0x2000] by decide +kernel, List.find?_eq_none]
  intro t ht
  obtain rfl := List.mem_singleton.mp ht
  rw [decide_eq_true_iff]
  exact fun htable => not_sumsToZero_oneTable htable.2

/-! ### `InitAcpi` -/

/-- The checksums of the RSDP: of its first 20 bytes and, from revision 1 on, of all 36. -/
def RsdpValid (m : Mem) (rsdp : ℕ) : Prop :=
  (∑ i ∈ Finset.range 20, (m (rsdp + i)).toNat) % 256 = 0 ∧
    ((readRsdp m rsdp).revision ≠ 0 → (∑ i ∈ Finset.range 36, (m (rsdp + i)).toNat) % 256 = 0)

/-- The root table that the revision selects. -/
def RsdpDescriptor.rootTable (r : RsdpDescriptor) : ℕ :=
  if 2 ≤ r.revision.toNat then r.xsdtAddr else r.rsdtAddr

instance (m : Mem) (rsdp : ℕ) : Decidable (RsdpValid m rsdp) :=
  inferInstanceAs (Decidable (_ ∧ _))

theorem lowByteIsZero_checksum_iff (m : Mem) (a n : ℕ) :
    lowByteIsZero (checksum m a n) = true ↔
      (∑ i ∈ Finset.range n, (m (a + i)).toNat) % 256 = 0 := by
  rw [lowByteIsZero, decide_eq_true_iff, checksum_emod]
  omega

theorem initRsdp_iff (m : Mem) (rsdp : ℕ) : (initRsdp m rsdp).1 = true ↔ RsdpValid m rsdp := by
  rw [initRsdp, validateRsdpChecksum, RsdpValid]
  by_cases hrev : (readRsdp m rsdp).revision = 0
  · simp only [hrev, if_true, lowByteIsZero_checksum_iff, ne_eq, not_true, false_implies, and_true]
  · simp only [hrev, if_false, Bool.and_eq_true, lowByteIsZero_checksum_iff, ne_eq, not_false_iff,
      true_implies]

/-- The result of `InitSdt` has no part in that of `InitAcpi`. -/
theorem initAcpi_fst (m : Mem) (rsdp : ℕ) (sdtHead : GenericSdt) :
    (initAcpi m rsdp sdtHead).1 = if RsdpValid m rsdp then 0 else -1 := by
  have hvalid := initRsdp_iff m rsdp
  rw [initAcpi]
  cases hres : initRsdp m rsdp with
  | mk ok table =>
    rw [hres] at hvalid
    cases ok with
    | false => rw [if_neg fun h => Bool.false_ne_true (hvalid.mpr h)]
    | true => rw [if_pos (hvalid.mp rfl)]

/-- **What `InitAcpi` accepts.** It returns 0 if the RSDP and the root table have right checksums
and -1 otherwise, if and only if the RSDP has a wrong checksum or the root table a right one. -/
theorem initAcpi_accepts_iff (m : Mem) (rsdp : ℕ) (sdtHead : GenericSdt) :
    let valid := RsdpValid m rsdp ∧ SumsToZero m (readRsdp m rsdp).rootTable
    (((initAcpi m rsdp sdtHead).1 = 0 ↔ valid) ∧ (¬ valid → (initAcpi m rsdp sdtHead).1 = -1)) ↔
      ¬ RsdpValid m rsdp ∨ SumsToZero m (readRsdp m rsdp).rootTable := by
  intro valid
  rw [initAcpi_fst]
  by_cases hrsdp : RsdpValid m rsdp
  · rw [if_pos hrsdp]
    constructor
    · rintro ⟨hzero, -⟩
      exact .inr (hzero.mp rfl).2
    · rintro (hnot | hroot)
      · exact absurd hrsdp hnot
      · exact ⟨iff_of_true rfl ⟨hrsdp, hroot⟩, fun hnot => absurd ⟨hrsdp, hroot⟩ hnot⟩
  · rw [if_neg hrsdp]
    exact iff_of_true ⟨iff_of_false (by decide) fun h => hrsdp h.1, fun _ => rfl⟩ (.inl hrsdp)

/-- An RSDP of revision 0 at address 0 with a right checksum, and an RSDT of 36 bytes at `0x1000`
without one. -/
def badRoot : Mem := fun x =>
  if x < 0x1000 then
    ([82, 83, 68, 32, 80, 84, 82, 32, 209, 0, 0, 0, 0, 0, 0, 0] ++ bytes 4 0x1000).getD x 0
  else ([82, 83, 68, 84] ++ bytes 4 36).getD (x - 0x1000) 0

/-- A root table with a wrong checksum is accepted. -/
theorem initAcpi_accepts_badRoot :
    RsdpValid badRoot 0 ∧ ¬ SumsToZero badRoot (readRsdp badRoot 0).rootTable ∧
      (initAcpi badRoot 0 ⟨0, 0, false⟩).1 = 0 := by
  decide +kernel

end Vardar.Acpi
