import Vardar.Acpi.Encoding

/-!
# Enabling the local APIC

`enable_lapic` programs the LINT pins from the records of local non-maskable interrupts in
`SMP_INFO` and then sets the enable bit. The loop over the records goes on until `get_nmi_record`
returns null. Its index is a byte, and it is compared with the number of records minus one as an
unsigned 64-bit number, so the loop ends only if there are records and the byte can get past them.

The LAPIC is a register file at a base address. Fields of a table entry that nobody sets keep the
bits on the stack, which are a parameter. `PrintK` lines are left out.

## Main definitions

* `Vardar.Lapic`, `Vardar.Lapic.enableNmi`, `Vardar.Lapic.enableLapic`.
* `Vardar.getNmiRecord`, `Vardar.forNmis`: the loop over the records.
* `Vardar.nmiCalls`: the records that `enable_nmi` is called with.

## Main results

* `Vardar.forNmis_eq_foldl`: the loop is a fold over the records visited.
* `Vardar.enableLapic_visits_iff`: when the loop visits each record once.
-/

namespace Vardar

open Word BitField ByteMemory

/-- `LAPIC_BASE`, and the registers by base address and offset. -/
structure Lapic where
  base : BitVec 64
  regs : BitVec 64 → ℕ → BitVec 32

namespace Lapic

/-- `lapic_read`. -/
def lapicRead (l : Lapic) (reg : ℕ) : BitVec 32 := l.regs l.base reg

/-- `lapic_write`. -/
def lapicWrite (l : Lapic) (reg : ℕ) (val : BitVec 32) : Lapic :=
  { l with regs := Function.update l.regs l.base (Function.update (l.regs l.base) reg val) }

/-- `LAPIC_ID_REG`. -/
def idReg : ℕ := 0x020

/-- `LAPIC_SPURIOUS_INT_REG`. -/
def spuriousIntReg : ℕ := 0x0F0

/-- `LAPIC_LINT0_REG`. -/
def lint0Reg : ℕ := 0x350

/-- `LAPIC_LINT1_REG`. -/
def lint1Reg : ℕ := 0x360

/-- `ALL_LAPICS`. -/
def allLapics : BitVec 8 := 0xFF

/-- `NMI_INT_VECTOR`. -/
def nmiIntVector : BitVec 8 := 0xFF

/-- `LVT_NMI`. -/
def lvtNmi : BitVec 3 := 0b100

/-- `get_lapic_id`. -/
def getLapicId (l : Lapic) : BitVec 8 := (l.lapicRead idReg >>> 24).setWidth 8

/-- The `lvt_entry_t` that `enable_nmi` makes, over the bits on the stack. -/
def nmiEntry (junk : BitVec 32) (r : NmiRecord) : BitVec 32 :=
  set 15 (Hal.getTriggerMode r.flags).bit (set 13 (Hal.getPinPolarity r.flags).bit
    (set 8 lvtNmi (set 16 (0 : BitVec 1) (set 0 nmiIntVector junk))))

/-- `enable_nmi`. -/
def enableNmi (junk : BitVec 32) (r : NmiRecord) (l : Lapic) : Lapic :=
  if l.getLapicId ≠ r.acpiProcessorId ∧ r.acpiProcessorId ≠ allLapics then l
  else l.lapicWrite (if r.lint ≠ 0 then lint0Reg else lint1Reg) (nmiEntry junk r)

end Lapic

/-! ### The loop -/

/-- `get_nmi_record`: the address of the record. -/
def getNmiRecord (smp : SmpInfo) (idx : BitVec 8) : Option ℕ :=
  if sub64 smp.numNmis 1 < idx.toNat then none
  else some (smp.nmis + Madt.nmiLayout.size * idx.toNat)

/-- The loop of `enable_lapic`, from `i` on, with the given body. -/
def forNmis {σ : Type*} (body : ℕ → σ → σ) (smp : SmpInfo) : ℕ → ℤ → σ → Option σ
  | 0, _, _ => none
  | fuel + 1, i, x =>
    (getNmiRecord smp (BitVec.ofInt 8 i)).elim (some x) fun nmi =>
      forNmis body smp fuel (int32 (i + 1)) (body nmi x)

/-- `enable_lapic`. The bits on the stack may differ for each record. -/
def Lapic.enableLapic (l : Lapic) (m : Mem) (junk : ℕ → BitVec 32) (smp : SmpInfo) (fuel : ℕ) :
    Option Lapic := do
  let l := { l with base := smp.lapicAddr }
  let l ← forNmis (fun nmi l => l.enableNmi (junk nmi) (Madt.nmiLayout.read m nmi)) smp fuel 0 l
  some (l.lapicWrite spuriousIntReg (l.lapicRead spuriousIntReg ||| 1 <<< 8))

/-- The records that `enable_nmi` is called with, in order. -/
def nmiCalls (smp : SmpInfo) (fuel : ℕ) : Option (List ℕ) :=
  forNmis (fun nmi calls => calls ++ [nmi]) smp fuel 0 []

/-- The addresses of the records. -/
def nmiRecords (smp : SmpInfo) : List ℕ :=
  (List.range smp.numNmis).map fun k => smp.nmis + Madt.nmiLayout.size * k

variable {σ : Type*} {smp : SmpInfo}

/-- The loop is a fold over the records that it visits. -/
theorem forNmis_eq_foldl (body : ℕ → σ → σ) (smp : SmpInfo) (x : σ) (fuel : ℕ) (i : ℤ)
    (calls : List ℕ) :
    forNmis body smp fuel i (calls.foldl (fun x nmi => body nmi x) x) =
      (forNmis (fun nmi calls => calls ++ [nmi]) smp fuel i calls).map fun calls =>
        calls.foldl (fun x nmi => body nmi x) x := by
  induction fuel generalizing i calls with
  | zero => rfl
  | succ fuel ih =>
    rw [forNmis, forNmis]
    cases getNmiRecord smp (BitVec.ofInt 8 i) with
    | none => rfl
    | some nmi =>
      have hnext := ih (int32 (i + 1)) (calls ++ [nmi])
      rw [List.foldl_append, List.foldl_cons, List.foldl_nil] at hnext
      exact hnext

/-- The loop does not end if every index has a record. -/
theorem forNmis_eq_none (body : ℕ → σ → σ) (h : ∀ idx, getNmiRecord smp idx ≠ none) (fuel : ℕ)
    (i : ℤ) (x : σ) : forNmis body smp fuel i x = none := by
  induction fuel generalizing i x with
  | zero => rfl
  | succ fuel ih =>
    obtain ⟨nmi, hnmi⟩ := Option.ne_none_iff_exists'.mp (h (BitVec.ofInt 8 i))
    rw [forNmis, hnmi]
    exact ih _ _

/-- Without records the bound is the largest word, and with 256 or more it is not below a byte. -/
theorem getNmiRecord_ne_none (h64 : smp.numNmis < 2 ^ 64)
    (h : smp.numNmis = 0 ∨ 256 ≤ smp.numNmis) (idx : BitVec 8) : getNmiRecord smp idx ≠ none := by
  have hlt := idx.isLt
  have hge : 255 ≤ sub64 smp.numNmis 1 := by
    rcases h with hzero | hmany
    · simp only [hzero, sub64]
      omega
    · rw [sub64_of_le (by omega) h64]
      omega
  rw [getNmiRecord, if_neg (by omega)]
  exact Option.some_ne_none _

/-- From record `k` on, the loop visits the records that are left. -/
theorem forNmis_visits (h0 : 1 ≤ smp.numNmis) (h255 : smp.numNmis ≤ 255) {k fuel : ℕ}
    (hk : k ≤ smp.numNmis) (hfuel : smp.numNmis - k < fuel) (calls : List ℕ) :
    forNmis (fun nmi calls => calls ++ [nmi]) smp fuel k calls = some (calls ++
      (List.range' k (smp.numNmis - k)).map fun k => smp.nmis + Madt.nmiLayout.size * k) := by
  have hidx : (BitVec.ofInt 8 (k : ℤ)).toNat = k := by
    rw [BitVec.toNat_ofInt]
    omega
  have hsub : sub64 smp.numNmis 1 = smp.numNmis - 1 := sub64_of_le h0 (by omega)
  induction hd : smp.numNmis - k generalizing k fuel calls with
  | zero =>
    obtain ⟨fuel, rfl⟩ := Nat.exists_eq_succ_of_ne_zero (Nat.ne_zero_of_lt hfuel)
    have hnone : getNmiRecord smp (BitVec.ofInt 8 k) = none := by
      rw [getNmiRecord, hidx, hsub, if_pos (by omega)]
    rw [forNmis, hnone, List.range'_zero, List.map_nil, List.append_nil]
    rfl
  | succ d ih =>
    obtain ⟨fuel, rfl⟩ := Nat.exists_eq_succ_of_ne_zero (Nat.ne_zero_of_lt hfuel)
    have hsome : getNmiRecord smp (BitVec.ofInt 8 k) =
        some (smp.nmis + Madt.nmiLayout.size * k) := by
      rw [getNmiRecord, hidx, hsub, if_neg (by omega)]
    have hidx' : (BitVec.ofInt 8 ((k + 1 : ℕ) : ℤ)).toNat = k + 1 := by
      rw [BitVec.toNat_ofInt]
      omega
    rw [forNmis, hsome, Option.elim_some, int32_natCast_add_one (by omega),
      ih (by omega) (by omega) _ hidx' (by omega), List.range'_succ, List.map_cons,
      List.append_assoc, List.singleton_append]

/-- `enable_lapic` returns if its loop ends. -/
theorem enableLapic_eq_none_iff (l : Lapic) (m : Mem) (junk : ℕ → BitVec 32) (fuel : ℕ) :
    l.enableLapic m junk smp fuel = none ↔ nmiCalls smp fuel = none := by
  have hfold := forNmis_eq_foldl
    (fun nmi l => l.enableNmi (junk nmi) (Madt.nmiLayout.read m nmi)) smp
    { l with base := smp.lapicAddr } fuel 0 []
  rw [List.foldl_nil] at hfold
  rw [Lapic.enableLapic, nmiCalls]
  simp only [hfold]
  cases forNmis (fun nmi calls => calls ++ [nmi]) smp fuel 0 [] <;> simp

/-- The loop does not end without records, or with more than 255. -/
theorem nmiCalls_eq_none (h64 : smp.numNmis < 2 ^ 64)
    (h : ¬(1 ≤ smp.numNmis ∧ smp.numNmis ≤ 255)) (fuel : ℕ) : nmiCalls smp fuel = none :=
  forNmis_eq_none _ (getNmiRecord_ne_none h64 (by omega)) fuel 0 []

/-- **When the loop visits each record once.** `enable_lapic` returns and has called `enable_nmi`
with each of the records, in order and with nothing else, if and only if there is at least one
record and there are at most 255. -/
theorem enableLapic_visits_iff (m : Mem) (junk : ℕ → BitVec 32) (l : Lapic)
    (h64 : smp.numNmis < 2 ^ 64) :
    (∃ fuel l', l.enableLapic m junk smp fuel = some l' ∧
      nmiCalls smp fuel = some (nmiRecords smp)) ↔ 1 ≤ smp.numNmis ∧ smp.numNmis ≤ 255 := by
  constructor
  · rintro ⟨fuel, -, -, hcalls⟩
    by_contra hnot
    rw [nmiCalls_eq_none h64 hnot fuel] at hcalls
    exact Option.some_ne_none _ hcalls.symm
  · rintro ⟨h0, h255⟩
    have hcalls : nmiCalls smp (smp.numNmis + 1) = some (nmiRecords smp) := by
      have hvisit := forNmis_visits (k := 0) h0 h255 (Nat.zero_le _)
        (Nat.lt_succ_self (smp.numNmis - 0)) []
      rw [List.nil_append, Nat.sub_zero, ← List.range_eq_range'] at hvisit
      exact hvisit
    have hreturns : l.enableLapic m junk smp (smp.numNmis + 1) ≠ none := by
      rw [Ne, enableLapic_eq_none_iff, hcalls]
      exact Option.some_ne_none _
    obtain ⟨l', hl'⟩ := Option.ne_none_iff_exists'.mp hreturns
    exact ⟨_, l', hl', hcalls⟩

/-- Two records, from `0x5000` on. -/
def twoNmis : SmpInfo := { SmpInfo.initial with numNmis := 2, nmis := 0x5000 }

theorem enableLapic_visits_two : ∃ fuel l',
    Lapic.enableLapic ⟨0, fun _ _ => 0⟩ (fun _ => 0) (fun _ => 0) twoNmis fuel = some l' ∧
      nmiCalls twoNmis fuel = some [0x5000, 0x5006] :=
  (enableLapic_visits_iff _ _ _ (show twoNmis.numNmis < 2 ^ 64 by decide)).mpr (by decide)

/-- `ParseMadt` of a table without records, after which `enable_lapic` does not return. -/
theorem enableLapic_endless : ∃ s',
    Madt.parseMadt Madt.sampleEnv 1 0x1000 (Madt.stateOf [] Madt.noHal) = some s' ∧
      s'.smp.numNmis = 0 ∧ ∀ fuel,
        Lapic.enableLapic ⟨0, fun _ _ => 0⟩ s'.machine.mem (fun _ => 0) s'.smp fuel = none := by
  have hwf : ∀ r ∈ ([] : List MadtRecord), r.WellFormed := fun _ hr => absurd hr List.not_mem_nil
  have hclear : Madt.sampleEnv.Clear Madt.framesOf 0x1000 (Madt.madtRecordsOffset + 0) [] :=
    fun r hr => absurd hr List.not_mem_nil
  obtain ⟨s', hparse, hm⟩ := Madt.parseMadt_collects
    (Madt.stateOf_ready Madt.noHal hwf (by decide) (by decide) (show 0 < 1 by decide)) hclear
  have hzero : s'.smp.numNmis = 0 := hm.num .nmi
  refine ⟨s', hparse, hzero, fun fuel => ?_⟩
  rw [enableLapic_eq_none_iff]
  exact nmiCalls_eq_none (by omega) (by omega) fuel

end Vardar
