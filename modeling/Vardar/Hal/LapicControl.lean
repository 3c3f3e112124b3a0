import Vardar.Hal.Lapic

/-!
# Control registers of the local APIC

`enable_lapic`, `disable_lapic` and `set_eoi_broadcast` are for single bits of the spurious
interrupt register, and each of them writes the register with a bitwise or. So none of them ever
clears a bit: a LAPIC that has been enabled is not disabled again, and once the broadcast of EOIs
has been suppressed it stays so. `send_ipi` writes the upper half of an interrupt command before the
lower half, which sends it.

## Main definitions

* `Vardar.Lapic.disableLapic`, `Vardar.Lapic.eoiIsBroadcast`, `Vardar.Lapic.setEoiBroadcast`.
* `Vardar.LapicBus`: a LAPIC that sends the interrupt command when its lower half is written.
* `Vardar.LapicBus.sendIpi`, `Vardar.LapicBus.Call`.

## Main results

* `Vardar.LapicBus.control_of_run`.
-/

namespace Vardar

open ByteMemory

namespace Lapic

/-- `LAPIC_ICR0_REG`. -/
def icr0Reg : ℕ := 0x300

/-- `LAPIC_ICR1_REG`. -/
def icr1Reg : ℕ := 0x310

/-- The spurious interrupt register. -/
def spurious (l : Lapic) : BitVec 32 := l.lapicRead spuriousIntReg

/-- `disable_lapic`. -/
def disableLapic (l : Lapic) (smp : SmpInfo) : Lapic :=
  let l := { l with base := smp.lapicAddr }
  l.lapicWrite spuriousIntReg (l.lapicRead spuriousIntReg ||| (0 : BitVec 32) <<< 8)

/-- `eoi_is_broadcast`. -/
def eoiIsBroadcast (l : Lapic) : Bool := ¬ l.lapicRead spuriousIntReg &&& (1 : BitVec 32) <<< 12 ≠ 0

/-- `set_eoi_broadcast`. -/
def setEoiBroadcast (l : Lapic) (enabled : Bool) : Lapic :=
  if l.eoiIsBroadcast = enabled then l
  else l.lapicWrite spuriousIntReg
    (l.lapicRead spuriousIntReg ||| (BitVec.ofBool !enabled).setWidth 32 <<< 12)

/-- The enable bit. -/
def enabled (l : Lapic) : Bool := l.spurious.getLsbD 8

/-! ### The spurious interrupt register -/

variable {l : Lapic} {smp : SmpInfo}

theorem lapicRead_lapicWrite (l : Lapic) (reg reg' : ℕ) (val : BitVec 32) :
    (l.lapicWrite reg val).lapicRead reg' = if reg' = reg then val else l.lapicRead reg' := by
  simp only [lapicRead, lapicWrite, Function.update_self, Function.update_apply]

theorem spurious_lapicWrite (l : Lapic) (val : BitVec 32) :
    (l.lapicWrite spuriousIntReg val).spurious = val := by
  rw [spurious, lapicRead_lapicWrite, if_pos rfl]

theorem spurious_lapicWrite_of_ne {reg : ℕ} (h : reg ≠ spuriousIntReg) (l : Lapic)
    (val : BitVec 32) : (l.lapicWrite reg val).spurious = l.spurious := by
  rw [spurious, lapicRead_lapicWrite, if_neg h.symm, spurious]

/-- The bit that `eoi_is_broadcast` tests is set if the broadcast is suppressed. -/
theorem eoiIsBroadcast_eq (l : Lapic) : l.eoiIsBroadcast = !l.spurious.getLsbD 12 := by
  rw [eoiIsBroadcast, show (1 : BitVec 32) <<< 12 = BitVec.twoPow 32 12 by decide,
    BitVec.and_twoPow, ← spurious]
  cases l.spurious.getLsbD 12 <;> decide

theorem spurious_disableLapic (hl : l.base = smp.lapicAddr) :
    (l.disableLapic smp).spurious = l.spurious ∧ (l.disableLapic smp).base = l.base := by
  have hself : { l with base := smp.lapicAddr } = l := by rw [← hl]
  rw [disableLapic, hself, spurious_lapicWrite]
  exact ⟨BitVec.or_zero, rfl⟩

theorem spurious_setEoiBroadcast (l : Lapic) (enabled : Bool) :
    (l.setEoiBroadcast enabled).spurious =
        (if enabled then l.spurious else l.spurious ||| BitVec.twoPow 32 12) ∧
      (l.setEoiBroadcast enabled).base = l.base := by
  rw [setEoiBroadcast]
  by_cases h : l.eoiIsBroadcast = enabled
  · rw [if_pos h]
    refine ⟨?_, rfl⟩
    cases enabled with
    | true => rfl
    | false =>
      -- the bit is set already
      rw [eoiIsBroadcast_eq, Bool.not_eq_false'] at h
      rw [if_neg Bool.false_ne_true]
      refine BitVec.eq_of_getLsbD_eq fun i hi => ?_
      rw [BitVec.getLsbD_or, BitVec.getLsbD_twoPow]
      by_cases h12 : i = 12
      · rw [h12, h]
        rfl
      · simp [Ne.symm h12]
  · rw [if_neg h, spurious_lapicWrite]
    refine ⟨?_, rfl⟩
    cases enabled with
    | true => exact BitVec.or_zero
    | false => rfl

theorem spurious_enableNmi (junk : BitVec 32) (r : NmiRecord) (l : Lapic) :
    (l.enableNmi junk r).spurious = l.spurious ∧ (l.enableNmi junk r).base = l.base := by
  rw [enableNmi]
  split_ifs
  · exact ⟨rfl, rfl⟩
  · exact ⟨spurious_lapicWrite_of_ne (by decide) _ _, rfl⟩
  · exact ⟨spurious_lapicWrite_of_ne (by decide) _ _, rfl⟩

theorem spurious_forNmis {body : ℕ → Lapic → Lapic}
    (hbody : ∀ nmi l, (body nmi l).spurious = l.spurious ∧ (body nmi l).base = l.base)
    {fuel : ℕ} {i : ℤ} {l' : Lapic} (h : forNmis body smp fuel i l = some l') :
    l'.spurious = l.spurious ∧ l'.base = l.base := by
  induction fuel generalizing i l with
  | zero => exact absurd h (Option.some_ne_none l').symm
  | succ fuel ih =>
    rw [forNmis] at h
    cases hnmi : getNmiRecord smp (BitVec.ofInt 8 i) with
    | none =>
      rw [hnmi, Option.elim_none, Option.some.injEq] at h
      rw [h]
      exact ⟨rfl, rfl⟩
    | some nmi =>
      rw [hnmi, Option.elim_some] at h
      obtain ⟨hsp, hbase⟩ := ih h
      exact ⟨hsp.trans (hbody nmi l).1, hbase.trans (hbody nmi l).2⟩

theorem spurious_enableLapic {m : Mem} {junk : ℕ → BitVec 32} {fuel : ℕ} {l' : Lapic}
    (hl : l.base = smp.lapicAddr) (h : l.enableLapic m junk smp fuel = some l') :
    l'.spurious = l.spurious ||| BitVec.twoPow 32 8 ∧ l'.base = l.base := by
  have hself : { l with base := smp.lapicAddr } = l := by rw [← hl]
  rw [enableLapic] at h
  obtain ⟨l₁, hloop, hlast⟩ := Option.bind_eq_some_iff.mp h
  rw [hself] at hloop
  obtain ⟨hsp, hbase⟩ := spurious_forNmis (fun nmi l => spurious_enableNmi (junk nmi) _ l) hloop
  obtain rfl := Option.some.inj hlast
  rw [spurious_lapicWrite, ← hsp, ← hbase]
  exact ⟨congrArg (l₁.spurious ||| ·) (show _ = BitVec.twoPow 32 8 by decide), rfl⟩

end Lapic

/-! ### Runs -/

/-- A LAPIC, and the interrupt commands it has sent, each with its upper dword first. -/
structure LapicBus where
  lapic : Lapic
  sent : List (BitVec 32 × BitVec 32)

namespace LapicBus

open Lapic

/-- `lapic_write`: a write of the lower dword of a command sends it. -/
def lapicWrite (b : LapicBus) (reg : ℕ) (val : BitVec 32) : LapicBus where
  lapic := b.lapic.lapicWrite reg val
  sent := if reg = icr0Reg then b.sent ++ [(b.lapic.lapicRead icr1Reg, val)] else b.sent

/-- `send_ipi`. -/
def sendIpi (b : LapicBus) (upperDword lowerDword : BitVec 32) : LapicBus :=
  (b.lapicWrite icr1Reg upperDword).lapicWrite icr0Reg lowerDword

/-- The calls that write control registers; `junk` are the bits on the stack of `enable_nmi`. -/
inductive Call
  | enableLapic (junk : ℕ → BitVec 32) (fuel : ℕ)
  | disableLapic
  | setEoiBroadcast (enabled : Bool)
  | sendIpi (upperDword lowerDword : BitVec 32)

namespace Call

/-- The call enables the LAPIC. -/
def enables : Call → Bool
  | enableLapic _ _ => true
  | _ => false

/-- The call suppresses the broadcast of EOIs. -/
def suppresses : Call → Bool
  | setEoiBroadcast enabled => !enabled
  | _ => false

/-- The command of the call. -/
def command : Call → Option (BitVec 32 × BitVec 32)
  | sendIpi upperDword lowerDword => some (upperDword, lowerDword)
  | _ => none

/-- The bits of the spurious interrupt register that the call sets. -/
def sets : Call → BitVec 32
  | enableLapic _ _ => BitVec.twoPow 32 8
  | setEoiBroadcast false => BitVec.twoPow 32 12
  | _ => 0

theorem getLsbD_sets (c : Call) (i : ℕ) :
    c.sets.getLsbD i = (decide (8 = i) && c.enables || decide (12 = i) && c.suppresses) := by
  cases c with
  | enableLapic junk fuel => simp [sets, enables, suppresses]
  | disableLapic => simp [sets, enables, suppresses]
  | setEoiBroadcast enabled => cases enabled <;> simp [sets, enables, suppresses]
  | sendIpi upperDword lowerDword => simp [sets, enables, suppresses]

end Call

/-- A call, `m` being the memory with the records of `SMP_INFO`. -/
def step (m : Mem) (smp : SmpInfo) (b : LapicBus) : Call → Option LapicBus
  | .enableLapic junk fuel =>
    (b.lapic.enableLapic m junk smp fuel).map fun l => { b with lapic := l }
  | .disableLapic => some { b with lapic := b.lapic.disableLapic smp }
  | .setEoiBroadcast enabled => some { b with lapic := b.lapic.setEoiBroadcast enabled }
  | .sendIpi upperDword lowerDword => some (b.sendIpi upperDword lowerDword)

variable {m : Mem} {smp : SmpInfo} {b b' : LapicBus}

/-- A call sets bits of the register, and sends its command whole. -/
theorem step_spec (hb : b.lapic.base = smp.lapicAddr) {c : Call} (h : b.step m smp c = some b') :
    b'.lapic.spurious = b.lapic.spurious ||| c.sets ∧ b'.lapic.base = b.lapic.base ∧
      b'.sent = b.sent ++ c.command.toList := by
  cases c with
  | enableLapic junk fuel =>
    obtain ⟨l, hl, rfl⟩ := Option.map_eq_some_iff.mp h
    obtain ⟨hsp, hbase⟩ := spurious_enableLapic hb hl
    exact ⟨hsp, hbase, (List.append_nil _).symm⟩
  | disableLapic =>
    obtain rfl := Option.some.inj h
    obtain ⟨hsp, hbase⟩ := spurious_disableLapic hb
    exact ⟨hsp.trans BitVec.or_zero.symm, hbase, (List.append_nil _).symm⟩
  | setEoiBroadcast enabled =>
    obtain rfl := Option.some.inj h
    obtain ⟨hsp, hbase⟩ := spurious_setEoiBroadcast b.lapic enabled
    refine ⟨hsp.trans ?_, hbase, (List.append_nil _).symm⟩
    cases enabled with
    | true => exact BitVec.or_zero.symm
    | false => rfl
  | sendIpi upperDword lowerDword =>
    obtain rfl := Option.some.inj h
    refine ⟨?_, rfl, ?_⟩
    · have hne₀ : icr0Reg ≠ spuriousIntReg := by decide
      have hne₁ : icr1Reg ≠ spuriousIntReg := by decide
      rw [sendIpi, lapicWrite, spurious_lapicWrite_of_ne hne₀, lapicWrite,
        spurious_lapicWrite_of_ne hne₁]
      exact BitVec.or_zero.symm
    · have hne : icr1Reg ≠ icr0Reg := by decide
      rw [sendIpi, lapicWrite, lapicWrite]
      simp only [if_neg hne, lapicRead_lapicWrite, if_true]
      rfl

theorem run_spec (hb : b.lapic.base = smp.lapicAddr) {cs : List Call}
    (h : cs.foldlM (step m smp) b = some b') :
    (∀ i, b'.lapic.spurious.getLsbD i =
      (b.lapic.spurious.getLsbD i || cs.any fun c => c.sets.getLsbD i)) ∧
      b'.sent = b.sent ++ cs.filterMap Call.command := by
  induction cs generalizing b with
  | nil =>
    obtain rfl := Option.some.inj h
    exact ⟨fun i => by simp, (List.append_nil _).symm⟩
  | cons c cs ih =>
    obtain ⟨b₁, hc, hcs⟩ := Option.bind_eq_some_iff.mp h
    obtain ⟨hsp, hbase, hsent⟩ := step_spec hb hc
    obtain ⟨hbits, hsents⟩ := ih (hbase.trans hb) hcs
    refine ⟨fun i => ?_, ?_⟩
    · rw [hbits, hsp, BitVec.getLsbD_or, Bool.or_assoc, List.any_cons]
    · rw [hsents, hsent, List.append_assoc]
      cases hcom : c.command with
      | none => rw [List.filterMap_cons_none hcom]; rfl
      | some x => rw [List.filterMap_cons_some hcom]; rfl

/-- **Nothing is ever disabled.** After any calls, the LAPIC is enabled if it was before or if any
call has enabled it, whatever calls of `disable_lapic` there were, and the broadcast of EOIs is
suppressed if it was before or if any call has suppressed it. The commands sent are those of the
calls of `send_ipi`, in order. -/
theorem control_of_run (hb : b.lapic.base = smp.lapicAddr) {cs : List Call}
    (h : cs.foldlM (step m smp) b = some b') :
    b'.lapic.enabled = (b.lapic.enabled || cs.any Call.enables) ∧
      b'.lapic.eoiIsBroadcast = (b.lapic.eoiIsBroadcast && !cs.any Call.suppresses) ∧
      (∀ i, i ≠ 8 → i ≠ 12 → b'.lapic.spurious.getLsbD i = b.lapic.spurious.getLsbD i) ∧
      b'.sent = b.sent ++ cs.filterMap Call.command := by
  obtain ⟨hbits, hsent⟩ := run_spec hb h
  simp only [Call.getLsbD_sets] at hbits
  refine ⟨?_, ?_, fun i h8 h12 => ?_, hsent⟩
  · rw [enabled, enabled, hbits]
    simp
  · rw [eoiIsBroadcast_eq, eoiIsBroadcast_eq, hbits, Bool.not_or]
    simp
  · rw [hbits, decide_eq_false h8.symm, decide_eq_false h12.symm]
    simp

/-- A LAPIC that is enabled, disabled and told to broadcast again stays enabled and silent. -/
theorem control_of_run_disabled : ∃ b', [Call.enableLapic (fun _ => 0) 5, .setEoiBroadcast false,
      .disableLapic, .setEoiBroadcast true].foldlM (step (fun _ => 0) twoNmis)
      ⟨⟨twoNmis.lapicAddr, fun _ _ => 0⟩, []⟩ = some b' ∧
    b'.lapic.enabled = true ∧ b'.lapic.eoiIsBroadcast = false := by
  have hsome : ([Call.enableLapic (fun _ => 0) 5, .setEoiBroadcast false, .disableLapic,
      .setEoiBroadcast true].foldlM (step (fun _ => 0) twoNmis)
      ⟨⟨twoNmis.lapicAddr, fun _ _ => 0⟩, []⟩).isSome = true := by decide +kernel
  obtain ⟨b', hrun⟩ := Option.isSome_iff_exists.mp hsome
  obtain ⟨hon, hsilent, -⟩ := control_of_run rfl hrun
  exact ⟨b', hrun, hon, hsilent.trans (Bool.and_false _)⟩

end LapicBus

end Vardar
