import Vardar.Lib.IntervalTimer
import Vardar.Lib.Run

/-!
# The programmable interval timer

`set_pit_periodic` makes channel 0 a rate generator, and `read_pit_count` latches its count and
reads it in two bytes. The clock of the timer goes on between the accesses of the ports: each call
has a pace, the number of ticks before each of its accesses.

## Main definitions

* `Vardar.Pit.setPitPeriodic`, `Vardar.Pit.readPitCount`.
* `Vardar.Pit.Clock`: what the calls are for.

## Main results

* `Vardar.Pit.reads_of_run`: every count read is that of the moment of the latch command.
* `Vardar.Pit.interrupts_in_second`: how many interrupts a frequency gives.
-/

namespace Vardar.Pit

open IntervalTimer

/-- `DEFAULT_PIT_HZ`. -/
def defaultPitHz : ℕ := 1193180

/-- `PIT_CHAN0_DATA`. -/
def pitChan0Data : BitVec 16 := 0x40

/-- `PIT_COMMAND`. -/
def pitCommand : BitVec 16 := 0x43

/-- `RATE_GENERATOR`. -/
def rateGenerator : BitVec 3 := 0b010

/-- `PIT_LATCH`. -/
def pitLatch : BitVec 2 := 0b00

/-- `PIT_LO_AND_HI_BYTES`. -/
def pitLoAndHiBytes : BitVec 2 := 0b11

/-- `PIT_BINARY`. -/
def pitBinary : BitVec 1 := 0

/-- `pit_command_t`. -/
structure PitCommand where
  binaryMode : BitVec 1
  operatingMode : BitVec 3
  accessMode : BitVec 2
  channel : BitVec 2

/-- The byte of a `pit_command_t`, its first bit field in the lowest bit. -/
def PitCommand.byte (c : PitCommand) : BitVec 8 :=
  c.channel ++ c.accessMode ++ c.operatingMode ++ c.binaryMode

/-- `outportb`. -/
def outportb (t : Timer) (port : BitVec 16) (byte : BitVec 8) : Timer :=
  if port = pitCommand then t.command byte
  else if port = pitChan0Data then t.writeData byte
  else t

/-- `inportb` of the data port of channel 0. -/
def inportb (t : Timer) : BitVec 8 × Timer := t.readData

/-- `send_pit_command`. -/
def sendPitCommand (t : Timer) (command : PitCommand) : Timer := outportb t pitCommand command.byte

/-- The reset value for a frequency, cut to sixteen bits. -/
def resetValue (hz : BitVec 16) : BitVec 16 := BitVec.ofNat 16 (defaultPitHz / hz.toNat)

section Calls

variable (other : Timer → Timer) (pace : ℕ → ℕ)

/-- `set_pit_periodic`. A frequency of zero faults. -/
def setPitPeriodic (hz : BitVec 16) (t : Timer) : Option Timer :=
  let t := sendPitCommand (ticks other (pace 0) t) ⟨pitBinary, rateGenerator, pitLoAndHiBytes, 0⟩
  if hz = 0 then none
  else
    let reset := resetValue hz
    let t := outportb (ticks other (pace 1) t) pitChan0Data (reset.setWidth 8)
    some (outportb (ticks other (pace 2) t) pitChan0Data ((reset >>> 8).setWidth 8))

/-- `read_pit_count`. -/
def readPitCount (t : Timer) : BitVec 32 × Timer :=
  let t := sendPitCommand (ticks other (pace 0) t) ⟨pitBinary, 0, pitLatch, 0⟩
  let (lower, t) := inportb (ticks other (pace 1) t)
  let (upper, t) := inportb (ticks other (pace 2) t)
  (lower.setWidth 32 ||| upper.setWidth 32 <<< 8, t)

end Calls

/-! ### One call -/

theorem outportb_data (t : Timer) (b : BitVec 8) : outportb t pitChan0Data b = t.writeData b := rfl

theorem append_bytes (v : BitVec 16) : (v >>> 8).setWidth 8 ++ v.setWidth 8 = v := by
  refine BitVec.eq_of_getLsbD_eq fun i hi => ?_
  rw [BitVec.getLsbD_append, BitVec.getLsbD_setWidth, BitVec.getLsbD_setWidth,
    BitVec.getLsbD_ushiftRight]
  split_ifs with hlo
  · simp [hlo]
  · have hin : i - 8 < 8 := by omega
    simp [hin, show 8 + (i - 8) = i by omega]

theorem or_bytes (v : BitVec 16) :
    (v.extractLsb' 0 8).setWidth 32 ||| (v.extractLsb' 8 8).setWidth 32 <<< 8 = v.setWidth 32 := by
  refine BitVec.eq_of_getLsbD_eq fun i hi => ?_
  simp only [BitVec.getLsbD_or, BitVec.getLsbD_setWidth, BitVec.getLsbD_shiftLeft,
    BitVec.getLsbD_extractLsb', hi, decide_true, Bool.true_and]
  by_cases hlo : i < 8
  · simp [hlo]
  · have hsub : 8 + (i - 8) = i := by omega
    by_cases hin : i - 8 < 8
    · simp [hlo, hin, hsub, show i - 8 < 32 by omega]
    · have hzero : v.getLsbD i = false := BitVec.getLsbD_of_ge _ _ (by omega)
      simp [hlo, hin, hzero]

/-- The counter runs, and no latched count is partly read. -/
structure Programmed (reset : BitVec 16) (k n : ℕ) (t : Timer) : Prop where
  generator : RateGenerator reset k n t
  latch : t.latch = none
  high : t.high = false

variable {other : Timer → Timer} {hz reset : BitVec 16} {k n : ℕ} {t : Timer}

theorem Programmed.ticks (other : Timer → Timer) (h : Programmed reset k n t) (m : ℕ) :
    Programmed reset k (n + m) (ticks other m t) := by
  obtain ⟨hgen, hport⟩ := h.generator.ticks other m
  exact ⟨hgen, hport.latch.trans h.latch, hport.high.trans h.high⟩

/-- `set_pit_periodic` programs the counter, whatever its state was. -/
theorem setPitPeriodic_spec (other : Timer → Timer) (pace : ℕ → ℕ) (hz0 : hz ≠ 0) (t : Timer) :
    ∃ t', setPitPeriodic other pace hz t = some t' ∧
      Programmed (resetValue hz) (ticks other (pace 0) t).pulses 0 t' := by
  have hsend (t : Timer) :
      sendPitCommand t ⟨pitBinary, rateGenerator, pitLoAndHiBytes, 0⟩ = t.command 0x34 := rfl
  have hcommand := awaiting_command (c := 0x34) (IntervalTimer.ticks other (pace 0) t) (by decide)
    (by decide) (by decide) (by decide)
  have hlow := hcommand.writeData_low ((resetValue hz).setWidth 8)
  obtain ⟨hgen, hlatch, hhigh⟩ := hlow.writeData_high ((resetValue hz >>> 8).setWidth 8)
  rw [append_bytes] at hgen
  refine ⟨_, if_neg hz0, ?_⟩
  rw [hsend, outportb_data, outportb_data, hcommand.ticks, hlow.ticks]
  exact ⟨hgen, hlatch, hhigh⟩

/-- `read_pit_count` gives the count at its latch command, whatever the ticks after it. -/
theorem readPitCount_spec (other : Timer → Timer) (h : Programmed reset k n t) (pace : ℕ → ℕ)
    (hpos : 0 < n + pace 0) :
    (readPitCount other pace t).1 =
        (BitVec.ofNat 16 (countAt (period reset) (n + pace 0))).setWidth 32 ∧
      Programmed reset k (n + pace 0 + pace 1 + pace 2) (readPitCount other pace t).2 := by
  obtain ⟨hgen, hlatch, hhigh⟩ := h.ticks other (pace 0)
  set t₀ := IntervalTimer.ticks other (pace 0) t with ht₀
  obtain ⟨hgen₀, hlatch₀, hhigh₀⟩ := hgen.command_latch (c := 0) (by decide) (by decide)
  rw [hlatch, Option.getD_none, hgen.count hpos] at hlatch₀
  obtain ⟨hgen₁, hport₁⟩ := hgen₀.ticks other (pace 1)
  set t₁ := IntervalTimer.ticks other (pace 1) (t₀.command 0) with ht₁
  obtain ⟨hlower, hgen₂, hlatch₂, hhigh₂⟩ :=
    hgen₁.readData_low (hport₁.latch.trans hlatch₀) (hport₁.high.trans (hhigh₀.trans hhigh))
  obtain ⟨hgen₃, hport₃⟩ := hgen₂.ticks other (pace 2)
  set t₂ := IntervalTimer.ticks other (pace 2) t₁.readData.2 with ht₂
  obtain ⟨hupper, hgen₄, hlatch₄, hhigh₄⟩ :=
    hgen₃.readData_high (hport₃.latch.trans hlatch₂) (hport₃.high.trans hhigh₂)
  have hread : readPitCount other pace t =
      (t₁.readData.1.setWidth 32 ||| t₂.readData.1.setWidth 32 <<< 8, t₂.readData.2) := rfl
  rw [hread, hlower, hupper, or_bytes]
  exact ⟨rfl, hgen₄, hlatch₄, hhigh₄⟩

/-! ### Runs -/

/-- A call, or ticks between two calls. -/
inductive Call
  | setPitPeriodic (pace : ℕ → ℕ) (hz : BitVec 16)
  | readPitCount (pace : ℕ → ℕ)
  | wait (n : ℕ)

/-- The timer and the counts that have been read from it. -/
structure State where
  timer : Timer
  reads : List (BitVec 32)

/-- The state after a call. -/
def step (other : Timer → Timer) (s : State) : Call → State
  | .setPitPeriodic pace hz =>
    { s with timer := (setPitPeriodic other pace hz s.timer).getD s.timer }
  | .readPitCount pace =>
    ⟨(readPitCount other pace s.timer).2, s.reads ++ [(readPitCount other pace s.timer).1]⟩
  | .wait n => { s with timer := ticks other n s.timer }

/-- What the timer is for: the reset value, the ticks since it was set, the interrupts before that,
and the counts that have been read. -/
structure Clock where
  reset : BitVec 16
  elapsed : ℕ
  before : ℕ
  reads : List (BitVec 32)

namespace Clock

/-- The interrupts so far. -/
def interrupts (c : Clock) : ℕ := c.before + pulsesAt (period c.reset) c.elapsed

/-- The clock some ticks later. -/
def wait (c : Clock) (n : ℕ) : Clock := { c with elapsed := c.elapsed + n }

/-- The count, a reset value of zero and a count of `2 ^ 16` being the same. -/
def count (c : Clock) : BitVec 32 :=
  (BitVec.ofNat 16 (countAt (period c.reset) c.elapsed)).setWidth 32

/-- The clock after a call: a frequency is set at once, and a count is read at once. -/
def step (c : Clock) : Call → Clock
  | .setPitPeriodic pace hz => ⟨resetValue hz, 0, (c.wait (pace 0)).interrupts, c.reads⟩
  | .readPitCount pace =>
    { c.wait (pace 0 + pace 1 + pace 2) with reads := c.reads ++ [(c.wait (pace 0)).count] }
  | .wait n => c.wait n

/-- No frequency is zero, and no count is read before the counter has started. -/
def Allowed (c : Clock) : Call → Prop
  | .setPitPeriodic _ hz => hz ≠ 0
  | .readPitCount pace => 0 < c.elapsed + pace 0
  | .wait _ => True

end Clock

/-- The state of the timer is that of the clock. -/
structure Refines (c : Clock) (s : State) : Prop where
  timer : Programmed c.reset c.before c.elapsed s.timer
  reads : s.reads = c.reads

theorem refines_step (other : Timer → Timer) {c : Clock} {s : State} (h : Refines c s) {call : Call}
    (hc : c.Allowed call) : Refines (c.step call) (step other s call) := by
  cases call with
  | setPitPeriodic pace hz =>
    obtain ⟨t', hset, hprog⟩ := setPitPeriodic_spec other pace hc s.timer
    rw [(h.timer.ticks other (pace 0)).generator.pulses] at hprog
    refine ⟨?_, h.reads⟩
    rw [step, hset]
    exact hprog
  | readPitCount pace =>
    obtain ⟨hcount, hprog⟩ := readPitCount_spec other h.timer pace hc
    refine ⟨?_, ?_⟩
    · rw [add_assoc, add_assoc, ← add_assoc (pace 0)] at hprog
      exact hprog
    · rw [step, hcount, h.reads]
      rfl
  | wait n => exact ⟨h.timer.ticks other n, h.reads⟩

/-- **Counts are read at the latch.** Whatever the state of the timer, after `set_pit_periodic` and
in every run of `set_pit_periodic`, `read_pit_count` and ticks of the clock, also between the
accesses of a call, the counts read and the interrupts are those of the clock. -/
theorem reads_of_run (other : Timer → Timer) (pace : ℕ → ℕ) {hz : BitVec 16} (hz0 : hz ≠ 0)
    (t : Timer) (calls : List Call)
    (hrun : Run.Along Clock.step Clock.Allowed
      ⟨resetValue hz, 0, (ticks other (pace 0) t).pulses, []⟩ calls) :
    ∃ t', setPitPeriodic other pace hz t = some t' ∧
      (calls.foldl (step other) ⟨t', []⟩).reads =
        (calls.foldl Clock.step ⟨resetValue hz, 0, (ticks other (pace 0) t).pulses, []⟩).reads ∧
      (calls.foldl (step other) ⟨t', []⟩).timer.pulses =
        (calls.foldl Clock.step
          ⟨resetValue hz, 0, (ticks other (pace 0) t).pulses, []⟩).interrupts := by
  obtain ⟨t', hset, hprog⟩ := setPitPeriodic_spec other pace hz0 t
  have hstart : Refines ⟨resetValue hz, 0, (ticks other (pace 0) t).pulses, []⟩ ⟨t', []⟩ :=
    ⟨hprog, rfl⟩
  have hstep (c : Clock) (s : State) (call : Call) (h : Refines c s) (hc : c.Allowed call) :
      Refines (c.step call) (step other s call) := refines_step other h hc
  have hend := hrun.simulation hstep hstart
  exact ⟨t', hset, hend.reads, hend.timer.generator.pulses⟩

/-- A counter in some state of a terminal count. -/
def stale : Timer where
  access := 1
  mode := 0
  bcd := true
  reload := 5
  count := 3
  phase := .counting
  low := some 7
  latch := some 9
  high := true
  pulses := 0

/-- A thousand interrupts a second, of which one has come before the second count is read. -/
theorem reads_of_run_two : ∃ t', setPitPeriodic id (fun _ => 0) 1000 stale = some t' ∧
    ([.wait 5, .readPitCount fun _ => 2, .wait 1190, .readPitCount fun i => i].foldl
      (step id) ⟨t', []⟩).reads = [1187, 1186] := by
  obtain ⟨t', hset, hreads, -⟩ := reads_of_run id (fun _ => 0)
    (show (1000 : BitVec 16) ≠ 0 by decide) stale
    [.wait 5, .readPitCount fun _ => 2, .wait 1190, .readPitCount fun i => i]
    ⟨trivial, (by decide : 0 < 0 + 5 + 2), trivial, (by decide : 0 < 0 + 5 + 6 + 1190 + 0), trivial⟩
  exact ⟨t', hset, hreads.trans (by decide +kernel)⟩

/-! ### The rate -/

/-- The reset value is not cut. -/
theorem period_resetValue (hlo : 19 ≤ hz.toNat) :
    period (resetValue hz) = defaultPitHz / hz.toNat := by
  have hpos : 0 < defaultPitHz / hz.toNat :=
    Nat.div_pos (hz.isLt.le.trans (by decide)) (by omega)
  have hlt : defaultPitHz / hz.toNat < 2 ^ 16 :=
    (Nat.div_le_div_left hlo (by decide)).trans_lt (by decide)
  have hval : (resetValue hz).toNat = defaultPitHz / hz.toNat := by
    rw [resetValue, BitVec.toNat_ofNat, Nat.mod_eq_of_lt hlt]
  rw [period, if_neg, hval]
  intro hzero
  rw [hzero] at hval
  exact hpos.ne hval

/-- The periods that end in a second, from any moment. -/
theorem pulsesAt_second {h : ℕ} (h0 : 0 < h) (hhi : h ≤ 1092) {n : ℕ} (hn : 0 < n) :
    pulsesAt (defaultPitHz / h) n + h ≤ pulsesAt (defaultPitHz / h) (n + defaultPitHz) ∧
      pulsesAt (defaultPitHz / h) (n + defaultPitHz) ≤ pulsesAt (defaultPitHz / h) n + h + 1 := by
  set p := defaultPitHz / h with hp
  have hle : h ≤ p := by
    rw [hp, Nat.le_div_iff_mul_le h0]
    exact (Nat.mul_le_mul hhi hhi).trans (by decide)
  have hdiv := Nat.div_add_mod defaultPitHz h
  have hmod := Nat.mod_lt defaultPitHz h0
  rw [← hp] at hdiv
  set r := defaultPitHz % h
  have hsum : pulsesAt p (n + defaultPitHz) = h + (n - 1 + r) / p := by
    have hsplit : n + defaultPitHz - 1 = p * h + (n - 1 + r) := by
      rw [Nat.mul_comm p h]
      omega
    rw [pulsesAt, hsplit, Nat.mul_add_div (by omega)]
  have hlo : (n - 1) / p ≤ (n - 1 + r) / p := Nat.div_le_div_right (Nat.le_add_right _ _)
  have hhi : (n - 1 + r) / p ≤ (n - 1) / p + 1 := by
    rw [← Nat.add_div_right (n - 1) (by omega)]
    exact Nat.div_le_div_right (by omega)
  rw [hsum, pulsesAt]
  omega

/-- **The frequency.** For every frequency from 19 to 1092 and from any state of the timer, there
are as many interrupts in a second of the clock as the frequency says, or one more. -/
theorem interrupts_in_second (other : Timer → Timer) (pace : ℕ → ℕ) (hlo : 19 ≤ hz.toNat)
    (hhi : hz.toNat ≤ 1092) (t : Timer) (n : ℕ) (hn : 0 < n) :
    ∃ t', setPitPeriodic other pace hz t = some t' ∧
      (ticks other n t').pulses + hz.toNat ≤ (ticks other (n + defaultPitHz) t').pulses ∧
      (ticks other (n + defaultPitHz) t').pulses ≤ (ticks other n t').pulses + hz.toNat + 1 := by
  have hz0 : hz ≠ 0 := by
    rintro rfl
    exact absurd hlo (by decide)
  obtain ⟨t', hset, hprog⟩ := setPitPeriodic_spec other pace hz0 t
  refine ⟨t', hset, ?_⟩
  rw [(hprog.ticks other n).generator.pulses,
    (hprog.ticks other (n + defaultPitHz)).generator.pulses, period_resetValue hlo,
    Nat.zero_add, Nat.zero_add]
  obtain ⟨hleast, hmost⟩ := pulsesAt_second (by omega) hhi hn
  omega

/-- The frequency that the local timers are measured with. -/
theorem interrupts_in_second_thousand : ∃ t', setPitPeriodic id (fun _ => 0) 1000 stale = some t' ∧
    (ticks id 1 t').pulses + 1000 ≤ (ticks id (1 + defaultPitHz) t').pulses ∧
    (ticks id (1 + defaultPitHz) t').pulses ≤ (ticks id 1 t').pulses + 1000 + 1 :=
  interrupts_in_second id (fun _ => 0) (show 19 ≤ (1000 : BitVec 16).toNat by decide) (by decide)
    stale 1 (by decide)

end Vardar.Pit
