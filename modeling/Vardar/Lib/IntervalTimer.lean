import Mathlib.Data.BitVec
import Mathlib.Logic.Function.Iterate

/-!
# An interval timer

A counter of sixteen bits that is loaded with a reload value, counts down with its clock and gives a
pulse each time it starts again. It is programmed through ports of eight bits: a command byte says
how the reload value is written and read, byte by byte, and a latch command holds the count until
both of its bytes are read. This is one counter of the 8254; only its rate generator with binary
counting is described, and what the others do is a parameter.

## Main definitions

* `IntervalTimer.Timer`, `IntervalTimer.tick`.
* `IntervalTimer.Timer.command`, `IntervalTimer.Timer.writeData`, `IntervalTimer.Timer.readData`.
* `IntervalTimer.RateGenerator`: the timer has been programmed, and some ticks have passed.

## Main results

* `IntervalTimer.RateGenerator.ticks`: count and pulses after any number of ticks.
-/

namespace IntervalTimer

/-- A counter waits for its reload value after a command, takes it at the next tick, and counts. -/
inductive Phase
  | waiting
  | starting
  | counting

/-- The state of a counter. -/
structure Timer where
  access : BitVec 2
  mode : BitVec 3
  bcd : Bool
  reload : BitVec 16
  count : BitVec 16
  phase : Phase
  /-- The low byte of a reload value whose high byte has not been written. -/
  low : Option (BitVec 8)
  latch : Option (BitVec 16)
  /-- The next byte read is the high one. -/
  high : Bool
  pulses : ℕ

section Clock

variable (other : Timer → Timer)

/-- One tick of the clock. -/
def tick (t : Timer) : Timer :=
  if t.mode = 2#3 ∧ t.bcd = false then
    match t.phase with
    | .waiting => t
    | .starting => { t with count := t.reload, phase := .counting }
    | .counting =>
      if t.count = 1#16 then { t with count := t.reload, pulses := t.pulses + 1 }
      else { t with count := t.count - 1#16 }
  else other t

/-- Some ticks of the clock. -/
def ticks (n : ℕ) : Timer → Timer := (tick other)^[n]

end Clock

namespace Timer

/-- A byte on the command port. It is for this counter if its two highest bits are zero. -/
def command (t : Timer) (c : BitVec 8) : Timer :=
  if c.extractLsb' 6 2 ≠ 0#2 then t
  else if c.extractLsb' 4 2 = 0#2 then { t with latch := some (t.latch.getD t.count) }
  else
    { t with
      access := c.extractLsb' 4 2
      mode := c.extractLsb' 1 3
      bcd := c.getLsbD 0
      phase := .waiting
      low := none
      latch := none
      high := false }

/-- A new reload value starts a waiting counter, and waits for the end of a period otherwise. -/
def setReload (t : Timer) (v : BitVec 16) : Timer :=
  { t with
    reload := v
    low := none
    phase := match t.phase with
      | .counting => .counting
      | _ => .starting }

/-- A byte written to the data port. -/
def writeData (t : Timer) (b : BitVec 8) : Timer :=
  if t.access = 1#2 then t.setReload (b.setWidth 16)
  else if t.access = 2#2 then t.setReload (b ++ 0#8)
  else
    match t.low with
    | none => { t with low := some b }
    | some l => t.setReload (b ++ l)

/-- A byte read from the data port. -/
def readData (t : Timer) : BitVec 8 × Timer :=
  let v := t.latch.getD t.count
  if t.access = 1#2 then (v.extractLsb' 0 8, { t with latch := none })
  else if t.access = 2#2 then (v.extractLsb' 8 8, { t with latch := none })
  else if t.high then (v.extractLsb' 8 8, { t with latch := none, high := false })
  else (v.extractLsb' 0 8, { t with high := true })

end Timer

/-! ### The rate generator -/

/-- A reload value of zero stands for `2 ^ 16`. -/
def period (v : BitVec 16) : ℕ := if v = 0 then 2 ^ 16 else v.toNat

theorem period_pos (v : BitVec 16) : 0 < period v := by
  unfold period
  split_ifs with h
  · decide
  · exact Nat.pos_of_ne_zero fun h' => h (BitVec.eq_of_toNat_eq h')

theorem period_le (v : BitVec 16) : period v ≤ 2 ^ 16 := by
  unfold period
  split_ifs
  · exact le_rfl
  · exact v.isLt.le

theorem ofNat_period (v : BitVec 16) : BitVec.ofNat 16 (period v) = v := by
  unfold period
  split_ifs with h
  · rw [h]
    rfl
  · rw [BitVec.ofNat_toNat, BitVec.setWidth_eq]

/-- The count after `n` ticks. -/
def countAt (p n : ℕ) : ℕ := p - (n - 1) % p

/-- The pulses in `n` ticks. -/
def pulsesAt (p n : ℕ) : ℕ := (n - 1) / p

/-- A counter programmed as a rate generator with the reload value `v`, `n` ticks after that, with
`k` pulses before. -/
structure RateGenerator (v : BitVec 16) (k n : ℕ) (t : Timer) : Prop where
  mode : t.mode = 2#3 ∧ t.bcd = false
  access : t.access = 3#2
  reload : t.reload = v
  low : t.low = none
  phase : t.phase = if n = 0 then .starting else .counting
  count : 0 < n → t.count = BitVec.ofNat 16 (countAt (period v) n)
  pulses : t.pulses = k + pulsesAt (period v) n

variable {other : Timer → Timer} {v : BitVec 16} {k n p : ℕ} {t : Timer}

theorem ofNat_eq_one_iff {x : ℕ} (hpos : 0 < x) (hle : x ≤ 2 ^ 16) :
    BitVec.ofNat 16 x = 1#16 ↔ x = 1 := by
  rw [← BitVec.toNat_inj, BitVec.toNat_ofNat, BitVec.toNat_ofNat]
  omega

/-- The last tick of a period. -/
theorem mod_div_last (h : n % p + 1 = p) : (n + 1) / p = n / p + 1 ∧ (n + 1) % p = 0 := by
  have hn := Nat.div_add_mod n p
  refine (Nat.div_mod_unique (by omega)).mpr ⟨?_, by omega⟩
  rw [Nat.mul_succ]
  omega

theorem mod_div_other (h : n % p + 1 < p) : (n + 1) / p = n / p ∧ (n + 1) % p = n % p + 1 := by
  have hn := Nat.div_add_mod n p
  exact (Nat.div_mod_unique (by omega)).mpr ⟨by omega, h⟩

/-- A tick does not touch what is between the counter and the data port. -/
structure SamePort (t t' : Timer) : Prop where
  latch : t'.latch = t.latch
  high : t'.high = t.high

theorem SamePort.trans {t t' t'' : Timer} (h : SamePort t t') (h' : SamePort t' t'') :
    SamePort t t'' :=
  ⟨h'.latch.trans h.latch, h'.high.trans h.high⟩

/-- One tick. -/
theorem RateGenerator.tick (other : Timer → Timer) (h : RateGenerator v k n t) :
    RateGenerator v k (n + 1) (tick other t) ∧ SamePort t (IntervalTimer.tick other t) := by
  have hpos := period_pos v
  rw [IntervalTimer.tick, if_pos h.mode, h.phase]
  cases n with
  | zero =>
    refine ⟨⟨h.mode, h.access, h.reload, h.low, rfl, fun _ => ?_, ?_⟩, rfl, rfl⟩
    · rw [countAt, Nat.zero_add, Nat.sub_self, Nat.zero_mod, Nat.sub_zero, ofNat_period]
      exact h.reload
    · exact h.pulses
  | succ n =>
    rw [if_neg n.succ_ne_zero]
    dsimp only
    have hcount := h.count n.succ_pos
    have hpulses := h.pulses
    have hmod := Nat.mod_lt n hpos
    have hle := period_le v
    have hiff : t.count = 1#16 ↔ n % period v + 1 = period v := by
      rw [hcount, countAt, Nat.add_sub_cancel, ofNat_eq_one_iff (by omega) (by omega)]
      omega
    split_ifs with hone
    · -- the period ends with this tick
      obtain ⟨hdiv, hzero⟩ := mod_div_last (hiff.mp hone)
      refine ⟨⟨h.mode, h.access, h.reload, h.low, rfl, fun _ => ?_, ?_⟩, rfl, rfl⟩
      · rw [countAt, Nat.add_sub_cancel, hzero, Nat.sub_zero, ofNat_period]
        exact h.reload
      · rw [pulsesAt, Nat.add_sub_cancel, hdiv]
        change t.pulses + 1 = _
        rw [hpulses, pulsesAt, Nat.add_sub_cancel, add_assoc]
    · have hlt : n % period v + 1 < period v := by
        have hne := mt hiff.mpr hone
        omega
      obtain ⟨hdiv, hsucc⟩ := mod_div_other hlt
      refine ⟨⟨h.mode, h.access, h.reload, h.low, rfl, fun _ => ?_, ?_⟩, rfl, rfl⟩
      · change t.count - 1#16 = _
        rw [hcount, countAt, countAt, Nat.add_sub_cancel, Nat.add_sub_cancel, hsucc,
          ← BitVec.toNat_inj, BitVec.toNat_sub, BitVec.toNat_ofNat, BitVec.toNat_ofNat,
          BitVec.toNat_ofNat]
        omega
      · rw [pulsesAt, Nat.add_sub_cancel, hdiv]
        exact hpulses

/-- Any number of ticks. -/
theorem RateGenerator.ticks (other : Timer → Timer) (h : RateGenerator v k n t) (m : ℕ) :
    RateGenerator v k (n + m) (ticks other m t) ∧ SamePort t (IntervalTimer.ticks other m t) := by
  induction m with
  | zero => exact ⟨h, rfl, rfl⟩
  | succ m ih =>
    rw [IntervalTimer.ticks, Function.iterate_succ_apply']
    obtain ⟨hgen, hport⟩ := ih
    obtain ⟨hgen', hport'⟩ := hgen.tick other
    exact ⟨hgen', hport.trans hport'⟩

/-! ### Programming -/

/-- A counter that has got the command of a rate generator and waits for its reload value. -/
structure Awaiting (low : Option (BitVec 8)) (k : ℕ) (t : Timer) : Prop where
  mode : t.mode = 2#3 ∧ t.bcd = false
  access : t.access = 3#2
  phase : t.phase = .waiting
  low : t.low = low
  latch : t.latch = none
  high : t.high = false
  pulses : t.pulses = k

/-- It does nothing. -/
theorem Awaiting.ticks {low : Option (BitVec 8)} (h : Awaiting low k t) (m : ℕ) :
    ticks other m t = t := by
  refine Function.iterate_fixed ?_ m
  rw [tick, if_pos h.mode, h.phase]

theorem awaiting_command {c : BitVec 8} (t : Timer) (hc : c.extractLsb' 6 2 = 0#2)
    (haccess : c.extractLsb' 4 2 = 3#2) (hmode : c.extractLsb' 1 3 = 2#3)
    (hbcd : c.getLsbD 0 = false) : Awaiting none t.pulses (t.command c) := by
  rw [Timer.command, if_neg (not_not.mpr hc), if_neg (by rw [haccess]; decide)]
  exact ⟨⟨hmode, hbcd⟩, haccess, rfl, rfl, rfl, rfl, rfl⟩

/-- The low byte. -/
theorem Awaiting.writeData_low (h : Awaiting none k t) (b : BitVec 8) :
    Awaiting (some b) k (t.writeData b) := by
  have hwrite : t.writeData b = { t with low := some b } := by
    simp [Timer.writeData, h.access, h.low]
  rw [hwrite]
  exact ⟨h.mode, h.access, h.phase, rfl, h.latch, h.high, h.pulses⟩

/-- The high byte starts the counter. -/
theorem Awaiting.writeData_high {l : BitVec 8} (h : Awaiting (some l) k t) (b : BitVec 8) :
    RateGenerator (b ++ l) k 0 (t.writeData b) ∧ (t.writeData b).latch = none ∧
      (t.writeData b).high = false := by
  have hwrite : t.writeData b = t.setReload (b ++ l) := by
    simp [Timer.writeData, h.access, h.low]
  rw [hwrite, Timer.setReload, h.phase]
  refine ⟨⟨h.mode, h.access, rfl, rfl, rfl, fun h => absurd h (lt_irrefl 0), ?_⟩, h.latch, h.high⟩
  rw [pulsesAt, Nat.zero_sub, Nat.zero_div]
  exact h.pulses

/-! ### Reading the count -/

section Port

variable {c : BitVec 8} {w : BitVec 16}

/-- A latch command. -/
theorem RateGenerator.command_latch (h : RateGenerator v k n t) (hc : c.extractLsb' 6 2 = 0#2)
    (hlatch : c.extractLsb' 4 2 = 0#2) :
    RateGenerator v k n (t.command c) ∧ (t.command c).latch = some (t.latch.getD t.count) ∧
      (t.command c).high = t.high := by
  rw [Timer.command, if_neg (not_not.mpr hc), if_pos hlatch]
  exact ⟨⟨h.mode, h.access, h.reload, h.low, h.phase, h.count, h.pulses⟩, rfl, rfl⟩

/-- The first byte of a latched count. -/
theorem RateGenerator.readData_low (h : RateGenerator v k n t) (hlatch : t.latch = some w)
    (hhigh : t.high = false) :
    t.readData.1 = w.extractLsb' 0 8 ∧ RateGenerator v k n t.readData.2 ∧
      t.readData.2.latch = some w ∧ t.readData.2.high = true := by
  have hread : t.readData = (w.extractLsb' 0 8, { t with high := true }) := by
    simp [Timer.readData, h.access, hhigh, hlatch]
  rw [hread]
  exact ⟨rfl, ⟨h.mode, h.access, h.reload, h.low, h.phase, h.count, h.pulses⟩, hlatch, rfl⟩

/-- The second byte releases the latch. -/
theorem RateGenerator.readData_high (h : RateGenerator v k n t) (hlatch : t.latch = some w)
    (hhigh : t.high = true) :
    t.readData.1 = w.extractLsb' 8 8 ∧ RateGenerator v k n t.readData.2 ∧
      t.readData.2.latch = none ∧ t.readData.2.high = false := by
  have hread : t.readData = (w.extractLsb' 8 8, { t with latch := none, high := false }) := by
    simp [Timer.readData, h.access, hhigh, hlatch]
  rw [hread]
  exact ⟨rfl, ⟨h.mode, h.access, h.reload, h.low, h.phase, h.count, h.pulses⟩, rfl, rfl⟩

end Port

end IntervalTimer
