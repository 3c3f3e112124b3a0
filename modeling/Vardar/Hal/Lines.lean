import Vardar.Acpi.Order
import Vardar.Hal.Setters
import Vardar.Hal.VectorIndex
import Vardar.Lib.LastWrite

/-!
# Interrupt lines over whole runs

Over any number of calls, the redirection tables are a table of lines. A call that changes a field
of a line also takes the destination away from it: it reads the entry back without its destination
and writes what it has read. So a line that is masked when its controller is registered, and then
unmasked, goes to LAPIC 0 and not to the LAPIC it was registered for.

## Main definitions

* `Vardar.Line`, `Vardar.Lines`: what a processor sees of the tables.
* `Vardar.Hal.maskIrq`, `Vardar.Hal.unmaskIrq`, `Vardar.Hal.Request`.

## Main results

* `Vardar.Hal.lines_of_run`: the tables refine the table of lines.
* `Vardar.Hal.delivers_iff`: which processor gets an interrupt that is masked and unmasked.
-/

namespace Vardar

open BitField LastWrite

/-! ### Lines -/

/-- A line: the fields that route it, and the LAPIC it goes to. -/
structure Line extends Routing where
  destination : BitVec 8
  deriving DecidableEq

/-- The line of an entry. -/
def Ioredtbl.line (e : Ioredtbl) : Line := ⟨e.routing, e.destination⟩

/-- The lines of the registered interrupts. -/
abbrev Lines : Type := ℕ → Option Line

namespace Line

open Hal (Setter)

variable (l : Line)

/-- A setter refuses some lines. -/
def accepts (gsi : ℕ) : Setter → Bool
  | .mask _ => true
  | .vector v => 15 < v.toNat
  | .triggerMode t => ¬ (gsi = 0 ∧ t ≠ .levelSensitive) ∧
      ¬ ((l.deliveryMode = icrNmi ∨ l.deliveryMode = icrSmi) ∧ t ≠ .edgeSensitive)
  | .polarity q => ¬ (l.deliveryMode = icrSmi ∧ q ≠ .activeHigh)
  | .destination _ => true

/-- A setter changes its field, and with that the destination gets lost. A destination of zero is
never set. -/
def set : Setter → Line
  | .mask masked =>
    if l.mask = BitVec.ofBool masked then l
    else { l with mask := BitVec.ofBool masked, destination := 0 }
  | .vector v => if l.vector = v then l else { l with vector := v, destination := 0 }
  | .triggerMode t =>
    if l.triggerMode = t.bit then l else { l with triggerMode := t.bit, destination := 0 }
  | .polarity q => if l.polarity = q.bit then l else { l with polarity := q.bit, destination := 0 }
  | .destination lapicId => if lapicId = 0 then l else { l with destination := lapicId }

/-- The line of an IRQ that is routed. -/
def routed (recLapicId vector : BitVec 8) (masked : Bool) : Line :=
  ⟨⟨vector, icrFixed, PinPolarity.activeHigh.bit, TriggerMode.edgeSensitive.bit,
    BitVec.ofBool masked⟩, recLapicId⟩

/-- The processor gets the interrupt, with the vector. -/
def Delivers (lapicId vector : BitVec 8) : Prop :=
  l.mask = 0 ∧ l.deliveryMode = icrFixed ∧ l.destination = lapicId ∧ l.vector = vector

end Line

namespace Ioredtbl

theorem get_set_ne {w lo lo' w' : ℕ} (v : BitVec w) (e : Ioredtbl) (h : lo + w ≤ 64)
    (hd : lo + w ≤ lo' ∨ lo' + w' ≤ lo) : get lo' w' (set lo v e) = get lo' w' e :=
  get_set_of_disjoint h hd v e

theorem line_readBack (e : Ioredtbl) : e.readBack.line = { e.line with destination := 0 } := by
  simp only [line, routing, vector, deliveryMode, polarity, triggerMode, mask,
    get_readBack (show 0 + 8 ≤ 31 by decide), get_readBack (show 8 + 3 ≤ 31 by decide),
    get_readBack (show 13 + 1 ≤ 31 by decide), get_readBack (show 15 + 1 ≤ 31 by decide),
    get_readBack (show 16 + 1 ≤ 31 by decide), destination_readBack]

variable (e : Ioredtbl)

theorem line_set_mask (v : BitVec 1) : line (set 16 v e) = { e.line with mask := v } := by
  simp (disch := decide) only [line, routing, vector, deliveryMode, polarity, triggerMode, mask,
    destination, get_set, get_set_ne]

theorem line_set_vector (v : BitVec 8) : line (set 0 v e) = { e.line with vector := v } := by
  simp (disch := decide) only [line, routing, vector, deliveryMode, polarity, triggerMode, mask,
    destination, get_set, get_set_ne]

theorem line_set_triggerMode (v : BitVec 1) :
    line (set 15 v e) = { e.line with triggerMode := v } := by
  simp (disch := decide) only [line, routing, vector, deliveryMode, polarity, triggerMode, mask,
    destination, get_set, get_set_ne]

theorem line_set_polarity (v : BitVec 1) : line (set 13 v e) = { e.line with polarity := v } := by
  simp (disch := decide) only [line, routing, vector, deliveryMode, polarity, triggerMode, mask,
    destination, get_set, get_set_ne]

theorem line_set_deliveryMode (v : BitVec 3) :
    line (set 8 v e) = { e.line with deliveryMode := v } := by
  simp (disch := decide) only [line, routing, vector, deliveryMode, polarity, triggerMode, mask,
    destination, get_set, get_set_ne]

theorem line_set_destination (v : BitVec 8) :
    line (set 56 v e) = { e.line with destination := v } := by
  simp (disch := decide) only [line, routing, vector, deliveryMode, polarity, triggerMode, mask,
    destination, get_set, get_set_ne]

end Ioredtbl

namespace Hal

variable {h : Hal} {gsi : ℕ}

theorem Setter.accepts_line (s : Setter) (gsi : ℕ) (e : Ioredtbl) :
    e.line.accepts gsi s = s.accepts gsi e := by
  cases s <;> rfl

/-- A setter does to the line of an entry what it does to the entry. -/
theorem Setter.line_result (s : Setter) (e : Ioredtbl) :
    (s.result e).line = e.line.set s := by
  have hread := e.line_readBack
  rw [Setter.result]
  cases s with
  | mask masked =>
    have hget : get 16 1 e.readBack = e.line.mask := Ioredtbl.get_readBack (by decide) e
    change (if get 16 1 e.readBack = BitVec.ofBool masked then e
      else BitField.set 16 (BitVec.ofBool masked) e.readBack : Ioredtbl).line = _
    rw [hget, apply_ite Ioredtbl.line, Ioredtbl.line_set_mask, hread]
    rfl
  | vector v =>
    have hget : get 0 8 e.readBack = e.line.vector := Ioredtbl.get_readBack (by decide) e
    change (if get 0 8 e.readBack = v then e else BitField.set 0 v e.readBack : Ioredtbl).line = _
    rw [hget, apply_ite Ioredtbl.line, Ioredtbl.line_set_vector, hread]
    rfl
  | triggerMode t =>
    have hget : get 15 1 e.readBack = e.line.triggerMode := Ioredtbl.get_readBack (by decide) e
    change (if get 15 1 e.readBack = t.bit then e
      else BitField.set 15 t.bit e.readBack : Ioredtbl).line = _
    rw [hget, apply_ite Ioredtbl.line, Ioredtbl.line_set_triggerMode, hread]
    rfl
  | polarity q =>
    have hget : get 13 1 e.readBack = e.line.polarity := Ioredtbl.get_readBack (by decide) e
    change (if get 13 1 e.readBack = q.bit then e
      else BitField.set 13 q.bit e.readBack : Ioredtbl).line = _
    rw [hget, apply_ite Ioredtbl.line, Ioredtbl.line_set_polarity, hread]
    rfl
  | destination lapicId =>
    have hget : get 56 8 e.readBack = 0 := e.destination_readBack
    change (if get 56 8 e.readBack = lapicId then e
      else BitField.set 56 lapicId e.readBack : Ioredtbl).line = _
    rw [hget, apply_ite Ioredtbl.line, Ioredtbl.line_set_destination, hread]
    exact if_congr eq_comm rfl rfl

theorem line_routedEntry (recLapicId v : BitVec 8) (masked : Bool) (e : Ioredtbl) :
    (routedEntry recLapicId v masked e).line = Line.routed recLapicId v masked := by
  rw [routedEntry, Ioredtbl.line_set_mask, Ioredtbl.line_set_destination,
    Ioredtbl.line_set_triggerMode, Ioredtbl.line_set_deliveryMode, Ioredtbl.line_set_polarity,
    Ioredtbl.line_set_vector]
  rfl

/-! ### Calls -/

/-- `mask_irq`. -/
def maskIrq (isos : List IntSourceOverrideRecord) (h : Hal) (irq : BitVec 8) : Hal :=
  (h.ioapicSetGsiMask (gsiFromIrq isos irq) true).2

/-- `unmask_irq`. -/
def unmaskIrq (isos : List IntSourceOverrideRecord) (h : Hal) (irq : BitVec 8) : Hal :=
  (h.ioapicSetGsiMask (gsiFromIrq isos irq) false).2

/-- The calls of the driver after its controllers have been registered. -/
inductive Request
  | set (s : Setter) (gsi : ℕ)
  | maskIrq (irq : BitVec 8)
  | unmaskIrq (irq : BitVec 8)
  | routeIrq (irq recLapicId vector : BitVec 8) (masked : Bool)

/-- The driver, and the results of its calls so far. -/
structure Driver where
  hal : Hal
  results : List Bool

/-- A call. -/
def Driver.step (isos : List IntSourceOverrideRecord) (d : Driver) : Request → Driver
  | .set s gsi => ⟨(s.run d.hal gsi).2, d.results ++ [(s.run d.hal gsi).1]⟩
  | .maskIrq irq => { d with hal := d.hal.maskIrq isos irq }
  | .unmaskIrq irq => { d with hal := d.hal.unmaskIrq isos irq }
  | .routeIrq irq recLapicId vector masked =>
    ⟨(d.hal.ioapicRouteIrq isos irq recLapicId vector masked).2,
      d.results ++ [(d.hal.ioapicRouteIrq isos irq recLapicId vector masked).1]⟩

/-- The lines, and the results of the calls so far. -/
structure Board where
  lines : Lines
  results : List Bool

/-- A setter on the lines. -/
def Board.set (b : Lines) (s : Setter) (gsi : ℕ) : Bool × Lines :=
  match b gsi with
  | none => (false, b)
  | some l => if l.accepts gsi s then (true, Function.update b gsi (some (l.set s))) else (false, b)

/-- A call on the lines. -/
def Board.step (isos : List IntSourceOverrideRecord) (b : Board) : Request → Board
  | .set s gsi => ⟨(set b.lines s gsi).2, b.results ++ [(set b.lines s gsi).1]⟩
  | .maskIrq irq => { b with lines := (set b.lines (.mask true) (gsiFromIrq isos irq)).2 }
  | .unmaskIrq irq => { b with lines := (set b.lines (.mask false) (gsiFromIrq isos irq)).2 }
  | .routeIrq irq recLapicId vector masked =>
    match b.lines (gsiFromIrq isos irq) with
    | none => { b with results := b.results ++ [false] }
    | some _ =>
      ⟨Function.update b.lines (gsiFromIrq isos irq) (some (Line.routed recLapicId vector masked)),
        b.results ++ [true]⟩

/-- The table of lines of the redirection tables. -/
def lines (h : Hal) : Lines := fun gsi => (h.table gsi).map Ioredtbl.line

theorem lines_writeEntry {a : IoApic} (hr : h.Registered) (ha : h.ioapicFromGsi gsi = some a)
    (e : Ioredtbl) : (h.writeEntry a gsi e).lines = Function.update h.lines gsi (some e.line) := by
  funext g
  rw [lines, table_writeEntry hr ha]
  by_cases hg : g = gsi
  · rw [hg, Function.update_self, Function.update_self, Option.map_some]
  · rw [Function.update_of_ne hg, Function.update_of_ne hg, lines]

theorem lines_congr {h' : Hal} (hregs : h'.regs = h.regs) (hio : h'.ioapics = h.ioapics) :
    h'.lines = h.lines := by
  funext g
  have hentry : (fun a => h'.entryAt a (pin a g)) = fun a => h.entryAt a (pin a g) := by
    funext a
    exact entryAt_congr hregs a _
  rw [lines, lines, table, table, ioapicFromGsi_congr hio, hentry]

theorem lines_of_fromGsi {a : IoApic} (ha : h.ioapicFromGsi gsi = some a) :
    h.lines gsi = some (h.entryAt a (pin a gsi)).line := by
  rw [lines, table, ha]
  rfl

theorem lines_of_fromGsi_none (hno : h.ioapicFromGsi gsi = none) : h.lines gsi = none := by
  rw [lines, table, hno]
  rfl

theorem Setter.ioapics_run (s : Setter) (h : Hal) (gsi : ℕ) :
    (s.run h gsi).2.ioapics = h.ioapics := by
  have hfield : ∀ {w : ℕ} (lo : ℕ) (v : BitVec w) (refuse : Ioredtbl → Bool),
      (setField lo v refuse h gsi).2.ioapics = h.ioapics := by
    intro w lo v refuse
    rw [setField]
    cases h.ioapicFromGsi gsi with
    | none => rfl
    | some a =>
      dsimp only
      split_ifs <;> rfl
  cases s with
  | mask masked => exact hfield 16 _ _
  | vector v =>
    rw [run, ioapicSetGsiVector]
    cases h.ioapicFromGsi gsi with
    | none => rfl
    | some a =>
      dsimp only
      split_ifs <;> rfl
  | triggerMode t =>
    rw [run, ioapicSetGsiTriggerMode]
    split_ifs
    · rfl
    · exact hfield 15 _ _
  | polarity q => exact hfield 13 _ _
  | destination lapicId => exact hfield 56 _ _

/-- A setter of the tables does what the setter of the lines does. -/
theorem Setter.refines (s : Setter) (hr : h.Registered) (gsi : ℕ) :
    (s.run h gsi).2.lines = (Board.set h.lines s gsi).2 ∧
      (s.run h gsi).1 = (Board.set h.lines s gsi).1 := by
  cases ha : h.ioapicFromGsi gsi with
  | none =>
    rw [s.run_of_none ha, Board.set, lines_of_fromGsi_none ha]
    exact ⟨rfl, rfl⟩
  | some a =>
    have hline := lines_of_fromGsi ha
    by_cases hacc : s.accepts gsi (h.entryAt a (pin a gsi)) = true
    · obtain ⟨hdone, hregs⟩ := s.run_of_accepts ha hacc
      have hset : Board.set h.lines s gsi = (true, Function.update h.lines gsi
          (some (s.result (h.entryAt a (pin a gsi))).line)) := by
        rw [Board.set, hline, s.line_result]
        exact if_pos ((s.accepts_line gsi _).trans hacc)
      rw [hset]
      refine ⟨?_, hdone⟩
      rw [Setter.result]
      by_cases hv : get s.lo s.width (h.entryAt a (pin a gsi)).readBack = s.value
      · -- The field has the value already, and nothing is written.
        rw [if_pos hv] at hregs ⊢
        rw [lines_congr hregs (s.ioapics_run h gsi), ← hline, Function.update_eq_self]
      · rw [if_neg hv] at hregs ⊢
        rw [← lines_writeEntry hr ha]
        exact lines_congr hregs (s.ioapics_run h gsi)
    · rw [s.run_of_not_accepts ha (Bool.not_eq_true _ ▸ hacc), Board.set, hline]
      have hno : ¬ (h.entryAt a (pin a gsi)).line.accepts gsi s = true := by
        rw [s.accepts_line]
        exact hacc
      dsimp only
      rw [if_neg hno]
      exact ⟨rfl, rfl⟩

/-! ### Runs -/

/-- The state has the lines, and the calls had the results. -/
structure Driver.Refines (d : Driver) (b : Board) : Prop where
  registered : d.hal.Registered
  lines : d.hal.lines = b.lines
  results : d.results = b.results

section Run

variable {d : Driver} {b : Board} (isos : List IntSourceOverrideRecord)

theorem Driver.Refines.set (hd : d.Refines b) (s : Setter) (gsi : ℕ) :
    (s.run d.hal gsi).2.Registered ∧ (s.run d.hal gsi).2.lines = (Board.set b.lines s gsi).2 ∧
      (s.run d.hal gsi).1 = (Board.set b.lines s gsi).1 := by
  rw [← hd.lines]
  exact ⟨hd.registered.congr (s.ioapics_run d.hal gsi), s.refines hd.registered gsi⟩

/-- One call. -/
theorem Driver.Refines.step (hd : d.Refines b) (r : Request) :
    (d.step isos r).Refines (b.step isos r) := by
  cases r with
  | set s gsi =>
    obtain ⟨hreg, hlines, hres⟩ := hd.set s gsi
    exact ⟨hreg, hlines, by rw [Driver.step, Board.step, hd.results, hres]⟩
  | maskIrq irq =>
    obtain ⟨hreg, hlines, -⟩ := hd.set (.mask true) (gsiFromIrq isos irq)
    exact ⟨hreg, hlines, hd.results⟩
  | unmaskIrq irq =>
    obtain ⟨hreg, hlines, -⟩ := hd.set (.mask false) (gsiFromIrq isos irq)
    exact ⟨hreg, hlines, hd.results⟩
  | routeIrq irq recLapicId vector masked =>
    cases ha : d.hal.ioapicFromGsi (gsiFromIrq isos irq) with
    | none =>
      have hline : b.lines (gsiFromIrq isos irq) = none := hd.lines ▸ lines_of_fromGsi_none ha
      have hroute : d.hal.ioapicRouteIrq isos irq recLapicId vector masked = (false, d.hal) := by
        simp only [ioapicRouteIrq, ha]
      rw [Driver.step, Board.step, hline, hroute, hd.results]
      exact ⟨hd.registered, hd.lines, rfl⟩
    | some a =>
      have hline := hd.lines ▸ lines_of_fromGsi ha
      have hroute : d.hal.ioapicRouteIrq isos irq recLapicId vector masked =
          (true, d.hal.writeEntry a (gsiFromIrq isos irq) (routedEntry recLapicId vector masked
            (d.hal.readEntry a (gsiFromIrq isos irq)))) := by
        simp only [ioapicRouteIrq, ha]
        rfl
      rw [Driver.step, Board.step, hline, hroute, hd.results]
      refine ⟨hd.registered.congr rfl, ?_, rfl⟩
      rw [lines_writeEntry hd.registered ha, line_routedEntry, hd.lines]

theorem Driver.Refines.run (hd : d.Refines b) (rs : List Request) :
    (rs.foldl (Driver.step isos) d).Refines (rs.foldl (Board.step isos) b) := by
  induction rs generalizing d b with
  | nil => exact hd
  | cons r rs ih => exact ih (hd.step isos r)

end Run

/-- After any calls, the tables have the lines that the calls lead to, and the calls had the results
that they have on the lines. -/
theorem lines_of_run (hr : h.Registered) (isos : List IntSourceOverrideRecord)
    (rs : List Request) :
    (rs.foldl (Driver.step isos) ⟨h, []⟩).hal.lines =
        (rs.foldl (Board.step isos) ⟨h.lines, []⟩).lines ∧
      (rs.foldl (Driver.step isos) ⟨h, []⟩).results =
        (rs.foldl (Board.step isos) ⟨h.lines, []⟩).results := by
  have hstart : Driver.Refines ⟨h, []⟩ ⟨h.lines, []⟩ := ⟨hr, rfl, rfl⟩
  have hrun := hstart.run isos rs
  exact ⟨hrun.lines, hrun.results⟩

/-- Masking interrupt 1 takes it away from LAPIC 5, and it is given back. -/
theorem lines_mask_reroute :
    ([Request.maskIrq 1, .set (.destination 5) 1].foldl (Driver.step [])
        ⟨Setter.oneController 5, []⟩).hal.lines =
      ([Request.maskIrq 1, .set (.destination 5) 1].foldl (Board.step [])
        ⟨(Setter.oneController 5).lines, []⟩).lines :=
  (lines_of_run (Setter.oneController_registered 5) [] _).1

/-! ### Masking and unmasking -/

/-- A request to mask an IRQ, or to unmask it. -/
def maskRequest (r : BitVec 8 × Bool) : Request := if r.2 then .maskIrq r.1 else .unmaskIrq r.1

/-- What masking and unmasking make of a line that is masked at first. -/
structure MaskedAs (l₀ : Line) (masked : Bool) (l : Line) : Prop where
  mask : l.mask = BitVec.ofBool masked
  deliveryMode : l.deliveryMode = l₀.deliveryMode
  vector : l.vector = l₀.vector
  destination : masked = false → l.destination = 0

variable {l₀ l : Line} {m : Bool}

theorem ofBool_inj {x y : Bool} : BitVec.ofBool x = BitVec.ofBool y ↔ x = y := by
  cases x <;> cases y <;> decide

/-- A masked line that is unmasked goes to LAPIC 0. -/
theorem MaskedAs.set (hl : MaskedAs l₀ m l) (masked : Bool) :
    MaskedAs l₀ masked (l.set (.mask masked)) := by
  rw [Line.set, hl.mask]
  by_cases hm : m = masked
  · rw [if_pos (ofBool_inj.mpr hm), ← hm]
    exact hl
  · rw [if_neg fun hc => hm (ofBool_inj.mp hc)]
    exact ⟨rfl, hl.deliveryMode, hl.vector, fun _ => rfl⟩

theorem MaskedAs.delivers_iff_lapic (hl : MaskedAs l₀ m l) (hd : l₀.deliveryMode = icrFixed)
    (lapicId v : BitVec 8) :
    l.Delivers lapicId v ↔ m = false ∧ lapicId = 0 ∧ v = l₀.vector := by
  rw [Line.Delivers, hl.mask, hl.deliveryMode, hl.vector]
  cases m with
  | true => simp
  | false =>
    rw [hl.destination rfl]
    simp only [BitVec.ofBool_false, hd, true_and, eq_comm]

/-- A request on a line. -/
theorem Board.maskedAs_step {b : Board} (isos : List IntSourceOverrideRecord)
    (hl : b.lines gsi = some l) (hm : MaskedAs l₀ m l) (r : BitVec 8 × Bool) :
    ∃ l', (b.step isos (maskRequest r)).lines gsi = some l' ∧
      MaskedAs l₀ (if gsiFromIrq isos r.1 = gsi then r.2 else m) l' := by
  have hlines : (b.step isos (maskRequest r)).lines =
      (Board.set b.lines (.mask r.2) (gsiFromIrq isos r.1)).2 := by
    rcases r with ⟨irq, masked⟩
    cases masked <;> rfl
  rw [hlines, Board.set]
  by_cases hg : gsiFromIrq isos r.1 = gsi
  · rw [hg, hl, if_pos rfl]
    exact ⟨_, Function.update_self .., hm.set r.2⟩
  · rw [if_neg hg]
    refine ⟨l, ?_, hm⟩
    cases b.lines (gsiFromIrq isos r.1) with
    | none => exact hl
    | some l₁ => exact (Function.update_of_ne (Ne.symm hg) _ _).trans hl

theorem Board.maskedAs_run {b : Board} (isos : List IntSourceOverrideRecord)
    (hl : b.lines gsi = some l) (hm : MaskedAs l₀ m l) (rs : List (BitVec 8 × Bool)) :
    ∃ l', ((rs.map maskRequest).foldl (Board.step isos) b).lines gsi = some l' ∧
      MaskedAs l₀ (last (rs.map fun r => (gsiFromIrq isos r.1, r.2)) gsi m) l' := by
  induction rs generalizing b l m with
  | nil => exact ⟨l, hl, hm⟩
  | cons r rs ih =>
    obtain ⟨l', hl', hm'⟩ := Board.maskedAs_step isos hl hm r
    exact ih hl' hm'

/-- An entry that is masked at first is not that of an NMI. -/
theorem deliveryMode_of_mask {c : Sources} (hm : (initialEntry c gsi).mask = 1) :
    (initialEntry c gsi).deliveryMode = icrFixed := by
  have hmake : ∀ v d q t m, (Ioredtbl.make (c.junk gsi) v d q t m).deliveryMode = d ∧
      (Ioredtbl.make (c.junk gsi) v d q t m).mask = m := fun v d q t m => by
    have hr := Ioredtbl.routing_make (c.junk gsi) v d q t m
    exact ⟨congrArg Routing.deliveryMode hr, congrArg Routing.mask hr⟩
  revert hm
  rw [initialEntry]
  split_ifs
  · exact fun _ => (hmake ..).1
  · split
    · exact fun _ => (hmake ..).1
    · split
      · intro hm
        rw [(hmake ..).2] at hm
        exact absurd hm (by decide)
      · exact fun _ => (hmake ..).1

/-- The line of an interrupt when its controller has been registered. -/
theorem line_registerIoapic {c : Sources} {record : IoApicRecord}
    (hr : Registered { h with
      ioapics := Function.update h.ioapics (h.ioapicOf record).apicId (h.ioapicOf record) })
    (hg : gsi ∈ loopGsis (h.ioapicOf record)) (hz : gsi ≠ 0) :
    (h.registerIoapic c record).Registered ∧
      (h.registerIoapic c record).lines gsi = some (finalEntry c gsi).line := by
  have hself := Function.update_self (h.ioapicOf record).apicId (some (h.ioapicOf record)) h.ioapics
  rw [registerIoapic_eq]
  refine ⟨hr.congr (ioapics_initializeList ..), ?_⟩
  rw [lines, table_initializeList_of_mem hr hself hg hz]
  rfl

/-- An interrupt of a controller, whichever LAPIC it is registered for, goes to LAPIC 0 once it is
unmasked, and to no LAPIC before. -/
theorem delivers_iff {c : Sources} {record : IoApicRecord}
    (hr : Registered { h with
      ioapics := Function.update h.ioapics (h.ioapicOf record).apicId (h.ioapicOf record) })
    (hg : gsi ∈ loopGsis (h.ioapicOf record)) (hz : gsi ≠ 0)
    (hm : (initialEntry c gsi).mask = 1) (isos : List IntSourceOverrideRecord)
    (rs : List (BitVec 8 × Bool)) (lapicId v : BitVec 8) :
    (∃ l, ((rs.map maskRequest).foldl (Driver.step isos)
        ⟨h.registerIoapic c record, []⟩).hal.lines gsi = some l ∧ l.Delivers lapicId v) ↔
      last (rs.map fun r => (gsiFromIrq isos r.1, r.2)) gsi true = false ∧
        lapicId = 0 ∧ v = (initialEntry c gsi).vector := by
  obtain ⟨hreg, hline⟩ := line_registerIoapic (c := c) hr hg hz
  have hstart : Driver.Refines ⟨h.registerIoapic c record, []⟩
      ⟨(h.registerIoapic c record).lines, []⟩ := ⟨hreg, rfl, rfl⟩
  have hfirst : MaskedAs (initialEntry c gsi).line true (finalEntry c gsi).line := by
    rw [finalEntry, Ioredtbl.line_set_destination]
    exact ⟨hm, rfl, rfl, fun hc => absurd hc.symm Bool.false_ne_true⟩
  obtain ⟨l, hl, hlast⟩ := Board.maskedAs_run
    (b := ⟨(h.registerIoapic c record).lines, []⟩) isos hline hfirst rs
  rw [(hstart.run isos (rs.map maskRequest)).lines, hl]
  have hdel := hlast.delivers_iff_lapic (deliveryMode_of_mask hm) lapicId v
  constructor
  · rintro ⟨l', hl', hdel'⟩
    rw [Option.some.injEq] at hl'
    exact hdel.mp (hl' ▸ hdel')
  · exact fun hlapic => ⟨l, rfl, hdel.mpr hlapic⟩

/-- Interrupt 1 is registered for LAPIC 5 and unmasked, and LAPIC 5 does not get it. -/
theorem delivers_not_five : ¬ ∃ l,
    (([(1, false)].map maskRequest).foldl (Driver.step [])
      ⟨(Tracked.boot Tracked.resetRegs).hal.registerIoapic
        { Tracked.noSources with bspLapicId := 5 } Tracked.firstRecord, []⟩).hal.lines 1 = some l ∧
    l.Delivers 5 0x21 := by
  intro hex
  have hlast := (delivers_iff (registered_of_one rfl (by decide +kernel) (by decide +kernel))
    (by decide +kernel) (by decide) (by decide +kernel) [] [(1, false)] 5 0x21).mp hex
  exact absurd hlast.2.1 (by decide)

end Hal

end Vardar
