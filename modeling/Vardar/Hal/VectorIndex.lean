import Vardar.Hal.Register
import Vardar.Lib.Run
import Vardar.Lib.SecondaryIndex

/-!
# The index of vectors

`VECTOR_ATTRS` is meant to find, for each vector, an interrupt that has it. `register_ioapic` and
`ioapic_set_gsi_vector` enter the interrupt they program, `ioapic_route_irq` does not, and none of
them finds another interrupt for a vector that is taken away from the one in the index. An entry is
read without its upper dword.

## Main definitions

* `Vardar.Hal.Call`: a call that programs vectors.
* `Vardar.Hal.Tracked`: a state with the vectors that interrupts were given so far.
* `Vardar.Hal.Tracked.Agrees`: the index agrees with the redirection tables.
* `Vardar.Hal.Call.Safe`: the calls that keep it so.

## Main results

* `Vardar.Hal.Tracked.agrees_of_run`.
-/

namespace Vardar

open BitField

namespace Hal

variable {h : Hal} {a b : IoApic} {gsi : ℕ}

/-! ### The table -/

/-- The redirection entry of a registered interrupt. -/
def table (h : Hal) (gsi : ℕ) : Option Ioredtbl :=
  (h.ioapicFromGsi gsi).map fun a => h.entryAt a (pin a gsi)

theorem intAttrsFromVector_eq (h : Hal) (v : BitVec 8) :
    h.intAttrsFromVector v = (h.table (h.vectorAttrs v).gsi).map Ioredtbl.readBack := by
  rw [intAttrsFromVector, table, Option.map_map]
  congr 1
  funext a
  exact readEntry_eq h a _

theorem Registered.congr {h h' : Hal} (hr : h.Registered) (hio : h'.ioapics = h.ioapics) :
    h'.Registered := by
  refine ⟨?_, ?_, ?_, ?_⟩
  · rw [hio]
    exact hr.pins
  · rw [hio]
    exact hr.range
  · rw [hio]
    exact hr.disjoint
  · rw [hio]
    exact hr.apart

theorem ioapicFromGsi_congr {h h' : Hal} (hio : h'.ioapics = h.ioapics) (gsi : ℕ) :
    h'.ioapicFromGsi gsi = h.ioapicFromGsi gsi := by
  rw [ioapicFromGsi, ioapicFromGsi, hio]

/-- Two registered interrupts share an entry only if they are equal. -/
theorem Registered.gsi_eq {g : ℕ} {i j : Fin 16} (hr : h.Registered) (ha : h.ioapics i = some a)
    (hb : h.ioapics j = some b) (hga : Has a gsi) (hgb : Has b g) (hreg : b.ioregsel = a.ioregsel)
    (hmod : pin b g % 128 = pin a gsi % 128) : g = gsi := by
  have hij : i = j := by
    by_contra hne
    exact hr.apart i j a b ha hb hne hreg.symm
  subst hij
  rw [ha, Option.some.injEq] at hb
  subst hb
  have hpins := hr.pins i a ha
  rw [hga.pin_eq (hr.range i a ha), hgb.pin_eq (hr.range i a ha)] at hmod
  rw [Has] at hga hgb
  omega

theorem table_writeEntry (hr : h.Registered) (ha : h.ioapicFromGsi gsi = some a) (e : Ioredtbl) :
    (h.writeEntry a gsi e).table = Function.update h.table gsi (some e) := by
  funext g
  have hio : (h.writeEntry a gsi e).ioapics = h.ioapics := rfl
  rw [table, ioapicFromGsi_congr hio]
  obtain ⟨i, hi, hga⟩ := hr.ioapicFromGsi_iff.mp ha
  by_cases hg : g = gsi
  · rw [hg, ha, Function.update_self, Option.map_some, entryAt_writeEntry, if_pos ⟨rfl, rfl⟩]
  · rw [Function.update_of_ne hg, table]
    cases hb : h.ioapicFromGsi g with
    | none => rw [Option.map_none, Option.map_none]
    | some b =>
      obtain ⟨j, hj, hgb⟩ := hr.ioapicFromGsi_iff.mp hb
      rw [Option.map_some, Option.map_some, entryAt_writeEntry, if_neg]
      rintro ⟨hreg, hmod⟩
      exact hg (hr.gsi_eq hi hj hga hgb hreg hmod)

/-! ### Calls -/

/-- The calls that program vectors. The interrupts sources that `register_ioapic` and
`ioapic_route_irq` look up are those known at the time of the call. -/
inductive Call
  | register (c : Sources) (record : IoApicRecord)
  | route (isos : List IntSourceOverrideRecord) (irq recLapicId vector : BitVec 8) (masked : Bool)
  | setVector (gsi : ℕ) (vector : BitVec 8)

/-- A state and the vectors that interrupts were given. -/
structure Tracked where
  hal : Hal
  given : Set (ℕ × BitVec 8)

/-- The vectors that a call gives. -/
def Call.gives (h : Hal) : Call → Set (ℕ × BitVec 8)
  | register c record => {x | x.1 ∈ loopGsis (h.ioapicOf record) ∧ x.1 ≠ 0 ∧
      x.2 = (initialEntry c x.1).vector}
  | route isos irq recLapicId vector masked => {x | x.1 = gsiFromIrq isos irq ∧ x.2 = vector ∧
      (h.ioapicRouteIrq isos irq recLapicId vector masked).1 = true}
  | setVector gsi vector => {x | x.1 = gsi ∧ x.2 = vector ∧
      (h.ioapicSetGsiVector gsi vector).1 = true}

/-- The state after a call. -/
def Call.run (h : Hal) : Call → Hal
  | register c record => h.registerIoapic c record
  | route isos irq recLapicId vector masked =>
    (h.ioapicRouteIrq isos irq recLapicId vector masked).2
  | setVector gsi vector => (h.ioapicSetGsiVector gsi vector).2

namespace Tracked

/-- A call. -/
def step (t : Tracked) (call : Call) : Tracked := ⟨call.run t.hal, t.given ∪ call.gives t.hal⟩

/-- For every vector that an interrupt was given and still holds, `int_attrs_from_vector` gives the
entry of an interrupt that was given the vector and holds it. -/
def Agrees (t : Tracked) : Prop :=
  ∀ gsi v e, (gsi, v) ∈ t.given → t.hal.table gsi = some e → e.vector = v →
    ∃ g f, (g, v) ∈ t.given ∧ t.hal.table g = some f ∧ f.vector = v ∧
      t.hal.intAttrsFromVector v = some f

/-- The table and the index. -/
def view (t : Tracked) : SecondaryIndex ℕ (BitVec 8) Ioredtbl where
  table := t.hal.table
  given := t.given
  index v := (t.hal.vectorAttrs v).gsi

/-- The interrupt was given the vector and still holds it. -/
def Holds (t : Tracked) (gsi : ℕ) (v : BitVec 8) : Prop := t.view.Holds Ioredtbl.vector gsi v

/-- A condition on a call that gives `gsi` the vector `v` in place of `w`: the index does not find
`gsi` for another interrupt that holds `w`. -/
def Releases (t : Tracked) (gsi : ℕ) (v w : BitVec 8) : Prop :=
  v ≠ w → ∀ g ≠ gsi, t.Holds g w → (t.hal.vectorAttrs w).gsi ≠ gsi

end Tracked

/-- The calls that keep the index in agreement with the tables.

* A controller that is registered is new or the one in its slot, its interrupts and its registers
  are its own, and the upper dwords written are zero. A vector that the index finds in the
  controller, and that another interrupt holds, is given again.
* The index already finds the interrupt of an IRQ that is routed for its new vector, and then the
  destination is LAPIC 0, or another interrupt holds the vector; and the old vector is released.
* An interrupt that is given a vector releases the old one. If it has the vector already, some
  interrupt was given it, or the index finds this one and its upper dword is zero. -/
def Call.Safe (t : Tracked) : Call → Prop
  | register c record =>
    let a := t.hal.ioapicOf record
    Registered { t.hal with ioapics := Function.update t.hal.ioapics a.apicId (some a) } ∧
    (t.hal.ioapics a.apicId = none ∨ t.hal.ioapics a.apicId = some a) ∧
    c.bspLapicId = 0 ∧ (∀ gsi ∈ loopGsis a, gsi ≠ 0 → get 32 24 (c.junk gsi) = 0) ∧
    ∀ g v, t.Holds g v → ¬ (g ∈ loopGsis a ∧ g ≠ 0) → (t.hal.vectorAttrs v).gsi ∈ loopGsis a →
      (t.hal.vectorAttrs v).gsi ≠ 0 →
        ∃ gsi ∈ loopGsis a, gsi ≠ 0 ∧ (initialEntry c gsi).vector = v
  | route isos irq recLapicId vector _ =>
    let gsi := gsiFromIrq isos irq
    ∀ e, t.hal.table gsi = some e → t.Releases gsi vector e.vector ∧
      (((t.hal.vectorAttrs vector).gsi = gsi ∧ recLapicId = 0) ∨
        ((t.hal.vectorAttrs vector).gsi ≠ gsi ∧ ∃ g ≠ gsi, t.Holds g vector))
  | setVector gsi vector =>
    ∀ e, t.hal.table gsi = some e → 15 < vector.toNat → t.Releases gsi vector e.vector ∧
      (e.vector = vector → (∃ g, t.Holds g vector) ∨
        ((t.hal.vectorAttrs vector).gsi = gsi ∧ e.upperDword = 0))

/-! ### The calls that write one entry -/

theorem table_eq_some_iff {e : Ioredtbl} :
    h.table gsi = some e ↔ ∃ a, h.ioapicFromGsi gsi = some a ∧ h.entryAt a (pin a gsi) = e := by
  rw [table, Option.map_eq_some_iff]

/-- The vector read is the vector of the entry. -/
theorem vector_readEntry (h : Hal) (a : IoApic) (gsi : ℕ) :
    (h.readEntry a gsi).vector = (h.entryAt a (pin a gsi)).vector := by
  rw [readEntry_eq]
  exact Ioredtbl.get_readBack (by decide) _

theorem upperDword_readBack (e : Ioredtbl) : e.readBack.upperDword = 0 := by
  rw [Ioredtbl.upperDword, Ioredtbl.get_eq_zero_iff]
  intro i hi _
  rw [Ioredtbl.getLsbD_readBack, decide_eq_false (by omega), Bool.false_and]

/-- `ioapic_set_gsi_vector` refuses, finds the vector set, or writes an entry whose upper dword is
zero and enters it in the index. -/
theorem ioapicSetGsiVector_cases (hr : h.Registered) (gsi : ℕ) (v : BitVec 8) :
    h.ioapicSetGsiVector gsi v = (false, h) ∨
    ∃ e, h.table gsi = some e ∧ 15 < v.toNat ∧
      ((e.vector = v ∧ h.ioapicSetGsiVector gsi v = (true, h)) ∨
        ∃ e' h', h.ioapicSetGsiVector gsi v = (true, h') ∧ e'.vector = v ∧ e'.upperDword = 0 ∧
          h'.ioapics = h.ioapics ∧ h'.table = Function.update h.table gsi (some e') ∧
          (h'.vectorAttrs v).gsi = gsi ∧ ∀ w ≠ v, h'.vectorAttrs w = h.vectorAttrs w) := by
  cases ha : h.ioapicFromGsi gsi with
  | none => exact Or.inl (by simp [ioapicSetGsiVector, ha])
  | some a =>
    by_cases hv : 15 < v.toNat
    · refine Or.inr ⟨_, table_eq_some_iff.mpr ⟨a, ha, rfl⟩, hv, ?_⟩
      by_cases hw : (h.entryAt a (pin a gsi)).vector = v
      · refine Or.inl ⟨hw, ?_⟩
        simp [ioapicSetGsiVector, ha, hv, vector_readEntry, hw]
      · have hset : h.ioapicSetGsiVector gsi v =
            let h := h.writeEntry a gsi (set 0 v (h.readEntry a gsi))
            let attr := { h.vectorAttrs v with gsi := gsi }
            (true, { h with vectorAttrs := Function.update h.vectorAttrs v attr }) := by
          rw [ioapicSetGsiVector, ha]
          simp only [if_neg (not_not.mpr hv), vector_readEntry, ne_eq, if_pos hw]
        refine Or.inr ⟨set 0 v (h.readEntry a gsi), _, hset, get_set (by decide) v _, ?_, ?_⟩
        · rw [readEntry_eq]
          exact (get_set_of_disjoint (by decide) (by decide) v _).trans (upperDword_readBack _)
        · refine ⟨rfl, table_writeEntry hr ha _, ?_, fun w hne => ?_⟩
          · simp only [Function.update_self]
          · exact Function.update_of_ne hne _ _
    · exact Or.inl (by simp [ioapicSetGsiVector, ha, hv])

/-- The entry that `ioapic_route_irq` makes of the one it reads. -/
def routedEntry (recLapicId v : BitVec 8) (masked : Bool) (e : Ioredtbl) : Ioredtbl :=
  set 16 (BitVec.ofBool masked) (set 56 recLapicId (set 15 TriggerMode.edgeSensitive.bit
    (set 8 icrFixed (set 13 PinPolarity.activeHigh.bit (set 0 v e)))))

theorem routedEntry_vector (recLapicId v : BitVec 8) (masked : Bool) (e : Ioredtbl) :
    (routedEntry recLapicId v masked e).vector = v := by
  rw [Ioredtbl.vector, routedEntry, get_set_of_disjoint (by decide) (by decide),
    get_set_of_disjoint (by decide) (by decide), get_set_of_disjoint (by decide) (by decide),
    get_set_of_disjoint (by decide) (by decide), get_set_of_disjoint (by decide) (by decide),
    get_set (by decide)]

theorem routedEntry_upperDword {recLapicId : BitVec 8} (hz : recLapicId = 0) (v : BitVec 8)
    (masked : Bool) {e : Ioredtbl} (he : e.upperDword = 0) :
    (routedEntry recLapicId v masked e).upperDword = 0 := by
  rw [Ioredtbl.upperDword, Ioredtbl.get_eq_zero_iff] at he ⊢
  intro i hlo hhi
  have hbit := he i hlo hhi
  rw [routedEntry, getLsbD_set (by decide), if_neg (by omega), getLsbD_set (by decide), hz]
  by_cases hin : 56 ≤ i ∧ i < 56 + 8
  · rw [if_pos hin]
    exact BitVec.getLsbD_zero
  · rw [if_neg hin, getLsbD_set (by decide), if_neg (by omega), getLsbD_set (by decide),
      if_neg (by omega), getLsbD_set (by decide), if_neg (by omega), getLsbD_set (by decide),
      if_neg (by omega), hbit]

/-- `ioapic_route_irq` refuses, or writes an entry with the destination and leaves the index. -/
theorem ioapicRouteIrq_cases (hr : h.Registered) (isos : List IntSourceOverrideRecord)
    (irq recLapicId v : BitVec 8) (masked : Bool) :
    h.ioapicRouteIrq isos irq recLapicId v masked = (false, h) ∨
    ∃ e e' h', h.table (gsiFromIrq isos irq) = some e ∧
      h.ioapicRouteIrq isos irq recLapicId v masked = (true, h') ∧ e'.vector = v ∧
      (recLapicId = 0 → e'.upperDword = 0) ∧ h'.ioapics = h.ioapics ∧
      h'.table = Function.update h.table (gsiFromIrq isos irq) (some e') ∧
      h'.vectorAttrs = h.vectorAttrs := by
  cases ha : h.ioapicFromGsi (gsiFromIrq isos irq) with
  | none => exact Or.inl (by simp [ioapicRouteIrq, ha])
  | some a =>
    have hroute : h.ioapicRouteIrq isos irq recLapicId v masked = (true, h.writeEntry a
        (gsiFromIrq isos irq) (routedEntry recLapicId v masked
          (h.entryAt a (pin a (gsiFromIrq isos irq))).readBack)) := by
      rw [ioapicRouteIrq, ← readEntry_eq]
      simp only [ha]
      rfl
    exact Or.inr ⟨_, _, _, table_eq_some_iff.mpr ⟨a, ha, rfl⟩, hroute, routedEntry_vector ..,
      fun hz => routedEntry_upperDword hz _ _ (upperDword_readBack _), rfl,
      table_writeEntry hr ha _, rfl⟩

/-! ### Registering -/

theorem has_of_mem_loopGsis (hg : gsi ∈ loopGsis a) : Has a gsi := by
  rw [mem_loopGsis] at hg
  rw [Has]
  omega

theorem initialEntry_eq_make (c : Sources) (gsi : ℕ) : ∃ v d q t m,
    initialEntry c gsi = Ioredtbl.make (c.junk gsi) v d q t m := by
  rw [initialEntry]
  split_ifs
  · exact ⟨_, _, _, _, _, rfl⟩
  · split
    · exact ⟨_, _, _, _, _, rfl⟩
    · split
      · exact ⟨_, _, _, _, _, rfl⟩
      · exact ⟨_, _, _, _, _, rfl⟩

theorem finalEntry_upperDword {c : Sources} (hz : c.bspLapicId = 0)
    (hjunk : get 32 24 (c.junk gsi) = 0) : (finalEntry c gsi).upperDword = 0 := by
  obtain ⟨v, d, q, t, m, hmake⟩ := initialEntry_eq_make c gsi
  rw [Ioredtbl.get_eq_zero_iff] at hjunk
  rw [Ioredtbl.upperDword, Ioredtbl.get_eq_zero_iff]
  intro i hlo hhi
  rw [finalEntry, hz, hmake, getLsbD_set (by decide)]
  by_cases hin : 56 ≤ i ∧ i < 56 + 8
  · rw [if_pos hin]
    exact BitVec.getLsbD_zero
  · rw [if_neg hin, Ioredtbl.make, getLsbD_set (by decide), if_neg (by omega),
      getLsbD_set (by decide), if_neg (by omega), getLsbD_set (by decide), if_neg (by omega),
      getLsbD_set (by decide), if_neg (by omega), getLsbD_set (by decide), if_neg (by omega),
      getLsbD_set (by decide), if_neg (by omega)]
    exact hjunk i hlo (by omega)

/-- Filling a slot that is free, or has the controller already, keeps the entries in the table. -/
theorem table_update_slot {h₁ : Hal} {i : Fin 16} {e : Ioredtbl} (hr : h.Registered)
    (hr₁ : h₁.Registered) (hregs : h₁.regs = h.regs)
    (hio : h₁.ioapics = Function.update h.ioapics i (some a))
    (hslot : h.ioapics i = none ∨ h.ioapics i = some a) (he : h.table gsi = some e) :
    h₁.table gsi = some e := by
  obtain ⟨b, hb, hentry⟩ := table_eq_some_iff.mp he
  obtain ⟨j, hj, hgb⟩ := hr.ioapicFromGsi_iff.mp hb
  refine table_eq_some_iff.mpr ⟨b, hr₁.ioapicFromGsi_iff.mpr ⟨j, ?_, hgb⟩, ?_⟩
  · rw [hio]
    by_cases hji : j = i
    · subst hji
      rw [Function.update_self, ← hj]
      rcases hslot with hnone | hsame
      · rw [hnone] at hj
        exact absurd hj (by simp)
      · rw [hsame]
    · rw [Function.update_of_ne hji, hj]
  · rw [entryAt_congr hregs, hentry]

section Initialize

variable {c : Sources} {i : Fin 16} (hr : h.Registered) (ha : h.ioapics i = some a)

include hr ha

theorem table_initializeList_of_mem (hg : gsi ∈ loopGsis a) (hz : gsi ≠ 0) :
    (initializeList c a (loopGsis a) h).table gsi = some (finalEntry c gsi) := by
  have hhas := has_of_mem_loopGsis hg
  have hio := ioapics_initializeList c a (loopGsis a) h
  obtain ⟨l₁, l₂, hsplit⟩ := List.append_of_mem hg
  refine table_eq_some_iff.mpr ⟨a, ?_, ?_⟩
  · rw [ioapicFromGsi_congr hio]
    exact hr.ioapicFromGsi_iff.mpr ⟨i, ha, hhas⟩
  · rw [hsplit]
    refine entryAt_initializeList_append l₁ l₂ hz rfl rfl fun g hg₂ _ hmod => ?_
    have hmem : g ∈ loopGsis a := by
      rw [hsplit]
      exact List.mem_append_right l₁ (List.mem_cons_of_mem gsi hg₂)
    have heq : gsi = g := hr.gsi_eq ha ha (has_of_mem_loopGsis hmem) hhas rfl hmod
    have hnodup := loopGsis_nodup a
    rw [hsplit, List.nodup_append, List.nodup_cons] at hnodup
    exact hnodup.2.1.1 (heq ▸ hg₂)

theorem table_initializeList_of_not_mem {e : Ioredtbl} (he : h.table gsi = some e)
    (hno : ¬ (gsi ∈ loopGsis a ∧ gsi ≠ 0)) :
    (initializeList c a (loopGsis a) h).table gsi = some e := by
  have hio := ioapics_initializeList c a (loopGsis a) h
  obtain ⟨b, hb, hentry⟩ := table_eq_some_iff.mp he
  obtain ⟨j, hj, hgb⟩ := hr.ioapicFromGsi_iff.mp hb
  refine table_eq_some_iff.mpr ⟨b, (ioapicFromGsi_congr hio gsi).trans hb, ?_⟩
  rw [← hentry]
  refine entryAt_initializeList_of_forall fun g hg hz hreg hmod => ?_
  have heq : gsi = g := hr.gsi_eq ha hj (has_of_mem_loopGsis hg) hgb hreg hmod
  exact hno ⟨heq ▸ hg, heq ▸ hz⟩

end Initialize

/-! ### The invariant -/

namespace Tracked

variable {t t' : Tracked}

/-- What every safe call keeps: the interrupts that were given vectors are registered, and the index
finds, for each vector held, an interrupt whose entry is read as it is. -/
structure Inv (t : Tracked) : Prop where
  registered : t.hal.Registered
  known : ∀ g v, (g, v) ∈ t.given → ∃ e, t.hal.table g = some e
  sound : t.view.Sound Ioredtbl.vector fun e => e.upperDword = 0

theorem finds_of {g : ℕ} {v : BitVec 8} {e : Ioredtbl} (hindex : (t.hal.vectorAttrs v).gsi = g)
    (hgiven : (g, v) ∈ t.given) (he : t.hal.table g = some e) (hv : e.vector = v)
    (hup : e.upperDword = 0) :
    t.view.Finds Ioredtbl.vector (fun e => e.upperDword = 0) v := by
  subst hindex
  exact ⟨hgiven, e, he, hv, hup⟩

theorem Inv.finds {g : ℕ} {v : BitVec 8} (hi : t.Inv) (hg : t.Holds g v) :
    ∃ e, ((t.hal.vectorAttrs v).gsi, v) ∈ t.given ∧
      t.hal.table (t.hal.vectorAttrs v).gsi = some e ∧ e.vector = v ∧ e.upperDword = 0 := by
  obtain ⟨hin, e, he, hv, hup⟩ := hi.sound g v hg
  exact ⟨e, hin, he, hv, hup⟩

theorem readBack_of_upperDword {e : Ioredtbl} (he : e.upperDword = 0) : e.readBack = e := by
  have hbit := (Ioredtbl.get_eq_zero_iff e).mp he
  have hag := (Ioredtbl.agreeOutside_readBack_iff (Or.inl (show 0 + 0 ≤ 31 by decide)) e).mpr
    fun i hi _ => by
      by_cases hin : i < 64
      · exact hbit i hi (by omega)
      · exact BitVec.getLsbD_of_ge e i (by omega)
  apply BitVec.eq_of_getLsbD_eq
  intro i _
  exact hag i (Or.inr (by omega))

theorem Inv.agrees (hi : t.Inv) : t.Agrees := by
  intro gsi v e hgiven he hv
  obtain ⟨f, hin, hf, hfv, hup⟩ := hi.finds ⟨hgiven, e, he, hv⟩
  refine ⟨_, f, hin, hf, hfv, ?_⟩
  rw [intAttrsFromVector_eq, hf, Option.map_some, readBack_of_upperDword hup]

/-- Writing the entry of one interrupt. -/
theorem Inv.write {e e' : Ioredtbl} {v : BitVec 8} (hi : t.Inv)
    (hio : t'.hal.ioapics = t.hal.ioapics) (he : t.hal.table gsi = some e) (hv : e'.vector = v)
    (htable : t'.hal.table = Function.update t.hal.table gsi (some e'))
    (hgiven : t'.given = t.given ∪ {(gsi, v)})
    (hindex : ∀ w ≠ v, t'.hal.vectorAttrs w = t.hal.vectorAttrs w)
    (hrel : t.Releases gsi v e.vector)
    (hfinds : t'.view.Finds Ioredtbl.vector (fun e => e.upperDword = 0) v) : t'.Inv := by
  have hother : ∀ g ≠ gsi, t'.hal.table g = t.hal.table g := fun g hg => by
    rw [htable, Function.update_of_ne hg]
  refine ⟨hi.registered.congr hio, fun g w hmem => ?_, ?_⟩
  · by_cases hg : g = gsi
    · exact ⟨e', by rw [hg, htable, Function.update_self]⟩
    · rw [hgiven, Set.mem_union, Set.mem_singleton_iff, Prod.mk.injEq] at hmem
      rw [hother g hg]
      exact hi.known g w (hmem.resolve_right fun hc => hg hc.1)
  · apply hi.sound.of_writes {gsi}
    · intro g hg k _
      exact hother g hg
    · intro g hg k hmem
      have hmem' : (g, k) ∈ t'.given := hmem
      rw [hgiven, Set.mem_union, Set.mem_singleton_iff, Prod.mk.injEq] at hmem'
      exact hmem'.resolve_right fun hc => hg hc.1
    · intro x hx
      change x ∈ t'.given
      rw [hgiven]
      exact Or.inl hx
    · rintro g rfl k ⟨-, f, hf, hk⟩
      have hf' : t'.hal.table g = some f := hf
      rw [htable, Function.update_self, Option.some.injEq] at hf'
      have hkv : k = v := by rw [← hk, ← hf', hv]
      exact hkv ▸ hfinds
    · intro g hg k hk
      by_cases hkv : k = v
      · exact Or.inl (hkv ▸ hfinds)
      · refine Or.inr ⟨congrArg IntAttr.gsi (hindex k hkv), fun hin => ?_⟩
        -- the index finds the interrupt that is written, so its old vector is `k`
        obtain ⟨f, -, hf, hfk, -⟩ := hi.finds hk
        have hfound : (t.hal.vectorAttrs k).gsi = gsi := hin
        rw [hfound, he, Option.some.injEq] at hf
        have hek : e.vector = k := by rw [hf, hfk]
        exact hrel (hek ▸ Ne.symm hkv) g hg (hek ▸ hk) (hek ▸ hfound)

theorem Inv.refused (hi : t.Inv) (hhal : t'.hal = t.hal) (hgiven : t'.given = t.given) : t'.Inv := by
  obtain ⟨hal, given⟩ := t
  obtain ⟨hal', given'⟩ := t'
  obtain rfl : hal' = hal := hhal
  obtain rfl : given' = given := hgiven
  exact hi

theorem Inv.setVector (hi : t.Inv) (gsi : ℕ) (v : BitVec 8) (hs : (Call.setVector gsi v).Safe t) :
    (t.step (.setVector gsi v)).Inv := by
  have hgiven : ∀ {h' : Hal}, t.hal.ioapicSetGsiVector gsi v = (true, h') →
      t.step (.setVector gsi v) = ⟨h', t.given ∪ {(gsi, v)}⟩ := by
    intro h' hset
    simp only [step, Call.run, Call.gives, hset]
    congr 2
    ext x
    simp [Prod.ext_iff]
  rcases ioapicSetGsiVector_cases hi.registered gsi v with
    hno | ⟨e, he, hlt, ⟨hev, hset⟩ | ⟨e', h', hset, hv, hup, hio, htable, hind, hother⟩⟩
  · refine hi.refused (congrArg Prod.snd hno) ?_
    simp [step, Call.gives, hno]
  · -- the entry has the vector already, and nothing is written
    rw [hgiven hset]
    have hmem : (gsi, v) ∈ t.given ∪ {(gsi, v)} := Or.inr rfl
    have hrel : t.Releases gsi v e.vector := fun hne => absurd hev.symm hne
    have htable : t.hal.table = Function.update t.hal.table gsi (some e) := by
      rw [← he, Function.update_eq_self]
    refine hi.write rfl he hev htable rfl (fun _ _ => rfl) hrel ?_
    rcases (hs e he hlt).2 hev with ⟨g, hg⟩ | ⟨hind, hup⟩
    · obtain ⟨f, hin, hf, hfv, hup⟩ := hi.finds hg
      exact finds_of rfl (Or.inl hin) hf hfv hup
    · exact finds_of hind hmem he hev hup
  · rw [hgiven hset]
    have hmem : (gsi, v) ∈ t.given ∪ {(gsi, v)} := Or.inr rfl
    refine hi.write hio he hv htable rfl hother (hs e he hlt).1 (finds_of hind hmem ?_ hv hup)
    exact (congrFun htable gsi).trans (Function.update_self ..)

theorem Inv.route (hi : t.Inv) (isos : List IntSourceOverrideRecord) (irq recLapicId v : BitVec 8)
    (masked : Bool) (hs : (Call.route isos irq recLapicId v masked).Safe t) :
    (t.step (.route isos irq recLapicId v masked)).Inv := by
  rcases ioapicRouteIrq_cases hi.registered isos irq recLapicId v masked with
    hno | ⟨e, e', h', he, hroute, hv, hup, hio, htable, hind⟩
  · refine hi.refused (congrArg Prod.snd hno) ?_
    simp [step, Call.gives, hno]
  · have hstep : t.step (.route isos irq recLapicId v masked) =
        ⟨h', t.given ∪ {(gsiFromIrq isos irq, v)}⟩ := by
      simp only [step, Call.run, Call.gives, hroute]
      congr 2
      ext x
      simp [Prod.ext_iff]
    rw [hstep]
    have hmem : (gsiFromIrq isos irq, v) ∈ t.given ∪ {(gsiFromIrq isos irq, v)} := Or.inr rfl
    obtain ⟨hrel, hfound⟩ := hs e he
    refine hi.write hio he hv htable rfl (fun w _ => congrFun hind w) hrel ?_
    rcases hfound with ⟨hindex, hz⟩ | ⟨hindex, g, -, hg⟩
    · refine finds_of ?_ hmem ?_ hv (hup hz)
      · exact (congrArg (fun f => (f v).gsi) hind).trans hindex
      · exact (congrFun htable _).trans (Function.update_self ..)
    · obtain ⟨f, hin, hf, hfv, hupf⟩ := hi.finds hg
      refine finds_of (congrArg (fun f => (f v).gsi) hind) (Or.inl hin) ?_ hfv hupf
      exact (congrFun htable _).trans ((Function.update_of_ne hindex ..).trans hf)

theorem Inv.register (hi : t.Inv) (c : Sources) (record : IoApicRecord)
    (hs : (Call.register c record).Safe t) : (t.step (.register c record)).Inv := by
  set a := t.hal.ioapicOf record with ha
  obtain ⟨hr, hslot, hbsp, hjunk, hkept⟩ := hs
  set h₁ : Hal := { t.hal with ioapics := Function.update t.hal.ioapics a.apicId (some a) } with hh₁
  have hmine : h₁.ioapics a.apicId = some a := Function.update_self ..
  have hstep : t.step (.register c record) = ⟨initializeList c a (loopGsis a) h₁,
      t.given ∪ {x | x.1 ∈ loopGsis a ∧ x.1 ≠ 0 ∧ x.2 = (initialEntry c x.1).vector}⟩ :=
    congrArg (Tracked.mk · _) (registerIoapic_eq c record t.hal)
  have hio := ioapics_initializeList c a (loopGsis a) h₁
  have hnew : ∀ g ∈ loopGsis a, g ≠ 0 →
      (initializeList c a (loopGsis a) h₁).table g = some (finalEntry c g) :=
    fun g hg hz => table_initializeList_of_mem hr hmine hg hz
  have hold : ∀ g e, ¬ (g ∈ loopGsis a ∧ g ≠ 0) → t.hal.table g = some e →
      (initializeList c a (loopGsis a) h₁).table g = some e :=
    fun g e hno he => table_initializeList_of_not_mem hr hmine
      (table_update_slot hi.registered hr rfl rfl hslot he) hno
  rw [hstep]
  have hfinds : ∀ g ∈ loopGsis a, g ≠ 0 → ∀ k, (initialEntry c g).vector = k →
      ((initializeList c a (loopGsis a) h₁).vectorAttrs k).gsi = g →
      (view ⟨initializeList c a (loopGsis a) h₁, t.given ∪ {x | x.1 ∈ loopGsis a ∧ x.1 ≠ 0 ∧
        x.2 = (initialEntry c x.1).vector}⟩).Finds Ioredtbl.vector (fun e => e.upperDword = 0) k := by
    intro g hg hz k hk hind
    exact finds_of hind (Or.inr ⟨hg, hz, hk.symm⟩) (hnew g hg hz)
      ((finalEntry_vector c g).trans hk) (finalEntry_upperDword hbsp (hjunk g hg hz))
  refine ⟨hr.congr hio, fun g v hmem => ?_, ?_⟩
  · by_cases hg : g ∈ loopGsis a ∧ g ≠ 0
    · exact ⟨_, hnew g hg.1 hg.2⟩
    · obtain ⟨e, he⟩ := hi.known g v (hmem.resolve_right fun hc => hg ⟨hc.1, hc.2.1⟩)
      exact ⟨e, hold g e hg he⟩
  · apply hi.sound.of_writes {g | g ∈ loopGsis a ∧ g ≠ 0}
    · intro g hg k hmem
      obtain ⟨e, he⟩ := hi.known g k hmem
      exact (hold g e hg he).trans he.symm
    · intro g hg k hmem
      exact hmem.resolve_right fun hc => hg ⟨hc.1, hc.2.1⟩
    · exact Set.subset_union_left
    · rintro g ⟨hg, hz⟩ k ⟨-, f, hf, hk⟩
      have hvec : (initialEntry c g).vector = k := by
        rw [← finalEntry_vector, ← hk]
        exact congrArg Ioredtbl.vector (Option.some.inj ((hnew g hg hz).symm.trans hf))
      rcases gsi_initializeList c a (loopGsis a) h₁ k with ⟨g', hg', hz', hk', hind⟩ | ⟨hno, -⟩
      · exact hfinds g' hg' hz' k hk' hind
      · exact absurd hvec (hno g hg hz)
    · intro g hg k hk
      rcases gsi_initializeList c a (loopGsis a) h₁ k with ⟨g', hg', hz', hk', hind⟩ | ⟨hno, hind⟩
      · exact Or.inl (hfinds g' hg' hz' k hk' hind)
      · refine Or.inr ⟨hind, fun hin => ?_⟩
        obtain ⟨g', hg', hz', hk'⟩ := hkept g k hk hg hin.1 hin.2
        exact hno g' hg' hz' hk'

/-- Every safe call keeps the invariant. -/
theorem Inv.step (hi : t.Inv) (call : Call) (hs : call.Safe t) : (t.step call).Inv := by
  cases call with
  | register c record => exact hi.register c record hs
  | route isos irq recLapicId v masked => exact hi.route isos irq recLapicId v masked hs
  | setVector gsi v => exact hi.setVector gsi v hs

/-- The state before the first call: no controller is registered. -/
def boot (regs : ℕ → BitVec 8 → BitVec 32) : Tracked where
  hal := ⟨regs, fun _ => none, fun _ => ⟨0, 0, 0, 0⟩⟩
  given := ∅

theorem boot_inv (regs : ℕ → BitVec 8 → BitVec 32) : (boot regs).Inv := by
  refine ⟨⟨?_, ?_, ?_, ?_⟩, ?_, ?_⟩
  · intro i a ha
    exact absurd ha (by simp [boot])
  · intro i a ha
    exact absurd ha (by simp [boot])
  · intro i j a b ha
    exact absurd ha (by simp [boot])
  · intro i j a b ha
    exact absurd ha (by simp [boot])
  · intro g v hmem
    exact absurd hmem (Set.notMem_empty _)
  · rintro g v ⟨hmem, -⟩
    exact absurd hmem (Set.notMem_empty _)

/-- After a run of safe calls the index agrees with the tables. -/
theorem agrees_of_run (regs : ℕ → BitVec 8 → BitVec 32) (calls : List Call)
    (hsafe : Run.Along step (fun t call => call.Safe t) (boot regs) calls) :
    (calls.foldl step (boot regs)).Agrees :=
  (hsafe.invariant (fun _ call hi hs => hi.step call hs) (boot_inv regs)).agrees

/-- The registers of controllers with id 0 and 24 pins. -/
def resetRegs (_ : ℕ) (r : BitVec 8) : BitVec 32 := if r = 1 then 0x00170020 else 0

/-- The record of a controller at its usual address. -/
def firstRecord : IoApicRecord := ⟨⟨1, 12⟩, 0, 0, 0xFEC00000, 0⟩

/-- No overrides, and zeros on the stack. -/
def noSources : Sources := ⟨[], [], 0, fun _ => 0⟩

theorem register_first_safe : (Call.register noSources firstRecord).Safe (boot resetRegs) := by
  refine ⟨registered_of_one rfl (by decide +kernel) (by decide +kernel), Or.inl rfl, rfl,
    fun _ _ _ => show get 32 24 (0 : Ioredtbl) = 0 by decide +kernel, ?_⟩
  rintro g v ⟨hmem, -⟩
  exact absurd hmem (Set.notMem_empty _)

/-- Registering a controller and routing IRQ 4 to the vector it has already. -/
theorem agrees_register_route : ([.register noSources firstRecord,
    .route [] 4 0 0x24 false].foldl step (boot resetRegs)).Agrees := by
  refine agrees_of_run resetRegs _ ⟨register_first_safe, fun e he => ?_, trivial⟩
  have hvec : (((boot resetRegs).step (.register noSources firstRecord)).hal.table
      (gsiFromIrq [] 4)).map Ioredtbl.vector = some 0x24 := by decide +kernel
  have hev : e.vector = 0x24 := by
    rw [he, Option.map_some, Option.some.injEq] at hvec
    exact hvec
  exact ⟨fun hne => absurd hev.symm hne, Or.inl ⟨by decide +kernel, rfl⟩⟩

/-- After IRQ 1 is routed to vector `0x50`, the index finds interrupt 0 for the vector. -/
theorem route_not_indexed : ¬ ([.register noSources firstRecord,
    .route [] 1 0 0x50 false].foldl step (boot resetRegs)).Agrees := by
  intro hag
  have hvec : ((([.register noSources firstRecord, .route [] 1 0 0x50 false].foldl step
      (boot resetRegs)).hal.table 1).map Ioredtbl.vector) = some 0x50 := by decide +kernel
  obtain ⟨e, he, hev⟩ := Option.map_eq_some_iff.mp hvec
  obtain ⟨g, f, -, -, hfv, hf⟩ := hag 1 0x50 e (Or.inr ⟨rfl, rfl, by decide +kernel⟩) he hev
  have hzero : ((([.register noSources firstRecord, .route [] 1 0 0x50 false].foldl step
      (boot resetRegs)).hal.intAttrsFromVector 0x50).map Ioredtbl.vector) = some 0 := by
    decide +kernel
  rw [hf, Option.map_some, Option.some.injEq, hfv] at hzero
  exact absurd hzero (by decide)

end Tracked

end Hal

end Vardar
