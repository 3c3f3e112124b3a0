import Vardar.Hal.Entries

/-!
# Registering a controller

The loop of `initialize_ioapic_ints` is a fold over the interrupts of the controller; interrupt 0 is
skipped. Each round writes one entry and one element of `VECTOR_ATTRS`, and the last write decides.

## Main definitions

* `Vardar.Hal.loopGsis`: the interrupts of the rounds.
* `Vardar.Hal.finalEntry`: the entry a round writes.
* `Vardar.Hal.initializeList`: the rounds of a list of interrupts.

## Main results

* `Vardar.Hal.initializeIoapicInts_eq`.
* `Vardar.Hal.entryAt_initializeList_of_forall`, `Vardar.Hal.entryAt_initializeList_append`,
  `Vardar.Hal.gsi_initializeList`.
-/

namespace Vardar

open BitField

namespace Hal

variable {c : Sources} {a b : IoApic} {gsi p : ℕ} {h : Hal} {l : List ℕ}

/-! ### One round -/

/-- The entry `initialize_ioapic_ints` writes. -/
def finalEntry (c : Sources) (gsi : ℕ) : Ioredtbl := set 56 c.bspLapicId (initialEntry c gsi)

theorem finalEntry_vector (c : Sources) (gsi : ℕ) :
    (finalEntry c gsi).vector = (initialEntry c gsi).vector :=
  get_set_of_disjoint (by decide) (by decide) _ _

theorem entryAt_initializeGsi (c : Sources) (a b : IoApic) (gsi p : ℕ) (h : Hal) :
    (initializeGsi c a gsi h).entryAt b p =
      if gsi ≠ 0 ∧ b.ioregsel = a.ioregsel ∧ p % 128 = pin a gsi % 128 then finalEntry c gsi
      else h.entryAt b p := by
  by_cases hz : gsi = 0
  · rw [initializeGsi, if_pos hz, if_neg fun hc => hc.1 hz]
  · simp only [initializeGsi, if_neg hz, entryAt_writeEntry]
    simp only [ne_eq, hz, not_false_eq_true, true_and]
    rfl

theorem ioapics_initializeGsi (c : Sources) (a : IoApic) (gsi : ℕ) (h : Hal) :
    (initializeGsi c a gsi h).ioapics = h.ioapics := by
  by_cases hz : gsi = 0
  · rw [initializeGsi, if_pos hz]
  · simp [initializeGsi, hz, writeEntry, ioapicWrite]

theorem gsi_initializeGsi (c : Sources) (a : IoApic) (gsi : ℕ) (h : Hal) (v : BitVec 8) :
    ((initializeGsi c a gsi h).vectorAttrs v).gsi =
      if gsi ≠ 0 ∧ (initialEntry c gsi).vector = v then gsi else (h.vectorAttrs v).gsi := by
  by_cases hz : gsi = 0
  · rw [initializeGsi, if_pos hz, if_neg fun hc => hc.1 hz]
  · simp only [initializeGsi, if_neg hz, writeEntry, ioapicWrite]
    by_cases hv : (initialEntry c gsi).vector = v
    · rw [if_pos ⟨hz, hv⟩, ← hv, Function.update_self]
    · rw [if_neg fun hc => hv hc.2, Function.update_of_ne fun hc => hv hc.symm]

/-! ### The loop -/

/-- The interrupts of the rounds of `initialize_ioapic_ints`. -/
def loopGsis (a : IoApic) : List ℕ :=
  List.range' a.minGsi ((a.minGsi + a.numPins) % 2 ^ 32 - a.minGsi)

/-- The rounds of a list of interrupts. -/
def initializeList (c : Sources) (a : IoApic) (l : List ℕ) (h : Hal) : Hal :=
  l.foldl (fun h gsi => initializeGsi c a gsi h) h

theorem initializeFrom_eq (rounds : ℕ) (hr : (a.minGsi + a.numPins) % 2 ^ 32 - gsi ≤ rounds)
    (h : Hal) : initializeFrom c a rounds gsi h =
      initializeList c a (List.range' gsi ((a.minGsi + a.numPins) % 2 ^ 32 - gsi)) h := by
  induction rounds generalizing gsi h with
  | zero =>
    have hnil : (a.minGsi + a.numPins) % 2 ^ 32 - gsi = 0 := by omega
    rw [hnil]
    rfl
  | succ rounds ih =>
    rw [initializeFrom]
    by_cases hlt : gsi < (a.minGsi + a.numPins) % 2 ^ 32
    · have hmod : (gsi + 1) % 2 ^ 32 = gsi + 1 := by omega
      have hsub : (a.minGsi + a.numPins) % 2 ^ 32 - gsi =
          (a.minGsi + a.numPins) % 2 ^ 32 - (gsi + 1) + 1 := by omega
      rw [if_pos hlt, hmod, ih (by omega), hsub, List.range'_succ]
      rfl
    · have hnil : (a.minGsi + a.numPins) % 2 ^ 32 - gsi = 0 := by omega
      rw [if_neg hlt, hnil]
      rfl

theorem initializeIoapicInts_eq (hmin : a.minGsi < 2 ^ 32) (hp : a.numPins < 2 ^ 32) :
    initializeIoapicInts c a h = initializeList c a (loopGsis a) h :=
  initializeFrom_eq a.numPins (by omega) h

theorem registerIoapic_eq (c : Sources) (record : IoApicRecord) (h : Hal) :
    h.registerIoapic c record = initializeList c (h.ioapicOf record)
      (loopGsis (h.ioapicOf record)) { h with
        ioapics := Function.update h.ioapics (h.ioapicOf record).apicId (h.ioapicOf record) } := by
  refine initializeIoapicInts_eq record.gsib.isLt ?_
  have hmod : (h.ioapicOf record).numPins < 256 := Nat.mod_lt _ (by decide)
  omega

theorem mem_loopGsis : gsi ∈ loopGsis a ↔
    a.minGsi ≤ gsi ∧ gsi < (a.minGsi + a.numPins) % 2 ^ 32 := by
  rw [loopGsis, List.mem_range'_1]
  omega

theorem loopGsis_nodup (a : IoApic) : (loopGsis a).Nodup := List.nodup_range'

/-! ### What the rounds of a list leave -/

theorem ioapics_initializeList (c : Sources) (a : IoApic) (l : List ℕ) (h : Hal) :
    (initializeList c a l h).ioapics = h.ioapics := by
  induction l generalizing h with
  | nil => rfl
  | cons gsi l ih => exact (ih (initializeGsi c a gsi h)).trans (ioapics_initializeGsi c a gsi h)

/-- An entry that no round writes is kept. -/
theorem entryAt_initializeList_of_forall
    (hl : ∀ gsi ∈ l, gsi ≠ 0 → b.ioregsel = a.ioregsel → p % 128 ≠ pin a gsi % 128) :
    (initializeList c a l h).entryAt b p = h.entryAt b p := by
  induction l generalizing h with
  | nil => rfl
  | cons gsi l ih =>
    have hrest := ih (h := initializeGsi c a gsi h) fun g hg => hl g (List.mem_cons_of_mem gsi hg)
    refine hrest.trans ?_
    rw [entryAt_initializeGsi, if_neg]
    rintro ⟨hz, hreg, hmod⟩
    exact hl gsi List.mem_cons_self hz hreg hmod

/-- The last round that writes an entry decides it. -/
theorem entryAt_initializeList_append (l₁ l₂ : List ℕ) (hz : gsi ≠ 0)
    (hreg : b.ioregsel = a.ioregsel) (hpin : p % 128 = pin a gsi % 128)
    (hl : ∀ g ∈ l₂, g ≠ 0 → p % 128 ≠ pin a g % 128) :
    (initializeList c a (l₁ ++ gsi :: l₂) h).entryAt b p = finalEntry c gsi := by
  rw [initializeList, List.foldl_append, List.foldl_cons]
  refine (entryAt_initializeList_of_forall fun g hg hgz _ => hl g hg hgz).trans ?_
  rw [entryAt_initializeGsi, if_pos ⟨hz, hreg, hpin⟩]

/-- The index finds an interrupt that the rounds give the vector, if there is one. -/
theorem gsi_initializeList (c : Sources) (a : IoApic) (l : List ℕ) (h : Hal) (v : BitVec 8) :
    (∃ gsi ∈ l, gsi ≠ 0 ∧ (initialEntry c gsi).vector = v ∧
      ((initializeList c a l h).vectorAttrs v).gsi = gsi) ∨
    (∀ gsi ∈ l, gsi ≠ 0 → (initialEntry c gsi).vector ≠ v) ∧
      ((initializeList c a l h).vectorAttrs v).gsi = (h.vectorAttrs v).gsi := by
  induction l generalizing h with
  | nil => exact Or.inr ⟨by simp, rfl⟩
  | cons gsi l ih =>
    have hround := gsi_initializeGsi c a gsi h v
    rcases ih (initializeGsi c a gsi h) with ⟨g, hg, hz, hv, hind⟩ | ⟨hno, hind⟩
    · exact Or.inl ⟨g, List.mem_cons_of_mem gsi hg, hz, hv, hind⟩
    · by_cases hthis : gsi ≠ 0 ∧ (initialEntry c gsi).vector = v
      · rw [if_pos hthis] at hround
        exact Or.inl ⟨gsi, List.mem_cons_self, hthis.1, hthis.2, hind.trans hround⟩
      · rw [if_neg hthis] at hround
        refine Or.inr ⟨fun g hg hz hv => ?_, hind.trans hround⟩
        rcases List.mem_cons.mp hg with rfl | hmem
        · exact hthis ⟨hz, hv⟩
        · exact hno g hmem hz hv

end Hal

end Vardar
