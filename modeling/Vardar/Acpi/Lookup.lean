import Mathlib.Data.List.Pairwise
import Vardar.Acpi.Order

/-!
# From an interrupt to its I/O APIC

Two lookups take a global system interrupt to an I/O APIC. `find_apic_from_gsi` goes over the
records of `SMP_INFO` and keeps the one with the largest base so far; `ioapic_from_gsi` goes over
the controllers in the order of their hardware ids and takes the first one whose range has the
interrupt. When the ranges are disjoint and the ids distinct, both pick the same controller.

## Main definitions

* `Vardar.Madt.Selects`: the record that `find_apic_from_gsi` should select.
* `Vardar.Madt.DisjointApics`: distinct ids and disjoint ranges.

## Main results

* `Vardar.Madt.findApicFromGsi_selects`.
* `Vardar.Madt.ioapics_run`: `IOAPICS` after `ParseMadt`.
* `Vardar.Madt.lookups_agree`.
-/

namespace Vardar

open Word BitField

namespace Madt

open Hal

/-! ### The record with the largest base -/

/-- The index is that of a record with the largest base up to the interrupt, -1 if there is none. -/
def Selects (records : List IoApicRecord) (gsi : ℕ) (ind : ℤ) : Prop :=
  (ind = -1 ∧ ∀ r ∈ records, gsi < r.gsib.toNat) ∨
    ∃ (k : ℕ) (r : IoApicRecord), ind = k ∧ records[k]? = some r ∧ r.gsib.toNat ≤ gsi ∧
      ∀ r' ∈ records, r'.gsib.toNat ≤ gsi → r'.gsib.toNat ≤ r.gsib.toNat

/-- `apic_ind` and `max_gsib` after some of the records. -/
def Best (records : List IoApicRecord) (gsi : ℕ) (apicInd maxGsib : ℤ) : Prop :=
  (apicInd = -1 ∧ maxGsib = 0 ∧ ∀ r ∈ records, gsi < r.gsib.toNat) ∨
    ∃ (k : ℕ) (r : IoApicRecord), apicInd = k ∧ records[k]? = some r ∧
      maxGsib = int32 r.gsib.toNat ∧ r.gsib.toNat ≤ gsi ∧
      ∀ r' ∈ records, r'.gsib.toNat ≤ gsi → r'.gsib.toNat ≤ r.gsib.toNat

/-- A base that went through an `int` is compared as it was. -/
theorem int32_gsib (b : BitVec 32) : (int32 b.toNat % 2 ^ 32).toNat = b.toNat := by
  have hlt := b.isLt
  rw [int32, Int.bmod_def]
  omega

variable {gsi : ℕ} {rs pre : List IoApicRecord} {r : IoApicRecord} {apicInd maxGsib : ℤ}

/-- A round that takes the record. -/
theorem Best.take (h : Best pre gsi apicInd maxGsib) (hr : r.gsib.toNat ≤ gsi)
    (hmax : (maxGsib % 2 ^ 32).toNat ≤ r.gsib.toNat) :
    Best (pre ++ [r]) gsi pre.length (int32 r.gsib.toNat) := by
  refine .inr ⟨pre.length, r, rfl, by simp, rfl, hr, fun r' hr' hle => ?_⟩
  rcases List.mem_append.mp hr' with hr' | hr'
  · rcases h with ⟨-, -, hno⟩ | ⟨k, b, -, -, hm, -, hbest⟩
    · have hgt := hno r' hr'
      omega
    · rw [hm, int32_gsib] at hmax
      exact (hbest r' hr' hle).trans hmax
  · rw [List.mem_singleton.mp hr']

/-- A round that passes over the record. -/
theorem Best.skip (h : Best pre gsi apicInd maxGsib)
    (hno : ¬ (r.gsib.toNat ≤ gsi ∧ (maxGsib % 2 ^ 32).toNat ≤ r.gsib.toNat)) :
    Best (pre ++ [r]) gsi apicInd maxGsib := by
  rcases h with ⟨hind, hm, hall⟩ | ⟨k, b, hind, hk, hm, hb, hbest⟩
  · refine .inl ⟨hind, hm, fun r' hr' => ?_⟩
    rcases List.mem_append.mp hr' with hr' | hr'
    · exact hall r' hr'
    · rw [List.mem_singleton.mp hr']
      simp only [hm, Int.zero_emod, Int.toNat_zero, Nat.zero_le, and_true] at hno
      omega
  · rw [hm, int32_gsib] at hno
    refine .inr ⟨k, b, hind, ?_, hm, hb, fun r' hr' hle => ?_⟩
    · rw [List.getElem?_append_left (List.getElem?_eq_some_iff.mp hk).1]
      exact hk
    · rcases List.mem_append.mp hr' with hr' | hr'
      · exact hbest r' hr' hle
      · rw [List.mem_singleton.mp hr'] at hle ⊢
        omega

theorem Best.findApicFrom (h : Best pre gsi apicInd maxGsib) (rs : List IoApicRecord) :
    Selects (pre ++ rs) gsi (Vardar.findApicFrom gsi rs pre.length apicInd maxGsib) := by
  induction rs generalizing pre apicInd maxGsib with
  | nil =>
    rw [List.append_nil, Vardar.findApicFrom]
    rcases h with ⟨hind, -, hall⟩ | ⟨k, b, hind, hk, -, hb, hbest⟩
    · exact .inl ⟨hind, hall⟩
    · exact .inr ⟨k, b, hind, hk, hb, hbest⟩
  | cons r rs ih =>
    have hlen : (pre ++ [r]).length = pre.length + 1 := by simp
    rw [Vardar.findApicFrom, ← List.singleton_append, ← List.append_assoc, ← hlen]
    split_ifs with hc
    · exact ih (h.take hc.1 hc.2)
    · exact ih (h.skip hc)

/-- `find_apic_from_gsi` selects a record with the largest base up to the interrupt. -/
theorem findApicFromGsi_selects (rs : List IoApicRecord) (gsi : ℕ) :
    Selects rs gsi (findApicFromGsi rs gsi) := by
  have hempty : Best [] gsi (-1) 0 := .inl ⟨rfl, rfl, by simp⟩
  exact hempty.findApicFrom rs

/-! ### The controllers -/

/-- The number of pins of the I/O APIC of a record, from its version register. -/
def pinsOf (h : Hal) (r : IoApicRecord) : ℕ :=
  (get 16 8 (h.regs r.ioApicAddr.toNat 1)).toNat + 1

/-- The I/O APICs have distinct hardware ids, at most 240 pins each, and disjoint ranges of
interrupts below `2 ^ 32`. -/
structure DisjointApics (h : Hal) (rs : List IoApicRecord) : Prop where
  ids : (rs.map fun r => (h.ioapicOf r).apicId).Nodup
  pins : ∀ r ∈ rs, pinsOf h r ≤ 240
  range : ∀ r ∈ rs, r.gsib.toNat + pinsOf h r ≤ 2 ^ 32
  disjoint : rs.Pairwise fun r r' => r.gsib.toNat + pinsOf h r ≤ r'.gsib.toNat ∨
    r'.gsib.toNat + pinsOf h r' ≤ r.gsib.toNat

/-- A table of controllers by their ids, with one more controller. -/
theorem update_eq_some_iff {f : IoApicRecord → IoApic} {t : Fin 16 → Option IoApic}
    (ht : ∀ i a, t i = some a ↔ ∃ r' ∈ rs, f r' = a ∧ a.apicId = i)
    (hlast : ∀ r' ∈ rs, (f r').apicId ≠ (f r).apicId) (i : Fin 16) (a : IoApic) :
    Function.update t (f r).apicId (some (f r)) i = some a ↔
      ∃ r' ∈ rs ++ [r], f r' = a ∧ a.apicId = i := by
  by_cases hi : i = (f r).apicId
  · rw [hi, Function.update_self, Option.some.injEq]
    constructor
    · rintro rfl
      exact ⟨r, by simp, rfl, rfl⟩
    · rintro ⟨r', hr', rfl, hid⟩
      rcases List.mem_append.mp hr' with hr' | hr'
      · exact absurd hid (hlast r' hr')
      · rw [List.mem_singleton.mp hr']
  · rw [Function.update_of_ne hi, ht i a]
    constructor
    · rintro ⟨r', hr', hrest⟩
      exact ⟨r', List.mem_append_left _ hr', hrest⟩
    · rintro ⟨r', hr', rfl, hid⟩
      rcases List.mem_append.mp hr' with hr' | hr'
      · exact ⟨r', hr', rfl, hid⟩
      · rw [List.mem_singleton.mp hr'] at hid
        exact absurd hid.symm hi

/-- After the records, `IOAPICS` has the controllers of their I/O APICs. -/
theorem ioapics_run (env : Env) {h : Hal} (hempty : ∀ i, h.ioapics i = none)
    {records : List MadtRecord} (hids : ((records.filterMap (Kind.of? .ioApic)).map
      fun r => (h.ioapicOf r).apicId).Nodup) (i : Fin 16) (a : IoApic) :
    (records.foldl (Collected.add env) (Collected.empty h)).hal.ioapics i = some a ↔
      ∃ r ∈ records.filterMap (Kind.of? .ioApic), h.ioapicOf r = a ∧ a.apicId = i := by
  induction records using List.reverseRecOn generalizing i a with
  | nil => simp [Collected.empty, hempty]
  | append_singleton l x ih =>
    have hl : ((l.filterMap (Kind.of? .ioApic)).map fun r => (h.ioapicOf r).apicId).Nodup := by
      rw [List.filterMap_append, List.map_append] at hids
      exact hids.of_append_left
    set c := l.foldl (Collected.add env) (Collected.empty h) with hc
    have hih := ih hl
    -- records of the other kinds leave the controllers
    have hskip : ∀ x, (c.add env x).hal.ioapics = c.hal.ioapics →
        [x].filterMap (Kind.of? .ioApic) = [] → ((c.add env x).hal.ioapics i = some a ↔
          ∃ r ∈ l.filterMap (Kind.of? .ioApic) ++ [x].filterMap (Kind.of? .ioApic),
            h.ioapicOf r = a ∧ a.apicId = i) := by
      intro x hx hnil
      rw [hx, hnil, List.append_nil]
      exact hih i a
    rw [List.foldl_append, List.foldl_cons, List.foldl_nil, ← hc, List.filterMap_append]
    cases x with
    | ioApic r =>
      have hregs : c.hal.regs r.ioApicAddr.toNat = h.regs r.ioApicAddr.toNat :=
        regs_foldl_add l (fun r' hr' => addr_ne hids (Or.inl hr')) _
      have hof : c.hal.ioapicOf r = h.ioapicOf r := ioapicOf_congr hregs
      have hio : (c.add env (.ioApic r)).hal.ioapics =
          Function.update c.hal.ioapics (h.ioapicOf r).apicId (some (h.ioapicOf r)) := by
        change (c.hal.registerIoapic (c.sources env) r).ioapics = _
        rw [registerIoapic_eq, ioapics_initializeList, hof]
      have hlast : ∀ r' ∈ l.filterMap (Kind.of? .ioApic),
          (h.ioapicOf r').apicId ≠ (h.ioapicOf r).apicId := by
        intro r' hr' heq
        rw [List.filterMap_append, List.map_append, List.nodup_append] at hids
        exact hids.2.2 _ (List.mem_map_of_mem hr') _ List.mem_cons_self heq
      rw [hio, show [MadtRecord.ioApic r].filterMap (Kind.of? .ioApic) = [r] from rfl]
      exact update_eq_some_iff hih hlast i a
    | lapic r => exact hskip (.lapic r) rfl rfl
    | iso r => exact hskip (.iso r) rfl rfl
    | nmiSource r => exact hskip (.nmiSource r) rfl rfl
    | nmi r => exact hskip (.nmi r) rfl rfl
    | lapicAddr r => exact hskip (.lapicAddr r) rfl rfl
    | other header body => exact hskip (.other header body) rfl rfl

namespace DisjointApics

variable {h : Hal}

theorem numPins_eq (hd : DisjointApics h rs) (hr : r ∈ rs) : (h.ioapicOf r).numPins = pinsOf h r :=
  Nat.mod_eq_of_lt ((hd.pins r hr).trans_lt (by decide))

theorem has_iff (hd : DisjointApics h rs) (hr : r ∈ rs) :
    Has (h.ioapicOf r) gsi ↔ r.gsib.toNat ≤ gsi ∧ gsi < r.gsib.toNat + pinsOf h r := by
  rw [Has, hd.numPins_eq hr]
  rfl

/-- An interrupt is in the range of one I/O APIC at most. -/
theorem eq_of_has (hd : DisjointApics h rs) {r' : IoApicRecord} (hr : r ∈ rs) (hr' : r' ∈ rs)
    (hle : r.gsib.toNat ≤ gsi ∧ gsi < r.gsib.toNat + pinsOf h r)
    (hle' : r'.gsib.toNat ≤ gsi ∧ gsi < r'.gsib.toNat + pinsOf h r') : r = r' := by
  by_contra hne
  have : Std.Symm fun r r' : IoApicRecord => r.gsib.toNat + pinsOf h r ≤ r'.gsib.toNat ∨
      r'.gsib.toNat + pinsOf h r' ≤ r.gsib.toNat := ⟨fun _ _ hor => hor.symm⟩
  have hor := hd.disjoint.forall hr hr' hne
  omega

/-- The record whose range has the interrupt is the one with the largest base up to it. -/
theorem gsib_eq (hd : DisjointApics h rs) {r' : IoApicRecord} (hr : r ∈ rs) (hr' : r' ∈ rs)
    (hle : r.gsib.toNat ≤ gsi ∧ gsi < r.gsib.toNat + pinsOf h r) (hle' : r'.gsib.toNat ≤ gsi)
    (hmax : r.gsib.toNat ≤ r'.gsib.toNat) : r'.gsib.toNat = r.gsib.toNat := by
  have hpos : 0 < pinsOf h r' := Nat.succ_pos _
  have hhas : r.gsib.toNat ≤ r'.gsib.toNat ∧ r'.gsib.toNat < r.gsib.toNat + pinsOf h r := by omega
  rw [hd.eq_of_has hr hr' hhas (by omega)]

/-- `ioapic_from_gsi` finds the controller of the record whose range has the interrupt. -/
theorem ioapicFromGsi_iff {h' : Hal} (hd : DisjointApics h rs)
    (hio : ∀ i a, h'.ioapics i = some a ↔ ∃ r ∈ rs, h.ioapicOf r = a ∧ a.apicId = i) (a : IoApic) :
    h'.ioapicFromGsi gsi = some a ↔ ∃ r ∈ rs, h.ioapicOf r = a ∧
      r.gsib.toNat ≤ gsi ∧ gsi < r.gsib.toNat + pinsOf h r := by
  rw [ioapicFromGsi_eq_some_iff]
  · constructor
    · rintro ⟨i, hi, hg⟩
      obtain ⟨r, hr, rfl, -⟩ := (hio i a).mp hi
      exact ⟨r, hr, rfl, (hd.has_iff hr).mp hg⟩
    · rintro ⟨r, hr, rfl, hg⟩
      exact ⟨_, (hio _ _).mpr ⟨r, hr, rfl, rfl⟩, (hd.has_iff hr).mpr hg⟩
  · intro i b hb
    obtain ⟨r, hr, rfl, -⟩ := (hio i b).mp hb
    rw [hd.numPins_eq hr]
    exact ⟨Nat.succ_pos _, hd.range r hr⟩
  · intro i j b b' hb hb' hg hg'
    obtain ⟨r, hr, rfl, rfl⟩ := (hio i b).mp hb
    obtain ⟨r', hr', rfl, rfl⟩ := (hio j b').mp hb'
    rw [hd.eq_of_has hr hr' ((hd.has_iff hr).mp hg) ((hd.has_iff hr').mp hg')]

end DisjointApics

/-- **The two lookups agree.** After `ParseMadt` of a table whose I/O APICs have their registers at
the addresses given, distinct ids and disjoint ranges, `find_apic_from_gsi` selects a record with the
largest base up to the interrupt, `ioapic_from_gsi` finds a controller if and only if the interrupt
is in one of the ranges, and then it is the controller of the record selected. -/
theorem lookups_agree {f : Kind → ℕ} {fuel madt : ℕ} {s s' : State} {records : List MadtRecord}
    {env : Env} (hr : Ready f fuel madt s records) (hctl : env.Controls records)
    (hempty : ∀ i, s.hal.ioapics i = none)
    (hd : DisjointApics s.hal (records.filterMap (Kind.of? .ioApic)))
    (hparse : parseMadt env fuel madt s = some s') (gsi : ℕ) :
    let rs := ioApicLayout.array s'.machine.mem s'.smp.ioApics s'.smp.numIoApics
    Selects rs gsi (findApicFromGsi rs gsi) ∧
      (∀ a, s'.hal.ioapicFromGsi gsi = some a → ∃ (k : ℕ) (r : IoApicRecord),
        findApicFromGsi rs gsi = k ∧ rs[k]? = some r ∧ a.minGsi = r.gsib.toNat) ∧
      (s'.hal.ioapicFromGsi gsi ≠ none ↔
        ∃ r ∈ rs, r.gsib.toNat ≤ gsi ∧ gsi < r.gsib.toNat + pinsOf s.hal r) := by
  intro rs
  obtain ⟨t, ht, hm⟩ := parseMadt_collects hr hctl.clear
  rw [hparse, Option.some.injEq] at ht
  subst ht
  have hrs : rs = records.filterMap (Kind.of? .ioApic) := by
    have hlist := hm.list .ioApic
    rw [← hm.frame .ioApic, Collected.list_foldl_add] at hlist
    exact hlist
  rw [← hrs] at hd
  have hio : ∀ i a, s'.hal.ioapics i = some a ↔ ∃ r ∈ rs, s.hal.ioapicOf r = a ∧ a.apicId = i := by
    intro i a
    rw [hm.hal_eq rfl hctl, hrs]
    exact ioapics_run env hempty (hrs ▸ hd.ids) i a
  have hfrom : ∀ a, s'.hal.ioapicFromGsi gsi = some a ↔ ∃ r ∈ rs, s.hal.ioapicOf r = a ∧
      r.gsib.toNat ≤ gsi ∧ gsi < r.gsib.toNat + pinsOf s.hal r := hd.ioapicFromGsi_iff hio
  have hsel := findApicFromGsi_selects rs gsi
  refine ⟨hsel, fun a ha => ?_, ?_⟩
  · obtain ⟨r, hr, rfl, hg⟩ := (hfrom a).mp ha
    rcases hsel with ⟨-, hnone⟩ | ⟨k, b, hind, hk, hb, hmax⟩
    · have hgt := hnone r hr
      omega
    · refine ⟨k, b, hind, hk, ?_⟩
      exact (hd.gsib_eq hr (List.mem_of_getElem? hk) hg hb (hmax r hr hg.1)).symm
  · rw [Option.ne_none_iff_exists']
    constructor
    · rintro ⟨a, ha⟩
      obtain ⟨r, hr, -, hg⟩ := (hfrom a).mp ha
      exact ⟨r, hr, hg⟩
    · rintro ⟨r, hr, hg⟩
      exact ⟨_, (hfrom _).mpr ⟨r, hr, rfl, hg⟩⟩

/-- An I/O APIC of 24 pins from interrupt 24 on. -/
def secondIoApic : IoApicRecord := ⟨⟨1, 12⟩, 1, 0, 0xFEC10000, 24⟩

/-- Registers of I/O APICs with 24 pins, with id 1 at the second address and id 0 elsewhere. -/
def twoHal : Hal where
  regs addr r := if r = 1 then 0x00170020 else if addr = 0xFEC10000 then 0x01000000 else 0
  ioapics _ := none
  vectorAttrs _ := ⟨0, 0, 0, 0⟩

/-- Interrupt 30 belongs to the second of two I/O APICs of 24 pins each. -/
theorem lookups_agree_thirty : ∃ s',
    parseMadt sampleEnv 4 0x1000
      (stateOf [.ioApic firstIoApic, .iso (isoFor 9), .ioApic secondIoApic] twoHal) = some s' ∧
    s'.hal.ioapicFromGsi 30 ≠ none := by
  set records := [MadtRecord.ioApic firstIoApic, .iso (isoFor 9), .ioApic secondIoApic]
    with hrecords
  have hready : Ready framesOf 4 0x1000 (stateOf records twoHal) records := by
    refine stateOf_ready _ (fun r hr => ?_) (by decide +kernel) (by decide) (by decide)
    simp only [hrecords, List.mem_cons, List.not_mem_nil, or_false] at hr
    rcases hr with rfl | rfl | rfl
    · exact ⟨rfl, rfl⟩
    · exact ⟨rfl, rfl⟩
    · exact ⟨rfl, rfl⟩
  have hctl : sampleEnv.Controls records := by
    intro r hr
    simp only [hrecords, List.mem_cons, List.not_mem_nil, or_false, reduceCtorEq, false_or,
      MadtRecord.ioApic.injEq] at hr
    rcases hr with rfl | rfl
    · decide
    · decide
  have hd : DisjointApics twoHal (records.filterMap (Kind.of? .ioApic)) := by
    have hlist : records.filterMap (Kind.of? .ioApic) = [firstIoApic, secondIoApic] := rfl
    rw [hlist]
    refine ⟨by decide +kernel, by decide +kernel, by decide +kernel, List.pairwise_pair.mpr ?_⟩
    decide +kernel
  obtain ⟨s', hparse, hm⟩ := parseMadt_collects hready hctl.clear
  have hrs := hm.list .ioApic
  rw [← hm.frame .ioApic, Collected.list_foldl_add] at hrs
  refine ⟨s', hparse, (lookups_agree hready hctl (fun _ => rfl) hd hparse 30).2.2.mpr ?_⟩
  refine ⟨secondIoApic, ?_, by decide +kernel, by decide +kernel⟩
  exact hrs.symm ▸ List.mem_cons_of_mem _ List.mem_cons_self

end Madt

end Vardar
