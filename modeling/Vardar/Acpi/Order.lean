import Vardar.Acpi.Encoding
import Vardar.Hal.Register

/-!
# The order of the records of the MADT

`ParseMadt` registers an I/O APIC when it reads its record, so the entries it writes depend on which
overrides and NMI sources stand before the record. Two orders of the same records lead to the same
routing exactly when, for every interrupt whose entry is written last, the records that decide it
stand on the same side of the I/O APIC's record, or the override says what the default says.

## Main definitions

* `Vardar.Ioredtbl.routing`: the fields of an entry that route an interrupt.
* `Vardar.Madt.SameRouting`: two states route every interrupt in the same way.
* `Vardar.Madt.before`: the records before that of an I/O APIC.
* `Vardar.Madt.SameSources`, `Vardar.Madt.SameOrder`.

## Main results

* `Vardar.Madt.routing_eq_iff`: when two sets of sources give an interrupt the same entry.
* `Vardar.Madt.sameRouting_iff`.
-/

namespace Vardar

open ByteMemory BitField

/-! ### Routing fields -/

/-- The fields of an entry that route an interrupt. -/
structure Routing where
  vector : BitVec 8
  deliveryMode : BitVec 3
  polarity : BitVec 1
  triggerMode : BitVec 1
  mask : BitVec 1
  deriving DecidableEq

/-- The fields of an entry that route an interrupt. -/
def Ioredtbl.routing (e : Ioredtbl) : Routing :=
  ⟨e.vector, e.deliveryMode, e.polarity, e.triggerMode, e.mask⟩

theorem Ioredtbl.routing_make (junk : Ioredtbl) (v : BitVec 8) (d : BitVec 3) (q : PinPolarity)
    (t : TriggerMode) (m : BitVec 1) :
    (Ioredtbl.make junk v d q t m).routing = ⟨v, d, q.bit, t.bit, m⟩ := by
  have hskip : ∀ {lo w lo' w' : ℕ} (x : BitVec w) (e : Ioredtbl), lo + w ≤ 64 →
      (lo + w ≤ lo' ∨ lo' + w' ≤ lo) → get lo' w' (set lo x e) = get lo' w' e :=
    fun x e h hd => get_set_of_disjoint h hd x e
  have hvector : (Ioredtbl.make junk v d q t m).vector = v := by
    rw [vector, make, hskip _ _ (by decide) (by decide), hskip _ _ (by decide) (by decide),
      hskip _ _ (by decide) (by decide), hskip _ _ (by decide) (by decide),
      hskip _ _ (by decide) (by decide), get_set (by decide)]
  have hdelivery : (Ioredtbl.make junk v d q t m).deliveryMode = d := by
    rw [deliveryMode, make, hskip _ _ (by decide) (by decide), hskip _ _ (by decide) (by decide),
      hskip _ _ (by decide) (by decide), hskip _ _ (by decide) (by decide), get_set (by decide)]
  have hpolarity : (Ioredtbl.make junk v d q t m).polarity = q.bit := by
    rw [polarity, make, hskip _ _ (by decide) (by decide), hskip _ _ (by decide) (by decide),
      hskip _ _ (by decide) (by decide), get_set (by decide)]
  have htrigger : (Ioredtbl.make junk v d q t m).triggerMode = t.bit := by
    rw [triggerMode, make, hskip _ _ (by decide) (by decide), hskip _ _ (by decide) (by decide),
      get_set (by decide)]
  have hmask : (Ioredtbl.make junk v d q t m).mask = m := by
    rw [mask, make, hskip _ _ (by decide) (by decide), get_set (by decide)]
  rw [routing, hvector, hdelivery, hpolarity, htrigger, hmask]

theorem Hal.routing_finalEntry (c : Hal.Sources) (gsi : ℕ) :
    (Hal.finalEntry c gsi).routing = (Hal.initialEntry c gsi).routing := by
  have hskip : ∀ {lo w : ℕ}, lo + w ≤ 56 →
      get lo w (Hal.finalEntry c gsi) = get lo w (Hal.initialEntry c gsi) :=
    fun h => get_set_of_disjoint (by decide) (Or.inr h) _ _
  rw [Ioredtbl.routing, Ioredtbl.routing]
  congr 1
  · exact hskip (by decide)
  · exact hskip (by decide)
  · exact hskip (by decide)
  · exact hskip (by decide)
  · exact hskip (by decide)

namespace Madt

open Hal

/-! ### Sources that give the same entry -/

/-- An override that says what the default says. -/
def Inert (iso : IntSourceOverrideRecord) (gsi : ℕ) : Prop :=
  iso.irqSource = BitVec.ofNat 8 gsi ∧ iso.flags &&& 2 ≠ 0 ∧ iso.flags &&& 8 ≠ 0

/-- The overrides and NMI sources found for an interrupt by two registrations make the same entry:
both find an override, or neither does and both or neither find an NMI source, or one finds an
override that says what the default says and the other finds nothing. -/
def SameSources (gsi : ℕ) :
    Option IntSourceOverrideRecord → Option IntSourceOverrideRecord → Option NmiSourceRecord →
      Option NmiSourceRecord → Prop
  | some _, some _, _, _ => True
  | none, none, nmi, nmi' => nmi.isSome = nmi'.isSome
  | some iso, none, _, nmi' => Inert iso gsi ∧ nmi' = none
  | none, some iso, nmi, _ => Inert iso gsi ∧ nmi = none

/-- The fields for a PCI interrupt. -/
def foundRouting (gsi : ℕ) (iso : Option IntSourceOverrideRecord) (nmi : Option NmiSourceRecord) :
    Routing :=
  match iso, nmi with
  | some iso, _ => ⟨iso.irqSource + 0x20, icrFixed, (getPinPolarity iso.flags).bit,
      (getTriggerMode iso.flags).bit, 1⟩
  | none, some nmi => ⟨BitVec.ofNat 8 (gsi + 0x20), icrNmi, (getPinPolarity nmi.flags).bit,
      (getTriggerMode nmi.flags).bit, 0⟩
  | none, none => ⟨BitVec.ofNat 8 (gsi + 0x20), icrFixed, PinPolarity.activeHigh.bit,
      TriggerMode.levelSensitive.bit, 1⟩

theorem routing_initialEntry {c : Sources} {gsi : ℕ} (h : 16 ≤ gsi ∧ gsi < 2 ^ 31) :
    (initialEntry c gsi).routing =
      foundRouting gsi (gsiGetIso c.isos gsi) (gsiGetNmiSource c.nmiSources gsi) := by
  simp only [initialEntry, if_neg (show ¬ (gsi < 16 ∨ 2 ^ 31 ≤ gsi) by omega)]
  cases hiso : gsiGetIso c.isos gsi with
  | some iso => exact Ioredtbl.routing_make ..
  | none =>
    cases hnmi : gsiGetNmiSource c.nmiSources gsi with
    | some nmi => exact Ioredtbl.routing_make ..
    | none => exact Ioredtbl.routing_make ..

theorem routing_initialEntry_isa {c : Sources} {gsi : ℕ} (h : gsi < 16 ∨ 2 ^ 31 ≤ gsi) :
    (initialEntry c gsi).routing = ⟨BitVec.ofNat 8 (gsi + 0x20), icrFixed,
      PinPolarity.activeHigh.bit, TriggerMode.edgeSensitive.bit, 1⟩ := by
  simp only [initialEntry, if_pos h]
  exact Ioredtbl.routing_make ..

/-- An override makes the default entry exactly if it says what the default says. -/
theorem foundRouting_iso_eq_default_iff (gsi : ℕ) (iso : IntSourceOverrideRecord)
    (nmi : Option NmiSourceRecord) :
    foundRouting gsi (some iso) nmi = foundRouting gsi none none ↔ Inert iso gsi := by
  have hvec : iso.irqSource + 0x20 = BitVec.ofNat 8 (gsi + 0x20) ↔
      iso.irqSource = BitVec.ofNat 8 gsi := by
    rw [BitVec.ofNat_add, show BitVec.ofNat 8 0x20 = (0x20 : BitVec 8) from rfl,
      BitVec.add_left_inj]
  have hpol : (getPinPolarity iso.flags).bit = PinPolarity.activeHigh.bit ↔
      iso.flags &&& 2 ≠ 0 := by
    rw [getPinPolarity]
    split_ifs with h
    · exact iff_of_true rfl h
    · exact iff_of_false (by decide) h
  have htrig : (getTriggerMode iso.flags).bit = TriggerMode.levelSensitive.bit ↔
      iso.flags &&& 8 ≠ 0 := by
    rw [getTriggerMode]
    split_ifs with h
    · exact iff_of_true rfl h
    · exact iff_of_false (by decide) h
  simp only [foundRouting, Routing.mk.injEq, hvec, hpol, htrig, Inert, true_and, and_true]

theorem foundRouting_iso_ne_nmi (gsi : ℕ) (iso : IntSourceOverrideRecord)
    (nmi : Option NmiSourceRecord) (nmi' : NmiSourceRecord) :
    foundRouting gsi (some iso) nmi ≠ foundRouting gsi none (some nmi') := by
  simp [foundRouting]

theorem foundRouting_default_ne_nmi (gsi : ℕ) (nmi : NmiSourceRecord) :
    foundRouting gsi none none ≠ foundRouting gsi none (some nmi) := by
  simp [foundRouting]

/-- Two registrations make the same entry of an interrupt exactly if their sources are the same in
this sense. -/
theorem foundRouting_eq_iff (gsi : ℕ) {iso iso' : Option IntSourceOverrideRecord}
    {nmi nmi' : Option NmiSourceRecord} (hiso : ∀ i ∈ iso, ∀ i' ∈ iso', i = i')
    (hnmi : ∀ n ∈ nmi, ∀ n' ∈ nmi', n = n') :
    foundRouting gsi iso nmi = foundRouting gsi iso' nmi' ↔ SameSources gsi iso iso' nmi nmi' := by
  cases iso with
  | some i =>
    cases iso' with
    | some i' =>
      rw [hiso i rfl i' rfl]
      exact iff_of_true rfl trivial
    | none =>
      cases nmi' with
      | some n' =>
        exact iff_of_false (foundRouting_iso_ne_nmi gsi i nmi n') fun h => nomatch h.2
      | none => exact (foundRouting_iso_eq_default_iff gsi i nmi).trans (and_iff_left rfl).symm
  | none =>
    cases iso' with
    | some i' =>
      rw [eq_comm]
      cases nmi with
      | some n =>
        exact iff_of_false (foundRouting_iso_ne_nmi gsi i' nmi' n) fun h => nomatch h.2
      | none => exact (foundRouting_iso_eq_default_iff gsi i' nmi').trans (and_iff_left rfl).symm
    | none =>
      cases nmi with
      | some n =>
        cases nmi' with
        | some n' =>
          rw [hnmi n rfl n' rfl]
          exact iff_of_true rfl rfl
        | none =>
          exact iff_of_false (foundRouting_default_ne_nmi gsi n).symm (by simp [SameSources])
      | none =>
        cases nmi' with
        | some n' => exact iff_of_false (foundRouting_default_ne_nmi gsi n') (by simp [SameSources])
        | none => exact iff_of_true rfl rfl

/-! ### Registering in a list of records -/

theorem regs_initializeGsi {c : Sources} {a : IoApic} {gsi addr : ℕ} {h : Hal}
    (hne : addr ≠ a.ioregsel) : (initializeGsi c a gsi h).regs addr = h.regs addr := by
  by_cases hz : gsi = 0
  · rw [initializeGsi, if_pos hz]
  · simp only [initializeGsi, if_neg hz, writeEntry, ioapicWrite]
    rw [Function.update_of_ne hne, Function.update_of_ne hne]

theorem regs_initializeList {c : Sources} {a : IoApic} {addr : ℕ} (hne : addr ≠ a.ioregsel)
    (l : List ℕ) (h : Hal) : (initializeList c a l h).regs addr = h.regs addr := by
  induction l generalizing h with
  | nil => rfl
  | cons gsi l ih => exact (ih (initializeGsi c a gsi h)).trans (regs_initializeGsi hne)

/-- Registering a controller leaves the registers of the others. -/
theorem regs_registerIoapic {c : Sources} {r : IoApicRecord} {addr : ℕ} {h : Hal}
    (hne : addr ≠ r.ioApicAddr.toNat) : (h.registerIoapic c r).regs addr = h.regs addr := by
  rw [registerIoapic_eq, regs_initializeList hne]

/-- Records without an I/O APIC at an address leave its registers. -/
theorem regs_foldl_add {env : Env} {addr : ℕ} (l : List MadtRecord)
    (hne : ∀ r, MadtRecord.ioApic r ∈ l → addr ≠ r.ioApicAddr.toNat) (c : Collected) :
    (l.foldl (Collected.add env) c).hal.regs addr = c.hal.regs addr := by
  induction l generalizing c with
  | nil => rfl
  | cons x l ih =>
    refine (ih (fun r hr => hne r (List.mem_cons_of_mem x hr)) _).trans ?_
    cases x with
    | ioApic r => exact regs_registerIoapic (hne r List.mem_cons_self)
    | lapic r => rfl
    | iso r => rfl
    | nmiSource r => rfl
    | nmi r => rfl
    | lapicAddr r => rfl
    | other header body => rfl

theorem ioapicOf_congr {h h' : Hal} {r : IoApicRecord}
    (hregs : h.regs r.ioApicAddr.toNat = h'.regs r.ioApicAddr.toNat) :
    h.ioapicOf r = h'.ioapicOf r := by
  rw [ioapicOf, ioapicOf, hregs]

theorem entryAt_congr_addr {h h' : Hal} {a : IoApic} (hregs : h.regs a.ioregsel = h'.regs a.ioregsel)
    (p : ℕ) : h.entryAt a p = h'.entryAt a p := by
  rw [entryAt, entryAt, hregs]

/-- The interrupt decides the entry of a pin: no later interrupt of the loop has its register. -/
structure Decides (a : IoApic) (gsi p : ℕ) : Prop where
  mem : gsi ∈ loopGsis a
  ne_zero : gsi ≠ 0
  last : gsi + 128 ∉ loopGsis a
  pin : p % 128 = pin a gsi % 128

section Register

variable {h : Hal} {c : Sources} {r : IoApicRecord} {gsi p : ℕ}

theorem numPins_lt (h : Hal) (r : IoApicRecord) : (h.ioapicOf r).numPins < 256 :=
  Nat.mod_lt _ (by decide)

theorem pin_eq_sub {a : IoApic} (hg : gsi ∈ loopGsis a) : pin a gsi = gsi - a.minGsi := by
  rw [mem_loopGsis] at hg
  rw [Hal.pin]
  omega

theorem entryAt_registerIoapic_of_decides (hd : Decides (h.ioapicOf r) gsi p) :
    (h.registerIoapic c r).entryAt (h.ioapicOf r) p = finalEntry c gsi := by
  obtain ⟨l₁, l₂, hsplit⟩ := List.append_of_mem hd.mem
  rw [registerIoapic_eq, hsplit]
  refine entryAt_initializeList_append l₁ l₂ hd.ne_zero rfl hd.pin fun g hg _ hmod => ?_
  have hmem : g ∈ loopGsis (h.ioapicOf r) := by
    rw [hsplit]
    exact List.mem_append_right l₁ (List.mem_cons_of_mem gsi hg)
  -- the later interrupts are larger, and smaller than the next one with the same register
  have hlt : gsi < g := by
    have hsorted : (loopGsis (h.ioapicOf r)).Pairwise (· < ·) := List.pairwise_lt_range'
    rw [hsplit, List.pairwise_append, List.pairwise_cons] at hsorted
    exact hsorted.2.1.1 g hg
  have hlast := hd.last
  have hpin := hd.pin
  rw [pin_eq_sub hd.mem] at hpin
  rw [pin_eq_sub hmem] at hmod
  have hin := hd.mem
  rw [mem_loopGsis] at hin hmem hlast
  omega

theorem entryAt_registerIoapic_of_not_decided (hno : ∀ gsi, ¬ Decides (h.ioapicOf r) gsi p) :
    (h.registerIoapic c r).entryAt (h.ioapicOf r) p = h.entryAt (h.ioapicOf r) p := by
  rw [registerIoapic_eq]
  refine (entryAt_initializeList_of_forall fun g hg hz _ hmod => ?_).trans rfl
  by_cases hlast : g + 128 ∈ loopGsis (h.ioapicOf r)
  · refine hno (g + 128) ⟨hlast, by omega, fun hc => ?_, ?_⟩
    · have hlt := numPins_lt h r
      rw [mem_loopGsis] at hg hc
      omega
    · rw [pin_eq_sub hg] at hmod
      rw [pin_eq_sub hlast]
      rw [mem_loopGsis] at hg
      omega
  · exact hno g ⟨hg, hz, hlast, hmod⟩

end Register

/-! ### Two orders -/

/-- The records before that of an I/O APIC. -/
def before (r : IoApicRecord) (records : List MadtRecord) : List MadtRecord :=
  records.takeWhile fun x => x ≠ .ioApic r

/-- The override found for an interrupt when an I/O APIC is registered. -/
def isoBefore (r : IoApicRecord) (records : List MadtRecord) (gsi : ℕ) :
    Option IntSourceOverrideRecord :=
  gsiGetIso ((before r records).filterMap (Kind.of? .iso)) gsi

/-- The NMI source found for an interrupt when an I/O APIC is registered. -/
def nmiBefore (r : IoApicRecord) (records : List MadtRecord) (gsi : ℕ) : Option NmiSourceRecord :=
  gsiGetNmiSource ((before r records).filterMap (Kind.of? .nmiSource)) gsi

/-- I/O APICs have different hardware ids, and interrupts have at most one override and at most one
NMI source. -/
structure Distinct (h : Hal) (records : List MadtRecord) : Prop where
  ids : ((records.filterMap (Kind.of? .ioApic)).map fun r => (h.ioapicOf r).apicId).Nodup
  isos : ((records.filterMap (Kind.of? .iso)).map fun r => r.gsi).Nodup
  nmiSources : ((records.filterMap (Kind.of? .nmiSource)).map fun r => r.gsi).Nodup

/-- Two states have the same routing fields in the entries of all pins of the I/O APICs. -/
def SameRouting (h : Hal) (records : List MadtRecord) (h₁ h₂ : Hal) : Prop :=
  ∀ r, MadtRecord.ioApic r ∈ records → ∀ p < (h.ioapicOf r).numPins,
    (h₁.entryAt (h.ioapicOf r) p).routing = (h₂.entryAt (h.ioapicOf r) p).routing

/-- Two orders give the same sources to each PCI interrupt whose entry is not overwritten by that of
a later pin with the same register. -/
def SameOrder (h : Hal) (records records' : List MadtRecord) : Prop :=
  ∀ r, MadtRecord.ioApic r ∈ records → ∀ gsi ∈ loopGsis (h.ioapicOf r), 16 ≤ gsi → gsi < 2 ^ 31 →
    gsi + 128 ∉ loopGsis (h.ioapicOf r) →
      SameSources gsi (isoBefore r records gsi) (isoBefore r records' gsi)
        (nmiBefore r records gsi) (nmiBefore r records' gsi)

section Run

variable {h : Hal} {records : List MadtRecord} {r : IoApicRecord}

theorem before_append (hr : MadtRecord.ioApic r ∈ records) :
    ∃ after, records = before r records ++ MadtRecord.ioApic r :: after := by
  induction records with
  | nil => exact absurd hr List.not_mem_nil
  | cons x l ih =>
    by_cases hx : x = .ioApic r
    · refine ⟨l, ?_⟩
      rw [before, List.takeWhile_cons_of_neg (by simp [hx]), List.nil_append, hx]
    · obtain ⟨after, hafter⟩ := ih ((List.mem_cons.mp hr).resolve_left fun hc => hx hc.symm)
      refine ⟨after, ?_⟩
      rw [before, List.takeWhile_cons_of_pos (by simp [hx]), List.cons_append]
      exact congrArg (x :: ·) hafter

/-- No other I/O APIC is at the address of one, since it would have the same id. -/
theorem addr_ne {l₁ l₂ : List MadtRecord} {r' : IoApicRecord}
    (hids : (((l₁ ++ MadtRecord.ioApic r :: l₂).filterMap (Kind.of? .ioApic)).map
      fun r => (h.ioapicOf r).apicId).Nodup)
    (hr' : MadtRecord.ioApic r' ∈ l₁ ∨ MadtRecord.ioApic r' ∈ l₂) :
    r.ioApicAddr.toNat ≠ r'.ioApicAddr.toNat := by
  intro haddr
  have hid : (h.ioapicOf r').apicId = (h.ioapicOf r).apicId := by
    rw [ioapicOf, ioapicOf, haddr]
    rfl
  have hcons : (MadtRecord.ioApic r :: l₂).filterMap (Kind.of? .ioApic) =
      r :: l₂.filterMap (Kind.of? .ioApic) := rfl
  rw [List.filterMap_append, hcons, List.map_append, List.map_cons, List.nodup_append,
    List.nodup_cons] at hids
  rcases hr' with hr' | hr'
  · have hmem := List.mem_map_of_mem (f := fun r => (h.ioapicOf r).apicId)
      (mem_filterMap_ioApic.mpr hr')
    exact hids.2.2 _ hmem _ List.mem_cons_self hid
  · have hmem := List.mem_map_of_mem (f := fun r => (h.ioapicOf r).apicId)
      (mem_filterMap_ioApic.mpr hr')
    exact hids.2.1.1 (hid ▸ hmem)

/-- After a run, an entry is what registering its I/O APIC with the records before leaves. -/
theorem entryAt_run (env : Env) (hids : ((records.filterMap (Kind.of? .ioApic)).map
    fun r => (h.ioapicOf r).apicId).Nodup) (hr : MadtRecord.ioApic r ∈ records) (p : ℕ) :
    ∃ (h₁ : Hal) (c : Sources), h₁.ioapicOf r = h.ioapicOf r ∧
      h₁.entryAt (h.ioapicOf r) p = h.entryAt (h.ioapicOf r) p ∧
      c.isos = (before r records).filterMap (Kind.of? .iso) ∧
      c.nmiSources = (before r records).filterMap (Kind.of? .nmiSource) ∧
      (records.foldl (Collected.add env) (Collected.empty h)).hal.entryAt (h.ioapicOf r) p =
        (h₁.registerIoapic c r).entryAt (h.ioapicOf r) p := by
  obtain ⟨after, hsplit⟩ := before_append hr
  set c₁ := (before r records).foldl (Collected.add env) (Collected.empty h) with hc₁
  rw [hsplit] at hids
  have hbefore : c₁.hal.regs r.ioApicAddr.toNat = h.regs r.ioApicAddr.toNat :=
    regs_foldl_add _ (fun r' hr' => addr_ne hids (Or.inl hr')) _
  have hafter : (records.foldl (Collected.add env) (Collected.empty h)).hal.regs
      r.ioApicAddr.toNat = (c₁.hal.registerIoapic (c₁.sources env) r).regs r.ioApicAddr.toNat := by
    rw [hsplit, List.foldl_append, List.foldl_cons, ← hc₁]
    exact regs_foldl_add _ (fun r' hr' => addr_ne hids (Or.inr hr')) _
  refine ⟨c₁.hal, c₁.sources env, ioapicOf_congr hbefore, entryAt_congr_addr hbefore p, ?_, ?_,
    entryAt_congr_addr hafter p⟩
  · exact Collected.list_foldl_add env _ _ .iso
  · exact Collected.list_foldl_add env _ _ .nmiSource

theorem mem_of_isoBefore {gsi : ℕ} {iso : IntSourceOverrideRecord}
    (hiso : iso ∈ isoBefore r records gsi) :
    iso ∈ records.filterMap (Kind.of? .iso) ∧ iso.gsi.toNat = gsi := by
  refine ⟨?_, of_decide_eq_true (List.find?_some
    (p := fun r : IntSourceOverrideRecord => decide (r.gsi.toNat = gsi)) hiso)⟩
  exact ((List.takeWhile_sublist _).filterMap _).subset (List.mem_of_find?_eq_some hiso)

theorem mem_of_nmiBefore {gsi : ℕ} {nmi : NmiSourceRecord}
    (hnmi : nmi ∈ nmiBefore r records gsi) :
    nmi ∈ records.filterMap (Kind.of? .nmiSource) ∧ nmi.gsi.toNat = gsi := by
  refine ⟨?_, of_decide_eq_true (List.find?_some
    (p := fun r : NmiSourceRecord => decide (r.gsi.toNat = gsi)) hnmi)⟩
  exact ((List.takeWhile_sublist _).filterMap _).subset (List.mem_of_find?_eq_some hnmi)

end Run

section Orders

variable {h : Hal} {records records' : List MadtRecord} (hperm : records.Perm records')
  (hd : Distinct h records)

include hperm hd

theorem nodup_ids_perm :
    ((records'.filterMap (Kind.of? .ioApic)).map fun r => (h.ioapicOf r).apicId).Nodup :=
  ((hperm.filterMap _).map _).nodup_iff.mp hd.ids

/-- The overrides of an interrupt found in two orders are the same. -/
theorem isoBefore_eq (r : IoApicRecord) (gsi : ℕ) :
    ∀ i ∈ isoBefore r records gsi, ∀ i' ∈ isoBefore r records' gsi, i = i' := by
  intro i hi i' hi'
  obtain ⟨hmem, hg⟩ := mem_of_isoBefore hi
  obtain ⟨hmem', hg'⟩ := mem_of_isoBefore hi'
  exact List.inj_on_of_nodup_map hd.isos hmem ((hperm.filterMap _).mem_iff.mpr hmem')
    (BitVec.eq_of_toNat_eq (hg.trans hg'.symm))

/-- The NMI sources of an interrupt found in two orders are the same. -/
theorem nmiBefore_eq (r : IoApicRecord) (gsi : ℕ) :
    ∀ n ∈ nmiBefore r records gsi, ∀ n' ∈ nmiBefore r records' gsi, n = n' := by
  intro n hn n' hn'
  obtain ⟨hmem, hg⟩ := mem_of_nmiBefore hn
  obtain ⟨hmem', hg'⟩ := mem_of_nmiBefore hn'
  exact List.inj_on_of_nodup_map hd.nmiSources hmem ((hperm.filterMap _).mem_iff.mpr hmem')
    (BitVec.eq_of_toNat_eq (hg.trans hg'.symm))

/-- An entry that an interrupt decides is made of the sources found in each order. -/
theorem routing_eq_iff_of_decides (env env' : Env) {r : IoApicRecord} {gsi p : ℕ}
    (hr : MadtRecord.ioApic r ∈ records) (hdec : Decides (h.ioapicOf r) gsi p) :
    ((((records.foldl (Collected.add env) (Collected.empty h)).hal.entryAt
        (h.ioapicOf r) p).routing =
      ((records'.foldl (Collected.add env') (Collected.empty h)).hal.entryAt
        (h.ioapicOf r) p).routing) ↔
    (16 ≤ gsi ∧ gsi < 2 ^ 31 → SameSources gsi (isoBefore r records gsi)
      (isoBefore r records' gsi) (nmiBefore r records gsi) (nmiBefore r records' gsi))) := by
  obtain ⟨h₁, c, hof, -, hci, hcn, hrun⟩ := entryAt_run env hd.ids hr p
  obtain ⟨h₁', c', hof', -, hci', hcn', hrun'⟩ := entryAt_run env' (nodup_ids_perm hperm hd)
    (hperm.mem_iff.mp hr) p
  rw [hrun, hrun', ← hof, entryAt_registerIoapic_of_decides (hof.symm ▸ hdec), hof, ← hof',
    entryAt_registerIoapic_of_decides (hof'.symm ▸ hdec), routing_finalEntry,
    routing_finalEntry]
  by_cases hpci : 16 ≤ gsi ∧ gsi < 2 ^ 31
  · rw [routing_initialEntry hpci, routing_initialEntry hpci, hci, hcn, hci', hcn',
      imp_iff_right hpci]
    exact foundRouting_eq_iff gsi (isoBefore_eq hperm hd r gsi) (nmiBefore_eq hperm hd r gsi)
  · rw [routing_initialEntry_isa (by omega), routing_initialEntry_isa (by omega)]
    exact iff_of_true rfl fun hc => absurd hc hpci

end Orders

/-- Two orders of the same records route the interrupts in the same way exactly if each PCI interrupt
has the same sources in both. -/
theorem sameRouting_foldl_iff {h : Hal} {env env' : Env} {records records' : List MadtRecord}
    (hperm : records.Perm records') (hd : Distinct h records) :
    SameRouting h records (records.foldl (Collected.add env) (Collected.empty h)).hal
        (records'.foldl (Collected.add env') (Collected.empty h)).hal ↔
      SameOrder h records records' := by
  constructor
  · intro hsame r hr gsi hg h16 h31 hlast
    have hmem := mem_loopGsis.mp hg
    have hdec : Decides (h.ioapicOf r) gsi (gsi - (h.ioapicOf r).minGsi) :=
      ⟨hg, by omega, hlast, by rw [pin_eq_sub hg]⟩
    exact (routing_eq_iff_of_decides hperm hd env env' hr hdec).mp (hsame r hr _ (by omega))
      ⟨h16, h31⟩
  · intro horder r hr p _
    by_cases hex : ∃ gsi, Decides (h.ioapicOf r) gsi p
    · obtain ⟨gsi, hdec⟩ := hex
      refine (routing_eq_iff_of_decides hperm hd env env' hr hdec).mpr fun hpci => ?_
      exact horder r hr gsi hdec.mem hpci.1 hpci.2 hdec.last
    · have hno : ∀ gsi, ¬ Decides (h.ioapicOf r) gsi p := fun gsi hdec => hex ⟨gsi, hdec⟩
      obtain ⟨h₁, c, hof, hold, -, -, hrun⟩ := entryAt_run env hd.ids hr p
      obtain ⟨h₁', c', hof', hold', -, -, hrun'⟩ := entryAt_run env' (nodup_ids_perm hperm hd)
        (hperm.mem_iff.mp hr) p
      have hkeep : (h₁.registerIoapic c r).entryAt (h.ioapicOf r) p =
          h₁.entryAt (h.ioapicOf r) p := by
        rw [← hof] at hno ⊢
        exact entryAt_registerIoapic_of_not_decided hno
      have hkeep' : (h₁'.registerIoapic c' r).entryAt (h.ioapicOf r) p =
          h₁'.entryAt (h.ioapicOf r) p := by
        rw [← hof'] at hno ⊢
        exact entryAt_registerIoapic_of_not_decided hno
      rw [hrun, hrun', hkeep, hkeep', hold, hold']

/-- The same for two parses of tables of the records, whose I/O APICs have their registers at the
addresses given. -/
theorem sameRouting_iff {f f' : Kind → ℕ} {fuel fuel' madt madt' : ℕ} {s s' s₁ s₂ : State}
    {records records' : List MadtRecord} {env env' : Env} (hr : Ready f fuel madt s records)
    (hr' : Ready f' fuel' madt' s' records') (hperm : records.Perm records')
    (hio : env.Controls records) (hio' : env'.Controls records') (hhal : s'.hal = s.hal)
    (hd : Distinct s.hal records) (hparse : parseMadt env fuel madt s = some s₁)
    (hparse' : parseMadt env' fuel' madt' s' = some s₂) :
    SameRouting s.hal records s₁.hal s₂.hal ↔ SameOrder s.hal records records' := by
  obtain ⟨t, ht, hm⟩ := parseMadt_collects hr hio.clear
  obtain ⟨t', ht', hm'⟩ := parseMadt_collects hr' hio'.clear
  rw [hparse, Option.some.injEq] at ht
  rw [hparse', Option.some.injEq] at ht'
  rw [ht, ht', hm.hal_eq rfl hio, hm'.hal_eq rfl hio', hhal]
  exact sameRouting_foldl_iff hperm hd

/-- An I/O APIC of 24 pins from interrupt 0 on. -/
def firstIoApic : IoApicRecord := ⟨⟨1, 12⟩, 0, 0, 0xFEC00000, 0⟩

/-- An override that moves IRQ 5 to an interrupt. -/
def isoFor (gsi : BitVec 32) : IntSourceOverrideRecord := ⟨⟨2, 10⟩, 0, 5, gsi, 0⟩

/-- Registers of an I/O APIC with id 0 and 24 pins. -/
def resetHal : Hal where
  regs _ r := if r = 1 then 0x00170020 else 0
  ioapics _ := none
  vectorAttrs _ := ⟨0, 0, 0, 0⟩

/-- Tables of the two records. -/
theorem ready_two {gsi : BitVec 32} {records : List MadtRecord}
    (hperm : records.Perm [.ioApic firstIoApic, .iso (isoFor gsi)]) :
    Ready framesOf 3 0x1000 (stateOf records resetHal) records := by
  have hlen : records.length = 2 := hperm.length_eq
  have hbytes : (records.flatMap MadtRecord.encode).length = 22 :=
    (hperm.flatMap_right _).length_eq
  refine stateOf_ready _ (fun r hr => ?_) ?_ (by omega) (by omega)
  · have hr' := hperm.mem_iff.mp hr
    simp only [List.mem_cons, List.not_mem_nil, or_false] at hr'
    rcases hr' with rfl | rfl
    · exact ⟨rfl, rfl⟩
    · exact ⟨rfl, rfl⟩
  · rw [hbytes]
    decide

theorem controls_two {gsi : BitVec 32} {records : List MadtRecord}
    (hperm : records.Perm [.ioApic firstIoApic, .iso (isoFor gsi)]) :
    sampleEnv.Controls records := by
  intro r hr
  have hr' := hperm.mem_iff.mp hr
  simp only [List.mem_cons, List.not_mem_nil, or_false, reduceCtorEq, MadtRecord.ioApic.injEq]
    at hr'
  subst hr'
  decide

theorem distinct_two (h : Hal) (gsi : BitVec 32) :
    Distinct h [.ioApic firstIoApic, .iso (isoFor gsi)] :=
  ⟨List.nodup_singleton _, List.nodup_singleton _, List.nodup_nil⟩

/-- The order does not matter for an override of an ISA interrupt. -/
theorem sameRouting_isa : ∃ s₁ s₂,
    parseMadt sampleEnv 3 0x1000
      (stateOf [.ioApic firstIoApic, .iso (isoFor 9)] resetHal) = some s₁ ∧
    parseMadt sampleEnv 3 0x1000
      (stateOf [.iso (isoFor 9), .ioApic firstIoApic] resetHal) = some s₂ ∧
    SameRouting resetHal [.ioApic firstIoApic, .iso (isoFor 9)] s₁.hal s₂.hal := by
  have hswap : [MadtRecord.iso (isoFor 9), .ioApic firstIoApic].Perm
      [.ioApic firstIoApic, .iso (isoFor 9)] := List.Perm.swap ..
  have hrefl := List.Perm.refl [MadtRecord.ioApic firstIoApic, .iso (isoFor 9)]
  have hready := ready_two hrefl
  have hready' := ready_two hswap
  have hio := controls_two hrefl
  have hio' := controls_two hswap
  obtain ⟨s₁, hparse, -⟩ := parseMadt_collects hready hio.clear
  obtain ⟨s₂, hparse', -⟩ := parseMadt_collects hready' hio'.clear
  refine ⟨s₁, s₂, hparse, hparse', ?_⟩
  refine (sameRouting_iff hready hready' hswap.symm hio hio' rfl (distinct_two _ 9) hparse
    hparse').mpr ?_
  intro r hr gsi hg h16 h31 _
  obtain rfl : r = firstIoApic := by simpa using hr
  have hfirst : before firstIoApic [.ioApic firstIoApic, .iso (isoFor 9)] = [] := by
    decide +kernel
  have hsecond : before firstIoApic [.iso (isoFor 9), .ioApic firstIoApic] =
      [.iso (isoFor 9)] := by decide +kernel
  have hiso : gsiGetIso [isoFor 9] gsi = none := by
    refine List.find?_eq_none.mpr fun i hi => ?_
    rw [List.mem_singleton.mp hi, decide_eq_true_iff]
    exact fun hc => absurd (show 9 = gsi from hc) (by omega)
  rw [isoBefore, isoBefore, nmiBefore, nmiBefore, hfirst, hsecond]
  change SameSources gsi none (gsiGetIso [isoFor 9] gsi) none none
  rw [hiso]
  rfl

/-- The order matters for an override of interrupt 20: it has vector `0x25` if the override is first,
and `0x34` if the I/O APIC is. -/
theorem routing_depends_on_order :
    Ready framesOf 3 0x1000 (stateOf [.ioApic firstIoApic, .iso (isoFor 20)] resetHal)
      [.ioApic firstIoApic, .iso (isoFor 20)] ∧
    Ready framesOf 3 0x1000 (stateOf [.iso (isoFor 20), .ioApic firstIoApic] resetHal)
      [.iso (isoFor 20), .ioApic firstIoApic] ∧
    sampleEnv.Controls [.ioApic firstIoApic, .iso (isoFor 20)] ∧
    sampleEnv.Controls [.iso (isoFor 20), .ioApic firstIoApic] ∧
    Distinct resetHal [.ioApic firstIoApic, .iso (isoFor 20)] ∧
    ∃ s₁ s₂,
      parseMadt sampleEnv 3 0x1000
        (stateOf [.ioApic firstIoApic, .iso (isoFor 20)] resetHal) = some s₁ ∧
      parseMadt sampleEnv 3 0x1000
        (stateOf [.iso (isoFor 20), .ioApic firstIoApic] resetHal) = some s₂ ∧
      ¬ SameRouting resetHal [.ioApic firstIoApic, .iso (isoFor 20)] s₁.hal s₂.hal := by
  have hswap : [MadtRecord.iso (isoFor 20), .ioApic firstIoApic].Perm
      [.ioApic firstIoApic, .iso (isoFor 20)] := List.Perm.swap ..
  have hrefl := List.Perm.refl [MadtRecord.ioApic firstIoApic, .iso (isoFor 20)]
  have hready := ready_two hrefl
  have hready' := ready_two hswap
  have hio := controls_two hrefl
  have hio' := controls_two hswap
  obtain ⟨s₁, hparse, hm⟩ := parseMadt_collects hready hio.clear
  obtain ⟨s₂, hparse', hm'⟩ := parseMadt_collects hready' hio'.clear
  refine ⟨hready, hready', hio, hio', distinct_two _ 20, s₁, s₂, hparse, hparse', fun hsame => ?_⟩
  have hrouting := congrArg Routing.vector
    (hsame firstIoApic List.mem_cons_self 20 (by decide +kernel))
  rw [hm.hal_eq rfl hio, hm'.hal_eq rfl hio'] at hrouting
  revert hrouting
  decide +kernel

end Madt

end Vardar
