import Vardar.Acpi.Records

/-!
# Looking up an override by its IRQ

`get_iso_from_irq` looks up the interrupt that an IRQ is routed to, which is the IRQ itself if it
has no override, and then the first override with this interrupt. An override of another IRQ may
have the same interrupt: an earlier one, or any one if the IRQ has none.

## Main results

* `Vardar.getIsoFromIrq_eq_iff`: when the lookup finds the override of the IRQ.
-/

namespace Vardar

variable {isos l₁ l₂ : List IntSourceOverrideRecord} {irq : BitVec 8} {o : IntSourceOverrideRecord}

/-- The override of an IRQ, if there is at most one for each. -/
theorem find?_irqSource_eq (hnodup : (isos.map fun r => r.irqSource).Nodup)
    (hsplit : isos = l₁ ++ o :: l₂) (hirq : o.irqSource = irq) :
    isos.find? (fun r => r.irqSource = irq) = some o := by
  rw [List.find?_eq_some_iff_append]
  refine ⟨by simpa using hirq, l₁, l₂, hsplit, fun r hr => ?_⟩
  rw [hsplit, List.map_append, List.map_cons] at hnodup
  have hne : r.irqSource ≠ o.irqSource :=
    (List.nodup_append.mp hnodup).2.2 _ (List.mem_map_of_mem hr) _ List.mem_cons_self
  simpa [← hirq] using hne

/-- The place of a record in a list without a second one for its IRQ. -/
theorem split_unique {l₁' l₂' : List IntSourceOverrideRecord}
    (hnodup : (isos.map fun r => r.irqSource).Nodup) (hsplit : isos = l₁ ++ o :: l₂)
    (hsplit' : isos = l₁' ++ o :: l₂') : l₁ = l₁' := by
  have hnot : o ∉ l₁ ∧ o ∉ l₂ := by
    rw [hsplit] at hnodup
    have hlist := (List.nodup_middle.mp hnodup.of_map)
    rw [List.nodup_cons, List.mem_append, not_or] at hlist
    exact hlist.1
  rw [hsplit] at hsplit'
  exact ((List.append_cons_inj_of_notMem hnot.1 hnot.2).mp hsplit').1

/-- **When the lookup by IRQ is right.** If each IRQ has at most one override, `get_iso_from_irq`
returns the override of the IRQ, or nothing if it has none, if and only if no record before the
override has the same interrupt, and no record at all has the IRQ's own number as its interrupt when
there is no override. -/
theorem getIsoFromIrq_eq_iff (hnodup : (isos.map fun r => r.irqSource).Nodup) (irq : BitVec 8) :
    getIsoFromIrq isos irq = isos.find? (fun r => r.irqSource = irq) ↔
      (∀ l₁ o l₂, isos = l₁ ++ o :: l₂ → o.irqSource = irq → ∀ r ∈ l₁, r.gsi ≠ o.gsi) ∧
      ((∀ o ∈ isos, o.irqSource ≠ irq) → ∀ r ∈ isos, r.gsi.toNat ≠ irq.toNat) := by
  by_cases hex : ∃ o ∈ isos, o.irqSource = irq
  · -- the IRQ has an override: the second search must stop at it
    obtain ⟨o, ho, hirq⟩ := hex
    obtain ⟨l₁, l₂, hsplit⟩ := List.append_of_mem ho
    have hfind := find?_irqSource_eq hnodup hsplit hirq
    have hgsi : gsiFromIrq isos irq = o.gsi.toNat := by rw [gsiFromIrq, hfind]; rfl
    have hnone : ¬ ∀ o ∈ isos, o.irqSource ≠ irq := fun hall => hall o ho hirq
    rw [hfind, getIsoFromIrq, hgsi, gsiGetIso, List.find?_eq_some_iff_append]
    simp only [hnone, IsEmpty.forall_iff, and_true, decide_true, true_and]
    constructor
    · rintro ⟨as, bs, heq, hno⟩ l₁' o' l₂' hsplit' hirq' r hr hgsi'
      have hoo : o = o' := by
        have hfind' := find?_irqSource_eq hnodup hsplit' hirq'
        exact Option.some.inj (hfind.symm.trans hfind')
      subst hoo
      obtain rfl := split_unique hnodup hsplit' heq
      have hne := hno r hr
      rw [hgsi'] at hne
      simp at hne
    · intro hall
      refine ⟨l₁, l₂, hsplit, fun r hr => ?_⟩
      have hne := hall l₁ o l₂ hsplit hirq r hr
      simpa [← BitVec.toNat_inj] using hne
  · -- the IRQ has no override: the second search must find nothing
    have hno : ∀ o ∈ isos, o.irqSource ≠ irq := fun o ho heq => hex ⟨o, ho, heq⟩
    have hfind : isos.find? (fun r => r.irqSource = irq) = none := by
      rw [List.find?_eq_none]
      intro o ho
      simpa using hno o ho
    have hgsi : gsiFromIrq isos irq = irq.toNat := by rw [gsiFromIrq, hfind]; rfl
    rw [hfind, getIsoFromIrq, hgsi, gsiGetIso, List.find?_eq_none]
    constructor
    · intro hall
      refine ⟨fun l₁ o l₂ hsplit hirq => ?_, fun _ r hr => by simpa using hall r hr⟩
      exact absurd hirq (hno o (hsplit ▸ List.mem_append_right l₁ List.mem_cons_self))
    · rintro ⟨-, hall⟩ r hr
      simpa using hall hno r hr

/-- IRQ 0 on interrupt 2, as on most machines, and IRQ 9 on its own. -/
def commonIsos : List IntSourceOverrideRecord :=
  [⟨⟨2, 10⟩, 0, 0, 2, 0⟩, ⟨⟨2, 10⟩, 0, 9, 9, 13⟩]

theorem getIsoFromIrq_eq_nine :
    getIsoFromIrq commonIsos 9 = commonIsos.find? (fun r => r.irqSource = 9) := by
  refine (getIsoFromIrq_eq_iff (by decide) 9).mpr ⟨fun l₁ o l₂ hsplit hirq r hr => ?_, ?_⟩
  · rcases l₁ with _ | ⟨a, _ | ⟨b, l₁⟩⟩
    · simp at hr
    · obtain ⟨rfl, rfl, -⟩ : _ = a ∧ _ = o ∧ [] = l₂ := by simpa [commonIsos] using hsplit
      obtain rfl := List.mem_singleton.mp hr
      decide
    · simp [commonIsos] at hsplit
  · decide

/-- The lookup for IRQ 2, which has no override, returns the override of IRQ 0. -/
theorem getIsoFromIrq_two :
    (commonIsos.map fun r => r.irqSource).Nodup ∧
      getIsoFromIrq commonIsos 2 = some ⟨⟨2, 10⟩, 0, 0, 2, 0⟩ ∧
      commonIsos.find? (fun r => r.irqSource = 2) = none := by
  decide

end Vardar
