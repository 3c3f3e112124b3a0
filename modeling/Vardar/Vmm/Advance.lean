import Vardar.Vmm.Vmm

/-!
# Frames are used up in order

Whatever the page tables look like, the operations of the virtual memory manager take results of
`AllocFirstFrame` one after the other and change none of them.

## Main definitions

* `Vardar.Vmm.Advances`: a step that uses up results.

## Main results

* `Vardar.Vmm.mapPage_advances`, `Vardar.Vmm.mapMultiple_advances`,
  `Vardar.Vmm.mapKernelPmrs_advances`.
-/

namespace Vardar.Vmm

open ByteMemory Word

/-- The step uses up results of `AllocFirstFrame` and changes none. -/
def Advances (s s' : Machine) : Prop := s'.frames = s.frames ∧ s.next ≤ s'.next

variable {s s' s'' : Machine}

theorem Advances.refl (s : Machine) : Advances s s := ⟨rfl, le_rfl⟩

theorem Advances.trans (h : Advances s s') (h' : Advances s' s'') : Advances s s'' :=
  ⟨h'.1.trans h.1, h.2.trans h'.2⟩

theorem allocFirstFrame_advances (s : Machine) : Advances s s.allocFirstFrame.2 := by
  rw [Machine.allocFirstFrame]
  cases s.frames s.next with
  | none => exact ⟨rfl, Nat.le_succ _⟩
  | some f => exact ⟨rfl, Nat.le_succ _⟩

theorem getOrCreatePageTable_advances (s : Machine) (parent : ℕ) (index : Fin 512) (flags : ℕ) :
    Advances s (getOrCreatePageTable s parent index flags).2 := by
  rw [getOrCreatePageTable]
  split_ifs
  · exact Advances.refl s
  · have halloc := allocFirstFrame_advances s
    cases s.allocFirstFrame.1 with
    | none => exact halloc
    | some f => exact halloc

theorem createTables_advances (vaddr flags : ℕ) (levels : List ℕ) (t : ℕ) (s : Machine) :
    Advances s (createTables vaddr flags levels t s).2 := by
  induction levels generalizing t s with
  | nil => exact Advances.refl s
  | cons i levels ih =>
    have hget := getOrCreatePageTable_advances s t (vAddrIndex vaddr i) flags
    rw [createTables]
    rcases hr : getOrCreatePageTable s t (vAddrIndex vaddr i) flags with ⟨o, s₁⟩
    rw [hr] at hget
    cases o with
    | none => exact hget
    | some child => exact hget.trans (ih child s₁)

theorem mapPage_advances (s : Machine) (root vaddr paddr flags : ℕ) :
    Advances s (mapPage s root vaddr paddr flags).2 := by
  have hcreate := createTables_advances vaddr flags [4, 3, 2] root s
  rw [mapPage, createPage]
  rcases hr : createTables vaddr flags [4, 3, 2] root s with ⟨o, s₁⟩
  rw [hr] at hcreate
  cases o with
  | none => exact hcreate
  | some t => exact hcreate

theorem mapMultiple_advances {root bound offset flags fuel addr : ℕ} {b : Bool}
    (hcall : mapMultiple root bound offset flags fuel addr s = some (b, s')) : Advances s s' := by
  induction fuel generalizing addr s with
  | zero => simp [mapMultiple] at hcall
  | succ fuel ih =>
    rw [mapMultiple] at hcall
    split_ifs at hcall
    · have hmap := mapPage_advances s root (add64 addr offset) addr flags
      rcases hr : mapPage s root (add64 addr offset) addr flags with ⟨b₁, s₁⟩
      rw [hr] at hcall hmap
      cases b₁ with
      | false =>
        obtain ⟨-, rfl⟩ := Prod.mk.inj (Option.some.inj hcall)
        exact hmap
      | true => exact hmap.trans (ih hcall)
    · obtain ⟨-, rfl⟩ := Prod.mk.inj (Option.some.inj hcall)
      exact Advances.refl s

theorem mapIf_advances {c : Prop} [Decidable c] {fuel root base bound offset flags : ℕ}
    (hcall : mapIf c fuel root base bound offset flags s = some s') : Advances s s' := by
  rw [mapIf] at hcall
  split_ifs at hcall
  · obtain ⟨⟨b, s₁⟩, hmap, rfl⟩ := Option.map_eq_some_iff.mp hcall
    exact mapMultiple_advances hmap
  · obtain rfl := Option.some.inj hcall
    exact Advances.refl s

theorem mapPmrs_advances {fuel root : ℕ} {info : BootInfo} {pmrs : List Pmr} {success b : Bool}
    (hcall : mapPmrs fuel info root pmrs success s = some (b, s')) : Advances s s' := by
  induction pmrs generalizing success s with
  | nil =>
    obtain ⟨-, rfl⟩ := Prod.mk.inj (Option.some.inj hcall)
    exact Advances.refl s
  | cons pmr pmrs ih =>
    obtain ⟨⟨b₁, s₁⟩, hmap, hrest⟩ := Option.bind_eq_some_iff.mp hcall
    exact (mapMultiple_advances hmap).trans (ih hrest)

theorem mapEntries_advances {fuel root : ℕ} {es : List MmapEntry} {success b : Bool}
    (hcall : mapEntries fuel root es success s = some (b, s')) : Advances s s' := by
  induction es generalizing success s with
  | nil =>
    obtain ⟨-, rfl⟩ := Prod.mk.inj (Option.some.inj hcall)
    exact Advances.refl s
  | cons e es ih =>
    obtain ⟨s₁, hmap₁, hcall⟩ := Option.bind_eq_some_iff.mp hcall
    obtain ⟨s₂, hmap₂, hcall⟩ := Option.bind_eq_some_iff.mp hcall
    have h₁₂ := (mapIf_advances hmap₁).trans (mapIf_advances hmap₂)
    split_ifs at hcall
    · exact h₁₂.trans (ih hcall)
    · obtain ⟨⟨b₃, s₃⟩, hmap₃, hcall⟩ := Option.bind_eq_some_iff.mp hcall
      obtain ⟨⟨b₄, s₄⟩, hmap₄, hcall⟩ := Option.bind_eq_some_iff.mp hcall
      have h₃₄ := (mapMultiple_advances hmap₃).trans (mapMultiple_advances hmap₄)
      exact (h₁₂.trans h₃₄).trans (ih hcall)

theorem mapKernelPmrs_advances {fuel root : ℕ} {info : BootInfo} {b : Bool}
    (hcall : mapKernelPmrs fuel info root s = some (b, s')) : Advances s s' := by
  obtain ⟨s₁, hmap₁, hcall⟩ := Option.bind_eq_some_iff.mp hcall
  obtain ⟨⟨b₂, s₂⟩, hmap₂, hcall⟩ := Option.bind_eq_some_iff.mp hcall
  exact ((mapIf_advances hmap₁).trans (mapPmrs_advances hmap₂)).trans (mapEntries_advances hcall)

theorem initPageTable_advances {fuel root : ℕ} {info : BootInfo} {b : Bool}
    (hcall : initPageTable fuel info s = some (b, root, s')) : Advances s s' := by
  have halloc := allocFirstFrame_advances s
  rw [initPageTable] at hcall
  rcases hr : s.allocFirstFrame with ⟨o, s₀⟩
  rw [hr] at hcall halloc
  cases o with
  | none =>
    simp only [Option.some.injEq, Prod.mk.injEq] at hcall
    obtain ⟨-, -, rfl⟩ := hcall
    exact halloc
  | some f =>
    obtain ⟨⟨b₁, s₁⟩, hmap₁, hcall⟩ := Option.bind_eq_some_iff.mp hcall
    obtain ⟨⟨b₂, s₂⟩, hmap₂, hcall⟩ := Option.bind_eq_some_iff.mp hcall
    obtain ⟨⟨b₃, s₃⟩, hmap₃, hcall⟩ := Option.bind_eq_some_iff.mp hcall
    simp only [Option.some.injEq, Prod.mk.injEq] at hcall
    obtain ⟨-, -, rfl⟩ := hcall
    exact ((halloc.trans (mapKernelPmrs_advances hmap₁)).trans (mapMultiple_advances hmap₂)).trans
      (mapMultiple_advances hmap₃)

end Vardar.Vmm
