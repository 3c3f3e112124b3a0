import Vardar.Vmm.Ranges

/-!
# The boot address space

`InitPageTable` takes a frame as the kernel's root and maps, in this order, the first 4 GiB to the
higher half, the protected memory ranges, ranges of the memory map, and the first 4 GiB once more,
to themselves and to the higher half. The ranges have three offsets, and the protected memory
ranges lie above everything else in the higher half, so later mappings do not undo earlier ones.

## Main definitions

* `Vardar.Vmm.kernelRanges`: the ranges `MapKernelPmrs` tries.
* `Vardar.Vmm.BootInfo.physAt`: the physical address of an address in the kernel image.
* `Vardar.Vmm.BootInfo.Ok`: what is assumed of the boot information.

## Main results

* `Vardar.Vmm.mapKernelPmrs_spec`: the ranges `MapKernelPmrs` tries and completes.
* `Vardar.Vmm.boot_translations`: the translations of the kernel's root after `InitPageTable`.
* `Vardar.Vmm.pmr_unmapped_on_wrap`: a range whose physical end wraps around is not mapped.
-/

namespace Vardar.Vmm

open ByteMemory Word LastWrite

/-! ### The ranges of `MapKernelPmrs` -/

/-- The first 4 GiB, mapped at the given offset. -/
def lowRange (offset : ℕ) : Range := ⟨0x1000, fourGb, offset, kernelPage⟩

/-- The range of a protected memory range. -/
def pmrRange (info : BootInfo) (pmr : Pmr) : Range :=
  ⟨info.phys pmr, add64 (info.phys pmr) pmr.length, sub64 pmr.base (info.phys pmr), kernelPage⟩

/-- A memory-map entry, mapped at the given offset. -/
def entryRange (e : MmapEntry) (offset : ℕ) : Range :=
  ⟨e.base, add64 e.base e.length, offset, kernelPage⟩

/-- The ranges of a memory-map entry. -/
def entryRanges (e : MmapEntry) : Set Range :=
  {q | ((e.type = framebuffer ∨ e.type = bootloaderReclaimable) ∧ q = entryRange e 0) ∨
    (e.type = framebuffer ∧ q = entryRange e kernelData) ∨
    (¬ add64 e.base e.length ≤ 0x100000000 ∧
      (q = entryRange e 0 ∨ q = entryRange e kernelData))}

/-- The ranges `MapKernelPmrs` tries. -/
def kernelRanges (info : BootInfo) : Set Range :=
  {q | q = lowRange kernelData ∨ (∃ pmr ∈ info.pmrs, q = pmrRange info pmr) ∨
    ∃ e ∈ info.memmap, q ∈ entryRanges e}

theorem kernelPage_executable : kernelPage &&& executable = kernelPage := by decide

theorem kernelPage_lt : kernelPage < 512 := by decide

theorem kernelPage_odd : kernelPage % 2 = 1 := rfl

variable {R : Set ℕ} {r : ℕ} {s s' : Machine} {info : BootInfo}

/-- A conditional `MapMultiple` whose result is ignored. -/
theorem mapIf_spec (h : Ok R s) (hr : r ∈ R) {q : Range} (h64 : q.base < 2 ^ 64)
    (hflags : q.flags = kernelPage) {c : Prop} [Decidable c] {fuel : ℕ}
    (hcall : mapIf c fuel r q.base q.bound q.offset q.flags s = some s') :
    ∃ full, Serves R r s s' {q' | c ∧ q' = q} full ∧ (NoFail s s' → {q' | c ∧ q' = q} ⊆ full) := by
  rw [mapIf] at hcall
  split_ifs at hcall with hc
  · obtain ⟨⟨b, s₁⟩, hmap, rfl⟩ := Option.map_eq_some_iff.mp hcall
    obtain ⟨hserves, hno⟩ := h.mapMultiple hr h64 (hflags ▸ kernelPage_lt)
      (hflags ▸ kernelPage_odd) hmap
    refine ⟨_, hserves.mono (fun q' hq' => ⟨hc, hq'⟩) subset_rfl, fun hnf q' hq' => ?_⟩
    exact ⟨hq'.2, hno hnf⟩
  · obtain rfl := Option.some.inj hcall
    exact ⟨∅, (Serves.refl h).mono (Set.empty_subset _) subset_rfl,
      fun _ q' hq' => absurd hq'.1 hc⟩

/-- The ranges of the elements of a list. -/
theorem setOf_mem_cons {α : Type*} (P : α → Range → Prop) (a : α) (l : List α) :
    {q | ∃ x ∈ a :: l, P x q} = {q | P a q} ∪ {q | ∃ x ∈ l, P x q} := by
  ext q
  simp only [Set.mem_ofPred_eq, Set.mem_union, List.mem_cons, exists_eq_or_imp]

/-- The loop over the protected memory ranges. -/
theorem mapPmrs_spec (h : Ok R s) (hr : r ∈ R) {fuel : ℕ} {pmrs : List Pmr} {success b : Bool}
    (hcall : mapPmrs fuel info r pmrs success s = some (b, s')) :
    ∃ full, Serves R r s s' {q | ∃ pmr ∈ pmrs, q = pmrRange info pmr} full ∧
      (b = true → success = true ∧ {q | ∃ pmr ∈ pmrs, q = pmrRange info pmr} ⊆ full) ∧
      (NoFail s s' → b = success ∧ {q | ∃ pmr ∈ pmrs, q = pmrRange info pmr} ⊆ full) := by
  induction pmrs generalizing success s with
  | nil =>
    obtain ⟨rfl, rfl⟩ := Prod.mk.inj (Option.some.inj hcall)
    exact ⟨∅, (Serves.refl h).mono (Set.empty_subset _) subset_rfl, by simp, by simp⟩
  | cons pmr pmrs ih =>
    obtain ⟨⟨b₁, s₁⟩, hmap, hrest⟩ := Option.bind_eq_some_iff.mp hcall
    have hlt : (pmrRange info pmr).base < 2 ^ 64 := add64_lt _ _
    obtain ⟨hserves, hno⟩ := h.mapMultiple hr hlt kernelPage_lt kernelPage_odd hmap
    obtain ⟨full, hserves', htrue, hno'⟩ := ih hserves.keeps.ok hrest
    rw [setOf_mem_cons fun pmr q => q = pmrRange info pmr]
    refine ⟨_, hserves.trans hserves', fun hb => ?_, fun hnf => ⟨?_, ?_⟩⟩
    · obtain ⟨hb', hsub⟩ := htrue hb
      rw [Bool.and_eq_true] at hb'
      exact ⟨hb'.1, Set.union_subset_union (Set.singleton_subset_iff.mpr ⟨rfl, hb'.2⟩) hsub⟩
    · obtain ⟨hb, -⟩ := hno' (hnf.right hserves.keeps.frames hserves.keeps.next)
      rw [hb, hno (hnf.left hserves'.keeps.next), Bool.and_true]
    · exact hserves.union_subset_of_noFail
        (fun hnf => Set.singleton_subset_iff.mpr ⟨rfl, hno hnf⟩) hserves'
        (fun hnf => (hno' hnf).2) hnf

theorem entryRanges_of_le {e : MmapEntry} (hlow : add64 e.base e.length ≤ 0x100000000) :
    entryRanges e =
      {q | (e.type = framebuffer ∨ e.type = bootloaderReclaimable) ∧ q = entryRange e 0} ∪
        {q | e.type = framebuffer ∧ q = entryRange e kernelData} := by
  ext q
  simp only [entryRanges, Set.mem_ofPred_eq, Set.mem_union, hlow, not_true, false_and, or_false]

theorem entryRanges_of_lt {e : MmapEntry} (hhigh : ¬ add64 e.base e.length ≤ 0x100000000) :
    entryRanges e =
      {q | (e.type = framebuffer ∨ e.type = bootloaderReclaimable) ∧ q = entryRange e 0} ∪
        {q | e.type = framebuffer ∧ q = entryRange e kernelData} ∪
        ({entryRange e 0} ∪ {entryRange e kernelData}) := by
  ext q
  simp only [entryRanges, Set.mem_ofPred_eq, Set.mem_union, Set.mem_singleton_iff, hhigh,
    not_false_iff, true_and, or_assoc]

/-- The loop over the memory map. -/
theorem mapEntries_spec (h : Ok R s) (hr : r ∈ R) {fuel : ℕ} {es : List MmapEntry}
    (hes : ∀ e ∈ es, e.base < 2 ^ 64) {success b : Bool}
    (hcall : mapEntries fuel r es success s = some (b, s')) :
    ∃ full, Serves R r s s' {q | ∃ e ∈ es, q ∈ entryRanges e} full ∧
      (b = true → success = true) ∧
      (NoFail s s' → b = success ∧ {q | ∃ e ∈ es, q ∈ entryRanges e} ⊆ full) := by
  induction es generalizing success s with
  | nil =>
    obtain ⟨rfl, rfl⟩ := Prod.mk.inj (Option.some.inj hcall)
    exact ⟨∅, (Serves.refl h).mono (Set.empty_subset _) subset_rfl, by simp, by simp⟩
  | cons e es ih =>
    have h64 := hes e List.mem_cons_self
    have hes' : ∀ e ∈ es, e.base < 2 ^ 64 := fun e he => hes e (List.mem_cons_of_mem _ he)
    obtain ⟨s₁, hmap₁, hcall⟩ := Option.bind_eq_some_iff.mp hcall
    obtain ⟨s₂, hmap₂, hcall⟩ := Option.bind_eq_some_iff.mp hcall
    rw [kernelPage_executable] at hmap₁ hmap₂
    obtain ⟨f₁, hs₁, hn₁⟩ := mapIf_spec (q := entryRange e 0) h hr h64 rfl hmap₁
    obtain ⟨f₂, hs₂, hn₂⟩ := mapIf_spec (q := entryRange e kernelData) hs₁.keeps.ok hr h64 rfl hmap₂
    have hs₁₂ := hs₁.trans hs₂
    have hn₁₂ := hs₁.union_subset_of_noFail hn₁ hs₂ hn₂
    rw [setOf_mem_cons fun e q => q ∈ entryRanges e, Set.ofPred_mem_eq]
    by_cases hlow : add64 e.base e.length ≤ 0x100000000
    · rw [if_pos hlow] at hcall
      obtain ⟨full, hs₃, htrue, hn₃⟩ := ih hs₂.keeps.ok hes' hcall
      rw [entryRanges_of_le hlow]
      refine ⟨_, hs₁₂.trans hs₃, htrue, fun hnf => ⟨?_, ?_⟩⟩
      · exact (hn₃ (hnf.right hs₁₂.keeps.frames hs₁₂.keeps.next)).1
      · exact hs₁₂.union_subset_of_noFail hn₁₂ hs₃ (fun hnf => (hn₃ hnf).2) hnf
    · rw [if_neg hlow] at hcall
      obtain ⟨⟨b₃, s₃⟩, hmap₃, hcall⟩ := Option.bind_eq_some_iff.mp hcall
      obtain ⟨⟨b₄, s₄⟩, hmap₄, hcall⟩ := Option.bind_eq_some_iff.mp hcall
      obtain ⟨hs₃, hb₃⟩ := hs₂.keeps.ok.mapMultiple (q := entryRange e 0) hr h64 kernelPage_lt
        kernelPage_odd hmap₃
      obtain ⟨hs₄, hb₄⟩ := hs₃.keeps.ok.mapMultiple (q := entryRange e kernelData) hr h64
        kernelPage_lt kernelPage_odd hmap₄
      obtain ⟨full, hs₅, htrue, hn₅⟩ := ih hs₄.keeps.ok hes' hcall
      have hs₃₄ := hs₃.trans hs₄
      have hn₃₄ := hs₃.union_subset_of_noFail
        (fun hnf => Set.singleton_subset_iff.mpr ⟨rfl, hb₃ hnf⟩) hs₄
        (fun hnf => Set.singleton_subset_iff.mpr ⟨rfl, hb₄ hnf⟩)
      have hs₁₄ := hs₁₂.trans hs₃₄
      have hn₁₄ := hs₁₂.union_subset_of_noFail hn₁₂ hs₃₄ hn₃₄
      rw [entryRanges_of_lt hlow]
      refine ⟨_, hs₁₄.trans hs₅, fun hb => ?_, fun hnf => ⟨?_, ?_⟩⟩
      · have hall := htrue hb
        simp only [Bool.and_eq_true] at hall
        exact hall.1.1
      · have hnf₃₄ := (hnf.left hs₅.keeps.next).right hs₁₂.keeps.frames hs₁₂.keeps.next
        obtain ⟨hb, -⟩ := hn₅ (hnf.right hs₁₄.keeps.frames hs₁₄.keeps.next)
        rw [hb, hb₃ (hnf₃₄.left hs₄.keeps.next),
          hb₄ (hnf₃₄.right hs₃.keeps.frames hs₃.keeps.next), Bool.and_true, Bool.and_true]
      · exact hs₁₄.union_subset_of_noFail hn₁₄ hs₅ (fun hnf => (hn₅ hnf).2) hnf

theorem kernelRanges_eq (info : BootInfo) :
    kernelRanges info = {q | True ∧ q = lowRange kernelData} ∪
        {q | ∃ pmr ∈ info.pmrs, q = pmrRange info pmr} ∪
      {q | ∃ e ∈ info.memmap, q ∈ entryRanges e} := by
  ext q
  simp only [kernelRanges, Set.mem_ofPred_eq, Set.mem_union, true_and, or_assoc]

/-- `MapKernelPmrs` completes the protected memory ranges if it returns true, and all its ranges if
no allocation fails. -/
theorem mapKernelPmrs_spec (h : Ok R s) (hr : r ∈ R) (hes : ∀ e ∈ info.memmap, e.base < 2 ^ 64)
    {fuel : ℕ} {b : Bool} (hcall : mapKernelPmrs fuel info r s = some (b, s')) :
    ∃ full, Serves R r s s' (kernelRanges info) full ∧
      (b = true → {q | ∃ pmr ∈ info.pmrs, q = pmrRange info pmr} ⊆ full) ∧
      (NoFail s s' → b = true ∧ kernelRanges info ⊆ full) := by
  obtain ⟨s₁, hmap₁, hcall⟩ := Option.bind_eq_some_iff.mp hcall
  obtain ⟨⟨b₂, s₂⟩, hmap₂, hcall⟩ := Option.bind_eq_some_iff.mp hcall
  obtain ⟨f₁, hs₁, hn₁⟩ := mapIf_spec (q := lowRange kernelData) h hr (by decide) rfl hmap₁
  obtain ⟨f₂, hs₂, ht₂, hn₂⟩ := mapPmrs_spec hs₁.keeps.ok hr hmap₂
  obtain ⟨f₃, hs₃, ht₃, hn₃⟩ := mapEntries_spec hs₂.keeps.ok hr hes hcall
  have hs₁₂ := hs₁.trans hs₂
  have hn₁₂ := hs₁.union_subset_of_noFail hn₁ hs₂ fun hnf => (hn₂ hnf).2
  rw [kernelRanges_eq]
  refine ⟨_, hs₁₂.trans hs₃, fun hb q hq => ?_, fun hnf => ⟨?_, ?_⟩⟩
  · exact .inl (.inr ((ht₂ (ht₃ hb)).2 hq))
  · obtain ⟨hb₃, -⟩ := hn₃ (hnf.right hs₁₂.keeps.frames hs₁₂.keeps.next)
    obtain ⟨hb₂, -⟩ := hn₂ ((hnf.left hs₃.keeps.next).right hs₁.keeps.frames hs₁.keeps.next)
    rw [hb₃, hb₂]
  · exact hs₁₂.union_subset_of_noFail hn₁₂ hs₃ (fun hnf => (hn₃ hnf).2) hnf

/-! ### What the ranges write -/

/-- The physical address of an address in the kernel image. -/
def BootInfo.physAt (info : BootInfo) (v : ℕ) : ℕ :=
  add64 info.physicalBaseAddress (sub64 v info.virtualBaseAddress)

/-- The memory map ends below `0x7fff80000000`, the kernel's bases and the protected memory ranges
are aligned, and the latter lie in the last 2 GiB and do not wrap around. -/
structure BootInfo.Ok (info : BootInfo) : Prop where
  memmap : ∀ e ∈ info.memmap, e.base + e.length ≤ 0x7fff80000000
  physical : info.physicalBaseAddress % 4096 = 0 ∧ info.physicalBaseAddress < 2 ^ 64
  virtual : info.virtualBaseAddress % 4096 = 0 ∧ info.virtualBaseAddress < 2 ^ 64
  pmr : ∀ pmr ∈ info.pmrs, pmr.base % 4096 = 0 ∧ 0xffffffff80000000 ≤ pmr.base ∧
    pmr.base + pmr.length ≤ 2 ^ 64 ∧ info.phys pmr + pmr.length < 2 ^ 64

theorem BootInfo.Ok.base_lt (hb : info.Ok) : ∀ e ∈ info.memmap, e.base < 2 ^ 64 := by
  intro e he
  have hm := hb.memmap e he
  omega

namespace Range

variable {q : Range} {k : ℕ}

/-- A range at offset 0 below the higher half writes pages of the lower half. -/
theorem write_identity (ho : q.offset = 0) (h64 : q.base < 2 ^ 64)
    (hb : q.bound ≤ 0x7fff80000000) (hk : q.Visits k) :
    q.base + 4096 * k < q.bound ∧
      q.write k = ((q.base + 4096 * k) / 4096, (q.base + 4096 * k) ||| q.flags) := by
  have hlt : q.base + 4096 * k < q.bound := lt_of_visits h64 (by simp only [frameSize]; omega) hk
  refine ⟨hlt, ?_⟩
  rw [write, addr_of_lt (by simp only [frameSize]; omega), ho, add64_of_lt (by
    simp only [frameSize]; omega), pageNumber]
  simp only [frameSize, Nat.add_zero, Prod.mk.injEq, and_true]
  omega

/-- A range at offset `KERNEL_DATA` writes pages of the higher half. -/
theorem write_kernelData (ho : q.offset = kernelData) (h64 : q.base < 2 ^ 64)
    (hb : q.bound ≤ 0x7fff80000000) (hk : q.Visits k) :
    q.base + 4096 * k < q.bound ∧
      q.write k = (2 ^ 35 + (q.base + 4096 * k) / 4096, (q.base + 4096 * k) ||| q.flags) := by
  have hlt : q.base + 4096 * k < q.bound := lt_of_visits h64 (by simp only [frameSize]; omega) hk
  refine ⟨hlt, ?_⟩
  rw [write, addr_of_lt (by simp only [frameSize]; omega), ho, add64_of_lt (by
    simp only [frameSize, kernelData]; omega), pageNumber]
  simp only [frameSize, kernelData, Prod.mk.injEq, and_true]
  omega

end Range

theorem physAt_add {info : BootInfo} {v d : ℕ} (h : info.physAt v + d < 2 ^ 64)
    (hv : v + d < 2 ^ 64) : info.physAt (v + d) = info.physAt v + d := by
  simp only [BootInfo.physAt, add64, sub64] at h ⊢
  omega

theorem physAt_aligned (hb : info.Ok) {v : ℕ} (hv : v % 4096 = 0) : info.physAt v % 4096 = 0 := by
  have hp := hb.physical
  have hq := hb.virtual
  simp only [BootInfo.physAt, add64, sub64]
  omega

/-- A completed protected memory range leaves room below `2 ^ 64`. -/
theorem pmrRange_bound (hb : info.Ok) {pmr : Pmr} (hpmr : pmr ∈ info.pmrs)
    (hend : ∃ n, (pmrRange info pmr).bound ≤ (pmrRange info pmr).addr n) :
    (pmrRange info pmr).bound = info.phys pmr + pmr.length ∧
      info.phys pmr + pmr.length + 4096 ≤ 2 ^ 64 := by
  obtain ⟨hal, -, -, hlt⟩ := hb.pmr pmr hpmr
  have hbound : (pmrRange info pmr).bound = info.phys pmr + pmr.length := add64_of_lt hlt
  refine ⟨hbound, ?_⟩
  obtain ⟨n, hn⟩ := hend
  have hphys : info.phys pmr % 4096 = 0 := physAt_aligned hb hal
  rw [hbound, Range.addr, show (pmrRange info pmr).base = info.phys pmr from rfl, frameSize] at hn
  omega

/-- A protected memory range writes its own pages. -/
theorem pmrRange_write (hb : info.Ok) {pmr : Pmr} (hpmr : pmr ∈ info.pmrs)
    (hend : ∃ n, (pmrRange info pmr).bound ≤ (pmrRange info pmr).addr n) {k : ℕ}
    (hk : (pmrRange info pmr).Visits k) :
    4096 * k < pmr.length ∧ (pmrRange info pmr).write k =
      (pageNumber (pmr.base + 4096 * k), info.physAt (pmr.base + 4096 * k) ||| kernelPage) := by
  obtain ⟨hbound, hroom⟩ := pmrRange_bound hb hpmr hend
  obtain ⟨hal, hlow, hhigh, hlt⟩ := hb.pmr pmr hpmr
  have hbase : (pmrRange info pmr).base = info.phys pmr := rfl
  have hphys : info.phys pmr = info.physAt pmr.base := rfl
  have hvis := Range.lt_of_visits (add64_lt _ _) (by rw [hbound, frameSize]; exact hroom) hk
  rw [hbound, hbase, frameSize] at hvis
  have hin : 4096 * k < pmr.length := by omega
  refine ⟨hin, ?_⟩
  have haddr : (pmrRange info pmr).addr k = info.physAt (pmr.base + 4096 * k) := by
    rw [Range.addr_of_lt (by rw [hbase, frameSize]; omega), hbase, hphys, frameSize,
      physAt_add (by omega) (by omega)]
  have hvirt : add64 ((pmrRange info pmr).addr k) (pmrRange info pmr).offset =
      pmr.base + 4096 * k := by
    rw [haddr, physAt_add (by omega) (by omega), show (pmrRange info pmr).offset =
      sub64 pmr.base (info.physAt pmr.base) from rfl]
    simp only [add64, sub64]
    omega
  rw [Range.write, hvirt, haddr]
  rfl

/-! ### `InitPageTable` -/

/-- The three stages of a successful `InitPageTable`. -/
theorem initPageTable_spec (h : Ok ∅ s) (hes : ∀ e ∈ info.memmap, e.base < 2 ^ 64) {fuel root : ℕ}
    (hcall : initPageTable fuel info s = some (true, root, s')) :
    s.frames s.next = some root ∧ Ok {root} (s.take (some root)) ∧
      (∀ v, leaf (s.take (some root)).mem root v = 0) ∧ ∃ s₁ s₂ full,
      Serves {root} root (s.take (some root)) s₁ (kernelRanges info) full ∧
      {q | ∃ pmr ∈ info.pmrs, q = pmrRange info pmr} ⊆ full ∧
      Serves {root} root s₁ s₂ {lowRange 0} {lowRange 0} ∧
      Serves {root} root s₂ s' {lowRange kernelData} {lowRange kernelData} := by
  rw [initPageTable, Machine.allocFirstFrame] at hcall
  cases hf : s.frames s.next with
  | none =>
    rw [hf] at hcall
    simp at hcall
  | some f =>
    rw [hf] at hcall
    obtain ⟨⟨b₁, s₁⟩, hmap₁, hcall⟩ := Option.bind_eq_some_iff.mp hcall
    obtain ⟨⟨b₂, s₂⟩, hmap₂, hcall⟩ := Option.bind_eq_some_iff.mp hcall
    obtain ⟨⟨b₃, s₃⟩, hmap₃, hcall⟩ := Option.bind_eq_some_iff.mp hcall
    simp only [Option.some.injEq, Prod.mk.injEq, Bool.and_eq_true] at hcall
    obtain ⟨⟨⟨rfl, rfl⟩, rfl⟩, rfl, rfl⟩ := hcall
    obtain ⟨hok, hzero, -⟩ := h.newRoot hf
    rw [insert_empty_eq] at hok
    obtain ⟨full, hs₁, hpmrs, -⟩ := mapKernelPmrs_spec hok rfl hes hmap₁
    obtain ⟨hs₂, -⟩ := hs₁.keeps.ok.mapMultiple (q := lowRange 0) rfl (by decide) kernelPage_lt
      kernelPage_odd hmap₂
    obtain ⟨hs₃, -⟩ := hs₂.keeps.ok.mapMultiple (q := lowRange kernelData) rfl (by decide)
      kernelPage_lt kernelPage_odd hmap₃
    refine ⟨rfl, hok, fun v => hzero _ _, s₁, s₂, full, hs₁, hpmrs rfl, hs₂.mono subset_rfl ?_,
      hs₃.mono subset_rfl ?_⟩
    · rintro q rfl
      exact ⟨rfl, rfl⟩
    · rintro q rfl
      exact ⟨rfl, rfl⟩

/-- The rounds of the first 4 GiB. -/
theorem lowRange_visits (offset : ℕ) {a : ℕ} (hal : a % 4096 = 0) (hlo : 0x1000 ≤ a)
    (hhi : a < 0x100000000) : (lowRange offset).Visits (a / 4096 - 1) := by
  refine Range.visits_of_lt ?_ ?_
  · simp only [lowRange, fourGb]
    omega
  · simp only [lowRange, frameSize, fourGb]
    omega

theorem lowRange_write_identity {k : ℕ} (hk : (lowRange 0).Visits k) :
    4096 + 4096 * k < 0x100000000 ∧
      (lowRange 0).write k = (k + 1, (4096 + 4096 * k) ||| kernelPage) := by
  obtain ⟨hlt, hw⟩ := Range.write_identity rfl (by decide) (by decide) hk
  refine ⟨hlt, hw.trans ?_⟩
  simp only [lowRange, Prod.mk.injEq, and_true]
  omega

theorem lowRange_write_kernelData {k : ℕ} (hk : (lowRange kernelData).Visits k) :
    4096 + 4096 * k < 0x100000000 ∧
      (lowRange kernelData).write k = (2 ^ 35 + (k + 1), (4096 + 4096 * k) ||| kernelPage) := by
  obtain ⟨hlt, hw⟩ := Range.write_kernelData rfl (by decide) (by decide) hk
  refine ⟨hlt, hw.trans ?_⟩
  simp only [lowRange, Prod.mk.injEq, and_true]
  omega

/-- The higher half below the last 2 GiB, and the lower half, as the ranges write them. -/
theorem kernelRanges_write (hb : info.Ok) {q : Range} (hq : q ∈ kernelRanges info)
    (hends : ∀ pmr ∈ info.pmrs, ∃ n, (pmrRange info pmr).bound ≤ (pmrRange info pmr).addr n) {k : ℕ}
    (hk : q.Visits k) :
    (∃ a < 0x7fff80000000, q.write k = (a / 4096, a ||| kernelPage)) ∨
    (∃ a < 0x7fff80000000, q.write k = (2 ^ 35 + a / 4096, a ||| kernelPage)) ∨
    ∃ v, v % 4096 = 0 ∧ 0xffffffff80000000 ≤ v ∧ v < 2 ^ 64 ∧
      q.write k = (pageNumber v, info.physAt v ||| kernelPage) := by
  have hentry (e : MmapEntry) (he : e ∈ info.memmap) :
      e.base < 2 ^ 64 ∧ add64 e.base e.length ≤ 0x7fff80000000 := by
    have hm := hb.memmap e he
    exact ⟨by omega, by rw [add64_of_lt (by omega)]; exact hm⟩
  have hlow (e : MmapEntry) (he : e ∈ info.memmap) (hk : (entryRange e 0).Visits k) :
      ∃ a < 0x7fff80000000, (entryRange e 0).write k = (a / 4096, a ||| kernelPage) := by
    obtain ⟨hlt, hw⟩ := Range.write_identity rfl (hentry e he).1 (hentry e he).2 hk
    exact ⟨_, hlt.trans_le (hentry e he).2, hw⟩
  have hhigh (e : MmapEntry) (he : e ∈ info.memmap) (hk : (entryRange e kernelData).Visits k) :
      ∃ a < 0x7fff80000000,
        (entryRange e kernelData).write k = (2 ^ 35 + a / 4096, a ||| kernelPage) := by
    obtain ⟨hlt, hw⟩ := Range.write_kernelData rfl (hentry e he).1 (hentry e he).2 hk
    exact ⟨_, hlt.trans_le (hentry e he).2, hw⟩
  rcases hq with rfl | ⟨pmr, hpmr, rfl⟩ | ⟨e, he, ⟨-, rfl⟩ | ⟨-, rfl⟩ | ⟨-, rfl | rfl⟩⟩
  · obtain ⟨hlt, hw⟩ := Range.write_kernelData rfl (by decide) (by decide) hk
    exact .inr (.inl ⟨_, hlt.trans_le (by decide), hw⟩)
  · obtain ⟨hin, hw⟩ := pmrRange_write hb hpmr (hends pmr hpmr) hk
    obtain ⟨hal, hlo, hhi, -⟩ := hb.pmr pmr hpmr
    exact .inr (.inr ⟨_, by omega, by omega, by omega, hw⟩)
  · exact .inl (hlow e he hk)
  · exact .inr (.inl (hhigh e he hk))
  · exact .inl (hlow e he hk)
  · exact .inr (.inl (hhigh e he hk))

/-! ### The words after the last two calls of `InitPageTable` -/

section Low

variable {s₁ s₂ : Machine} {root a v : ℕ}

theorem pageNumber_low (hhi : a < 0x100000000) : pageNumber a = a / 4096 := by
  simp only [pageNumber, frameSize]
  omega

theorem pageNumber_kernelData_add (hhi : a < 0x100000000) :
    pageNumber (kernelData + a) = 2 ^ 35 + a / 4096 := by
  simp only [pageNumber, frameSize, kernelData]
  omega

/-- The identity mapping writes the pages below 4 GiB only. -/
theorem Serves.leaf_of_identity (h : Serves {root} root s₁ s₂ {lowRange 0} {lowRange 0})
    (hv : 2 ^ 20 ≤ pageNumber v) : leaf s₂.mem root v = leaf s₁.mem root v := by
  refine h.leaf_unchanged rfl ?_
  rintro q rfl j hj
  obtain ⟨hlt, hw⟩ := lowRange_write_identity hj
  rw [hw]
  dsimp only
  omega

/-- The mapping at `KERNEL_DATA` writes the first 4 GiB of the higher half only. -/
theorem Serves.leaf_of_kernelData
    (h : Serves {root} root s₁ s₂ {lowRange kernelData} {lowRange kernelData})
    (hv : pageNumber v < 2 ^ 35 ∨ 2 ^ 35 + 2 ^ 20 ≤ pageNumber v) :
    leaf s₂.mem root v = leaf s₁.mem root v := by
  refine h.leaf_unchanged rfl ?_
  rintro q rfl j hj
  obtain ⟨hlt, hw⟩ := lowRange_write_kernelData hj
  rw [hw]
  dsimp only
  omega

variable (hal : a % 4096 = 0) (hlo : 0x1000 ≤ a) (hhi : a < 0x100000000)

include hal hlo hhi

theorem Serves.leaf_identity (h : Serves {root} root s₁ s₂ {lowRange 0} {lowRange 0}) :
    leaf s₂.mem root a = a ||| kernelPage := by
  have hk := lowRange_visits 0 hal hlo hhi
  have hpage := pageNumber_low hhi
  refine h.leaf_eq rfl rfl hk ?_ ?_
  · rw [(lowRange_write_identity hk).2, hpage]
    dsimp only
    omega
  · rintro q rfl j hj hkey
    rw [(lowRange_write_identity hj).2, hpage] at hkey
    rw [(lowRange_write_identity hj).2]
    dsimp only at hkey ⊢
    congr 1
    omega

theorem Serves.leaf_kernelData
    (h : Serves {root} root s₁ s₂ {lowRange kernelData} {lowRange kernelData}) :
    leaf s₂.mem root (kernelData + a) = a ||| kernelPage := by
  have hk := lowRange_visits kernelData hal hlo hhi
  have hpage := pageNumber_kernelData_add hhi
  refine h.leaf_eq rfl rfl hk ?_ ?_
  · rw [(lowRange_write_kernelData hk).2, hpage]
    dsimp only
    omega
  · rintro q rfl j hj hkey
    rw [(lowRange_write_kernelData hj).2, hpage] at hkey
    rw [(lowRange_write_kernelData hj).2]
    dsimp only at hkey ⊢
    congr 1
    omega

end Low

/-- The words of a protected memory range after `MapKernelPmrs`. -/
theorem Serves.leaf_pmr {root : ℕ} {full : Set Range} (hb : info.Ok)
    (h : Serves {root} root s s' (kernelRanges info) full)
    (hfull : {q | ∃ pmr ∈ info.pmrs, q = pmrRange info pmr} ⊆ full) {pmr : Pmr}
    (hpmr : pmr ∈ info.pmrs) {k : ℕ} (hk : 4096 * k < pmr.length) :
    leaf s'.mem root (pmr.base + 4096 * k) =
      info.physAt (pmr.base + 4096 * k) ||| kernelPage := by
  have hends : ∀ pmr ∈ info.pmrs,
      ∃ n, (pmrRange info pmr).bound ≤ (pmrRange info pmr).addr n := fun pmr hpmr =>
    h.ends (hfull ⟨pmr, hpmr, rfl⟩)
  obtain ⟨hal, hlo, hhi, hlt⟩ := hb.pmr pmr hpmr
  have hvisit : (pmrRange info pmr).Visits k := by
    refine Range.visits_of_lt ?_ ?_
    · exact add64_lt _ _
    · rw [(pmrRange_bound hb hpmr (hends pmr hpmr)).1, frameSize]
      change info.phys pmr + 4096 * k < _
      omega
  set v := pmr.base + 4096 * k with hv
  have hpage : pageNumber v = v / 4096 - (2 ^ 52 - 2 ^ 36) := by
    simp only [pageNumber, frameSize]
    omega
  refine h.leaf_eq rfl (hfull ⟨pmr, hpmr, rfl⟩) hvisit ?_ ?_
  · rw [(pmrRange_write hb hpmr (hends pmr hpmr) hvisit).2]
  · intro q hq j hj hkey
    rcases kernelRanges_write hb hq hends hj with ⟨a, ha, hw⟩ | ⟨a, ha, hw⟩ | ⟨u, hu, hul, huh, hw⟩
    · rw [hw, hpage] at hkey
      dsimp only at hkey
      omega
    · rw [hw, hpage] at hkey
      dsimp only at hkey
      omega
    · rw [hw] at hkey ⊢
      have huv : u = v := by
        simp only [pageNumber, frameSize] at hkey
        omega
      rw [huv]

/-- The frames below 4 GiB at `KERNEL_DATA`. -/
theorem kernelData_translation (hs : Start ∅ s) (hb : info.Ok) {fuel root : ℕ}
    (hcall : initPageTable fuel info s = some (true, root, s')) {a : ℕ} (hal : a % 4096 = 0)
    (hlo : 0x1000 ≤ a) (hhi : a < 0x100000000) :
    vAddrToPAddr s'.mem root (kernelData + a) = a := by
  obtain ⟨-, -, -, s₁, s₂, full, -, -, -, hs₃⟩ := initPageTable_spec hs.ok hb.base_lt hcall
  rw [vAddrToPAddr_eq, hs₃.leaf_kernelData hal hlo hhi]
  exact lor_land_addressMask hal (by omega) kernelPage_lt

/-- **The boot address space.** If `InitPageTable` returns true, then in the kernel's root the
pages from `0x1000` to 4 GiB translate to themselves, the pages above `KERNEL_DATA` to the pages
below 4 GiB, and every page of a protected memory range to its place in the kernel image. -/
theorem boot_translations (hs : Start ∅ s) (hb : info.Ok) {fuel root : ℕ}
    (hcall : initPageTable fuel info s = some (true, root, s')) :
    (∀ a, a % 4096 = 0 → 0x1000 ≤ a → a < 0x100000000 →
      vAddrToPAddr s'.mem root a = a ∧ vAddrToPAddr s'.mem root (kernelData + a) = a) ∧
    ∀ pmr ∈ info.pmrs, ∀ k, 4096 * k < pmr.length →
      vAddrToPAddr s'.mem root (pmr.base + 4096 * k) = info.physAt (pmr.base + 4096 * k) := by
  obtain ⟨-, -, -, s₁, s₂, full, hs₁, hpmrs, hs₂, hs₃⟩ := initPageTable_spec hs.ok hb.base_lt hcall
  refine ⟨fun a hal hlo hhi => ⟨?_, kernelData_translation hs hb hcall hal hlo hhi⟩,
    fun pmr hpmr k hk => ?_⟩
  · have hpage := pageNumber_low hhi
    rw [vAddrToPAddr_eq, hs₃.leaf_of_kernelData (by omega), hs₂.leaf_identity hal hlo hhi]
    exact lor_land_addressMask hal (by omega) kernelPage_lt
  · obtain ⟨hal, hlo, hhi, hlt⟩ := hb.pmr pmr hpmr
    have hpage : 2 ^ 35 + 2 ^ 20 ≤ pageNumber (pmr.base + 4096 * k) := by
      simp only [pageNumber, frameSize]
      omega
    rw [vAddrToPAddr_eq, hs₃.leaf_of_kernelData (Or.inr hpage),
      hs₂.leaf_of_identity (by omega), hs₁.leaf_pmr hb hpmrs hpmr hk]
    exact lor_land_addressMask (physAt_aligned hb (by omega)) (add64_lt _ _) kernelPage_lt

/-! ### Enough frames -/

/-- The next `n` results of `AllocFirstFrame` are frames. -/
def Enough (s : Machine) (n : ℕ) : Prop := ∀ k, s.next ≤ k → k < s.next + n → s.frames k ≠ none

theorem Enough.mono {n n' : ℕ} (h : Enough s n) (hle : n' ≤ n) : Enough s n' :=
  fun k hk hk' => h k hk (by omega)

/-- What is left after a step that has used up `n` results at most. -/
theorem Enough.step {n n' : ℕ} (h : Enough s (n + n')) (hf : s'.frames = s.frames)
    (hle : s.next ≤ s'.next) (hn : s'.next ≤ s.next + n) : Enough s' n' := by
  intro k hk hk'
  rw [hf]
  exact h k (by omega) (by omega)

theorem Enough.noFail {n : ℕ} (h : Enough s n) (hn : s'.next ≤ s.next + n) : NoFail s s' :=
  fun k hk hk' => h k hk (by omega)

/-- The loop over a range of kernel pages returns true. -/
theorem call_total (h : Ok R s) (hr : r ∈ R) {q : Range} (h64 : q.base < 2 ^ 64)
    (hflags : q.flags = kernelPage) {N fuel : ℕ} (hfuel : N < fuel) (hn : ∃ n ≤ N, q.Rounds n)
    (he : Enough s (3 * N)) :
    ∃ s', q.call r fuel s = some (true, s') ∧ Keeps R s s' ∧ s'.next ≤ s.next + 3 * N := by
  obtain ⟨n, hle, hrounds⟩ := hn
  have hlt : q.flags < 512 := hflags ▸ kernelPage_lt
  have hodd : q.flags % 2 = 1 := hflags ▸ kernelPage_odd
  obtain ⟨s', hcall, hnext⟩ := mapMultiple_total h hr h64 hlt hodd hrounds (hle.trans_lt hfuel)
    (he.mono (by omega))
  exact ⟨s', hcall, (h.mapMultiple hr h64 hlt hodd hcall).1.keeps, by omega⟩

theorem mapIf_total (h : Ok R s) (hr : r ∈ R) {q : Range} (h64 : q.base < 2 ^ 64)
    (hflags : q.flags = kernelPage) {N fuel : ℕ} (hfuel : N < fuel) {c : Prop} [Decidable c]
    (hn : c → ∃ n ≤ N, q.Rounds n) (he : Enough s (3 * N)) :
    ∃ s', mapIf c fuel r q.base q.bound q.offset q.flags s = some s' ∧ Keeps R s s' ∧
      s'.next ≤ s.next + 3 * N := by
  rw [mapIf]
  split_ifs with hc
  · obtain ⟨s', hcall, hkeep, hnext⟩ := call_total h hr h64 hflags hfuel (hn hc) he
    exact ⟨s', Option.map_eq_some_iff.mpr ⟨_, hcall, rfl⟩, hkeep, hnext⟩
  · exact ⟨s, rfl, Keeps.refl h, by omega⟩

theorem mapPmrs_total (h : Ok R s) (hr : r ∈ R) {N fuel : ℕ} (hfuel : N < fuel) {pmrs : List Pmr}
    (hall : ∀ pmr ∈ pmrs, ∃ n ≤ N, (pmrRange info pmr).Rounds n) (success : Bool)
    (he : Enough s (3 * N * pmrs.length)) :
    ∃ s', mapPmrs fuel info r pmrs success s = some (success, s') ∧ Keeps R s s' ∧
      s'.next ≤ s.next + 3 * N * pmrs.length := by
  induction pmrs generalizing s success with
  | nil => exact ⟨s, rfl, Keeps.refl h, by simp⟩
  | cons pmr pmrs ih =>
    rw [List.length_cons, Nat.mul_succ, Nat.add_comm (3 * N * pmrs.length)] at he ⊢
    obtain ⟨s₁, hcall, hk₁, hn₁⟩ := call_total (q := pmrRange info pmr) h hr (add64_lt _ _) rfl
      hfuel (hall pmr List.mem_cons_self) (he.mono (by omega))
    obtain ⟨s₂, hrest, hk₂, hn₂⟩ := ih hk₁.ok (fun p hp => hall p (List.mem_cons_of_mem _ hp))
      success (he.step hk₁.frames hk₁.next hn₁)
    refine ⟨s₂, Option.bind_eq_some_iff.mpr ⟨(true, s₁), hcall, ?_⟩, hk₁.trans hk₂, by omega⟩
    simpa only [Bool.and_true] using hrest

theorem mapEntries_total (h : Ok R s) (hr : r ∈ R) {N fuel : ℕ} (hfuel : N < fuel)
    {es : List MmapEntry} (hes : ∀ e ∈ es, e.base < 2 ^ 64)
    (hall : ∀ e ∈ es, ∀ q ∈ entryRanges e, ∃ n ≤ N, q.Rounds n) (success : Bool)
    (he : Enough s (12 * N * es.length)) :
    ∃ s', mapEntries fuel r es success s = some (success, s') ∧ Keeps R s s' ∧
      s'.next ≤ s.next + 12 * N * es.length := by
  induction es generalizing s success with
  | nil => exact ⟨s, rfl, Keeps.refl h, by simp⟩
  | cons e es ih =>
    rw [List.length_cons, Nat.mul_succ, show 12 * N * es.length + 12 * N =
      3 * N + (3 * N + (3 * N + (3 * N + 12 * N * es.length))) by ring] at he ⊢
    have h64 := hes e List.mem_cons_self
    have hrounds := hall e List.mem_cons_self
    obtain ⟨s₁, hmap₁, hk₁, hn₁⟩ := mapIf_total (q := entryRange e 0) h hr h64 rfl hfuel
      (fun hc : e.type = framebuffer ∨ e.type = bootloaderReclaimable =>
        hrounds _ (.inl ⟨hc, rfl⟩)) (he.mono (by omega))
    have he₁ := he.step hk₁.frames hk₁.next hn₁
    obtain ⟨s₂, hmap₂, hk₂, hn₂⟩ := mapIf_total (q := entryRange e kernelData) hk₁.ok hr h64 rfl
      hfuel (fun hc : e.type = framebuffer => hrounds _ (.inr (.inl ⟨hc, rfl⟩)))
      (he₁.mono (by omega))
    have he₂ := he₁.step hk₂.frames hk₂.next hn₂
    have hk₁₂ := hk₁.trans hk₂
    have hes' : ∀ e ∈ es, e.base < 2 ^ 64 := fun e he => hes e (List.mem_cons_of_mem _ he)
    have hall' : ∀ e ∈ es, ∀ q ∈ entryRanges e, ∃ n ≤ N, q.Rounds n :=
      fun e he => hall e (List.mem_cons_of_mem _ he)
    rw [mapEntries, kernelPage_executable]
    by_cases hlow : add64 e.base e.length ≤ 0x100000000
    · obtain ⟨s₃, hrest, hk₃, hn₃⟩ := ih hk₂.ok hes' hall' success (he₂.mono (by omega))
      refine ⟨s₃, Option.bind_eq_some_iff.mpr ⟨s₁, hmap₁, Option.bind_eq_some_iff.mpr
        ⟨s₂, hmap₂, ?_⟩⟩, hk₁₂.trans hk₃, by omega⟩
      rw [if_pos hlow]
      exact hrest
    · obtain ⟨s₃, hmap₃, hk₃, hn₃⟩ := call_total (q := entryRange e 0) hk₂.ok hr h64 rfl hfuel
        (hrounds _ (.inr (.inr ⟨hlow, .inl rfl⟩))) (he₂.mono (by omega))
      have he₃ := he₂.step hk₃.frames hk₃.next hn₃
      obtain ⟨s₄, hmap₄, hk₄, hn₄⟩ := call_total (q := entryRange e kernelData) hk₃.ok hr h64 rfl
        hfuel (hrounds _ (.inr (.inr ⟨hlow, .inr rfl⟩))) (he₃.mono (by omega))
      obtain ⟨s₅, hrest, hk₅, hn₅⟩ := ih hk₄.ok hes' hall' success
        (he₃.step hk₄.frames hk₄.next hn₄)
      refine ⟨s₅, Option.bind_eq_some_iff.mpr ⟨s₁, hmap₁, Option.bind_eq_some_iff.mpr
        ⟨s₂, hmap₂, ?_⟩⟩, ((hk₁₂.trans hk₃).trans hk₄).trans hk₅, by omega⟩
      rw [if_neg hlow]
      refine Option.bind_eq_some_iff.mpr ⟨(true, s₃), hmap₃, Option.bind_eq_some_iff.mpr
        ⟨(true, s₄), hmap₄, ?_⟩⟩
      simpa only [Bool.and_true] using hrest

theorem lowRange_rounds (offset : ℕ) : (lowRange offset).Rounds (2 ^ 20 - 1) := by
  refine ⟨fun k hk => ?_, ?_⟩
  · rw [Range.addr_of_lt (by simp only [lowRange, frameSize]; omega)]
    simp only [lowRange, frameSize, fourGb]
    omega
  · rw [Range.addr_of_lt (by simp only [lowRange, frameSize]; omega)]
    simp only [lowRange, frameSize, fourGb]
    omega

/-- A bound on the frames that `MapKernelPmrs` allocates, if no range has more than `N` pages. -/
def BootInfo.demand (info : BootInfo) (N : ℕ) : ℕ :=
  3 * N * (1 + info.pmrs.length + 4 * info.memmap.length)

/-- With enough frames, `MapKernelPmrs` returns true. -/
theorem mapKernelPmrs_total (h : Ok R s) (hr : r ∈ R) {N fuel : ℕ} (hfuel : N < fuel)
    (hes : ∀ e ∈ info.memmap, e.base < 2 ^ 64)
    (hall : ∀ q ∈ kernelRanges info, ∃ n ≤ N, q.Rounds n) (he : Enough s (info.demand N)) :
    ∃ s', mapKernelPmrs fuel info r s = some (true, s') ∧ Keeps R s s' ∧
      s'.next ≤ s.next + info.demand N := by
  have hdemand : info.demand N =
      3 * N + (3 * N * info.pmrs.length + 12 * N * info.memmap.length) := by
    rw [BootInfo.demand]
    ring
  rw [hdemand] at he ⊢
  have h64 : (lowRange kernelData).base < 2 ^ 64 := by decide
  obtain ⟨s₁, hmap₁, hk₁, hn₁⟩ := mapIf_total (q := lowRange kernelData) h hr h64 rfl hfuel
    (fun _ : True => hall _ (.inl rfl)) (he.mono (by omega))
  have he₁ := he.step hk₁.frames hk₁.next hn₁
  obtain ⟨s₂, hmap₂, hk₂, hn₂⟩ := mapPmrs_total hk₁.ok hr hfuel
    (fun pmr hpmr => hall _ (.inr (.inl ⟨pmr, hpmr, rfl⟩))) true (he₁.mono (by omega))
  obtain ⟨s₃, hmap₃, hk₃, hn₃⟩ := mapEntries_total hk₂.ok hr hfuel hes
    (fun e he q hq => hall _ (.inr (.inr ⟨e, he, hq⟩))) true (he₁.step hk₂.frames hk₂.next hn₂)
  refine ⟨s₃, ?_, (hk₁.trans hk₂).trans hk₃, by omega⟩
  rw [mapKernelPmrs]
  exact Option.bind_eq_some_iff.mpr ⟨s₁, hmap₁, Option.bind_eq_some_iff.mpr
    ⟨(true, s₂), hmap₂, hmap₃⟩⟩

/-- With enough frames, `InitPageTable` returns true. -/
theorem initPageTable_total (h : Ok ∅ s) {N fuel root : ℕ} (hroot : s.frames s.next = some root)
    (hN : 2 ^ 20 ≤ N) (hfuel : N < fuel) (hes : ∀ e ∈ info.memmap, e.base < 2 ^ 64)
    (hall : ∀ q ∈ kernelRanges info, ∃ n ≤ N, q.Rounds n)
    (he : Enough s (1 + (info.demand N + (3 * N + 3 * N)))) :
    ∃ s', initPageTable fuel info s = some (true, root, s') ∧
      s'.next ≤ s.next + (1 + (info.demand N + (3 * N + 3 * N))) := by
  obtain ⟨hok, -, -⟩ := h.newRoot hroot
  rw [insert_empty_eq] at hok
  have hr : root ∈ ({root} : Set ℕ) := rfl
  have hnext₀ : (s.take (some root)).next = s.next + 1 := rfl
  have he₀ : Enough (s.take (some root)) _ := he.step rfl (by omega) (by omega)
  obtain ⟨s₁, hmap₁, hk₁, hn₁⟩ := mapKernelPmrs_total hok hr hfuel hes hall (he₀.mono (by omega))
  have he₁ := he₀.step hk₁.frames hk₁.next hn₁
  have hlow (offset : ℕ) : ∃ n ≤ N, (lowRange offset).Rounds n :=
    ⟨_, by omega, lowRange_rounds offset⟩
  have h64 (offset : ℕ) : (lowRange offset).base < 2 ^ 64 := by
    simp only [lowRange]
    omega
  obtain ⟨s₂, hmap₂, hk₂, hn₂⟩ := call_total hk₁.ok hr (h64 0) rfl hfuel (hlow 0)
    (he₁.mono (by omega))
  obtain ⟨s₃, hmap₃, hk₃, hn₃⟩ := call_total hk₂.ok hr (h64 kernelData) rfl hfuel (hlow kernelData)
    (he₁.step hk₂.frames hk₂.next hn₂)
  refine ⟨s₃, ?_, by omega⟩
  rw [initPageTable, Machine.allocFirstFrame, hroot]
  exact Option.bind_eq_some_iff.mpr ⟨(true, s₁), hmap₁, Option.bind_eq_some_iff.mpr
    ⟨(true, s₂), hmap₂, Option.bind_eq_some_iff.mpr ⟨(true, s₃), hmap₃, rfl⟩⟩⟩

/-- A machine with many frames. -/
def plenty (mem : Mem) : Machine :=
  ⟨mem, fun n => if n < 2 ^ 40 then some (4096 * (n + 1)) else none, 0⟩

theorem plenty_frames (mem : Mem) {n f : ℕ} (h : (plenty mem).frames n = some f) :
    n < 2 ^ 40 ∧ f = 4096 * (n + 1) := by
  simp only [plenty] at h
  split_ifs at h with hn
  exact ⟨hn, (Option.some.inj h).symm⟩

theorem start_plenty (mem : Mem) : Start ∅ (plenty mem) := by
  refine ⟨by simp, fun n f _ hf => ?_, fun n k f _ _ hn hk => ?_⟩
  · obtain ⟨hlt, rfl⟩ := plenty_frames mem hf
    exact ⟨by omega, by omega, by omega, by simp⟩
  · have h₁ := (plenty_frames mem hn).2
    have h₂ := (plenty_frames mem hk).2
    omega

theorem plenty_enough {t : Machine} (mem : Mem) (hf : t.frames = (plenty mem).frames) {n : ℕ}
    (hn : t.next + n ≤ 2 ^ 40) : Enough t n := by
  intro k _ hk'
  rw [hf]
  change (if k < 2 ^ 40 then some (4096 * (k + 1)) else none) ≠ none
  rw [if_pos (by omega)]
  exact Option.some_ne_none _

/-- The rounds for a memory-map entry. -/
theorem entryRange_rounds {e : MmapEntry} (offset : ℕ)
    (h : e.base + e.length + frameSize ≤ 2 ^ 64) :
    (entryRange e offset).Rounds ((e.length + 4095) / 4096) := by
  rw [frameSize] at h
  refine ⟨fun k hk => ?_, ?_⟩
  · rw [Range.addr_of_lt (by simp only [entryRange, frameSize]; omega)]
    simp only [entryRange, add64, frameSize]
    omega
  · rw [Range.addr_of_lt (by simp only [entryRange, frameSize]; omega)]
    simp only [entryRange, add64, frameSize]
    omega

/-- The ranges of a kernel have few rounds if those of its protected memory ranges and the entries
of the memory map do. -/
theorem kernelRanges_rounds {N : ℕ} (hN : 2 ^ 20 ≤ N)
    (hpmrs : ∀ pmr ∈ info.pmrs, ∃ n ≤ N, (pmrRange info pmr).Rounds n)
    (hmemmap : ∀ e ∈ info.memmap, e.base + e.length + frameSize ≤ 2 ^ 64 ∧
      e.length ≤ 4096 * N) {q : Range} (hq : q ∈ kernelRanges info) :
    ∃ n ≤ N, q.Rounds n := by
  rcases hq with rfl | ⟨pmr, hpmr, rfl⟩ | ⟨e, he, hq⟩
  · exact ⟨_, by omega, lowRange_rounds _⟩
  · exact hpmrs pmr hpmr
  · obtain ⟨h64, hlen⟩ := hmemmap e he
    have hentry (offset : ℕ) : ∃ n ≤ N, (entryRange e offset).Rounds n :=
      ⟨_, by omega, entryRange_rounds offset h64⟩
    rcases hq with ⟨-, rfl⟩ | ⟨-, rfl⟩ | ⟨-, rfl | rfl⟩
    · exact hentry 0
    · exact hentry kernelData
    · exact hentry 0
    · exact hentry kernelData

/-- A machine with many frames boots a kernel of few ranges with few rounds. -/
theorem initPageTable_plenty (mem : Mem) (info : BootInfo) (hinfo : info.demand (2 ^ 20) ≤ 2 ^ 25)
    (hpmrs : ∀ pmr ∈ info.pmrs, ∃ n ≤ 2 ^ 20, (pmrRange info pmr).Rounds n)
    (hmemmap : ∀ e ∈ info.memmap, e.base + e.length + frameSize ≤ 2 ^ 64 ∧
      e.length ≤ 4096 * 2 ^ 20) :
    ∃ s', initPageTable (2 ^ 20 + 1) info (plenty mem) = some (true, 4096, s') ∧
      s'.next ≤ 2 ^ 26 := by
  have hnext : (plenty mem).next = 0 := rfl
  have hes : ∀ e ∈ info.memmap, e.base < 2 ^ 64 := by
    intro e he
    have hpos : 0 < frameSize := by decide
    have h64 := (hmemmap e he).1
    omega
  have hdemand : 1 + (info.demand (2 ^ 20) + (3 * 2 ^ 20 + 3 * 2 ^ 20)) ≤ 2 ^ 26 := by omega
  obtain ⟨s', hcall, hle⟩ := initPageTable_total (start_plenty mem).ok rfl (le_refl (2 ^ 20))
    (Nat.lt_succ_self _) hes (fun q hq => kernelRanges_rounds le_rfl hpmrs hmemmap hq)
    (plenty_enough mem rfl (by
      rw [hnext, Nat.zero_add]
      exact hdemand.trans (by decide)))
  rw [hnext, Nat.zero_add] at hle
  exact ⟨s', hcall, hle.trans hdemand⟩

/-- A kernel of two pages at `0x200000`, with usable memory and a framebuffer. -/
def smallInfo : BootInfo where
  memmap := [⟨0x100000, 0x7EE0000, usablePage⟩, ⟨0xFD000000, 0x300000, framebuffer⟩]
  physicalBaseAddress := 0x200000
  virtualBaseAddress := 0xffffffff80000000
  pmrs := [⟨0xffffffff80000000, 0x2000⟩]

theorem smallInfo_ok : smallInfo.Ok := ⟨by decide, by decide, by decide, by decide +kernel⟩

theorem smallInfo_pmrs : ∀ pmr ∈ smallInfo.pmrs, ∃ n ≤ 2 ^ 20, (pmrRange smallInfo pmr).Rounds n := by
  intro pmr hpmr
  obtain rfl := List.mem_singleton.mp hpmr
  exact ⟨2, by decide, by decide +kernel, by decide +kernel⟩

theorem smallInfo_memmap : ∀ e ∈ smallInfo.memmap, e.base + e.length + frameSize ≤ 2 ^ 64 ∧
    e.length ≤ 4096 * 2 ^ 20 := by decide

theorem smallInfo_demand : smallInfo.demand (2 ^ 20) ≤ 2 ^ 25 := by decide +kernel

/-- The second page of that kernel. -/
theorem boot_translations_small :
    ∃ s', initPageTable (2 ^ 20 + 1) smallInfo (plenty fun _ => 0) = some (true, 4096, s') ∧
      vAddrToPAddr s'.mem 4096 0xffffffff80001000 = 0x201000 := by
  obtain ⟨s', hcall, -⟩ := initPageTable_plenty (fun _ => 0) smallInfo smallInfo_demand
    smallInfo_pmrs smallInfo_memmap
  have htrans := (boot_translations (start_plenty _) smallInfo_ok hcall).2 _
    (List.mem_singleton.mpr rfl) 1 (by decide)
  exact ⟨s', hcall, htrans.trans (by decide +kernel)⟩

/-- With a physical range that wraps around, the loop over the range makes no round, and the
protected memory range is not mapped. -/
theorem pmr_unmapped_on_wrap :
    ∃ s', initPageTable (2 ^ 20 + 1) ⟨[], 0xfffffffffffff000, 0xffffffff80000000,
        [⟨0xffffffff80000000, 0x2000⟩]⟩ (plenty fun _ => 0) = some (true, 4096, s') ∧
      vAddrToPAddr s'.mem 4096 0xffffffff80000000 = 0 ∧
      BootInfo.physAt ⟨[], 0xfffffffffffff000, 0xffffffff80000000,
        [⟨0xffffffff80000000, 0x2000⟩]⟩ 0xffffffff80000000 = 0xfffffffffffff000 := by
  have hrounds : (pmrRange ⟨[], 0xfffffffffffff000, 0xffffffff80000000,
      [⟨0xffffffff80000000, 0x2000⟩]⟩ ⟨0xffffffff80000000, 0x2000⟩).Rounds 0 :=
    ⟨by simp, by decide +kernel⟩
  have hpmrs : ∀ pmr ∈ (BootInfo.mk [] 0xfffffffffffff000 0xffffffff80000000
      [⟨0xffffffff80000000, 0x2000⟩]).pmrs, ∃ n ≤ 2 ^ 20,
        (pmrRange ⟨[], 0xfffffffffffff000, 0xffffffff80000000,
          [⟨0xffffffff80000000, 0x2000⟩]⟩ pmr).Rounds n := by
    intro pmr hpmr
    obtain rfl := List.mem_singleton.mp hpmr
    exact ⟨0, Nat.zero_le _, hrounds⟩
  obtain ⟨s', hcall, -⟩ := initPageTable_plenty (fun _ => 0) _ (by decide +kernel) hpmrs (by simp)
  refine ⟨s', hcall, ?_, by decide +kernel⟩
  obtain ⟨-, -, hzero, s₁, s₂, full, hs₁, -, hs₂, hs₃⟩ :=
    initPageTable_spec (start_plenty _).ok (by simp) hcall
  have hpage : pageNumber 0xffffffff80000000 = 2 ^ 36 - 2 ^ 19 := by decide
  have hdata (k : ℕ) (hk : (lowRange kernelData).Visits k) :
      ((lowRange kernelData).write k).1 ≠ pageNumber 0xffffffff80000000 := by
    obtain ⟨hlt, hw⟩ := lowRange_write_kernelData hk
    rw [hw, hpage]
    dsimp only
    omega
  have hleaf : leaf s'.mem 4096 0xffffffff80000000 = 0 := by
    rw [hs₃.leaf_unchanged rfl (by rintro q rfl k hk; exact hdata k hk),
      hs₂.leaf_unchanged rfl, hs₁.leaf_unchanged rfl]
    · exact hzero _
    · rintro q (rfl | ⟨pmr, hpmr, rfl⟩ | ⟨e, he, -⟩) k hk
      · exact hdata k hk
      -- the first address of the range is not below its bound
      · obtain rfl := List.mem_singleton.mp hpmr
        exact absurd (hk 0 (Nat.zero_le k)) (Nat.not_lt.mpr hrounds.2)
      · simp at he
    · rintro q rfl k hk
      obtain ⟨hlt, hw⟩ := lowRange_write_identity hk
      rw [hw, hpage]
      dsimp only
      omega
  rw [vAddrToPAddr_eq, hleaf]
  exact Nat.zero_and _

end Vardar.Vmm
