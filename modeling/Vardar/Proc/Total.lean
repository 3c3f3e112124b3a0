import Vardar.Proc.Pages

/-!
# `parse_elf` returns

With an image that does not change, enough frames for the pages it plans and for the kernel's
ranges, `parse_elf` returns 0, and no allocation fails on the way.

## Main results

* `Vardar.Elf.loadSegments_total`, `Vardar.Elf.parseElf_total`.
-/

namespace Vardar.Elf

open ByteMemory Word Vmm

variable {R : Set ℕ} {r : ℕ} {s : Machine} {x : Load} {img : Image} {raw : ℕ → BitVec 8}
  {ph : Phdr} {phdrs : ℕ}

/-- A round of the loop over the pages takes four frames at most. -/
theorem loadPage_total (h : Ok R x.machine) (hr : r ∈ R) (img : Image) (vaddr off : ℕ)
    (he : Enough x.machine 4) :
    Keeps R x.machine (loadPage img r vaddr off x).machine ∧
      (loadPage img r vaddr off x).machine.next ≤ x.machine.next + 4 := by
  obtain ⟨f, hf⟩ := Option.ne_none_iff_exists'.mp (he x.machine.next le_rfl (by omega))
  obtain ⟨hal, -⟩ := h.frame _ f le_rfl hf
  have hm : ∀ a, a / 4096 * 4096 ≠ f → copyPage img (x.machine.take (some f)).mem f off a =
      (x.machine.take (some f)).mem a := fun a ha => if_neg (by omega)
  obtain ⟨b, s', hmap, hplaced, -, hnext⟩ := place h hr hf hm vaddr
  rw [loadPage_eq hf, hmap]
  exact ⟨hplaced.keeps, hnext⟩

theorem mapStack_total (h : Ok R x.machine) (hr : r ∈ R) (he : Enough x.machine 4) :
    Keeps R x.machine (mapStack r x).machine ∧
      (mapStack r x).machine.next ≤ x.machine.next + 4 := by
  obtain ⟨f, hf⟩ := Option.ne_none_iff_exists'.mp (he x.machine.next le_rfl (by omega))
  obtain ⟨b, s', hmap, hplaced, -, hnext⟩ := place h hr hf (fun _ _ => rfl) defaultStackBase
  have heq : (mapStack r x).machine = s' := by
    change mapPage (x.machine.take (some f)) r defaultStackBase f userProcPage = (b, s') at hmap
    simp only [mapStack, Load.allocPage, Machine.allocFirstFrame, hf, Option.getD_some, hmap]
  rw [heq]
  exact ⟨hplaced.keeps, hnext⟩

theorem loadPages_total (h : Ok R x.machine) (hr : r ∈ R) (img : Image) {fuel i : ℕ}
    (hi : 4096 * i ≤ ph.segBound) (hfuel : ph.segBound / 4096 - i < fuel)
    (he : Enough x.machine (4 * (ph.segBound / 4096 - i))) :
    ∃ x', loadPages img r ph fuel (4096 * i) x = some x' ∧ Keeps R x.machine x'.machine ∧
      x'.machine.next ≤ x.machine.next + 4 * (ph.segBound / 4096 - i) := by
  obtain ⟨hal, hroom⟩ := roundUp_bounds (add64 ph.vaddr ph.memSize)
  change ph.segBound % 4096 = 0 at hal
  change ph.segBound + 4096 ≤ 2 ^ 64 at hroom
  induction fuel generalizing i x with
  | zero => omega
  | succ fuel ih =>
    rw [loadPages]
    split_ifs with hlt
    · have hsucc : add64 (4096 * i) 0x1000 = 4096 * (i + 1) := add64_of_lt (by omega)
      have hcount : 4 * (ph.segBound / 4096 - i) = 4 + 4 * (ph.segBound / 4096 - (i + 1)) := by
        omega
      rw [hcount] at he ⊢
      rw [hsucc]
      obtain ⟨hk, hn⟩ := loadPage_total h hr img (add64 ph.vaddr (4096 * i))
        (add64 ph.offset (4096 * i)) (he.mono (by omega))
      obtain ⟨x', hcall, hk', hn'⟩ := ih hk.ok (by omega) (by omega) (he.step hk.frames hk.next hn)
      exact ⟨x', hcall, hk.trans hk', by omega⟩
    · exact ⟨x, rfl, Keeps.refl h, by omega⟩

/-- The loop over the program headers returns, after four frames for each planned page at most. -/
theorem loadSegments_total (hraw : ∀ m, img m = raw) (h : Ok R x.machine) (hr : r ∈ R)
    {pageFuel fuel i : ℕ} (hpages : ∀ ph ∈ segmentsFrom raw phdrs i, ph.segBound / 4096 < pageFuel)
    (hfuel : phdrNumEntries raw - i < fuel)
    (he : Enough x.machine (4 * (segmentPlan raw phdrs i).length)) :
    ∃ x', loadSegments img r phdrs pageFuel fuel i x = some x' ∧ Keeps R x.machine x'.machine ∧
      x'.machine.next ≤ x.machine.next + 4 * (segmentPlan raw phdrs i).length := by
  induction fuel generalizing i x with
  | zero => omega
  | succ fuel ih =>
    rw [loadSegments, hraw]
    split_ifs with hlt
    · have hrange := range'_step hlt
      rw [loadSegment]
      by_cases htype : (phdr raw phdrs i).type = elfPhdrLoad
      · have hsegs : segmentsFrom raw phdrs i =
            phdr raw phdrs i :: segmentsFrom raw phdrs (i + 1) := by
          rw [segmentsFrom, hrange, List.map_cons, List.filter_cons_of_pos (by simpa using htype)]
          rfl
        have hlen : 4 * (segmentPlan raw phdrs i).length =
            4 * ((phdr raw phdrs i).segBound / 4096 - 0) +
              4 * (segmentPlan raw phdrs (i + 1)).length := by
          rw [segmentPlan, hsegs, List.flatMap_cons, List.length_append, pagePlan,
            List.length_map, List.length_range', Nat.mul_add]
          rfl
        rw [hsegs] at hpages
        rw [hlen] at he ⊢
        rw [if_pos htype]
        obtain ⟨x₁, hcall, hk, hn⟩ := loadPages_total h hr img (i := 0) (Nat.zero_le _)
          (hpages _ List.mem_cons_self) (he.mono (by omega))
        obtain ⟨x₂, hrest, hk', hn'⟩ := ih hk.ok
          (fun ph hph => hpages ph (List.mem_cons_of_mem _ hph)) (by omega)
          (he.step hk.frames hk.next hn)
        exact ⟨x₂, Option.bind_eq_some_iff.mpr ⟨x₁, hcall, hrest⟩, hk.trans hk', by omega⟩
      · have hsegs : segmentsFrom raw phdrs i = segmentsFrom raw phdrs (i + 1) := by
          rw [segmentsFrom, hrange, List.map_cons, List.filter_cons_of_neg (by simpa using htype)]
          rfl
        rw [segmentPlan, hsegs] at he ⊢
        rw [hsegs] at hpages
        rw [if_neg htype]
        exact ih h hpages (by omega) he
    · exact ⟨x, rfl, Keeps.refl h, by omega⟩

/-- The range of the heap comes to an end. -/
theorem heapRange_rounds (k : Kernel) (m : Mem) :
    ∃ n ≤ roundUp k.heapSize / 4096, (heapRange k m).Rounds n := by
  obtain ⟨hal, hroom⟩ := roundUp_bounds k.heapSize
  have hbase : (heapRange k m).base < 2 ^ 64 := vAddrToPAddr_lt _ _ _
  have hbound : (heapRange k m).bound = ((heapRange k m).base + roundUp k.heapSize) % 2 ^ 64 := by
    rw [← add64]
    rfl
  by_cases hwrap : (heapRange k m).base + roundUp k.heapSize < 2 ^ 64
  · refine ⟨_, le_rfl, fun j hj => ?_, ?_⟩
    · rw [hbound, Range.addr, frameSize]
      omega
    · rw [hbound, Range.addr, frameSize]
      omega
  · refine ⟨0, Nat.zero_le _, by simp, ?_⟩
    rw [hbound, Range.addr_zero hbase]
    omega

/-- With enough frames, `parse_elf` returns 0 for an image with its magic. -/
theorem parseElf_total (hraw : ∀ m, img m = raw) (h : Ok R s) {k : Kernel}
    (hmagic : strncmp raw elfMagic 4 = 0) {N fuel : ℕ} (hN : N < fuel)
    (hheaders : phdrNumEntries raw < fuel)
    (hpages : ∀ ph ∈ segmentsFrom raw (phdrOffset raw) 0, ph.segBound / 4096 < fuel)
    (hes : ∀ e ∈ k.info.memmap, e.base < 2 ^ 64)
    (hall : ∀ q ∈ kernelRanges k.info, ∃ n ≤ N, q.Rounds n)
    (hheap : roundUp k.heapSize / 4096 ≤ N) (pcb : Pcb)
    (he : Enough s (1 + (4 * (segmentPlan raw (phdrOffset raw) 0).length +
      (4 + (k.info.demand N + 3 * N))))) :
    ∃ pcb' x, parseElf fuel k img pcb s = some (0, pcb', x) ∧ NoFail s x.machine := by
  obtain ⟨root, hroot⟩ := Option.ne_none_iff_exists'.mp (he s.next le_rfl (by omega))
  obtain ⟨hok, -, -⟩ := h.newRoot hroot
  have hr : root ∈ insert root R := Set.mem_insert _ _
  have hnext₀ : (s.take (some root)).next = s.next + 1 := rfl
  have he₀ : Enough (s.take (some root)) _ := he.step rfl (by omega) (by omega)
  obtain ⟨x₁, hload, hk₁, hn₁⟩ := loadSegments_total (x := ⟨s.take (some root), []⟩) hraw hok hr
    hpages (by omega) (he₀.mono (by omega))
  have he₁ := he₀.step hk₁.frames hk₁.next hn₁
  obtain ⟨hk₂, hn₂⟩ := mapStack_total (x := x₁) hk₁.ok hr (he₁.mono (by omega))
  have he₂ := he₁.step hk₂.frames hk₂.next hn₂
  obtain ⟨s₃, hmap₃, hk₃, hn₃⟩ := mapKernelPmrs_total hk₂.ok hr hN hes hall (he₂.mono (by omega))
  obtain ⟨n, hn, hrounds⟩ := heapRange_rounds k s₃.mem
  obtain ⟨s₄, hmap₄, hk₄, hn₄⟩ := mapIf_total (q := heapRange k s₃.mem) hk₃.ok hr
    (vAddrToPAddr_lt _ _ _) rfl hN (fun _ : True => ⟨n, hn.trans hheap, hrounds⟩)
    (he₂.step hk₃.frames hk₃.next hn₃)
  have hcall : ∃ pcb', parseElf fuel k img pcb s = some (0, pcb', ⟨s₄, (mapStack root x₁).pages⟩) := by
    simp only [parseElf, Machine.allocFirstFrame, hroot, Option.getD_some, hraw, hmagic]
    rw [if_neg (by simp)]
    exact ⟨_, Option.bind_eq_some_iff.mpr ⟨x₁, hload, Option.bind_eq_some_iff.mpr
      ⟨(true, s₃), hmap₃, Option.bind_eq_some_iff.mpr ⟨s₄, hmap₄, rfl⟩⟩⟩⟩
  obtain ⟨pcb', hcall⟩ := hcall
  refine ⟨pcb', _, hcall, he.noFail ?_⟩
  dsimp only at hn₁ ⊢
  omega

end Vardar.Elf
