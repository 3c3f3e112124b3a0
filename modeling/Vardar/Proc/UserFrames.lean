import Vardar.Proc.Pages

/-!
# User pages are the process's own frames

`parse_elf` maps for the user only the frames it has allocated itself, and the kernel's mappings
that follow are closed to the user. It does not check its allocations: a null frame is mapped like
any other, which gives the user the frame at address 0.

## Main results

* `Vardar.Elf.user_pages_owned`: the frames behind the user pages, when the loader's own
  allocations succeed.
* `Vardar.Elf.null_stack_mapped`: a stack that could not be allocated.
-/

namespace Vardar.Elf

open ByteMemory Word Vmm LastWrite

variable {R : Set ℕ} {s : Machine} {img : Image} {k : Kernel} {pcb pcb' : Pcb} {x : Load} {fuel : ℕ}

theorem land_userAccessible (w : ℕ) : w &&& userAccessible = w / 4 % 2 * 4 :=
  land_mask w 1 2

/-- Ranges of aligned kernel pages are closed to the user. -/
theorem write_land_userAccessible {q : Range} (hal : q.base % 512 = 0)
    (hflags : q.flags = kernelPage) (n : ℕ) : (q.write n).2 &&& userAccessible = 0 := by
  have haddr : q.addr n % 512 = 0 := by
    rw [Range.addr, frameSize]
    omega
  have hword : (q.write n).2 = q.addr n + 3 := by
    rw [Range.write, hflags]
    exact lor_flags haddr kernelPage_lt
  rw [hword, land_userAccessible]
  omega

/-- The ranges of `MapKernelPmrs` are kernel pages, aligned as the boot information is. -/
theorem kernelRanges_aligned {info : BootInfo} (hes : ∀ e ∈ info.memmap, e.base % 4096 = 0)
    (hpmrs : ∀ pmr ∈ info.pmrs, info.phys pmr % 4096 = 0) {q : Range} (hq : q ∈ kernelRanges info) :
    q.base % 4096 = 0 ∧ q.flags = kernelPage := by
  rcases hq with rfl | ⟨pmr, hpmr, rfl⟩ | ⟨e, he, ⟨-, rfl⟩ | ⟨-, rfl⟩ | ⟨-, rfl | rfl⟩⟩
  · exact ⟨rfl, rfl⟩
  · exact ⟨hpmrs pmr hpmr, rfl⟩
  all_goals exact ⟨hes e he, rfl⟩

theorem heapRange_aligned (k : Kernel) (m : Mem) : (heapRange k m).base % 512 = 0 := by
  change vAddrToPAddr m k.root k.heapStart % 512 = 0
  rw [vAddrToPAddr_eq, addressMask, show (2 ^ 64 - 512 : ℕ) = (2 ^ 55 - 1) * 2 ^ 9 by norm_num,
    land_mask]
  exact Nat.mul_mod_left _ _

/-- **User pages are the process's own frames.** If none of the loader's own allocations is null,
every word of the new address space that is open to the user holds the address of a frame that was
allocated for a segment page or the stack, and that is no page table. -/
theorem user_pages_owned (h : Ok R s)
    (hes : ∀ e ∈ k.info.memmap, e.base % 4096 = 0 ∧ e.base < 2 ^ 64)
    (hpmrs : ∀ pmr ∈ k.info.pmrs, k.info.phys pmr % 4096 = 0)
    (hcall : parseElf fuel k img pcb s = some (0, pcb', x))
    (hroot : s.frames s.next ≠ none) (hnone : none ∉ x.pages) (v : ℕ)
    (hpresent : leaf x.machine.mem pcb'.pagemap v &&& present ≠ 0)
    (huser : leaf x.machine.mem pcb'.pagemap v &&& userAccessible ≠ 0) :
    ∃ f, some f ∈ x.pages ∧ f ≠ 0 ∧ vAddrToPAddr x.machine.mem pcb'.pagemap v = f ∧
      f ∉ tables (insert pcb'.pagemap R) x.machine.mem := by
  obtain ⟨root, hroot⟩ := Option.ne_none_iff_exists'.mp hroot
  obtain ⟨rfl, s₁, s₂, ps, qs, full, full', hplaced, hmem, hkernel, hheap, -⟩ :=
    parseElf_spec h hroot (fun e he => (hes e he).2) hcall hnone
  have hr : pcb'.pagemap ∈ insert pcb'.pagemap R := Set.mem_insert _ _
  -- the mappings after the stack leave a word open to the user alone
  have hheap_eq : leaf x.machine.mem pcb'.pagemap v = leaf s₂.mem pcb'.pagemap v := by
    rcases hheap.leaf_cases hr v with heq | ⟨q, rfl, n, -, -, heq⟩
    · exact heq
    · exact absurd (heq ▸ write_land_userAccessible (heapRange_aligned k _) rfl n) huser
  have hkernel_eq : leaf s₂.mem pcb'.pagemap v = leaf s₁.mem pcb'.pagemap v := by
    rcases hkernel.leaf_cases hr v with heq | ⟨q, hq, n, -, -, heq⟩
    · exact heq
    · obtain ⟨hal, hflags⟩ := kernelRanges_aligned (fun e he => (hes e he).1) hpmrs hq
      rw [hheap_eq, heq] at huser
      exact absurd (write_land_userAccessible (by omega) hflags n) huser
  obtain ⟨-, hzero, -⟩ := h.newRoot hroot
  have hleaf := hplaced.maps.leaf_eq _ hr v
  rw [if_pos rfl, show leaf (s.take (some pcb'.pagemap)).mem pcb'.pagemap v = 0 from hzero _ _]
    at hleaf
  rw [vAddrToPAddr_eq]
  rw [hheap_eq, hkernel_eq] at hpresent ⊢
  rcases last_cases ((ps ++ qs).map Placement.write) (pageNumber v) 0 with heq | ⟨w, hw, -, heq⟩
  · rw [hleaf, heq] at hpresent
    exact absurd (Nat.zero_and _) hpresent
  · obtain ⟨p, hp, rfl⟩ := List.mem_map.mp hw
    have hkeep := hkernel.keeps.trans hheap.keeps
    obtain ⟨hal, h0, h64, hspare⟩ := (hplaced.frame_of_keeps hr hkeep).1 p hp
    refine ⟨p.frame, hmem p hp, by omega, ?_, ?_⟩
    · rw [hleaf, heq]
      exact lor_land_addressMask hal h64 userProcPage_lt
    · have hframe : p.frame / 4096 * 4096 = p.frame := by omega
      rw [← hframe]
      exact hspare.1

/-- A machine with `n` frames from `0x10000` on. -/
def few (n : ℕ) : Machine :=
  ⟨fun _ => 0, fun i => if i < n then some (0x10000 + 0x1000 * i) else none, 0⟩

/-- A kernel without boot information. -/
def bareKernel : Kernel := ⟨⟨[], 0, 0, []⟩, 0x8000, kernelData, 0x20000⟩

theorem few_ok (n : ℕ) (hn : n < 2 ^ 40) : Ok ∅ (few n) := by
  have hframe {i f : ℕ} (hf : (few n).frames i = some f) : i < n ∧ f = 0x10000 + 0x1000 * i := by
    simp only [few] at hf
    split_ifs at hf with hi
    exact ⟨hi, (Option.some.inj hf).symm⟩
  refine Start.ok ⟨by simp, fun i f _ hf => ?_, fun i j f _ _ hi hj => ?_⟩
  · obtain ⟨hi, rfl⟩ := hframe hf
    exact ⟨by omega, by omega, by omega, by simp⟩
  · have h₁ := (hframe hi).2
    have h₂ := (hframe hj).2
    omega

/-- One page below the stack. `seg_bound` wraps around, so the loop maps the one page. -/
def belowStack : ℕ → BitVec 8 := oneSegment 0 0xFFFF0000FFFFE000 0 0x0000FFFF00003000

/-- With six frames the page and the stack get frames of their own. -/
theorem user_pages_owned_six :
    ∃ pcb' x, parseElf 8 bareKernel (fun _ => belowStack) ⟨0, 0, 0, 0⟩ (few 6) =
        some (0, pcb', x) ∧
      ∃ f, some f ∈ x.pages ∧ f ≠ 0 ∧ vAddrToPAddr x.machine.mem pcb'.pagemap 0xFFFFE000 = f ∧
        f ∉ tables (insert pcb'.pagemap ∅) x.machine.mem := by
  have hrun : (parseElf 8 bareKernel (fun _ => belowStack) ⟨0, 0, 0, 0⟩ (few 6)).map
      (fun z => (z.1, z.2.2.pages, leaf z.2.2.machine.mem z.2.1.pagemap 0xFFFFE000)) =
        some (0, [some 0x15000, some 0x11000], 0x11007) := by decide +kernel
  obtain ⟨⟨r, pcb', x⟩, hcall, heq⟩ := Option.map_eq_some_iff.mp hrun
  simp only [Prod.mk.injEq] at heq
  obtain ⟨rfl, hpages, hleaf⟩ := heq
  refine ⟨pcb', x, hcall, ?_⟩
  refine user_pages_owned (few_ok 6 (by decide)) ?_ ?_ hcall ?_ ?_ _ ?_ ?_
  · simp [bareKernel]
  · simp [bareKernel]
  · simp [few]
  · simp [hpages]
  · rw [hleaf]
    decide
  · rw [hleaf]
    decide

/-- With five frames there is none for the stack, and the null frame is mapped in its place. -/
theorem null_stack_mapped :
    Ok ∅ (few 5) ∧ ∃ pcb' x, parseElf 8 bareKernel (fun _ => belowStack) ⟨0, 0, 0, 0⟩ (few 5) =
        some (0, pcb', x) ∧
      leaf x.machine.mem pcb'.pagemap 0xFFFFF000 &&& present ≠ 0 ∧
      leaf x.machine.mem pcb'.pagemap 0xFFFFF000 &&& userAccessible ≠ 0 ∧
      vAddrToPAddr x.machine.mem pcb'.pagemap 0xFFFFF000 = 0 ∧
      ¬ ∃ f, some f ∈ x.pages ∧ vAddrToPAddr x.machine.mem pcb'.pagemap 0xFFFFF000 = f := by
  have hrun : (parseElf 8 bareKernel (fun _ => belowStack) ⟨0, 0, 0, 0⟩ (few 5)).map
      (fun z => (z.1, z.2.2.pages, leaf z.2.2.machine.mem z.2.1.pagemap 0xFFFFF000)) =
        some (0, [none, some 0x11000], 7) := by decide +kernel
  obtain ⟨⟨r, pcb', x⟩, hcall, heq⟩ := Option.map_eq_some_iff.mp hrun
  simp only [Prod.mk.injEq] at heq
  obtain ⟨rfl, hpages, hleaf⟩ := heq
  have hpaddr : vAddrToPAddr x.machine.mem pcb'.pagemap 0xFFFFF000 = 0 := by
    rw [vAddrToPAddr_eq, hleaf]
    decide
  refine ⟨few_ok 5 (by decide), pcb', x, hcall, ?_, ?_, hpaddr, ?_⟩
  · rw [hleaf]
    decide
  · rw [hleaf]
    decide
  · rintro ⟨f, hf, heq⟩
    rw [hpaddr] at heq
    rw [hpages, ← heq] at hf
    simp at hf

end Vardar.Elf
