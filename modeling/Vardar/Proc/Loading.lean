import Vardar.Proc.KernelHalf

/-!
# What the loader makes of an image

A segment asks for its bytes at its address, with zeros after the bytes of the file. The loop of
`parse_elf` copies whole pages from the start of the segment in the file to the page of its
address, so the bytes are off by the address's offset in its page, and what follows the bytes of
the file comes from the file too. It also counts its rounds from address 0 and not from the start
of the segment, so it maps pages after the segment.

## Main definitions

* `Vardar.Elf.WellFormed`: ascending segments in the lower half.
* `Vardar.Elf.Faithful`: what the segments ask for.
* `Vardar.Elf.Loadable`: the condition on the image under which they get it.

## Main results

* `Vardar.Elf.faithful_iff_loadable`.
* `Vardar.Elf.page_after_segment_user`: a page after a segment that is open to the user.
-/

namespace Vardar.Elf

open ByteMemory Word Vmm LastWrite

/-! ### Segments -/

/-- The page holds a byte of the segment. -/
def Phdr.HasPage (ph : Phdr) (n : ℕ) : Prop := ∃ b < ph.memSize, (ph.vaddr + b) / 4096 = n

/-- The byte that a segment asks for. -/
def Phdr.byte (raw : ℕ → BitVec 8) (ph : Phdr) (b : ℕ) : BitVec 8 :=
  if b < ph.fileSize then raw (ph.offset + b) else 0

/-- The loop over the pages of the segment maps the page. -/
def Phdr.Loads (ph : Phdr) (n : ℕ) : Prop :=
  ph.vaddr / 4096 ≤ n ∧ n < ph.vaddr / 4096 + (ph.vaddr + ph.memSize + 4095) / 4096

/-- The page of the stack. -/
def stackPage : ℕ := defaultStackBase / 4096

/-- The segments lie in the lower half, in ascending order and on different pages, away from the
stack, and have their bytes inside an image of the given size. -/
structure WellFormed (segs : List Phdr) (size : ℕ) : Prop where
  image : size ≤ 2 ^ 47
  file : ∀ ph ∈ segs, ph.offset + ph.fileSize ≤ size
  lower : ∀ ph ∈ segs, ph.vaddr + ph.memSize ≤ 2 ^ 47
  ascending : segs.Pairwise fun a b => a.vaddr + a.memSize ≤ b.vaddr / 4096 * 4096
  stack : ∀ ph ∈ segs, ¬ ph.HasPage stackPage

/-- The byte at a virtual address. -/
def readByte (m : Mem) (root v : ℕ) : BitVec 8 := m (vAddrToPAddr m root v + v % 4096)

/-- All four words of the walk are present and open to the user. -/
def UserCan (m : Mem) (root v : ℕ) : Prop :=
  rights m root v &&& (present ||| userAccessible) = present ||| userAccessible

/-- The user finds the bytes of the segments at their addresses, and has no access to other pages
of the lower half than theirs and the stack's. -/
structure Faithful (raw : ℕ → BitVec 8) (segs : List Phdr) (m : Mem) (root : ℕ) : Prop where
  bytes : ∀ ph ∈ segs, ∀ b < ph.memSize, readByte m root (ph.vaddr + b) = ph.byte raw b
  user : ∀ ph ∈ segs, ∀ b < ph.memSize, UserCan m root (ph.vaddr + b)
  closed : ∀ v < 2 ^ 47, (∀ ph ∈ segs, ¬ ph.HasPage (v / 4096)) → v / 4096 ≠ stackPage →
    ¬ UserCan m root v

/-- `MapKernelPmrs` maps the page to itself. -/
def IdentityPage (info : BootInfo) (n : ℕ) : Prop :=
  ∃ e ∈ info.memmap, (e.type = framebuffer ∨ e.type = bootloaderReclaimable ∨
    0x100000000 < e.base + e.length) ∧ e.base ≤ 4096 * n ∧ 4096 * n < e.base + e.length

/-- The image has the bytes of every segment also where the loop looks for them, no segment is in
the way of the kernel, and the pages the loops map after a segment are pages of other segments, of
the stack or of the kernel. -/
structure Loadable (raw : ℕ → BitVec 8) (info : BootInfo) (segs : List Phdr) : Prop where
  bytes : ∀ ph ∈ segs, ∀ b < ph.memSize,
    raw (ph.offset + (ph.vaddr % 4096 + b)) = ph.byte raw b
  apart : ∀ ph ∈ segs, ∀ n, ph.HasPage n → ¬ IdentityPage info n
  covered : ∀ ph ∈ segs, ∀ n < 2 ^ 35, ph.Loads n →
    (∃ ph' ∈ segs, ph'.HasPage n) ∨ n = stackPage ∨ IdentityPage info n

/-! ### Access for the user -/

variable {m : Mem} {root v : ℕ}

theorem not_userCan_of_leaf (h : leaf m root v &&& userAccessible = 0) : ¬ UserCan m root v := by
  intro hcan
  have hbit := congrArg (fun w => w.testBit 2) hcan
  have hleaf : (leaf m root v).testBit 2 = false := by
    rw [land_userAccessible] at h
    rw [Nat.testBit_eq_decide_div_mod_eq]
    simp only [decide_eq_false_iff_not]
    omega
  have hmod : (flagBits (leaf m root v)).testBit 2 = (leaf m root v).testBit 2 := by
    rw [flagBits, show (512 : ℕ) = 2 ^ 9 by norm_num, Nat.testBit_mod_two_pow]
    rfl
  simp only [rights, Nat.testBit_and, hmod, hleaf, Bool.and_false, Bool.false_and] at hbit
  exact absurd hbit (by decide)

theorem userCan_of_flagBits
    (h₄ : flagBits (word m root [] (vAddrIndex v 4)) = userProcPage)
    (h₃ : flagBits (word m root [vAddrIndex v 4] (vAddrIndex v 3)) = userProcPage)
    (h₂ : flagBits (word m root [vAddrIndex v 4, vAddrIndex v 3] (vAddrIndex v 2)) = userProcPage)
    (h₁ : flagBits (leaf m root v) = userProcPage) : UserCan m root v := by
  rw [UserCan, rights, h₄, h₃, h₂, h₁]
  rfl

variable {R : Set ℕ} {s s' s'' : Machine} {ps : List Placement}

/-- A placement that is still in place is open to the user. -/
theorem Placed.userCan (h : Placed R root s s' ps) (hr : root ∈ R) (hl : UserLinks s.mem root)
    (hk : Keeps R s' s'') {p : Placement} (hp : p ∈ ps) (hpage : pageNumber p.vaddr = pageNumber v)
    (hleaf : leaf s''.mem root v = p.frame ||| userProcPage) : UserCan s''.mem root v := by
  obtain ⟨hal, -⟩ := h.frame p hp
  have hidx := (pageNumber_eq_iff _ _).mp hpage
  have hup : ∀ q i, q ++ [i] <+: indices v → flagBits (word s''.mem root q i) = userProcPage := by
    intro q i hpre
    have hlen := hpre.length_le
    simp only [List.length_append, List.length_singleton, length_indices] at hlen
    have hodd := h.path p hp q i (hidx.1 ▸ hpre)
    rw [hk.links root hr q i (by omega) hodd]
    exact h.links hl q i (by omega) hodd
  refine userCan_of_flagBits (hup _ _ ?_) (hup _ _ ?_) (hup _ _ ?_) ?_
  · exact ⟨[vAddrIndex v 3, vAddrIndex v 2], rfl⟩
  · exact ⟨[vAddrIndex v 2], rfl⟩
  · exact ⟨[], rfl⟩
  · rw [flagBits, hleaf, lor_flags (by omega) userProcPage_lt, show userProcPage = 7 from rfl]
    omega

/-! ### The kernel's ranges in the lower half -/

variable {info : BootInfo}

/-- Below the higher half, `MapKernelPmrs` writes the identity-mapped pages. -/
theorem identityPage_of_write (hb : info.Ok) (hes : ∀ e ∈ info.memmap, e.base % 4096 = 0)
    (hends : ∀ pmr ∈ info.pmrs, ∃ n, (pmrRange info pmr).bound ≤ (pmrRange info pmr).addr n)
    {q : Range} (hq : q ∈ kernelRanges info) {n : ℕ} (hn : q.Visits n)
    (hlow : (q.write n).1 < 2 ^ 35) : IdentityPage info (q.write n).1 := by
  have hentry (e : MmapEntry) (he : e ∈ info.memmap) :
      e.base < 2 ^ 64 ∧ add64 e.base e.length = e.base + e.length ∧
        e.base + e.length ≤ 0x7fff80000000 := by
    have hm := hb.memmap e he
    exact ⟨by omega, add64_of_lt (by omega), hm⟩
  have hhigh (e : MmapEntry) (he : e ∈ info.memmap) (hn : (entryRange e kernelData).Visits n)
      (hlow : ((entryRange e kernelData).write n).1 < 2 ^ 35) : False := by
    obtain ⟨h64, hsum, hle⟩ := hentry e he
    obtain ⟨-, hw⟩ := Range.write_kernelData (q := entryRange e kernelData) rfl h64
      (hsum.le.trans hle) hn
    rw [hw] at hlow
    dsimp only at hlow
    omega
  have hident (e : MmapEntry) (he : e ∈ info.memmap) (hn : (entryRange e 0).Visits n)
      (htype : e.type = framebuffer ∨ e.type = bootloaderReclaimable ∨
        0x100000000 < e.base + e.length) : IdentityPage info ((entryRange e 0).write n).1 := by
    obtain ⟨h64, hsum, hle⟩ := hentry e he
    obtain ⟨hlt, hw⟩ := Range.write_identity (q := entryRange e 0) rfl h64 (hsum.le.trans hle) hn
    have hal := hes e he
    change e.base + 4096 * n < add64 e.base e.length at hlt
    refine ⟨e, he, htype, ?_⟩
    rw [hw]
    change e.base ≤ 4096 * ((e.base + 4096 * n) / 4096) ∧
      4096 * ((e.base + 4096 * n) / 4096) < e.base + e.length
    omega
  rcases hq with rfl | ⟨pmr, hpmr, rfl⟩ | ⟨e, he, ⟨ht, rfl⟩ | ⟨-, rfl⟩ | ⟨ht, rfl | rfl⟩⟩
  · rw [(lowRange_write_kernelData hn).2] at hlow
    dsimp only at hlow
    omega
  · obtain ⟨hin, hw⟩ := pmrRange_write hb hpmr (hends pmr hpmr) hn
    obtain ⟨hal, hlo, hhi, -⟩ := hb.pmr pmr hpmr
    rw [hw] at hlow
    simp only [pageNumber, frameSize] at hlow
    omega
  · exact hident e he hn (ht.imp id Or.inl)
  · exact (hhigh e he hn hlow).elim
  · refine hident e he hn (.inr (.inr ?_))
    rw [(hentry e he).2.1] at ht
    omega
  · exact (hhigh e he hn hlow).elim

/-- Every identity-mapped page is written by a range of `MapKernelPmrs`. -/
theorem exists_write_of_identityPage (hb : info.Ok) (hes : ∀ e ∈ info.memmap, e.base % 4096 = 0)
    {n : ℕ} (h : IdentityPage info n) :
    ∃ q ∈ kernelRanges info, ∃ j, q.Visits j ∧ (q.write j).1 = n := by
  obtain ⟨e, he, htype, hlo, hhi⟩ := h
  have hm := hb.memmap e he
  have hal := hes e he
  have hsum : add64 e.base e.length = e.base + e.length := add64_of_lt (by omega)
  have hmem : entryRange e 0 ∈ kernelRanges info := by
    refine .inr (.inr ⟨e, he, ?_⟩)
    rcases htype with ht | ht | ht
    · exact .inl ⟨.inl ht, rfl⟩
    · exact .inl ⟨.inr ht, rfl⟩
    · refine .inr (.inr ⟨?_, .inl rfl⟩)
      rw [hsum]
      omega
  have hbound : (entryRange e 0).bound = e.base + e.length := hsum
  have hvisit : (entryRange e 0).Visits (n - e.base / 4096) := by
    refine Range.visits_of_lt (by omega) ?_
    rw [hbound, frameSize]
    change e.base + 4096 * (n - e.base / 4096) < _
    omega
  refine ⟨_, hmem, _, hvisit, ?_⟩
  rw [(Range.write_identity (q := entryRange e 0) rfl (by change e.base < _; omega) (by omega)
    hvisit).2]
  change (e.base + 4096 * (n - e.base / 4096)) / 4096 = n
  omega

/-! ### The pages of the plan -/

section Plan

variable {raw : ℕ → BitVec 8} {segs : List Phdr} {size : ℕ} {ph : Phdr}

theorem segBound_eq (h : ph.vaddr + ph.memSize ≤ 2 ^ 47) :
    ph.segBound = (ph.vaddr + ph.memSize + 4095) / 4096 * 4096 := by
  have hsum : add64 ph.vaddr ph.memSize = ph.vaddr + ph.memSize := add64_of_lt (by omega)
  rw [Phdr.segBound, hsum, roundUp, Nat.shiftLeft_eq, Nat.shiftRight_eq_div_pow,
    show (1 <<< 12 : ℕ) = 4096 from rfl, add64_of_lt (by omega), sub64_of_le (by omega) (by omega)]
  omega

/-- Round `i` of the loop maps the page `i` after the first one. -/
theorem pageNumber_pageAt (h : ph.vaddr + ph.memSize ≤ 2 ^ 47) {i : ℕ}
    (hi : i < ph.segBound / 4096) : pageNumber (pageAt ph i).1 = ph.vaddr / 4096 + i := by
  rw [segBound_eq h] at hi
  rw [pageAt, add64_of_lt (by omega), pageNumber, frameSize]
  omega

theorem mem_pagePlan {i : ℕ} {page : ℕ × ℕ} (h : page ∈ pagePlan ph i) :
    ∃ j, i ≤ j ∧ j < ph.segBound / 4096 ∧ page = pageAt ph j := by
  obtain ⟨j, hj, rfl⟩ := List.mem_map.mp h
  rw [List.mem_range'_1] at hj
  exact ⟨j, hj.1, by omega, rfl⟩

theorem range'_split {i n : ℕ} (h : i < n) :
    List.range' 0 (n - 0) = List.range' 0 i ++ i :: List.range' (i + 1) (n - (i + 1)) := by
  rw [← range'_step h, show n - 0 = i + (n - i) by omega, ← List.range'_append_1, Nat.zero_add]

theorem pagePlan_split {i : ℕ} (hi : i < ph.segBound / 4096) :
    pagePlan ph 0 =
      (List.range' 0 i).map (pageAt ph) ++ pageAt ph i :: pagePlan ph (i + 1) := by
  have hmap := congrArg (List.map (pageAt ph)) (range'_split hi)
  rw [List.map_append, List.map_cons] at hmap
  exact hmap

/-- The plan up to a page of a segment and after it. -/
theorem plan_split {i : ℕ} (hph : ph ∈ segs) (hi : i < ph.segBound / 4096) :
    ∃ l₁ l₂ xs, segs = l₁ ++ ph :: l₂ ∧ segs.flatMap (fun ph => pagePlan ph 0) =
      xs ++ pageAt ph i :: (pagePlan ph (i + 1) ++ l₂.flatMap fun ph => pagePlan ph 0) := by
  obtain ⟨l₁, l₂, rfl⟩ := List.append_of_mem hph
  refine ⟨l₁, l₂, l₁.flatMap (fun ph => pagePlan ph 0) ++ (List.range' 0 i).map (pageAt ph),
    rfl, ?_⟩
  rw [List.flatMap_append, List.flatMap_cons, pagePlan_split hi, List.append_assoc,
    List.append_assoc, List.cons_append]

/-- After the round for a page of a segment, the plan does not come back to the page. -/
theorem plan_rest_ne (hwf : WellFormed segs size) {l₁ l₂ : List Phdr}
    (hsegs : segs = l₁ ++ ph :: l₂) {b : ℕ} (hb : b < ph.memSize) {page : ℕ × ℕ}
    (hpage : page ∈ pagePlan ph ((ph.vaddr + b) / 4096 - ph.vaddr / 4096 + 1) ++
      l₂.flatMap fun ph => pagePlan ph 0) : pageNumber page.1 ≠ (ph.vaddr + b) / 4096 := by
  have hmem : ph ∈ segs := hsegs ▸ List.mem_append_right _ List.mem_cons_self
  rcases List.mem_append.mp hpage with hpage | hpage
  · obtain ⟨j, hj, hlt, rfl⟩ := mem_pagePlan hpage
    rw [pageNumber_pageAt (hwf.lower ph hmem) hlt]
    omega
  · obtain ⟨ph', hph', hpage⟩ := List.mem_flatMap.mp hpage
    obtain ⟨j, -, hlt, rfl⟩ := mem_pagePlan hpage
    have hmem' : ph' ∈ segs := hsegs ▸ List.mem_append_right _ (List.mem_cons_of_mem _ hph')
    have hasc := hwf.ascending
    rw [hsegs, List.pairwise_append] at hasc
    have hle := (List.pairwise_cons.mp hasc.2.1).1 ph' hph'
    rw [pageNumber_pageAt (hwf.lower ph' hmem') hlt]
    omega

/-- The frame at a page of a segment. -/
theorem last_segment_page (hwf : WellFormed segs size) {ps : List Placement}
    (hfits : List.Forall₂ (Fits raw) (segs.flatMap fun ph => pagePlan ph 0) ps) (hph : ph ∈ segs)
    {b : ℕ} (hb : b < ph.memSize) (old : ℕ) :
    ∃ p ∈ ps, pageNumber p.vaddr = (ph.vaddr + b) / 4096 ∧
      p.bytes ((ph.vaddr + b) % 4096) = raw (ph.offset + (ph.vaddr % 4096 + b)) ∧
      last (ps.map Placement.write) ((ph.vaddr + b) / 4096) old = p.frame ||| userProcPage := by
  have hlower := hwf.lower ph hph
  have hfile := hwf.file ph hph
  have himage := hwf.image
  have hi : (ph.vaddr + b) / 4096 - ph.vaddr / 4096 < ph.segBound / 4096 := by
    rw [segBound_eq hlower]
    omega
  have hpage : pageNumber (pageAt ph ((ph.vaddr + b) / 4096 - ph.vaddr / 4096)).1 =
      (ph.vaddr + b) / 4096 := by
    rw [pageNumber_pageAt hlower hi]
    omega
  obtain ⟨l₁, l₂, xs, hsegs, hplan⟩ := plan_split hph hi
  rw [hplan] at hfits
  have hkey : ∀ (page : ℕ × ℕ) (p : Placement), Fits raw page p →
      p.write.1 = pageNumber page.1 := fun page p hfit => congrArg pageNumber hfit.1
  obtain ⟨p, hp, hfit, hlast⟩ := last_of_plan hkey hfits hpage
    (fun page hmem => plan_rest_ne hwf hsegs hb hmem) old
  refine ⟨p, hp, (congrArg pageNumber hfit.1).trans hpage, ?_, hlast⟩
  have hoff : (pageAt ph ((ph.vaddr + b) / 4096 - ph.vaddr / 4096)).2 +
      (ph.vaddr + b) % 4096 = ph.offset + (ph.vaddr % 4096 + b) := by
    change add64 ph.offset _ + _ = _
    rw [add64_of_lt (by omega)]
    omega
  rw [hfit.2 _ (Nat.mod_lt _ (by decide)), hoff]

end Plan

/-! ### The state after `parse_elf` -/

section Loaded

variable {k : Kernel} {raw : ℕ → BitVec 8} {pcb pcb' : Pcb} {x : Load} {fuel size : ℕ}

/-- The heap's range writes pages of the higher half. -/
theorem heapRange_high (hheap : vAddrToPAddr m k.root k.heapStart + roundUp k.heapSize ≤
    0x7fff80000000) {n : ℕ} (hn : (heapRange k m).Visits n) :
    2 ^ 35 ≤ ((heapRange k m).write n).1 := by
  have hbound : (heapRange k m).bound ≤ 0x7fff80000000 := by
    change add64 _ _ ≤ _
    rw [add64_of_lt (by omega)]
    exact hheap
  rw [(Range.write_kernelData (q := heapRange k m) rfl (vAddrToPAddr_lt _ _ _) hbound hn).2]
  exact Nat.le_add_right _ _

/-- The loader's placements, and the words of the lower half after the kernel's mappings. -/
structure Loaded (R : Set ℕ) (info : BootInfo) (raw : ℕ → BitVec 8) (root : ℕ) (s₀ s₁ s' : Machine)
    (ps qs : List Placement) : Prop where
  placed : Placed (insert root R) root s₀ s₁ (ps ++ qs)
  keeps : Keeps (insert root R) s₁ s'
  links : UserLinks s₀.mem root
  start : ∀ v, leaf s₀.mem root v = 0
  fits : List.Forall₂ (Fits raw) ((segmentsFrom raw (phdrOffset raw) 0).flatMap
    fun ph => pagePlan ph 0) ps
  stack : qs.map Placement.vaddr = [defaultStackBase]
  identity : ∀ v, pageNumber v < 2 ^ 35 → IdentityPage info (pageNumber v) →
    leaf s'.mem root v &&& userAccessible = 0
  other : ∀ v, pageNumber v < 2 ^ 35 → ¬ IdentityPage info (pageNumber v) →
    leaf s'.mem root v = leaf s₁.mem root v

theorem loaded_of_parseElf (h : Ok R s) (hk : k.root ∈ R) (hb : k.info.Ok)
    (hes : ∀ e ∈ k.info.memmap, e.base % 4096 = 0)
    (hheap : vAddrToPAddr s.mem k.root k.heapStart + roundUp k.heapSize ≤ 0x7fff80000000)
    (hcall : parseElf fuel k (fun _ => raw) pcb s = some (0, pcb', x))
    (hno : NoFail s x.machine) :
    ∃ s₀ s₁ ps qs, Loaded R k.info raw pcb'.pagemap s₀ s₁ x.machine ps qs := by
  obtain ⟨hfirst, hnone⟩ := parseElf_noFail hcall hno
  obtain ⟨root, hroot⟩ := Option.ne_none_iff_exists'.mp hfirst
  obtain ⟨rfl, s₁, s₂, ps, qs, full, full', hplaced, -, hkernel, hheap', hfull⟩ :=
    parseElf_spec h hroot hb.base_lt hcall hnone
  obtain ⟨hfull, hstack, hfits⟩ := hfull hno
  obtain ⟨-, hzero, -⟩ := h.newRoot hroot
  have hr : pcb'.pagemap ∈ insert pcb'.pagemap R := Set.mem_insert _ _
  have hends : ∀ pmr ∈ k.info.pmrs,
      ∃ n, (pmrRange k.info pmr).bound ≤ (pmrRange k.info pmr).addr n := fun pmr hpmr =>
    hkernel.ends (hfull (.inr (.inl ⟨pmr, hpmr, rfl⟩)))
  have haligned {q : Range} (hq : q ∈ kernelRanges k.info) (n : ℕ) :
      (q.write n).2 &&& userAccessible = 0 := by
    obtain ⟨hal, hflags⟩ := kernelRanges_aligned hes
      (fun pmr hpmr => physAt_aligned hb (hb.pmr pmr hpmr).1) hq
    exact write_land_userAccessible (by omega) hflags n
  -- the heap is mapped in the higher half
  have hheap_eq (v : ℕ) (hv : pageNumber v < 2 ^ 35) :
      leaf x.machine.mem pcb'.pagemap v = leaf s₂.mem pcb'.pagemap v := by
    refine hheap'.leaf_unchanged hr ?_
    rintro q rfl n hn hkey
    have hsame : vAddrToPAddr s₂.mem k.root k.heapStart =
        vAddrToPAddr s.mem k.root k.heapStart := by
      rw [vAddrToPAddr_eq, vAddrToPAddr_eq, leaf_other h hroot hplaced hkernel hk]
    rw [← hsame] at hheap
    have hhigh := heapRange_high hheap hn
    omega
  have hfits := hfits raw fun _ => rfl
  rw [segmentPlan] at hfits
  refine ⟨s.take (some pcb'.pagemap), s₁, ps, qs, hplaced, hkernel.keeps.trans hheap'.keeps, ?_,
    fun v => hzero _ _, hfits, hstack, fun v hv hid => ?_, fun v hv hid => ?_⟩
  · intro p i _ hodd
    rw [hzero] at hodd
    omega
  · obtain ⟨q, hq, n, hn, hkey⟩ := exists_write_of_identityPage hb hes hid
    rw [hheap_eq v hv]
    obtain ⟨ws, hm, hsound, hcomplete⟩ := hkernel
    rw [hm.leaf_eq _ hr, if_pos rfl]
    obtain ⟨w, hw, -, heq⟩ :=
      last_of_exists (leaf s₁.mem pcb'.pagemap v) ⟨_, (hcomplete q (hfull hq)).2 n hn, hkey⟩
    obtain ⟨q', hq', n', -, rfl⟩ := hsound w hw
    rw [heq]
    exact haligned hq' n'
  · rw [hheap_eq v hv]
    refine hkernel.leaf_unchanged hr fun q hq n hn hkey => hid ?_
    rw [← hkey] at hv ⊢
    exact identityPage_of_write hb hes hends hq hn hv

namespace Loaded

variable {root : ℕ} {info : BootInfo} {s₀ s₁ s' : Machine} {ps qs : List Placement} {v : ℕ}

theorem leaf_eq (h : Loaded R info raw root s₀ s₁ s' ps qs) (v : ℕ) :
    leaf s₁.mem root v = last ((ps ++ qs).map Placement.write) (pageNumber v) 0 := by
  rw [h.placed.maps.leaf_eq root (Set.mem_insert _ _) v, if_pos rfl, h.start]

/-- The stack's placement is at the stack's page. -/
theorem stack_page (h : Loaded R info raw root s₀ s₁ s' ps qs) {p : Placement} (hp : p ∈ qs) :
    pageNumber p.vaddr = stackPage := by
  have hmem : p.vaddr ∈ qs.map Placement.vaddr := List.mem_map_of_mem hp
  rw [h.stack, List.mem_singleton] at hmem
  rw [hmem]
  decide

/-- A page with a placement is open to the user unless it is identity mapped. -/
theorem userCan_of_placement (h : Loaded R info raw root s₀ s₁ s' ps qs)
    (hv : pageNumber v < 2 ^ 35) (hid : ¬ IdentityPage info (pageNumber v)) {p : Placement}
    (hp : p ∈ ps ++ qs) (hpage : pageNumber p.vaddr = pageNumber v) : UserCan s'.mem root v := by
  obtain ⟨w, hw, hkey, heq⟩ := last_of_exists 0 ⟨p.write, List.mem_map_of_mem hp, hpage⟩
  obtain ⟨p', hp', rfl⟩ := List.mem_map.mp hw
  have hleaf : leaf s'.mem root v = p'.frame ||| userProcPage := by
    rw [h.other v hv hid, h.leaf_eq, heq]
    rfl
  exact h.placed.userCan (Set.mem_insert _ _) h.links h.keeps hp' hkey hleaf

/-- A page without a placement is closed. -/
theorem not_userCan (h : Loaded R info raw root s₀ s₁ s' ps qs) (hv : pageNumber v < 2 ^ 35)
    (hno : ∀ p ∈ ps ++ qs, pageNumber p.vaddr ≠ pageNumber v) : ¬ UserCan s'.mem root v := by
  refine not_userCan_of_leaf ?_
  by_cases hid : IdentityPage info (pageNumber v)
  · exact h.identity v hv hid
  · rw [h.other v hv hid, h.leaf_eq, last_of_forall_ne]
    · exact Nat.zero_and _
    · rintro w hw
      obtain ⟨p, hp, rfl⟩ := List.mem_map.mp hw
      exact hno p hp

/-- The page of a byte of a segment. -/
theorem segment_page (hwf : WellFormed (segmentsFrom raw (phdrOffset raw) 0) size) {ph : Phdr}
    (hph : ph ∈ segmentsFrom raw (phdrOffset raw) 0) {b : ℕ} (hb : b < ph.memSize) :
    pageNumber (ph.vaddr + b) = (ph.vaddr + b) / 4096 ∧ (ph.vaddr + b) / 4096 < 2 ^ 35 := by
  have hlower := hwf.lower ph hph
  simp only [pageNumber, frameSize]
  omega

/-- What the user finds at an address of a segment. -/
theorem segment (h : Loaded R info raw root s₀ s₁ s' ps qs)
    (hwf : WellFormed (segmentsFrom raw (phdrOffset raw) 0) size) {ph : Phdr}
    (hph : ph ∈ segmentsFrom raw (phdrOffset raw) 0) {b : ℕ} (hb : b < ph.memSize)
    (hid : ¬ IdentityPage info ((ph.vaddr + b) / 4096)) :
    UserCan s'.mem root (ph.vaddr + b) ∧
      readByte s'.mem root (ph.vaddr + b) = raw (ph.offset + (ph.vaddr % 4096 + b)) := by
  obtain ⟨hpage, hlt⟩ := segment_page hwf hph hb
  have hr : root ∈ insert root R := Set.mem_insert _ _
  obtain ⟨p, hp, hkey, hbyte, hlast⟩ := last_segment_page hwf h.fits hph hb 0
  have hp' : p ∈ ps ++ qs := List.mem_append_left _ hp
  have hleaf : leaf s'.mem root (ph.vaddr + b) = p.frame ||| userProcPage := by
    rw [h.other _ (hpage ▸ hlt) (hpage ▸ hid), h.leaf_eq, List.map_append, last_append, hpage, hlast]
    refine last_of_forall_ne fun w hw hstack => ?_
    obtain ⟨p', hp', rfl⟩ := List.mem_map.mp hw
    exact hwf.stack ph hph ⟨b, hb, hstack.symm.trans (h.stack_page hp')⟩
  obtain ⟨hframe, hbytes, -⟩ := h.placed.frame_of_keeps hr h.keeps
  obtain ⟨hal, -, h64, -⟩ := hframe p hp'
  refine ⟨h.placed.userCan hr h.links h.keeps hp' (hkey.trans hpage.symm) hleaf, ?_⟩
  rw [readByte, vAddrToPAddr_eq, hleaf, lor_land_addressMask hal h64 userProcPage_lt,
    hbytes p hp' _ (Nat.mod_lt _ (by decide)), hbyte]

/-- Every page the loops map has a placement. -/
theorem exists_placement (h : Loaded R info raw root s₀ s₁ s' ps qs)
    (hwf : WellFormed (segmentsFrom raw (phdrOffset raw) 0) size) {ph : Phdr}
    (hph : ph ∈ segmentsFrom raw (phdrOffset raw) 0) {n : ℕ} (hn : ph.Loads n) :
    ∃ p ∈ ps ++ qs, pageNumber p.vaddr = n := by
  obtain ⟨hlo, hhi⟩ := hn
  have hlower := hwf.lower ph hph
  have hi : n - ph.vaddr / 4096 < ph.segBound / 4096 := by
    rw [segBound_eq hlower]
    omega
  have hmem : pageAt ph (n - ph.vaddr / 4096) ∈ (segmentsFrom raw (phdrOffset raw) 0).flatMap
      fun ph => pagePlan ph 0 := by
    obtain ⟨l₁, l₂, xs, -, hplan⟩ := plan_split hph hi
    rw [hplan]
    exact List.mem_append_right _ List.mem_cons_self
  obtain ⟨p, hp, hfit⟩ := exists_of_forall₂_left h.fits hmem
  refine ⟨p, List.mem_append_left _ hp, ?_⟩
  rw [hfit.1, pageNumber_pageAt hlower hi]
  omega

/-- Every placement is at a page the loops map, or the stack's. -/
theorem loads_of_placement (h : Loaded R info raw root s₀ s₁ s' ps qs)
    (hwf : WellFormed (segmentsFrom raw (phdrOffset raw) 0) size) {p : Placement}
    (hp : p ∈ ps ++ qs) :
    (∃ ph ∈ segmentsFrom raw (phdrOffset raw) 0, ph.Loads (pageNumber p.vaddr)) ∨
      pageNumber p.vaddr = stackPage := by
  rcases List.mem_append.mp hp with hp | hp
  · obtain ⟨page, hpage, hfit⟩ := exists_of_forall₂ h.fits hp
    obtain ⟨ph, hph, hmem⟩ := List.mem_flatMap.mp hpage
    obtain ⟨j, -, hj, rfl⟩ := mem_pagePlan hmem
    have hlower := hwf.lower ph hph
    refine .inl ⟨ph, hph, ?_⟩
    rw [hfit.1, pageNumber_pageAt hlower hj]
    rw [segBound_eq hlower] at hj
    exact ⟨by omega, by omega⟩
  · exact .inr (h.stack_page hp)

end Loaded

/-- **What the loader makes of an image.** For a well-formed image and enough frames, the user
finds what the segments ask for, and nothing else, if and only if the image is loadable. -/
theorem faithful_iff_loadable (h : Ok R s) (hk : k.root ∈ R) (hb : k.info.Ok)
    (hes : ∀ e ∈ k.info.memmap, e.base % 4096 = 0)
    (hheap : vAddrToPAddr s.mem k.root k.heapStart + roundUp k.heapSize ≤ 0x7fff80000000)
    (hwf : WellFormed (segmentsFrom raw (phdrOffset raw) 0) size)
    (hcall : parseElf fuel k (fun _ => raw) pcb s = some (0, pcb', x))
    (hno : NoFail s x.machine) :
    Faithful raw (segmentsFrom raw (phdrOffset raw) 0) x.machine.mem pcb'.pagemap ↔
      Loadable raw k.info (segmentsFrom raw (phdrOffset raw) 0) := by
  obtain ⟨s₀, s₁, ps, qs, hl⟩ := loaded_of_parseElf h hk hb hes hheap hcall hno
  constructor
  · intro hf
    have hapart : ∀ ph ∈ segmentsFrom raw (phdrOffset raw) 0, ∀ n, ph.HasPage n →
        ¬ IdentityPage k.info n := by
      rintro ph hph n ⟨b, hb', rfl⟩ hid
      obtain ⟨hpage, hlt⟩ := Loaded.segment_page hwf hph hb'
      rw [← hpage] at hid hlt
      exact not_userCan_of_leaf (hl.identity _ hlt hid) (hf.user ph hph b hb')
    refine ⟨fun ph hph b hb' => ?_, hapart, fun ph hph n hn hloads => ?_⟩
    · have hid := hapart ph hph _ ⟨b, hb', rfl⟩
      rw [← (hl.segment hwf hph hb' hid).2]
      exact hf.bytes ph hph b hb'
    · by_contra hno'
      simp only [not_or, not_exists, not_and] at hno'
      obtain ⟨hpages, hstack, hid⟩ := hno'
      have hdiv : 4096 * n / 4096 = n := by omega
      have hpage : pageNumber (4096 * n) = n := by
        simp only [pageNumber, frameSize]
        omega
      obtain ⟨p, hp, hpn⟩ := hl.exists_placement hwf hph hloads
      refine hf.closed (4096 * n) (by omega) ?_ ?_ ?_
      · rw [hdiv]
        exact hpages
      · rwa [hdiv]
      · exact hl.userCan_of_placement (hpage.symm ▸ hn) (hpage.symm ▸ hid) hp (hpn.trans hpage.symm)
  · intro hc
    refine ⟨fun ph hph b hb' => ?_, fun ph hph b hb' => ?_, fun v hv hpages hstack hcan => ?_⟩
    · rw [(hl.segment hwf hph hb' (hc.apart ph hph _ ⟨b, hb', rfl⟩)).2]
      exact hc.bytes ph hph b hb'
    · exact (hl.segment hwf hph hb' (hc.apart ph hph _ ⟨b, hb', rfl⟩)).1
    · have hpage : pageNumber v = v / 4096 := by
        simp only [pageNumber, frameSize]
        omega
      have hlt : pageNumber v < 2 ^ 35 := by omega
      refine hl.not_userCan hlt (fun p hp hpn => ?_) hcan
      rcases hl.loads_of_placement hwf hp with ⟨ph, hph, hloads⟩ | hst
      · rw [hpn] at hloads
        rcases hc.covered ph hph _ hlt hloads with ⟨ph', hph', hhas⟩ | hst | hid
        · exact hpages ph' hph' (hpage ▸ hhas)
        · exact hstack (hpage ▸ hst)
        · exact not_userCan_of_leaf (hl.identity v hlt hid) hcan
      · exact hstack (hpage.symm.trans (hpn.symm.trans hst))

end Loaded

/-! ### Two images -/

/-- The small kernel's heap is where it was put. -/
theorem smallKernel_heap {s₁ : Machine} (hboot : initPageTable (2 ^ 20 + 1) smallKernel.info
    (plenty fun _ => 0) = some (true, smallKernel.root, s₁)) :
    vAddrToPAddr s₁.mem smallKernel.root smallKernel.heapStart + roundUp smallKernel.heapSize ≤
      0x7fff80000000 := by
  have htrans : vAddrToPAddr s₁.mem smallKernel.root (kernelData + 0x7ff00000) = 0x7ff00000 :=
    kernelData_translation (start_plenty fun _ => 0) smallInfo_ok hboot rfl (by decide)
      (by decide)
  rw [show smallKernel.heapStart = kernelData + 0x7ff00000 from Nat.add_comm _ _, htrans]
  decide +kernel

/-- Its framebuffer is all that is mapped to itself in a process. -/
theorem identityPage_smallKernel {n : ℕ} (h : IdentityPage smallKernel.info n) :
    0xFD000 ≤ n ∧ n < 0xFD300 := by
  obtain ⟨e, he, hkind, hlo, hhi⟩ := h
  simp only [smallKernel, smallInfo, List.mem_cons, List.not_mem_nil, or_false] at he
  rcases he with rfl | rfl
  · exact absurd hkind (by decide)
  · dsimp only at hlo hhi
    omega

/-- One page of bytes for the first page of the address space, where the loop starts counting. -/
def pageZero : ℕ → BitVec 8 := oneSegment 0x1000 0 0x1000 0x1000

/-- The same page of bytes for the second page. -/
def pageOne : ℕ → BitVec 8 := oneSegment 0x1000 0x1000 0x1000 0x1000

theorem segments_pageZero :
    segmentsFrom pageZero (phdrOffset pageZero) 0 = [⟨1, 0x1000, 0, 0x1000, 0x1000⟩] := by
  decide +kernel

theorem segments_pageOne :
    segmentsFrom pageOne (phdrOffset pageOne) 0 = [⟨1, 0x1000, 0x1000, 0x1000, 0x1000⟩] := by
  decide +kernel

theorem wellFormed_single {ph : Phdr} {size : ℕ} (himage : size ≤ 2 ^ 47)
    (hfile : ph.offset + ph.fileSize ≤ size) (hlower : ph.vaddr + ph.memSize ≤ 0x100000) :
    WellFormed [ph] size := by
  refine ⟨himage, ?_, ?_, List.pairwise_singleton _ _, ?_⟩
  · simpa using hfile
  · simp only [List.mem_singleton, forall_eq]
    omega
  · simp only [List.mem_singleton, forall_eq]
    rintro ⟨b, hb, heq⟩
    simp only [stackPage, defaultStackBase] at heq
    omega

theorem loadable_pageZero :
    Loadable pageZero smallKernel.info (segmentsFrom pageZero (phdrOffset pageZero) 0) := by
  rw [segments_pageZero]
  refine ⟨?_, ?_, ?_⟩
  · simp only [List.mem_singleton, forall_eq, Phdr.byte]
    intro b hb
    rw [if_pos hb, Nat.zero_mod, Nat.zero_add]
  · simp only [List.mem_singleton, forall_eq]
    rintro n ⟨b, hb, rfl⟩ hid
    have hlow := (identityPage_smallKernel hid).1
    dsimp only at hb hlow
    omega
  · simp only [List.mem_singleton, forall_eq, exists_eq_left]
    rintro n - ⟨-, hn⟩
    refine .inl ⟨0, by decide, ?_⟩
    dsimp only at hn ⊢
    omega

/-- The image for the first page is loaded as it asks for. -/
theorem faithful_pageZero :
    ∃ s₁ pcb' x, initPageTable (2 ^ 20 + 1) smallKernel.info (plenty fun _ => 0) =
        some (true, smallKernel.root, s₁) ∧
      parseElf (2 ^ 20 + 1) smallKernel (fun _ => pageZero) ⟨0, 0, 0, 0⟩ s₁ = some (0, pcb', x) ∧
      Faithful pageZero (segmentsFrom pageZero (phdrOffset pageZero) 0) x.machine.mem
        pcb'.pagemap := by
  obtain ⟨s₁, hboot, hok, hframes, hnext⟩ := smallKernel_boots
  obtain ⟨pcb', x, hcall, hno⟩ := smallKernel_loads hok hframes hnext
    (show strncmp pageZero elfMagic 4 = 0 by decide +kernel) (by decide +kernel)
    (by decide +kernel) (by decide +kernel)
  have hwf : WellFormed (segmentsFrom pageZero (phdrOffset pageZero) 0) 0x2000 := by
    rw [segments_pageZero]
    exact wellFormed_single (by decide) (by decide) (by decide)
  refine ⟨s₁, pcb', x, hboot, hcall, (faithful_iff_loadable hok rfl smallInfo_ok
    smallKernel_aligned (smallKernel_heap hboot) hwf hcall hno).mpr loadable_pageZero⟩

/-- The loop for the second page counts from the first, and leaves the third page open to the
user. -/
theorem page_after_segment_user :
    ∃ s₁ pcb' x, initPageTable (2 ^ 20 + 1) smallKernel.info (plenty fun _ => 0) =
        some (true, smallKernel.root, s₁) ∧
      WellFormed (segmentsFrom pageOne (phdrOffset pageOne) 0) 0x2000 ∧
      parseElf (2 ^ 20 + 1) smallKernel (fun _ => pageOne) ⟨0, 0, 0, 0⟩ s₁ = some (0, pcb', x) ∧
      NoFail s₁ x.machine ∧ UserCan x.machine.mem pcb'.pagemap 0x2000 ∧
      ¬ Faithful pageOne (segmentsFrom pageOne (phdrOffset pageOne) 0) x.machine.mem
        pcb'.pagemap := by
  obtain ⟨s₁, hboot, hok, hframes, hnext⟩ := smallKernel_boots
  obtain ⟨pcb', x, hcall, hno⟩ := smallKernel_loads hok hframes hnext
    (show strncmp pageOne elfMagic 4 = 0 by decide +kernel) (by decide +kernel)
    (by decide +kernel) (by decide +kernel)
  have hwf : WellFormed (segmentsFrom pageOne (phdrOffset pageOne) 0) 0x2000 := by
    rw [segments_pageOne]
    exact wellFormed_single (by decide) (by decide) (by decide)
  obtain ⟨s₀, s₁', ps, qs, hl⟩ := loaded_of_parseElf hok rfl smallInfo_ok smallKernel_aligned
    (smallKernel_heap hboot) hcall hno
  obtain ⟨p, hp, hpage⟩ := hl.exists_placement hwf (n := 2)
    (segments_pageOne ▸ List.mem_singleton.mpr rfl) ⟨by decide, by decide⟩
  have hpn : pageNumber 0x2000 = 2 := by decide
  have hid : ¬ IdentityPage smallKernel.info (pageNumber 0x2000) := by
    intro hid
    have hlow := (identityPage_smallKernel hid).1
    omega
  have hcan := hl.userCan_of_placement (v := 0x2000) (by decide) hid hp (hpage.trans hpn.symm)
  refine ⟨s₁, pcb', x, hboot, hwf, hcall, hno, hcan, fun hf => ?_⟩
  refine hf.closed 0x2000 (by decide) ?_ (by decide) hcan
  rw [segments_pageOne]
  simp only [List.mem_singleton, forall_eq]
  rintro ⟨b, hb, heq⟩
  dsimp only at hb heq
  omega

end Vardar.Elf
