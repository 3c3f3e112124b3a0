import Vardar.Proc.Total
import Vardar.Proc.UserFrames

/-!
# The kernel half of an address space

The kernel's mappings put at every page of the higher half one word that does not depend on the
range it comes from. `MapKernelPmrs` and `map_heap` come last in `parse_elf`, so whatever the
segments of an image have mapped there is overwritten, and the new address space agrees with the
kernel's own wherever the latter has a mapping.

## Main definitions

* `Vardar.Elf.canonical`: the word of a page of the higher half.
* `Vardar.Elf.Later`: a state reached without writes to the page tables.

## Main results

* `Vardar.Elf.kernel_leaf_cases`: the words of the kernel's root after `InitPageTable`.
* `Vardar.Elf.kernel_half_agrees`: the higher half of a new address space.
-/

namespace Vardar.Elf

open ByteMemory Word Vmm LastWrite

/-! ### Canonical words -/

/-- The word of page `n` of the higher half: the kernel image in the last 2 GiB, and below it the
physical memory. -/
def canonical (info : BootInfo) (n : ℕ) : ℕ :=
  if n < 2 ^ 36 - 2 ^ 19 then (n - 2 ^ 35) * 4096 ||| kernelPage
  else info.physAt (n * 4096 + (2 ^ 64 - 2 ^ 48)) ||| kernelPage

variable {info : BootInfo}

theorem lor_kernelPage_div (a : ℕ) : (a ||| kernelPage) / 4096 = a / 4096 := by
  change (a ||| kernelPage) / 2 ^ 12 = a / 2 ^ 12
  rw [← Nat.shiftRight_eq_div_pow, Nat.shiftRight_or_distrib, ← Nat.shiftRight_eq_div_pow]
  exact Nat.or_zero _

theorem canonical_of_lt {a : ℕ} (ha : a < 0x7fff80000000) (hal : a % 4096 = 0) :
    canonical info (2 ^ 35 + a / 4096) = a ||| kernelPage := by
  have heq : (2 ^ 35 + a / 4096 - 2 ^ 35) * 4096 = a := by omega
  rw [canonical, if_pos (by omega), heq]

/-- The ranges of the kernel write canonical words. -/
theorem kernelRanges_canonical (hb : info.Ok) (hes : ∀ e ∈ info.memmap, e.base % 4096 = 0)
    (hends : ∀ pmr ∈ info.pmrs, ∃ n, (pmrRange info pmr).bound ≤ (pmrRange info pmr).addr n)
    {q : Range} (hq : q ∈ kernelRanges info) {n : ℕ} (hn : q.Visits n)
    (hhigh : 2 ^ 35 ≤ (q.write n).1) : (q.write n).2 = canonical info (q.write n).1 := by
  obtain ⟨hal, hflags⟩ := kernelRanges_aligned hes
    (fun pmr hpmr => physAt_aligned hb (hb.pmr pmr hpmr).1) hq
  have haddr : q.addr n % 4096 = 0 := by
    rw [Range.addr, frameSize]
    omega
  rcases kernelRanges_write hb hq hends hn with ⟨a, ha, hw⟩ | ⟨a, ha, hw⟩ | ⟨v, hv, hlo, hhi, hw⟩
  · rw [hw] at hhigh
    dsimp only at hhigh
    omega
  · -- the address is aligned, because the word determines it up to its low bits
    have hsame : q.addr n ||| kernelPage = a ||| kernelPage := by
      have hsnd := congrArg Prod.snd hw
      rwa [Range.write, hflags] at hsnd
    have hdiv := congrArg (fun w => w / 4096) hsame
    simp only [lor_kernelPage_div] at hdiv
    rw [hw]
    dsimp only
    rw [← hsame, ← hdiv, canonical_of_lt (by omega) haddr]
  · have hpage : pageNumber v = v / 4096 - (2 ^ 52 - 2 ^ 36) := by
      simp only [pageNumber, frameSize]
      omega
    rw [hw]
    dsimp only
    rw [hpage, canonical, if_neg (by omega)]
    congr 2
    omega

/-- Canonical words are closed to the user. -/
theorem canonical_land_userAccessible (hb : info.Ok) (n : ℕ) :
    canonical info n &&& userAccessible = 0 := by
  have hclosed {a : ℕ} (ha : a % 4096 = 0) : (a ||| kernelPage) &&& userAccessible = 0 := by
    rw [lor_flags (by omega) kernelPage_lt, land_userAccessible, show kernelPage = 3 from rfl]
    omega
  rw [canonical]
  split_ifs
  · exact hclosed (by omega)
  · exact hclosed (physAt_aligned hb (by omega))

/-! ### The kernel's root -/

/-- After `InitPageTable`, a word of the higher half is 0 or written by a range of
`MapKernelPmrs`. -/
theorem kernel_leaf_cases {s s' : Machine} (h : Ok ∅ s) (hes : ∀ e ∈ info.memmap, e.base < 2 ^ 64)
    {fuel root : ℕ} (hcall : initPageTable fuel info s = some (true, root, s')) :
    Ok {root} s' ∧
      (∀ pmr ∈ info.pmrs, ∃ n, (pmrRange info pmr).bound ≤ (pmrRange info pmr).addr n) ∧
      ∀ v, 2 ^ 35 ≤ pageNumber v → leaf s'.mem root v = 0 ∨
        ∃ q ∈ kernelRanges info, ∃ n, q.Visits n ∧ (q.write n).1 = pageNumber v ∧
          leaf s'.mem root v = (q.write n).2 := by
  obtain ⟨-, -, hzero, s₁, s₂, full, hs₁, hpmrs, hs₂, hs₃⟩ := initPageTable_spec h hes hcall
  refine ⟨hs₃.keeps.ok, fun pmr hpmr => hs₁.ends (hpmrs ⟨pmr, hpmr, rfl⟩), fun v hv => ?_⟩
  rcases hs₃.leaf_cases rfl v with heq₃ | ⟨q, rfl, n, hn, hkey, heq₃⟩
  · have heq₂ : leaf s₂.mem root v = leaf s₁.mem root v := by
      refine hs₂.leaf_unchanged rfl ?_
      rintro q rfl n hn hkey
      rw [(lowRange_write_identity hn).2] at hkey
      have hlt := (lowRange_write_identity hn).1
      dsimp only at hkey
      omega
    rcases hs₁.leaf_cases rfl v with heq₁ | ⟨q, hq, n, hn, hkey, heq₁⟩
    · exact .inl (heq₃.trans (heq₂.trans (heq₁.trans (hzero v))))
    · exact .inr ⟨q, hq, n, hn, hkey, heq₃.trans (heq₂.trans heq₁)⟩
  · exact .inr ⟨_, .inl rfl, n, hn, hkey, heq₃⟩

/-- A state reached without writes to the page tables of the roots in `R`: frames have been
allocated, and other memory has changed. -/
structure Later (R : Set ℕ) (s s' : Machine) : Prop where
  frames : s'.frames = s.frames
  next : s.next ≤ s'.next
  mem : ∀ a, a / 4096 * 4096 ∈ tables R s.mem → s'.mem a = s.mem a

theorem Later.ok {R : Set ℕ} {s s' : Machine} (hl : Later R s s') (h : Ok R s) : Ok R s' where
  sep := (h.outside hl.mem).sep
  table := (h.outside hl.mem).table
  linked := (h.outside hl.mem).linked
  frame n f hn hf := (h.outside hl.mem).frame n f (hl.next.trans hn) (hl.frames ▸ hf)
  distinct n k f hn hk hf hf' :=
    h.distinct n k f (hl.next.trans hn) (hl.next.trans hk) (hl.frames ▸ hf) (hl.frames ▸ hf')

/-! ### A new address space -/

variable {s₀ s₁ s₂ : Machine} {img : Image} {k : Kernel} {pcb pcb' : Pcb} {x : Load}
  {bootFuel fuel f : ℕ}

/-- Words of the kernel's root in the higher half. -/
theorem kernel_leaf_canonical (hs : Start ∅ s₀) (hb : k.info.Ok)
    (hes : ∀ e ∈ k.info.memmap, e.base % 4096 = 0)
    (hboot : initPageTable bootFuel k.info s₀ = some (true, k.root, s₁)) {v : ℕ}
    (hv : 2 ^ 35 ≤ pageNumber v) (hne : leaf s₁.mem k.root v ≠ 0) :
    leaf s₁.mem k.root v = canonical k.info (pageNumber v) := by
  obtain ⟨-, hends, hcases⟩ := kernel_leaf_cases hs.ok hb.base_lt hboot
  rcases hcases v hv with hzero | ⟨q, hq, n, hn, hkey, heq⟩
  · exact absurd hzero hne
  · rw [heq, kernelRanges_canonical hb hes hends hq hn (hkey ▸ hv), hkey]

/-- The heap's range writes canonical words. -/
theorem heapRange_canonical {m : Mem} (hf : f % 4096 = 0)
    (hsize : f + k.heapSize ≤ 0x7fff80000000)
    (hbase : (heapRange k m).base = f ∨ (heapRange k m).base = 0) {n : ℕ}
    (hn : (heapRange k m).Visits n) :
    ((heapRange k m).write n).2 = canonical k.info ((heapRange k m).write n).1 := by
  obtain ⟨a, ha, hal, hle⟩ : ∃ a, (heapRange k m).base = a ∧ a % 4096 = 0 ∧
      a + k.heapSize ≤ 0x7fff80000000 := by
    rcases hbase with hbase | hbase
    · exact ⟨f, hbase, hf, hsize⟩
    · exact ⟨0, hbase, rfl, by omega⟩
  have hround : roundUp k.heapSize = (k.heapSize + 4095) / 4096 * 4096 := by
    rw [roundUp, Nat.shiftLeft_eq, Nat.shiftRight_eq_div_pow,
      show (1 <<< 12 : ℕ) = 4096 from rfl, add64_of_lt (by omega),
      sub64_of_le (by omega) (by omega)]
    omega
  have hbound : (heapRange k m).bound = a + roundUp k.heapSize := by
    change add64 (heapRange k m).base (roundUp k.heapSize) = _
    rw [ha]
    exact add64_of_lt (by omega)
  obtain ⟨hlt, hw⟩ := Range.write_kernelData (q := heapRange k m) rfl (by omega) (by omega) hn
  rw [hw, ha]
  dsimp only
  rw [canonical_of_lt (by omega) (by omega)]
  rfl

/-- The heap's range starts at the heap's frame, or at 0 if the kernel's root does not map it. -/
theorem heapRange_base (hs : Start ∅ s₀) (hb : k.info.Ok)
    (hes : ∀ e ∈ k.info.memmap, e.base % 4096 = 0)
    (hboot : initPageTable bootFuel k.info s₀ = some (true, k.root, s₁))
    (hheap : k.heapStart = f + kernelData) (hf : f % 4096 = 0 ∧ f < 0x7fff80000000) {m : Mem}
    (hsame : leaf m k.root k.heapStart = leaf s₁.mem k.root k.heapStart) :
    (heapRange k m).base = f ∨ (heapRange k m).base = 0 := by
  change vAddrToPAddr m k.root k.heapStart = f ∨ vAddrToPAddr m k.root k.heapStart = 0
  rw [vAddrToPAddr_eq, hsame]
  have hpage : pageNumber k.heapStart = 2 ^ 35 + f / 4096 := by
    rw [hheap]
    simp only [pageNumber, frameSize, kernelData]
    omega
  by_cases hzero : leaf s₁.mem k.root k.heapStart = 0
  · rw [hzero]
    exact .inr (Nat.zero_and _)
  · have hhigh : 2 ^ 35 ≤ pageNumber k.heapStart := hpage ▸ Nat.le_add_right _ _
    rw [kernel_leaf_canonical hs hb hes hboot hhigh hzero, hpage, canonical_of_lt hf.2 hf.1]
    exact .inl (lor_land_addressMask hf.1 (by omega) kernelPage_lt)

/-- **The kernel half agrees.** After `InitPageTable` has returned true and the heap has been set
up, and if no allocation fails in `parse_elf`, every address of the higher half that the kernel's
root maps translates in the new address space as in the kernel's, and is closed to the user,
whatever the program headers of the image are. -/
theorem kernel_half_agrees (hs : Start ∅ s₀) (hb : k.info.Ok)
    (hes : ∀ e ∈ k.info.memmap, e.base % 4096 = 0)
    (hboot : initPageTable bootFuel k.info s₀ = some (true, k.root, s₁))
    (hl : Later {k.root} s₁ s₂) (hheap : k.heapStart = f + kernelData)
    (hf : f % 4096 = 0 ∧ f < 0x7fff80000000) (hsize : f + k.heapSize ≤ 0x7fff80000000)
    (hcall : parseElf fuel k img pcb s₂ = some (0, pcb', x)) (hno : NoFail s₂ x.machine) {v : ℕ}
    (hlo : kernelData ≤ v) (hhi : v < 2 ^ 64)
    (hmapped : leaf s₂.mem k.root v &&& present ≠ 0) :
    vAddrToPAddr x.machine.mem pcb'.pagemap v = vAddrToPAddr x.machine.mem k.root v ∧
      leaf x.machine.mem pcb'.pagemap v &&& userAccessible = 0 := by
  obtain ⟨hok₁, hends, hcases⟩ := kernel_leaf_cases hs.ok hb.base_lt hboot
  have hok₂ := hl.ok hok₁
  obtain ⟨hfirst, hnone⟩ := parseElf_noFail hcall hno
  obtain ⟨root, hroot⟩ := Option.ne_none_iff_exists'.mp hfirst
  obtain ⟨rfl, t₁, t₂, ps, qs, full, full', hplaced, -, hkernel, hheap', hfull⟩ :=
    parseElf_spec hok₂ hroot hb.base_lt hcall hnone
  obtain ⟨hfull, -, -⟩ := hfull hno
  have hr : pcb'.pagemap ∈ insert pcb'.pagemap ({k.root} : Set ℕ) := Set.mem_insert _ _
  -- the kernel's words stay as they were
  have hlater (u : ℕ) : leaf s₂.mem k.root u = leaf s₁.mem k.root u :=
    hok₁.word_outside hl.mem rfl le_rfl _
  have hsame (u : ℕ) : leaf t₂.mem k.root u = leaf s₁.mem k.root u := by
    rw [leaf_other hok₂ hroot hplaced hkernel rfl, hlater]
  have hroot_eq : leaf x.machine.mem k.root v = leaf s₁.mem k.root v := by
    rw [leaf_other hok₂ hroot hplaced (hkernel.trans hheap') rfl, hlater]
  rw [hlater] at hmapped
  have hhigh : 2 ^ 35 ≤ pageNumber v := by
    rw [kernelData] at hlo
    simp only [pageNumber, frameSize]
    omega
  have hcanon : leaf s₁.mem k.root v = canonical k.info (pageNumber v) := by
    refine kernel_leaf_canonical hs hb hes hboot hhigh fun hzero => hmapped ?_
    rw [hzero]
    exact Nat.zero_and _
  -- the range that maps the page in the kernel's root is completed in the new one
  have hleaf₂ : leaf t₂.mem pcb'.pagemap v = canonical k.info (pageNumber v) := by
    rcases hcases v hhigh with hzero | ⟨q, hq, n, hn, hkey, -⟩
    · rw [hzero] at hmapped
      exact absurd (Nat.zero_and _) hmapped
    · refine hkernel.leaf_eq hr (hfull hq) hn hkey fun q' hq' n' hn' hkey' => ?_
      rw [kernelRanges_canonical hb hes hends hq' hn' (hkey'.symm ▸ hhigh), hkey']
  have hbase := heapRange_base hs hb hes hboot hheap hf (hsame k.heapStart)
  have hleaf : leaf x.machine.mem pcb'.pagemap v = canonical k.info (pageNumber v) := by
    rcases hheap'.leaf_cases hr v with heq | ⟨q, rfl, n, hn, hkey, heq⟩
    · rw [heq, hleaf₂]
    · rw [heq, heapRange_canonical hf.1 hsize hbase hn, hkey]
  refine ⟨?_, ?_⟩
  · rw [vAddrToPAddr_eq, vAddrToPAddr_eq, hleaf, hroot_eq, hcanon]
  · rw [hleaf]
    exact canonical_land_userAccessible hb _

/-- A kernel of two pages at `0x200000`, with a heap at `0x7ff00000`. -/
def smallKernel : Kernel where
  info := smallInfo
  root := 4096
  heapStart := 0x7ff00000 + kernelData
  heapSize := 0x20000

theorem smallKernel_rounds (q : Range) (hq : q ∈ kernelRanges smallKernel.info) :
    ∃ n ≤ 2 ^ 20, q.Rounds n :=
  kernelRanges_rounds le_rfl smallInfo_pmrs smallInfo_memmap hq

theorem smallKernel_memmap : ∀ e ∈ smallKernel.info.memmap, e.base < 2 ^ 64 := by decide

theorem smallKernel_aligned : ∀ e ∈ smallKernel.info.memmap, e.base % 4096 = 0 := by decide

/-- The small kernel boots on a machine with many frames. -/
theorem smallKernel_boots :
    ∃ s₁, initPageTable (2 ^ 20 + 1) smallKernel.info (plenty fun _ => 0) =
        some (true, smallKernel.root, s₁) ∧
      Ok {smallKernel.root} s₁ ∧ s₁.frames = (plenty fun _ => 0).frames ∧ s₁.next ≤ 2 ^ 26 := by
  obtain ⟨s₁, hboot, hnext⟩ := initPageTable_plenty (fun _ => 0) smallInfo smallInfo_demand
    smallInfo_pmrs smallInfo_memmap
  exact ⟨s₁, hboot, (kernel_leaf_cases (start_plenty fun _ => 0).ok smallKernel_memmap hboot).1,
    (initPageTable_advances hboot).1, hnext⟩

/-- After that, `parse_elf` returns 0 for an image of few pages. -/
theorem smallKernel_loads {s₁ : Machine} (hok : Ok {smallKernel.root} s₁)
    (hframes : s₁.frames = (plenty fun _ => 0).frames) (hnext : s₁.next ≤ 2 ^ 26)
    {raw : ℕ → BitVec 8} (hmagic : strncmp raw elfMagic 4 = 0) (hheaders : phdrNumEntries raw ≤ 4)
    (hpages : ∀ ph ∈ segmentsFrom raw (phdrOffset raw) 0, ph.segBound / 4096 ≤ 4)
    (hplan : (segmentPlan raw (phdrOffset raw) 0).length ≤ 16) :
    ∃ pcb' x, parseElf (2 ^ 20 + 1) smallKernel (fun _ => raw) ⟨0, 0, 0, 0⟩ s₁ =
      some (0, pcb', x) ∧ NoFail s₁ x.machine := by
  refine parseElf_total (fun _ => rfl) hok hmagic (Nat.lt_succ_self (2 ^ 20)) (by omega)
    (fun ph hph => (hpages ph hph).trans_lt (by decide)) smallKernel_memmap smallKernel_rounds
    (by decide +kernel) ⟨0, 0, 0, 0⟩ (plenty_enough _ hframes ?_)
  have hdemand : smallKernel.info.demand (2 ^ 20) ≤ 2 ^ 25 := smallInfo_demand
  generalize smallKernel.info.demand (2 ^ 20) = demand at hdemand ⊢
  omega

/-- An image with one segment, of the page `KERNEL_DATA + 0x1000`. -/
def kernelSegment : ℕ → BitVec 8 := oneSegment 0 (kernelData + 0x1000) 0 (2 ^ 64 - kernelData)

/-- A process from an image that claims a page of the kernel, on a machine with many frames. -/
theorem kernel_half_agrees_small :
    ∃ s₁ pcb' x, initPageTable (2 ^ 20 + 1) smallKernel.info (plenty fun _ => 0) =
        some (true, 4096, s₁) ∧
      parseElf (2 ^ 20 + 1) smallKernel (fun _ => kernelSegment) ⟨0, 0, 0, 0⟩ s₁ =
        some (0, pcb', x) ∧
      vAddrToPAddr x.machine.mem pcb'.pagemap (kernelData + 0x1000) =
        vAddrToPAddr x.machine.mem 4096 (kernelData + 0x1000) ∧
      leaf x.machine.mem pcb'.pagemap (kernelData + 0x1000) &&& userAccessible = 0 := by
  obtain ⟨s₁, hboot, hok, hframes, hnext⟩ := smallKernel_boots
  have hstart := start_plenty fun _ => 0
  obtain ⟨pcb', x, hcall, hno⟩ := smallKernel_loads hok hframes hnext
    (show strncmp kernelSegment elfMagic 4 = 0 by decide +kernel) (by decide +kernel)
    (by decide +kernel) (by decide +kernel)
  have hmapped : leaf s₁.mem smallKernel.root (kernelData + 0x1000) &&& present ≠ 0 := by
    have htrans : vAddrToPAddr s₁.mem smallKernel.root (kernelData + 0x1000) = 0x1000 :=
      kernelData_translation hstart smallInfo_ok hboot rfl le_rfl (by decide)
    have hpage : pageNumber (kernelData + 0x1000) = 2 ^ 35 + 0x1000 / 4096 := by decide
    have hleaf := kernel_leaf_canonical (k := smallKernel) hstart smallInfo_ok
      smallKernel_aligned hboot (v := kernelData + 0x1000) (hpage ▸ Nat.le_add_right _ _) (by
        intro hzero
        rw [vAddrToPAddr_eq, hzero, Nat.zero_and] at htrans
        omega)
    rw [hleaf, hpage, canonical_of_lt (by decide) rfl]
    decide
  obtain ⟨htrans, hclosed⟩ := kernel_half_agrees hstart smallInfo_ok smallKernel_aligned hboot
    ⟨rfl, le_rfl, fun _ _ => rfl⟩ (show smallKernel.heapStart = 0x7ff00000 + kernelData from rfl)
    ⟨rfl, by decide⟩ (by decide) hcall hno (Nat.le_add_right _ _) (by decide) hmapped
  exact ⟨s₁, pcb', x, hboot, hcall, htrans, hclosed⟩

end Vardar.Elf
