import Vardar.Vmm.Rights

/-!
# Translating addresses

`VAddrToPAddr` is compared with two other walks over the same tables: the one of the boot self-test
`AssertKernelMapping`, and the one of the processor, which adds the offset in the page to the
address of the frame. `RemapPage` reads a translation, removes the mapping and maps again.

## Main definitions

* `Vardar.Vmm.mmuWalk`: the four-level walk of the processor.
* `Vardar.Vmm.lastMapping`: the mapping of a page that a log of operations leaves.
* `Vardar.Vmm.Moves`: what moving a mapping to another page means.

## Main results

* `Vardar.Vmm.assertKernelMapping_iff`: the self-test checks `KernelVAddrToPAddr`.
* `Vardar.Vmm.vAddrToPAddr_eq_mmuWalk_iff`: agreement with the processor.
* `Vardar.Vmm.remapPage_leaf`, `Vardar.Vmm.remapPage_not_moves`: what `RemapPage` does.
-/

namespace Vardar.Vmm

open ByteMemory Word RadixTree

/-! ### The boot self-test -/

theorem entryIndex_eq (vaddr level : ℕ) :
    entryIndex vaddr (12 + 9 * (level - 1)) = vAddrIndex vaddr level := by
  ext
  simp only [entryIndex, vAddrIndex]
  rw [Nat.shiftRight_and_distrib, Nat.shiftLeft_shiftRight]

theorem notPage_ne_zero_iff (page : ℕ) : notPage page ≠ 0 ↔ page = 0 := by
  by_cases hpage : page = 0
  · simp [notPage, present, hpage]
  · simp [notPage, present, hpage]

/-- The self-test walks the tables as `VAddrToPAddr` does. -/
theorem assertKernelMapping_eq (m : Mem) {root : ℕ} (hroot : root ≠ 0) (physAddr vaddr : ℕ) :
    assertKernelMapping m root physAddr vaddr = match getTables m vaddr [4, 3, 2] root with
      | none => false
      | some table => if entry m table (vAddrIndex vaddr 1) = 0 then false
        else entry m table (vAddrIndex vaddr 1) &&& addressMask = physAddr := by
  rw [assertKernelMapping, if_neg hroot]
  simp only [show entryIndex vaddr 39 = vAddrIndex vaddr 4 from entryIndex_eq vaddr 4,
    show entryIndex vaddr 30 = vAddrIndex vaddr 3 from entryIndex_eq vaddr 3,
    show entryIndex vaddr 21 = vAddrIndex vaddr 2 from entryIndex_eq vaddr 2,
    show entryIndex vaddr 12 = vAddrIndex vaddr 1 from entryIndex_eq vaddr 1,
    notPage_ne_zero_iff, getTables]
  cases getPageTable m root (vAddrIndex vaddr 4) with
  | none => rfl
  | some pml3 =>
    cases hpml2 : getPageTable m pml3 (vAddrIndex vaddr 3) with
    | none => simp [hpml2]
    | some pml2 =>
      cases hpml1 : getPageTable m pml2 (vAddrIndex vaddr 2) with
      | none => simp [hpml2, hpml1]
      | some pml1 => simp [hpml2, hpml1]

/-- **The boot self-test checks `KernelVAddrToPAddr`.** For whatever contents of the tables, the
self-test succeeds on an address other than null if and only if `KernelVAddrToPAddr` returns this
address; and `V_ADDR_INDEX` divides by the memory below an entry of its level. -/
theorem assertKernelMapping_iff (m : Mem) {root : ℕ} (hroot : root ≠ 0) {physAddr : ℕ}
    (hphys : physAddr ≠ 0) (vaddr : ℕ) :
    (assertKernelMapping m root physAddr vaddr = true ↔
      kernelVAddrToPAddr m root vaddr = physAddr) ∧
    ∀ level, 1 ≤ level → level ≤ 4 →
      (vAddrIndex vaddr level : ℕ) = vaddr / (4096 * 512 ^ (level - 1)) % 512 := by
  refine ⟨?_, fun level _ _ => ?_⟩
  · rw [assertKernelMapping_eq m hroot, kernelVAddrToPAddr, vAddrToPAddr]
    cases getTables m vaddr [4, 3, 2] root with
    | none => simpa using hphys.symm
    | some table =>
      by_cases hzero : entry m table (vAddrIndex vaddr 1) = 0
      · simpa [hzero] using hphys.symm
      · simp [hzero]
  · have hpow : 2 ^ (12 + 9 * (level - 1)) = 4096 * 512 ^ (level - 1) := by
      rw [pow_add, pow_mul]
      norm_num
    rw [vAddrIndex_val, hpow]

/-- The self-test on a table that maps page 1 to frame 7. -/
theorem assertKernelMapping_iff_one_page :
    assertKernelMapping (mapPage threeFrames 4096 0x1000 0x7000 kernelPage).2.mem 4096 0x7000
        0x1234 = true ∧
      kernelVAddrToPAddr (mapPage threeFrames 4096 0x1000 0x7000 kernelPage).2.mem 4096 0x1234 =
        0x7000 := by
  have htest : assertKernelMapping (mapPage threeFrames 4096 0x1000 0x7000 kernelPage).2.mem 4096
      0x7000 0x1234 = true := by decide +kernel
  exact ⟨htest, (assertKernelMapping_iff _ (by decide) (by decide) 0x1234).1.mp htest⟩

/-! ### The walk of the processor -/

/-- The frame of an entry, bits 12 to 51, if the entry is present. -/
def mmuFrame (w : ℕ) : Option ℕ := if w.testBit 0 then some (w &&& (2 ^ 52 - 4096)) else none

/-- An entry of a table, found with the nine bits of the address from `shift` on. -/
def mmuEntry (m : Mem) (table vaddr shift : ℕ) : ℕ :=
  load m (table + 8 * (vaddr / 2 ^ shift % 512)) 8

/-- The walk of the processor through four levels with pages of 4 KiB: the physical address, if
the entries are present at all levels. -/
def mmuWalk (m : Mem) (root vaddr : ℕ) : Option ℕ := do
  let pml3 ← mmuFrame (mmuEntry m root vaddr 39)
  let pml2 ← mmuFrame (mmuEntry m pml3 vaddr 30)
  let pml1 ← mmuFrame (mmuEntry m pml2 vaddr 21)
  let page ← mmuFrame (mmuEntry m pml1 vaddr 12)
  return page + vaddr % 4096

/-- Frame addresses are physical: no table is beyond `2 ^ 52`, now or later. -/
def Physical (R : Set ℕ) (s : Machine) : Prop := ∀ g, 2 ^ 52 ≤ g * 4096 → Spare R s g

theorem mmuFrame_of_even {w : ℕ} (h : w % 2 = 0) : mmuFrame w = none := by
  simp [mmuFrame, Nat.testBit_zero, h]

/-- The frame in an entry that was put together from an address and flags. -/
theorem mmuFrame_lor {paddr flags : ℕ} (hp : paddr % 4096 = 0) (h52 : paddr < 2 ^ 52)
    (hflags : flags < 512) (hodd : flags % 2 = 1) : mmuFrame (paddr ||| flags) = some paddr := by
  have hmask : (paddr + flags) &&& (2 ^ 52 - 4096) = paddr := by
    rw [show (2 ^ 52 - 4096 : ℕ) = (2 ^ 40 - 1) * 2 ^ 12 by norm_num, land_mask]
    omega
  have hbit : (paddr + flags).testBit 0 = true := by
    rw [Nat.testBit_zero, decide_eq_true_eq]
    omega
  rw [lor_flags (by omega) hflags, mmuFrame, if_pos hbit, hmask]

theorem entry_lt (m : Mem) (t : ℕ) (i : Fin 512) : entry m t i < 2 ^ 64 := load_lt _ _ 8

theorem walk_concat_eq_tableOf (m : Mem) (r : ℕ) (q : List (Fin 512)) (i : Fin 512) :
    walk m r (q ++ [i]) = tableOf (word m r q i) :=
  walk_concat_eq_child tableOf_zero

section Walk

variable {R : Set ℕ} {s : Machine} {r t vaddr : ℕ} {q : List (Fin 512)}

theorem Physical.table_lt (h : Physical R s) (hok : Ok R s) (ht : t ∈ tables R s.mem) :
    t < 2 ^ 52 := by
  obtain ⟨hal, -⟩ := hok.table t ht
  by_contra hlt
  refine (h (t / 4096) (by omega)).1 ?_
  rwa [show t / 4096 * 4096 = t by omega]

/-- In the upper levels the processor finds the table that `GetPageTable` finds. -/
theorem mmuFrame_entry (h : Physical R s) (hok : Ok R s) (hr : r ∈ R) (hq : q.length ≤ 2)
    (hw : walk s.mem r q = some t) (i : Fin 512) :
    mmuFrame (entry s.mem t i) = tableOf (entry s.mem t i) := by
  have hword : word s.mem r q i = entry s.mem t i := word_of_walk hw
  by_cases hodd : entry s.mem t i % 2 = 1
  · have hlink := hok.linked r hr q i hq (hword ▸ hodd)
    rw [hword] at hlink
    obtain ⟨c, hc⟩ := Option.ne_none_iff_exists'.mp hlink
    have hwalk : walk s.mem r (q ++ [i]) = some c := by
      rw [walk_concat_eq_tableOf, hword, hc]
    have hmem : c ∈ tables R s.mem := mem_tables hr (by simp; omega) hwalk
    obtain ⟨hal, -⟩ := hok.table c hmem
    have hlt := h.table_lt hok hmem
    have haddr : entry s.mem t i / 512 * 512 = c := by
      rw [tableOf, if_pos ((getPageFlag_present _).mpr hodd), land_addressMask (entry_lt _ _ _),
        nonNull] at hc
      split_ifs at hc
      exact Option.some.inj hc
    have hsplit : entry s.mem t i = c ||| entry s.mem t i % 512 := by
      rw [lor_flags (by omega) (by omega)]
      omega
    rw [hc, hsplit]
    exact mmuFrame_lor hal hlt (by omega) (by omega)
  · rw [mmuFrame_of_even (by omega), tableOf_of_even (by omega)]

theorem mmuEntry_eq (hok : Ok R s) (hr : r ∈ R) (hq : q.length ≤ 3)
    (hw : walk s.mem r q = some t) (vaddr level : ℕ) :
    mmuEntry s.mem t vaddr (12 + 9 * (level - 1)) = entry s.mem t (vAddrIndex vaddr level) := by
  obtain ⟨hal, h64⟩ := hok.table t (mem_tables hr hq hw)
  rw [mmuEntry, entry, slot_eq hal h64, vAddrIndex_val]

/-- A step of the processor from a table of the tree. -/
theorem mmuFrame_mmuEntry (h : Physical R s) (hok : Ok R s) (hr : r ∈ R) (hq : q.length ≤ 2)
    (hw : walk s.mem r q = some t) (vaddr level : ℕ) :
    mmuFrame (mmuEntry s.mem t vaddr (12 + 9 * (level - 1))) =
      walk s.mem r (q ++ [vAddrIndex vaddr level]) := by
  rw [mmuEntry_eq hok hr (by omega) hw, mmuFrame_entry h hok hr hq hw, walk_concat_eq_tableOf,
    word, word_of_walk hw]

/-- The processor reads the last-level word. -/
theorem mmuWalk_eq (h : Physical R s) (hok : Ok R s) (hr : r ∈ R) (vaddr : ℕ) :
    mmuWalk s.mem r vaddr = (mmuFrame (leaf s.mem r vaddr)).map (· + vaddr % 4096) := by
  -- without a table on the way there is no last-level word
  have hstop {p q : List (Fin 512)} (hp : walk s.mem r p = none) (hpq : p ++ q = indices vaddr) :
      mmuFrame (leaf s.mem r vaddr) = none := by
    have hnone : walk s.mem r (indices vaddr) = none := by
      rw [← hpq, walk, walk_append, show RadixTree.walk tableOf (entry s.mem) r p = none from hp]
      rfl
    rw [leaf, word, word_of_walk_none hnone]
    exact mmuFrame_of_even rfl
  have h4 := mmuFrame_mmuEntry h hok hr (q := []) (by simp) rfl vaddr 4
  rw [mmuWalk]
  cases hw4 : walk s.mem r [vAddrIndex vaddr 4] with
  | none => simp [h4, hw4, hstop (q := [vAddrIndex vaddr 3, vAddrIndex vaddr 2]) hw4 rfl]
  | some pml3 =>
    have h3 := mmuFrame_mmuEntry h hok hr (by simp) hw4 vaddr 3
    cases hw3 : walk s.mem r [vAddrIndex vaddr 4, vAddrIndex vaddr 3] with
    | none => simp [h4, hw4, h3, hw3, hstop (q := [vAddrIndex vaddr 2]) hw3 rfl]
    | some pml2 =>
      have h2 := mmuFrame_mmuEntry h hok hr (by simp) hw3 vaddr 2
      cases hw2 : walk s.mem r (indices vaddr) with
      | none =>
        have hw2' : walk s.mem r [vAddrIndex vaddr 4, vAddrIndex vaddr 3, vAddrIndex vaddr 2] =
          none := hw2
        simp [h4, hw4, h3, hw3, h2, hw2', hstop (q := []) hw2 (List.append_nil _)]
      | some pml1 =>
        have hw2' : walk s.mem r [vAddrIndex vaddr 4, vAddrIndex vaddr 3, vAddrIndex vaddr 2] =
          some pml1 := hw2
        have h1 := mmuEntry_eq hok hr (by simp) hw2 vaddr 1
        have hleaf : leaf s.mem r vaddr = entry s.mem pml1 (vAddrIndex vaddr 1) := word_of_walk hw2
        simp [h4, hw4, h3, hw3, h2, hw2', h1, hleaf, Option.map_eq_bind]

end Walk

/-! ### The mappings a log leaves -/

/-- The address and the flags of the last successful `MapPage` for a page that no later
`UnmapPage` removed. -/
def lastMapping (r page : ℕ) : List (Op × Bool) → Option (ℕ × ℕ)
  | [] => none
  | (.map root vaddr paddr flags, true) :: log =>
    if root = r ∧ pageNumber vaddr = page then some (paddr, flags) else lastMapping r page log
  | (.map _ _ _ _, false) :: log => lastMapping r page log
  | (.unmap root vaddr, _) :: log =>
    if root = r ∧ pageNumber vaddr = page then none else lastMapping r page log

/-- The last-level word of a mapping. -/
def mappingWord : Option (ℕ × ℕ) → ℕ
  | none => 0
  | some (paddr, flags) => paddr ||| flags

/-- A mapping of the log was made by one of its operations. -/
theorem exists_of_lastMapping {r page paddr flags : ℕ} {log : List (Op × Bool)}
    (h : lastMapping r page log = some (paddr, flags)) :
    ∃ v, pageNumber v = page ∧ (Op.map r v paddr flags, true) ∈ log := by
  induction log with
  | nil => cases h
  | cons e log ih =>
    have hrest (h : lastMapping r page log = some (paddr, flags)) :
        ∃ v, pageNumber v = page ∧ (Op.map r v paddr flags, true) ∈ e :: log := by
      obtain ⟨v, hv, hmem⟩ := ih h
      exact ⟨v, hv, List.mem_cons_of_mem _ hmem⟩
    match e, h with
    | (.map root vaddr p f, true), h =>
      rw [lastMapping] at h
      split_ifs at h with heq
      · obtain ⟨rfl, rfl⟩ := Prod.mk.inj (Option.some.inj h)
        exact ⟨vaddr, heq.2, heq.1 ▸ List.mem_cons_self⟩
      · exact hrest h
    | (.map _ _ _ _, false), h => exact hrest h
    | (.unmap root vaddr, _), h =>
      rw [lastMapping] at h
      split_ifs at h
      exact hrest h

/-- The machine is a tree whose last-level words are those of the mappings in the log, and only
operations with `P` were done. -/
structure Session.Reads (R : Set ℕ) (P : Op → Prop) (x : Session) : Prop where
  ok : Ok R x.machine
  leaf_eq : ∀ r ∈ R, ∀ v,
    leaf x.machine.mem r v = mappingWord (lastMapping r (pageNumber v) x.log)
  log : ∀ e ∈ x.log, P e.1

variable {R : Set ℕ} {s : Machine} {P : Op → Prop}

namespace Session.Reads

variable {x : Session}

/-- Every operation keeps the tree, whatever else is known of it. -/
theorem keeps {op : Op} (h : x.Reads R P) (hop : op.Allowed R) :
    Keeps R x.machine (x.step op).machine := by
  cases op with
  | map root vaddr paddr flags =>
    obtain ⟨hr, hp, h64, hflags, hpres⟩ := hop
    obtain ⟨b, s', hcall, hkeep, -⟩ := h.ok.mapPage hr vaddr h64 hflags (odd_of_present hpres)
    simpa only [Session.step, Op.call, hcall] using hkeep
  | unmap root vaddr =>
    obtain ⟨b, s', hcall, hkeep, -⟩ := h.ok.unmapPage hop vaddr
    simpa only [Session.step, Op.call, hcall] using hkeep

theorem step {op : Op} (h : x.Reads R P) (hop : op.Allowed R) (hP : P op) :
    (x.step op).Reads R P := by
  refine ⟨(h.keeps hop).ok, fun r hr v => ?_, ?_⟩
  · cases op with
    | map root vaddr paddr flags =>
      obtain ⟨hroot, hp, h64, hflags, hpres⟩ := hop
      obtain ⟨b, s', hcall, -, -, hleaf, -⟩ :=
        h.ok.mapPage hroot vaddr h64 hflags (odd_of_present hpres)
      simp only [Session.step, Op.call, hcall]
      rw [hleaf r hr v, h.leaf_eq r hr v]
      cases b with
      | false => simp [lastMapping]
      | true =>
        simp only [true_and, lastMapping, eq_comm (a := root) (b := r),
          eq_comm (a := pageNumber vaddr)]
        split_ifs <;> rfl
    | unmap root vaddr =>
      obtain ⟨b, s', hcall, -, -, hleaf, -⟩ := h.ok.unmapPage hop vaddr
      simp only [Session.step, Op.call, hcall]
      rw [hleaf r hr v, h.leaf_eq r hr v]
      simp only [lastMapping, eq_comm (a := root) (b := r), eq_comm (a := pageNumber vaddr)]
      split_ifs <;> rfl
  · intro e he
    rcases List.mem_cons.mp he with rfl | he
    · exact hP
    · exact h.log e he

end Session.Reads

theorem Start.reads (hs : Start R s) : Session.Reads R P ⟨s, []⟩ := by
  refine ⟨hs.ok, fun r hr v => ?_, by simp⟩
  rw [leaf, hs.word_eq_zero hr]
  rfl

/-! ### Agreement with the processor -/

/-- Zeroed roots and frames with physical addresses. -/
structure PhysicalStart (R : Set ℕ) (s : Machine) : Prop extends Start R s where
  root_lt : ∀ r ∈ R, r < 2 ^ 52
  frame_lt : ∀ n f, s.next ≤ n → s.frames n = some f → f < 2 ^ 52

/-- Frames have physical addresses, and pages are kernel or user pages. -/
def Op.Physical (R : Set ℕ) : Op → Prop
  | .map root _ paddr flags =>
    root ∈ R ∧ paddr % frameSize = 0 ∧ paddr < 2 ^ 52 ∧ (flags = kernelPage ∨ flags = userPage)
  | .unmap root _ => root ∈ R

theorem flags_bounds {flags : ℕ} (h : flags = kernelPage ∨ flags = userPage) :
    flags < 512 ∧ flags &&& present ≠ 0 := by
  rcases h with rfl | rfl
  · decide
  · decide

theorem Op.Physical.allowed {op : Op} (h : op.Physical R) : op.Allowed R := by
  cases op with
  | map root vaddr paddr flags =>
    obtain ⟨hr, hp, h52, hflags⟩ := h
    exact ⟨hr, hp, by omega, flags_bounds hflags⟩
  | unmap root vaddr => exact h

theorem PhysicalStart.physical (hs : PhysicalStart R s) : Physical R s := by
  refine fun g hg => ⟨fun hmem => ?_, fun n hn hf => ?_⟩
  · have hlt := hs.root_lt _ (hs.mem_of_mem_tables hmem)
    omega
  · have hlt := hs.frame_lt n _ hn hf
    omega

/-- After any sequence of operations the words are those of the log, and the tables physical. -/
theorem PhysicalStart.run (hs : PhysicalStart R s) (ops : List Op)
    (hops : ∀ op ∈ ops, op.Physical R) :
    (ops.foldl Session.step ⟨s, []⟩).Reads R (Op.Physical R) ∧
      Physical R (ops.foldl Session.step ⟨s, []⟩).machine := by
  have h0 : Session.Reads R (Op.Physical R) ⟨s, []⟩ ∧ Physical R s := ⟨hs.reads, hs.physical⟩
  refine (Run.along_of_forall hops).invariant
    (I := fun x : Session => x.Reads R (Op.Physical R) ∧ Physical R x.machine)
    (fun x op h hop => ?_) h0
  exact ⟨h.1.step hop.allowed hop, fun g hg => (h.1.keeps hop.allowed).spare g (h.2 g hg)⟩

/-- **When software translation agrees with the processor.** After any sequence of `MapPage` and
`UnmapPage` from zeroed roots, `VAddrToPAddr` gives what the walk of the processor yields, 0 if the
walk fails, if and only if the address is the first one of its page or the page is not mapped. -/
theorem vAddrToPAddr_eq_mmuWalk_iff (hs : PhysicalStart R s) (ops : List Op)
    (hops : ∀ op ∈ ops, op.Physical R) {r : ℕ} (hr : r ∈ R) (vaddr : ℕ) :
    let x := ops.foldl Session.step ⟨s, []⟩
    vAddrToPAddr x.machine.mem r vaddr = (mmuWalk x.machine.mem r vaddr).getD 0 ↔
      vaddr % 4096 = 0 ∨ lastMapping r (pageNumber vaddr) x.log = none := by
  intro x
  obtain ⟨hreads, hphys⟩ : x.Reads R (Op.Physical R) ∧ Physical R x.machine := hs.run ops hops
  rw [vAddrToPAddr_eq, mmuWalk_eq hphys hreads.ok hr, hreads.leaf_eq r hr]
  cases hlast : lastMapping r (pageNumber vaddr) x.log with
  | none => simp [mappingWord, mmuFrame_of_even]
  | some mapping =>
    obtain ⟨paddr, flags⟩ := mapping
    obtain ⟨v, -, hmem⟩ := exists_of_lastMapping hlast
    obtain ⟨-, hp, h52, hflags⟩ : Op.Physical R (.map r v paddr flags) := hreads.log _ hmem
    obtain ⟨hlt, hpres⟩ := flags_bounds hflags
    rw [mappingWord, lor_land_addressMask hp (by omega) hlt,
      mmuFrame_lor hp h52 hlt (odd_of_present hpres)]
    simp

theorem physicalStart_threeFrames : PhysicalStart {4096} threeFrames := by
  refine ⟨start_threeFrames, ?_, fun n f _ hf => ?_⟩
  · rintro r rfl
    decide
  · obtain ⟨hlt, rfl⟩ : n < 3 ∧ 4096 * (n + 2) = f := by simpa [threeFrames] using hf
    omega

/-- The first address of a page, and an address without a mapping. -/
theorem vAddrToPAddr_eq_mmuWalk_iff_page :
    vAddrToPAddr ([Op.map 4096 0x1000 0x7000 kernelPage].foldl Session.step
        ⟨threeFrames, []⟩).machine.mem 4096 0x1000 =
      (mmuWalk ([Op.map 4096 0x1000 0x7000 kernelPage].foldl Session.step
        ⟨threeFrames, []⟩).machine.mem 4096 0x1000).getD 0 :=
  (vAddrToPAddr_eq_mmuWalk_iff physicalStart_threeFrames _ (by simp [Op.Physical, frameSize]) rfl
    0x1000).mpr (.inl (by decide))

/-- Within a mapped page `VAddrToPAddr` loses the offset. -/
theorem vAddrToPAddr_ne_mmuWalk :
    vAddrToPAddr ([Op.map 4096 0x1000 0x7000 kernelPage].foldl Session.step
        ⟨threeFrames, []⟩).machine.mem 4096 0x1234 = 0x7000 ∧
      mmuWalk ([Op.map 4096 0x1000 0x7000 kernelPage].foldl Session.step
        ⟨threeFrames, []⟩).machine.mem 4096 0x1234 = some 0x7234 := by
  decide +kernel

/-! ### Remapping -/

/-- A mapping has moved from the page of `former` to the page of `new`, with new flags, and no
other page has changed; a failed call has changed no page. -/
def Moves (R : Set ℕ) (s : Machine) (r former new paddr flags : ℕ) (b : Bool) (s' : Machine) :
    Prop :=
  (b = true → leaf s'.mem r new = paddr ||| flags ∧ leaf s'.mem r former = 0 ∧
    ∀ r' ∈ R, ∀ v, (r' = r → pageNumber v ≠ pageNumber former ∧ pageNumber v ≠ pageNumber new) →
      leaf s'.mem r' v = leaf s.mem r' v) ∧
  (b = false → ∀ r' ∈ R, ∀ v, leaf s'.mem r' v = leaf s.mem r' v)

/-- Links stay, so walks go on leading to the same tables. -/
theorem Keeps.walk_eq {s' : Machine} (h : Keeps R s s') {r t : ℕ} (hr : r ∈ R)
    {q : List (Fin 512)} {i : Fin 512} (hq : q.length ≤ 2)
    (hw : walk s.mem r (q ++ [i]) = some t) : walk s'.mem r (q ++ [i]) = some t := by
  rw [walk_concat_eq_tableOf] at hw ⊢
  rw [h.links r hr q i hq ?_, hw]
  by_contra heven
  rw [tableOf_of_even (by omega)] at hw
  cases hw

/-- `CreatePage` finds the tables that are there. -/
theorem createTables_of_walk (vaddr flags : ℕ) {levels : List ℕ} {t t' : ℕ}
    (hw : walk s.mem t (levels.map (vAddrIndex vaddr)) = some t') :
    createTables vaddr flags levels t s = (some t', s) := by
  induction levels generalizing t with
  | nil => rw [createTables, Option.some.inj hw]
  | cons l levels ih =>
    obtain ⟨c, hc, hrest⟩ := Option.bind_eq_some_iff.mp hw
    have hflag : getPageFlag (entry s.mem t (vAddrIndex vaddr l)) present = true := by
      by_contra hno
      rw [tableOf, if_neg hno] at hc
      cases hc
    have hget : getOrCreatePageTable s t (vAddrIndex vaddr l) flags = (some c, s) := by
      rw [getOrCreatePageTable, if_pos hflag]
      rw [tableOf, if_pos hflag] at hc
      rw [hc]
    simp only [createTables, hget]
    exact ih hrest

/-- Mapping a page whose tables are there needs no frame. -/
theorem mapPage_of_walk {r vaddr t : ℕ} (hw : walk s.mem r (indices vaddr) = some t)
    (paddr flags : ℕ) : (mapPage s r vaddr paddr flags).1 = true := by
  simp only [mapPage, createPage, createTables_of_walk vaddr flags hw, Option.map_some]

/-- `RemapPage` changes the flags of a mapped page, whatever the new address is. -/
theorem remapPage_leaf (h : Ok R s) {r former paddr flags flags₀ : ℕ} (hr : r ∈ R)
    (hword : leaf s.mem r former = paddr ||| flags₀) (hp : paddr % frameSize = 0)
    (h64 : paddr < 2 ^ 64) (hflags₀ : flags₀ < 512) (hpres₀ : flags₀ &&& present ≠ 0)
    (hflags : flags < 512) (hpres : flags &&& present ≠ 0) (new : ℕ) :
    ∃ s', remapPage s r former new flags = (true, s') ∧ ∀ r' ∈ R, ∀ v, leaf s'.mem r' v =
      if r' = r ∧ pageNumber v = pageNumber former then paddr ||| flags
      else leaf s.mem r' v := by
  have hpaddr : vAddrToPAddr s.mem r former = paddr := by
    rw [vAddrToPAddr_eq, hword, lor_land_addressMask hp h64 hflags₀]
  obtain ⟨t, ht⟩ : ∃ t, walk s.mem r (indices former) = some t := by
    by_contra! hno
    have hzero : leaf s.mem r former = 0 :=
      word_of_walk_none (Option.eq_none_iff_forall_ne_some.mpr hno)
    have hodd := odd_of_present hpres₀
    rw [hword, lor_flags (by simp only [frameSize] at hp; omega) hflags₀] at hzero
    omega
  have hget : getPage s.mem r former = some (slot t (vAddrIndex former 1)) := by
    rw [getPage, getTables_eq_walk, show walk s.mem r ([4, 3, 2].map (vAddrIndex former)) = some t
      from ht]
    rfl
  obtain ⟨b, s₁, hunmap, hkeep, -, hleaf, -⟩ := h.unmapPage hr former
  obtain ⟨b', s₂, hmap, -, -, hleaf', -⟩ :=
    hkeep.ok.mapPage hr former h64 hflags (odd_of_present hpres)
  have hb : b = true := by
    rw [unmapPage, hget] at hunmap
    exact (Prod.mk.inj hunmap).1.symm
  have hb' : b' = true := by
    have hw := hkeep.walk_eq (q := [vAddrIndex former 4, vAddrIndex former 3]) hr (by simp) ht
    have htrue := mapPage_of_walk hw paddr flags
    rwa [hmap] at htrue
  subst hb hb'
  refine ⟨s₂, ?_, fun r' hr' v => ?_⟩
  · simp only [remapPage, hpaddr, hunmap, hmap, Bool.and_self]
  · rw [hleaf' r' hr' v, hleaf r' hr' v]
    simp only [true_and]
    split_ifs <;> rfl

/-- **`RemapPage` never moves a mapping.** After any sequence of operations, for every page that is
mapped, every new address and all flags, neither `RemapPage` nor `RemapKernelPage` moves the
mapping to the new address. -/
theorem remapPage_not_moves (hs : Start R s) (ops : List Op) (hops : ∀ op ∈ ops, op.Allowed R)
    {r former new flags : ℕ} (hr : r ∈ R) {paddr flags₀ : ℕ}
    (hmapped : lastMapping r (pageNumber former) (ops.foldl Session.step ⟨s, []⟩).log =
      some (paddr, flags₀))
    (hflags : flags < 512) (hpres : flags &&& present ≠ 0) :
    let x := (ops.foldl Session.step ⟨s, []⟩).machine
    ¬ Moves R x r former new paddr flags (remapPage x r former new flags).1
        (remapPage x r former new flags).2 ∧
      ¬ Moves R x r former new paddr flags (remapKernelPage x r former new flags).1
        (remapKernelPage x r former new flags).2 := by
  intro x
  have hreads : (ops.foldl Session.step ⟨s, []⟩).Reads R (Op.Allowed R) :=
    (Run.along_of_forall hops).invariant (fun _ _ h hop => h.step hop hop) hs.reads
  obtain ⟨v, -, hmem⟩ := exists_of_lastMapping hmapped
  obtain ⟨-, hp, h64, hflags₀, hpres₀⟩ : Op.Allowed R (.map r v paddr flags₀) := hreads.log _ hmem
  have hword : leaf x.mem r former = paddr ||| flags₀ := by
    rw [hreads.leaf_eq r hr, hmapped]
    rfl
  obtain ⟨s', hcall, hleaf⟩ :=
    remapPage_leaf hreads.ok hr hword hp h64 hflags₀ hpres₀ hflags hpres new
  have hno : ¬ Moves R x r former new paddr flags (remapPage x r former new flags).1
      (remapPage x r former new flags).2 := by
    rintro ⟨hmoves, -⟩
    rw [hcall] at hmoves
    obtain ⟨-, hunmapped, -⟩ := hmoves rfl
    have hodd := odd_of_present hpres
    rw [hleaf r hr former, if_pos ⟨rfl, rfl⟩,
      lor_flags (by simp only [frameSize] at hp; omega) hflags] at hunmapped
    omega
  exact ⟨hno, hno⟩

/-- The root at `4096` with page 1 mapped to frame 7. -/
def onePage : Machine := ([Op.map 4096 0x1000 0x7000 kernelPage].foldl Session.step
  ⟨threeFrames, []⟩).machine

theorem remapPage_not_moves_page :
    lastMapping 4096 (pageNumber 0x1000) ([Op.map 4096 0x1000 0x7000 kernelPage].foldl Session.step
        ⟨threeFrames, []⟩).log = some (0x7000, kernelPage) ∧
      ¬ Moves {4096} onePage 4096 0x1000 0x2000 0x7000 userPage
        (remapPage onePage 4096 0x1000 0x2000 userPage).1
        (remapPage onePage 4096 0x1000 0x2000 userPage).2 := by
  have hlog : lastMapping 4096 (pageNumber 0x1000) ([Op.map 4096 0x1000 0x7000
      kernelPage].foldl Session.step ⟨threeFrames, []⟩).log = some (0x7000, kernelPage) := by
    decide +kernel
  exact ⟨hlog, (remapPage_not_moves start_threeFrames _
    (by simp [Op.Allowed, frameSize, kernelPage, present, readWritable]) rfl hlog (by decide)
    (by decide)).1⟩

/-- Both calls report success, the page is still where it was and the new page is not mapped. -/
theorem remapPage_stays :
    ¬ Moves {4096} onePage 4096 0x1000 0x2000 0x7000 userPage
        (remapPage onePage 4096 0x1000 0x2000 userPage).1
        (remapPage onePage 4096 0x1000 0x2000 userPage).2 ∧
      (remapPage onePage 4096 0x1000 0x2000 userPage).1 = true ∧
      (remapKernelPage onePage 4096 0x1000 0x2000 userPage).1 = true ∧
      leaf (remapPage onePage 4096 0x1000 0x2000 userPage).2.mem 4096 0x1000 = 0x7007 ∧
      leaf (remapPage onePage 4096 0x1000 0x2000 userPage).2.mem 4096 0x2000 = 0 := by
  have hrun : (remapPage onePage 4096 0x1000 0x2000 userPage).1 = true ∧
      (remapKernelPage onePage 4096 0x1000 0x2000 userPage).1 = true ∧
      leaf (remapPage onePage 4096 0x1000 0x2000 userPage).2.mem 4096 0x1000 = 0x7007 ∧
      leaf (remapPage onePage 4096 0x1000 0x2000 userPage).2.mem 4096 0x2000 = 0 := by
    decide +kernel
  refine ⟨fun hmoves => ?_, hrun⟩
  obtain ⟨-, hunmapped, -⟩ := hmoves.1 hrun.1
  rw [hrun.2.2.1] at hunmapped
  cases hunmapped

end Vardar.Vmm
