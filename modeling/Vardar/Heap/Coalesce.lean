import Vardar.Heap.Free
import Mathlib.Data.List.Chain

/-!
# `kfree` coalesces

A heap is well formed when the blocks met by walking it header by header end exactly at its limit,
header and footer of every block hold its size with the allocation bit, no two neighbours are both
free, and every size survives `SIZE_MASK`. Freeing a used block of such a heap replaces it and
those of its two neighbours that are free by one free block over the same bytes. No byte outside
that block is written, so every other used block keeps its place, its tags and its body.

The two merges of `kfree` are two rewrites of a run of blocks, each with one case for a free
neighbour and one for the others; the second starts from the block that the first one left.

## Main definitions

* `Vardar.Kheap.blocks`: the blocks reached from `HEAP_START` by header sizes.
* `Vardar.Kheap.Tagged`, `Vardar.Kheap.WellFormed`: the well-formed heaps.
* `Vardar.Kheap.coalesce`: a list of blocks after one of them is freed.

## Main results

* `Vardar.Kheap.Tagged.blocks_eq`: the tags determine the blocks.
* `Vardar.Kheap.Tagged.kfree`: the tags and the bytes after `kfree`.
* `Vardar.Kheap.kfree_coalesces`: `kfree` keeps a heap well formed.
-/

namespace Vardar.Kheap

open ByteMemory Word Tiling

/-! ### The blocks of a heap -/

/-- The block whose header is at `p`, as the header describes it. -/
def blockAt (h : Heap) (p : ℕ) : Block :=
  ⟨p, h.tag p &&& sizeMask, if h.tag p &&& 1 = 1 then .used else .free⟩

/-- At most `fuel` blocks reached from `p` by header sizes, as far as the heap goes. -/
def blocksFrom (h : Heap) : ℕ → ℕ → List Block
  | 0, _ => []
  | fuel + 1, p =>
    if p < h.start + h.size then blockAt h p :: blocksFrom h fuel (blockAt h p).next else []

/-- The blocks reached from `HEAP_START`; a heap has fewer blocks than bytes. -/
def blocks (h : Heap) : List Block := blocksFrom h h.size h.start

/-- Header and footer of the block hold its even size with the allocation bit. -/
def Block.Tagged (h : Heap) (b : Block) : Prop :=
  h.tag b.addr = b.word ∧ h.tag b.foot = b.word ∧ b.size % 2 = 0 ∧ b.kind ≠ .virgin

instance (h : Heap) (b : Block) : Decidable (b.Tagged h) :=
  inferInstanceAs (Decidable (_ ∧ _))

theorem Block.Tagged.used_of_not_free {h : Heap} {b : Block} (hb : b.Tagged h)
    (hk : b.kind ≠ .free) : b.kind = .used := by
  cases hkind : b.kind with
  | used => rfl
  | free => exact absurd hkind hk
  | virgin => exact absurd hkind hb.2.2.2

/-- The blocks tile a heap inside the address space whose largest block survives `SIZE_MASK`, with
correct tags. -/
structure Tagged (h : Heap) (bs : List Block) : Prop where
  small : h.size - mdataSize ≤ sizeMask
  fits : h.start + h.size < 2 ^ 64
  tiles : Tiles Block.addr Block.next h.start bs (h.start + h.size)
  tagged : ∀ b ∈ bs, b.Tagged h

/-- The blocks reached from `HEAP_START` tile the heap with correct tags, and no two neighbours
are both free. -/
structure WellFormed (h : Heap) : Prop extends Tagged h (blocks h) where
  separated : (blocks h).IsChain fun b c => b.kind = .free → c.kind ≠ .free

theorem wellFormed_iff (h : Heap) : WellFormed h ↔
    (h.size - mdataSize ≤ sizeMask ∧ h.start + h.size < 2 ^ 64 ∧
      Tiles Block.addr Block.next h.start (blocks h) (h.start + h.size) ∧
      ∀ b ∈ blocks h, b.Tagged h) ∧
    (blocks h).IsChain fun b c => b.kind = .free → c.kind ≠ .free :=
  ⟨fun hw => ⟨⟨hw.small, hw.fits, hw.tiles, hw.tagged⟩, hw.separated⟩,
    fun ⟨⟨hs, hf, ht, hg⟩, hc⟩ => ⟨⟨hs, hf, ht, hg⟩, hc⟩⟩

instance (h : Heap) : Decidable (WellFormed h) := decidable_of_iff' _ (wellFormed_iff h)

/-! ### Freeing a block of a list -/

/-- The last block, if it is free. -/
def freeLast (xs : List Block) : Option Block := xs.getLast?.filter fun a => a.kind = .free

/-- The first block, if it is free. -/
def freeHead (zs : List Block) : Option Block := zs.head?.filter fun c => c.kind = .free

/-- The blocks before the merged one. -/
def blocksBefore (xs : List Block) : List Block :=
  if (freeLast xs).isSome then xs.dropLast else xs

/-- The blocks after the merged one. -/
def blocksAfter (zs : List Block) : List Block :=
  if (freeHead zs).isSome then zs.tail else zs

/-- The free block over `b` and those of its immediate neighbours that are free. -/
def mergedBlock (xs : List Block) (b : Block) (zs : List Block) : Block :=
  let first := (freeLast xs).getD b
  let last := (freeHead zs).getD b
  ⟨first.addr, last.next - first.addr - mdataSize, .free⟩

/-- The blocks `xs`, `b`, `zs` after `b` is freed and merged with its free neighbours. -/
def coalesce (xs : List Block) (b : Block) (zs : List Block) : List Block :=
  blocksBefore xs ++ ([mergedBlock xs b zs] ++ blocksAfter zs)

@[simp] theorem freeHead_nil : freeHead [] = none := rfl

@[simp] theorem freeLast_nil : freeLast [] = none := rfl

theorem freeHead_cons (c : Block) (zs : List Block) :
    freeHead (c :: zs) = if c.kind = .free then some c else none := by
  simp [freeHead, Option.filter]

theorem freeLast_concat (xs : List Block) (a : Block) :
    freeLast (xs ++ [a]) = if a.kind = .free then some a else none := by
  simp [freeLast, Option.filter]

theorem blocksAfter_cons (c : Block) (zs : List Block) :
    blocksAfter (c :: zs) = if c.kind = .free then zs else c :: zs := by
  rw [blocksAfter, freeHead_cons]
  split_ifs <;> simp_all

theorem blocksBefore_concat (xs : List Block) (a : Block) :
    blocksBefore (xs ++ [a]) = if a.kind = .free then xs else xs ++ [a] := by
  rw [blocksBefore, freeLast_concat]
  split_ifs <;> simp_all

section Merged

variable {xs zs : List Block} {a b c : Block}

/-- A free block without free neighbours stays as it is. -/
theorem mergedBlock_of_none (hk : b.kind = .free) (hx : freeLast xs = none)
    (hz : freeHead zs = none) : mergedBlock xs b zs = b := by
  obtain ⟨addr, size, kind⟩ := b
  obtain rfl : kind = .free := hk
  simp only [mergedBlock, hx, hz, Option.getD_none, Block.next, mdataSize, Block.mk.injEq, true_and,
    and_true]
  omega

/-- A free block merged with the one after it. -/
theorem mergedBlock_head (hk : b.kind = .free) (hc : c.kind = .free) (hadj : c.addr = b.next) :
    mergedBlock [] b (c :: zs) = Chain.joinBlocks b c := by
  simp only [mergedBlock, freeHead_cons, hc, if_true, freeLast_nil, Option.getD_none,
    Option.getD_some, Block.next, mdataSize, Chain.joinBlocks, hk, reduceCtorEq, if_false,
    Block.mk.injEq, true_and, and_true] at hadj ⊢
  omega

/-- A free block merged with the one before it. -/
theorem mergedBlock_last (ha : a.kind = .free) (hadj : b.addr = a.next) :
    mergedBlock (xs ++ [a]) b [] = Chain.joinBlocks a b := by
  simp only [mergedBlock, freeLast_concat, ha, if_true, freeHead_nil, Option.getD_none,
    Option.getD_some, Block.next, mdataSize, Chain.joinBlocks, reduceCtorEq, if_false,
    Block.mk.injEq, true_and, and_true] at hadj ⊢
  omega

/-- The merged block ends where its last part does. -/
theorem mergedBlock_next
    (hle : ((freeLast xs).getD b).addr + 8 ≤ ((freeHead zs).getD b).next) :
    (mergedBlock xs b zs).next = ((freeHead zs).getD b).next := by
  simp only [mergedBlock, mdataSize]
  unfold Block.next at hle ⊢
  dsimp only
  omega

/-- Merging with the block after and then with the block before is merging with both. -/
theorem mergedBlock_mergedBlock (hle : b.addr + 8 ≤ ((freeHead zs).getD b).next) :
    mergedBlock xs (mergedBlock [] b zs) [] = mergedBlock xs b zs := by
  have hnext : (mergedBlock [] b zs).next = ((freeHead zs).getD b).next := mergedBlock_next hle
  have haddr : ((freeLast xs).getD (mergedBlock [] b zs)).addr = ((freeLast xs).getD b).addr := by
    cases freeLast xs <;> rfl
  simp only [mergedBlock.eq_1 xs, freeHead_nil, Option.getD_none, hnext, haddr]

end Merged

namespace Headed

variable {h : Heap} {bs : List Block} {b : Block}

/-- The block at the address of a block is that block. -/
theorem blockAt_eq (hh : Headed h bs) (hb : b ∈ bs) (hv : b.kind ≠ .virgin) :
    blockAt h b.addr = b := by
  obtain ⟨hsize, hused⟩ := hh.head b hb
  obtain ⟨addr, size, kind⟩ := b
  simp only at hsize hused hv
  simp only [blockAt, hsize, hused]
  cases kind with
  | used => rfl
  | free => rfl
  | virgin => exact absurd rfl hv

/-- The walk over the headers visits the blocks of the heap, whatever the fuel beyond their
number. -/
theorem blocksFrom_eq (hh : Headed h bs) (hv : ∀ b ∈ bs, b.kind ≠ .virgin) :
    ∀ (zs : List Block) (fuel p : ℕ), (∀ b ∈ zs, b ∈ bs) →
    Tiles Block.addr Block.next p zs (h.start + h.size) → zs.length ≤ fuel →
    blocksFrom h fuel p = zs
  | [], 0, _, _, _, _ => rfl
  | [], fuel + 1, p, _, hp, _ => by
    obtain rfl : p = h.start + h.size := hp
    rw [blocksFrom, if_neg (lt_irrefl _)]
  | c :: zs, 0, _, _, _, hf => by simp at hf
  | c :: zs, fuel + 1, p, hsub, hp, hf => by
    obtain ⟨rfl, -, hrest⟩ := hp
    have hlt : c.addr < h.start + h.size := by
      have hle := hrest.le
      unfold Block.next at hle
      omega
    have hc := hsub c List.mem_cons_self
    rw [blocksFrom, if_pos hlt, hh.blockAt_eq hc (hv c hc),
      blocksFrom_eq hh hv zs fuel c.next (fun b hb => hsub b (List.mem_cons_of_mem c hb)) hrest
        (by simpa using hf)]

/-- The headers determine the blocks. -/
theorem blocks_eq (hh : Headed h bs) (hv : ∀ b ∈ bs, b.kind ≠ .virgin) : blocks h = bs := by
  refine hh.blocksFrom_eq hv bs h.size h.start (fun _ hb => hb) hh.tiles ?_
  have hlen := hh.tiles.length_le fun b _ => show b.addr < b.next by unfold Block.next; omega
  omega

end Headed

namespace Tagged

variable {h h' : Heap} {bs xs ys ys' zs : List Block} {a b c : Block}

theorem size_le (ht : Tagged h bs) (hb : b ∈ bs) : b.size ≤ sizeMask := by
  obtain ⟨hlo, -, hhi⟩ := ht.tiles.bounds hb
  have hs := ht.small
  simp only [Block.next, mdataSize] at hhi hs
  omega

theorem headOk (ht : Tagged h bs) (hb : b ∈ bs) : b.HeadOk h :=
  Block.headOk_of_tag (ht.tagged b hb).2.2.1 (ht.size_le hb) (ht.tagged b hb).1

theorem footOk (ht : Tagged h bs) (hb : b ∈ bs) : b.FootOk h :=
  Block.footOk_of_tag (ht.tagged b hb).2.2.1 (ht.size_le hb) (ht.tagged b hb).2.1

/-- Correct tags make a chain without virgin blocks. -/
theorem chain (ht : Tagged h bs) : Chain h bs where
  fits := ht.fits
  tiles := ht.tiles
  head _ hb := ht.headOk hb
  virgin b hb hv := absurd hv (ht.tagged b hb).2.2.2
  foot _ hb _ := ht.footOk hb
  before := List.pairwise_of_forall_mem_list fun _ hb _ _ _ => ht.footOk hb

/-- The tags determine the blocks. -/
theorem blocks_eq (ht : Tagged h bs) : blocks h = bs :=
  ht.chain.headed.blocks_eq fun b hb => (ht.tagged b hb).2.2.2

/-- A block none of whose bytes change keeps its tags. -/
theorem tagged_congr (hm : ∀ x, b.addr ≤ x → x < b.next → h'.mem x = h.mem x)
    (hb : b.Tagged h) : b.Tagged h' := by
  have hhead : h'.tag b.addr = h.tag b.addr :=
    load_congr fun x hx hx' => hm x hx (by unfold Block.next; omega)
  have hfoot : h'.tag b.foot = h.tag b.foot :=
    load_congr fun x hx hx' => hm x (by unfold Block.foot at hx; omega)
      (by unfold Block.foot at hx'; unfold Block.next; omega)
  simpa only [Block.Tagged, hhead, hfoot] using hb

/-- Rewriting a run of blocks into tagged blocks over the same bytes, without touching a byte
outside the run, keeps a tagged heap. -/
theorem splice (ht : Tagged h (xs ++ (ys ++ zs))) (hstart : h'.start = h.start)
    (hsize : h'.size = h.size)
    (hmem : ∀ q r, Tiles Block.addr Block.next q ys r → ∀ x, x < q ∨ r ≤ x → h'.mem x = h.mem x)
    (htiles : ∀ q r, Tiles Block.addr Block.next q ys r → Tiles Block.addr Block.next q ys' r)
    (htags : ∀ y ∈ ys', y.Tagged h') : Tagged h' (xs ++ (ys' ++ zs)) := by
  obtain ⟨q, hx, hyz⟩ := tiles_append.mp ht.tiles
  obtain ⟨r, hy, hz⟩ := tiles_append.mp hyz
  refine ⟨hsize ▸ ht.small, by rw [hstart, hsize]; exact ht.fits,
    by rw [hstart, hsize]; exact ht.tiles.splice htiles, fun b hb => ?_⟩
  rcases List.mem_append.mp hb with hb | hb
  · exact tagged_congr (fun x _ hlt => hmem q r hy x (Or.inl (hlt.trans_le (hx.bounds hb).2.2)))
      (ht.tagged b (List.mem_append_left _ hb))
  rcases List.mem_append.mp hb with hb | hb
  · exact htags b hb
  · exact tagged_congr (fun x hle _ => hmem q r hy x (Or.inr ((hz.bounds hb).1.trans hle)))
      (ht.tagged b (List.mem_append_right _ (List.mem_append_right _ hb)))

/-! ### The three stages of `kfree` -/

/-- Clearing the allocation bits of a used block leaves a free block. -/
theorem clear (ht : Tagged h (xs ++ ([b] ++ zs))) :
    Tagged (cleared h b) (xs ++ ([{ b with kind := .free }] ++ zs)) := by
  have hb : b ∈ xs ++ ([b] ++ zs) := by simp
  obtain ⟨hhead, hfoot⟩ := cleared_tags (h := h) (ht.size_le hb)
  refine ht.splice rfl rfl ?_ (fun _ _ hy => hy) ?_
  · rintro q r ⟨rfl, -, hr⟩ x hx
    simp only [tiles_nil] at hr
    exact cleared_mem (by omega)
  · simp only [List.mem_singleton, forall_eq]
    exact ⟨hhead, hfoot, (ht.tagged b hb).2.2.1, by simp⟩

/-- Neighbours and the space between them fit a heap whose sizes survive `SIZE_MASK`. -/
theorem join_size_le (ht : Tagged h (xs ++ ([a, b] ++ zs))) :
    a.size + b.size + 8 ≤ sizeMask := by
  have hadj := ht.chain.addr_eq_next
  obtain ⟨hlo, -⟩ := ht.chain.bounds (b := a) (by simp)
  obtain ⟨-, hhi⟩ := ht.chain.bounds (b := b) (by simp)
  have hs := ht.small
  simp only [mdataSize] at hs
  omega

/-- `merge_block` on two free neighbours. -/
theorem mergeBlock (ht : Tagged h (xs ++ ([a, b] ++ zs))) :
    Tagged (Kheap.mergeBlock h a.addr b.addr).2 (xs ++ ([Chain.joinBlocks a b] ++ zs)) := by
  obtain ⟨hhead, hfoot⟩ := ht.chain.mergeBlock_tags ht.join_size_le
  have hae := (ht.tagged a (by simp)).2.2.1
  have hbe := (ht.tagged b (by simp)).2.2.1
  refine ht.splice (mergeBlock_bounds ..).1 (mergeBlock_bounds ..).2 ?_
    (fun _ _ => Chain.tiles_joinBlocks) ?_
  · rintro q r ⟨rfl, -, -, -, hr⟩ x hx
    simp only [tiles_nil] at hr
    exact ht.chain.mergeBlock_mem (by omega)
  · simp only [List.mem_singleton, forall_eq]
    refine ⟨hhead, hfoot, ?_, Chain.joinBlocks_ne_virgin⟩
    simp only [Chain.joinBlocks]
    omega

/-- The merge with the block after a free block. -/
theorem mergeNext (ht : Tagged h (xs ++ ([b] ++ zs))) (hk : b.kind = .free) :
    Tagged (Kheap.mergeNext h b.addr (nextHeader h b.addr))
        (xs ++ ([mergedBlock [] b zs] ++ blocksAfter zs)) ∧
      ∀ x, x < b.addr ∨ (mergedBlock [] b zs).next ≤ x →
        (Kheap.mergeNext h b.addr (nextHeader h b.addr)).mem x = h.mem x := by
  rw [ht.chain.nextHeader_at]
  cases zs with
  | nil =>
    rw [mergedBlock_of_none hk rfl rfl]
    exact ⟨ht, fun _ _ => rfl⟩
  | cons c zs =>
    have hbit := ht.chain.tag_land_one (b := c) (by simp)
    simp only [List.head?_cons, Option.map_some, Kheap.mergeNext]
    by_cases hc : c.kind = .free
    · have ht' : Tagged h (xs ++ ([b, c] ++ zs)) := ht
      have hadj : c.addr = b.next := ht'.chain.addr_eq_next
      have hend : (Chain.joinBlocks b c).next = c.next := by
        simp only [Chain.joinBlocks, Block.next] at hadj ⊢
        omega
      rw [if_pos (hbit.mpr (by simp [hc])), mergedBlock_head hk hc hadj,
        blocksAfter_cons, if_pos hc, hend]
      exact ⟨ht'.mergeBlock, fun x hx => ht'.chain.mergeBlock_mem hx⟩
    · have hu := (ht.tagged c (by simp)).used_of_not_free hc
      have hhead : freeHead (c :: zs) = none := by rw [freeHead_cons, if_neg hc]
      rw [if_neg (mt hbit.mp (not_not.mpr hu)), mergedBlock_of_none hk rfl hhead,
        blocksAfter_cons, if_neg hc]
      exact ⟨ht, fun _ _ => rfl⟩

/-- The merge with the block before a free block. -/
theorem mergePrev (ht : Tagged h (xs ++ ([b] ++ zs))) (hk : b.kind = .free) :
    Tagged (Kheap.mergePrev h b.addr ((xs.getLast?).map Block.foot))
        (blocksBefore xs ++ ([mergedBlock xs b []] ++ zs)) ∧
      ∀ x, x < (mergedBlock xs b []).addr ∨ b.next ≤ x →
        (Kheap.mergePrev h b.addr ((xs.getLast?).map Block.foot)).mem x = h.mem x := by
  rcases List.eq_nil_or_concat xs with rfl | ⟨xs, a, rfl⟩
  · rw [mergedBlock_of_none hk rfl rfl]
    exact ⟨ht, fun _ _ => rfl⟩
  · rw [List.concat_eq_append] at ht ⊢
    obtain ⟨-, hfoot, he, -⟩ := ht.tagged a (by simp)
    simp only [List.getLast?_append, List.getLast?_singleton, Option.some_or, Option.map_some,
      Kheap.mergePrev, hfoot]
    by_cases ha : a.kind = .free
    · have ht' : Tagged h (xs ++ ([a, b] ++ zs)) := by simpa using ht
      have hadj : b.addr = a.next := ht'.chain.addr_eq_next
      rw [Block.word_of_not_used (by simp [ha]), if_pos (by rw [land_one, he]),
        ht.chain.headerFromFooter_at (by simp) (ht.footOk (by simp)), mergedBlock_last ha hadj,
        blocksBefore_concat, if_pos ha]
      exact ⟨ht'.mergeBlock, fun x hx => ht'.chain.mergeBlock_mem hx⟩
    · have hu := (ht.tagged a (by simp)).used_of_not_free ha
      have hlast : freeLast (xs ++ [a]) = none := by rw [freeLast_concat, if_neg ha]
      rw [Block.word_of_used hu, if_neg (by rw [land_one]; omega),
        mergedBlock_of_none hk hlast rfl, blocksBefore_concat, if_neg ha]
      exact ⟨ht, fun _ _ => rfl⟩

/-- The merged block starts no later than the freed one. -/
theorem freeLast_le (ht : Tagged h (xs ++ ([b] ++ zs))) :
    ((freeLast xs).getD b).addr ≤ b.addr := by
  rcases List.eq_nil_or_concat xs with rfl | ⟨xs, a, rfl⟩
  · exact le_rfl
  · rw [List.concat_eq_append] at ht ⊢
    have ht' : Tagged h (xs ++ ([a, b] ++ zs)) := by simpa using ht
    have hadj := ht'.chain.addr_eq_next
    rw [freeLast_concat]
    split_ifs
    · rw [Option.getD_some]
      omega
    · exact le_rfl

/-- The merged block ends no earlier than the freed one. -/
theorem le_freeHead (ht : Tagged h (xs ++ ([b] ++ zs))) :
    b.next ≤ ((freeHead zs).getD b).next := by
  cases zs with
  | nil => exact le_rfl
  | cons c zs =>
    have ht' : Tagged h (xs ++ ([b, c] ++ zs)) := ht
    have hadj : c.addr = b.next := ht'.chain.addr_eq_next
    rw [freeHead_cons]
    split_ifs
    · rw [Option.getD_some, ← hadj]
      unfold Block.next
      omega
    · exact le_rfl

/-- `kfree` of a used block of a tagged heap coalesces it with its free neighbours and writes
nothing outside the merged block. -/
theorem kfree (ht : Tagged h (xs ++ ([b] ++ zs))) (hu : b.kind = .used) :
    Tagged (Kheap.kfree h (b.addr + headerSize)) (coalesce xs b zs) ∧
      ∀ x, x < (mergedBlock xs b zs).addr ∨ (mergedBlock xs b zs).next ≤ x →
        (Kheap.kfree h (b.addr + headerSize)).mem x = h.mem x := by
  rw [ht.chain.kfree_eq hu]
  set b₀ : Block := { b with kind := .free } with hb₀
  have hmerged (ys : List Block) : mergedBlock ys b₀ zs = mergedBlock ys b zs := by
    simp only [mergedBlock]
    cases freeLast ys <;> cases freeHead zs <;> rfl
  obtain ⟨ht₁, hmem₁⟩ := ht.clear.mergeNext (b := b₀) rfl
  rw [hmerged] at ht₁ hmem₁
  obtain ⟨ht₂, hmem₂⟩ := ht₁.mergePrev rfl
  have hfirst := ht.freeLast_le
  have hlast := ht.le_freeHead
  have hbn : b.addr + 8 ≤ b.next := by unfold Block.next; omega
  have hnext₁ : (mergedBlock [] b zs).next = ((freeHead zs).getD b).next :=
    mergedBlock_next (hbn.trans hlast)
  have hnext : (mergedBlock xs b zs).next = ((freeHead zs).getD b).next :=
    mergedBlock_next (by omega)
  rw [mergedBlock_mergedBlock (hbn.trans hlast), hnext₁] at hmem₂
  rw [mergedBlock_mergedBlock (hbn.trans hlast)] at ht₂
  rw [hnext₁] at hmem₁
  rw [hnext]
  refine ⟨ht₂, fun x hx => ?_⟩
  have hx₁ : x < b.addr ∨ ((freeHead zs).getD b).next ≤ x :=
    hx.imp_left fun hlt => hlt.trans_le hfirst
  have hx₀ : x < b.addr ∨ b.next ≤ x := hx₁.imp_right hlast.trans
  exact (hmem₂ x hx).trans ((hmem₁ x hx₁).trans (cleared_mem hx₀))

end Tagged

/-! ### No two neighbours free -/

section Separated

variable {xs zs : List Block} {b : Block}

/-- The block before the merged one is not free. -/
theorem blocksBefore_isChain (hx : xs.IsChain fun b c => b.kind = .free → c.kind ≠ .free) :
    (blocksBefore xs).IsChain (fun b c => b.kind = .free → c.kind ≠ .free) ∧
      ∀ a ∈ (blocksBefore xs).getLast?, a.kind ≠ .free := by
  rcases List.eq_nil_or_concat xs with rfl | ⟨xs, a, rfl⟩
  · simp [blocksBefore]
  · rw [List.concat_eq_append] at hx ⊢
    rw [blocksBefore_concat]
    split_ifs with ha
    · obtain ⟨hxs, -, hlast⟩ := List.isChain_append.mp hx
      exact ⟨hxs, fun d hd hfree => hlast d hd a rfl hfree ha⟩
    · exact ⟨hx, by simpa using ha⟩

/-- The block after the merged one is not free. -/
theorem blocksAfter_isChain (hz : zs.IsChain fun b c => b.kind = .free → c.kind ≠ .free) :
    (blocksAfter zs).IsChain (fun b c => b.kind = .free → c.kind ≠ .free) ∧
      ∀ c ∈ (blocksAfter zs).head?, c.kind ≠ .free := by
  cases zs with
  | nil => simp [blocksAfter]
  | cons c zs =>
    rw [blocksAfter_cons]
    split_ifs with hc
    · rw [List.isChain_cons] at hz
      exact ⟨hz.2, fun d hd => hz.1 d hd hc⟩
    · exact ⟨hz, by simpa using hc⟩

/-- Coalescing leaves no two free neighbours. -/
theorem coalesce_isChain
    (hbs : (xs ++ ([b] ++ zs)).IsChain fun b c => b.kind = .free → c.kind ≠ .free) :
    (coalesce xs b zs).IsChain fun b c => b.kind = .free → c.kind ≠ .free := by
  obtain ⟨hx, hbz, -⟩ := List.isChain_append.mp hbs
  obtain ⟨-, hz, -⟩ := List.isChain_append.mp hbz
  obtain ⟨hx', hlast⟩ := blocksBefore_isChain hx
  obtain ⟨hz', hhead⟩ := blocksAfter_isChain hz
  refine List.isChain_append.mpr ⟨hx', List.isChain_append.mpr ⟨List.isChain_singleton _, hz', ?_⟩,
    fun a ha _ _ hfree => absurd hfree (hlast a ha)⟩
  exact fun _ _ c hc _ => hhead c hc

theorem mem_blocksBefore {c : Block} (hc : c ∈ xs) (hk : c.kind ≠ .free) :
    c ∈ blocksBefore xs := by
  rcases List.eq_nil_or_concat xs with rfl | ⟨xs, a, rfl⟩
  · exact absurd hc List.not_mem_nil
  · rw [List.concat_eq_append] at hc ⊢
    rw [blocksBefore_concat]
    split_ifs with ha
    · rcases List.mem_append.mp hc with hc | hc
      · exact hc
      · exact absurd (List.mem_singleton.mp hc ▸ ha) hk
    · exact hc

theorem mem_blocksAfter {c : Block} (hc : c ∈ zs) (hk : c.kind ≠ .free) :
    c ∈ blocksAfter zs := by
  cases zs with
  | nil => exact absurd hc List.not_mem_nil
  | cons d zs =>
    rw [blocksAfter_cons]
    split_ifs with hd
    · rcases List.mem_cons.mp hc with rfl | hc
      · exact absurd hd hk
      · exact hc
    · exact hc

/-- A block that is not free stays. -/
theorem mem_coalesce {c : Block} (hc : c ∈ xs ++ zs) (hk : c.kind ≠ .free) :
    c ∈ coalesce xs b zs := by
  rcases List.mem_append.mp hc with hc | hc
  · exact List.mem_append_left _ (mem_blocksBefore hc hk)
  · exact List.mem_append_right _ (List.mem_append_right _ (mem_blocksAfter hc hk))

end Separated

/-- Freeing a live allocation of a well-formed heap gives a well-formed heap. Its blocks are the
old ones with the freed block and its free neighbours merged into one free block, and every other
used block keeps its place and all its bytes: header, body and footer. -/
theorem kfree_coalesces {h : Heap} {xs zs : List Block} {b : Block} (hw : WellFormed h)
    (hbs : blocks h = xs ++ ([b] ++ zs)) (hu : b.kind = .used) :
    WellFormed (kfree h (b.addr + headerSize)) ∧
      (kfree h (b.addr + headerSize)).start = h.start ∧
      (kfree h (b.addr + headerSize)).size = h.size ∧
      blocks (kfree h (b.addr + headerSize)) = coalesce xs b zs ∧
      ∀ c ∈ xs ++ zs, c.kind = .used → c ∈ blocks (kfree h (b.addr + headerSize)) ∧
        ∀ x, c.addr ≤ x → x < c.next → (kfree h (b.addr + headerSize)).mem x = h.mem x := by
  have ht : Tagged h (xs ++ ([b] ++ zs)) := hbs ▸ hw.toTagged
  obtain ⟨ht', hmem⟩ := ht.kfree hu
  have hblocks := ht'.blocks_eq
  obtain ⟨hstart, hsize⟩ := ht.chain.kfree_bounds hu
  refine ⟨⟨hblocks ▸ ht', hblocks ▸ coalesce_isChain (hbs ▸ hw.separated)⟩, hstart, hsize, hblocks,
    fun c hc hcu => ?_⟩
  have hck : c.kind ≠ .free := by simp [hcu]
  have hc' : c ∈ coalesce xs b zs := mem_coalesce hc hck
  have hm : mergedBlock xs b zs ∈ coalesce xs b zs := by simp [coalesce]
  refine ⟨hblocks ▸ hc', fun x hlo hhi => hmem x ?_⟩
  -- a used block is not the merged one, and blocks of the new chain do not overlap
  have hne : c.addr ≠ (mergedBlock xs b zs).addr := by
    intro heq
    exact hck (ht'.chain.addr_inj hc' hm heq ▸ rfl)
  rcases ht'.chain.apart hc' hm hne with hle | hle
  · exact Or.inl (hhi.trans_le hle)
  · exact Or.inr (hle.trans hlo)

/-- Three allocations of eight bytes, the second of which is freed, and then the third: it merges
with the free block before it and with the rest of the heap after it. -/
theorem kfree_coalesces_three :
    let h₃ := (kalloc (kalloc (kalloc (initHeap (fun _ => 0) 4096 96) 8).2 8).2 8).2
    let h := kfree h₃ 4116
    WellFormed h ∧ blocks h = [⟨4096, 8, .used⟩, ⟨4112, 8, .free⟩] ++ ([⟨4128, 8, .used⟩] ++
        [⟨4144, 40, .free⟩]) ∧ WellFormed (kfree h 4132) ∧
      blocks (kfree h 4132) = [⟨4096, 8, .used⟩, ⟨4112, 72, .free⟩] := by
  intro h₃ h
  have hw : WellFormed h := by decide +kernel
  have hbs : blocks h = [⟨4096, 8, .used⟩, ⟨4112, 8, .free⟩] ++ ([⟨4128, 8, .used⟩] ++
      [⟨4144, 40, .free⟩]) := by decide +kernel
  obtain ⟨hw', -, -, hbs', -⟩ := kfree_coalesces hw hbs rfl
  exact ⟨hw, hbs, hw', hbs'⟩

end Vardar.Kheap
