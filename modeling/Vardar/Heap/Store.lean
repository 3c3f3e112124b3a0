import Vardar.Lib.Run
import Vardar.Heap.Realloc

/-!
# The kernel heap as a store

Callers that ask for multiples of eight bytes never meet the branch of `split_block` in which the
rest of a block has no room for its tags: all blocks start at multiples of eight from the start of
the heap, and every operation keeps it so. What a caller has written then stays in its allocation,
whatever the other callers do, and a heap in which everything has been freed is one free block.

## Main definitions

* `Vardar.Kheap.Aligned`: the tagged heaps with blocks at multiples of eight.
* `Vardar.Kheap.Rewritten`: what an operation on one block does to the used blocks.
* `Vardar.Kheap.Region`, `Vardar.Kheap.Store`: the live allocations with what their owners know of
  their contents.

## Main results

* `Vardar.Kheap.Store.holds_of_run`: the owners are right in every state of a run.
* `Vardar.Kheap.Store.blocks_of_all_freed`: nothing is lost.
-/

namespace Vardar.Kheap

open ByteMemory Word Tiling

/-! ### Aligned heaps -/

/-- The tags are correct and all blocks start at multiples of eight from the start of the heap. -/
structure Aligned (h : Heap) : Prop extends Tagged h (blocks h) where
  size_mod : h.size % 8 = 0
  addr_mod : ∀ b ∈ blocks h, b.addr % 8 = h.start % 8

section

variable {h h' : Heap} {xs ys ys' zs : List Block} {a b c y : Block} {n : ℕ}

/-- Bodies are multiples of eight. -/
theorem Aligned.body_mod (ha : Aligned h) (hb : b ∈ blocks h) : b.size % 8 = 0 := by
  have htiles := ha.tiles
  have hsize := ha.size_mod
  have hmod := ha.addr_mod b hb
  obtain ⟨xs, zs, hbs⟩ := List.append_of_mem hb
  rw [hbs] at htiles
  obtain ⟨q, -, -, -, hz⟩ := tiles_append.mp htiles
  cases zs with
  | nil =>
    have hend : b.next = h.start + h.size := hz
    unfold Block.next at hend
    omega
  | cons c zs =>
    have hadj : c.addr = b.next := hz.1
    have hc := ha.addr_mod c (by rw [hbs]; simp)
    unfold Block.next at hadj
    omega

/-- The heap that `init_heap` leaves is one free block, if its size survives `SIZE_MASK`. -/
theorem tagged_initHeap {mem : Mem} {heapStart heapSize : ℕ} (heven : heapSize % 2 = 0)
    (h16 : 16 ≤ heapSize) (hsmall : heapSize - mdataSize ≤ sizeMask)
    (hfit : heapStart + heapSize < 2 ^ 64) :
    Tagged (initHeap mem heapStart heapSize) [⟨heapStart, heapSize - 8, .free⟩] := by
  have hmask : heapSize - 8 ≤ 65534 := hsmall
  have hinit : initHeap mem heapStart heapSize =
      ((Heap.mk mem heapStart heapSize).setTag heapStart (heapSize - 8)).setTag
        (heapStart + 4 + (heapSize - 8)) (heapSize - 8) := by
    simp only [initHeap, mdataSize, headerSize]
    rw [sub64_of_le (by omega) (by omega), Heap.tag_setTag_self (by omega),
      add64_of_lt (a := heapStart) (by omega), add64_of_lt (by omega)]
  rw [hinit]
  refine ⟨hsmall, hfit, ⟨rfl, ?_, ?_⟩, ?_⟩
  · unfold Block.next
    omega
  · change heapStart + (heapSize - 8) + 8 = heapStart + heapSize
    omega
  · simp only [List.mem_singleton, forall_eq]
    refine ⟨?_, ?_, by dsimp only; omega, by simp⟩
    · rw [Heap.tag_setTag_of_disjoint (by dsimp only; omega), Heap.tag_setTag_self (by omega)]
      rfl
    · rw [Block.foot, Heap.tag_setTag_self (by omega)]
      rfl

theorem aligned_initHeap {mem : Mem} {heapStart heapSize : ℕ} (hmod : heapSize % 8 = 0)
    (h16 : 16 ≤ heapSize) (hsmall : heapSize - mdataSize ≤ sizeMask)
    (hfit : heapStart + heapSize < 2 ^ 64) : Aligned (initHeap mem heapStart heapSize) := by
  have ht : Tagged (initHeap mem heapStart heapSize) _ :=
    tagged_initHeap (by omega) h16 hsmall hfit
  have hbs := ht.blocks_eq
  refine ⟨hbs.symm ▸ ht, hmod, fun b hb => ?_⟩
  rw [hbs, List.mem_singleton] at hb
  rw [hb]
  rfl

/-! ### Operations on one block -/

/-- An operation on the block `b` has left the heap `h'`: `u` is the used block in its place, if
there is one, and all other used blocks have kept their place and their bytes. -/
structure Rewritten (h h' : Heap) (b : Block) (u : Option Block) : Prop where
  aligned : Aligned h'
  start : h'.start = h.start
  size : h'.size = h.size
  used : ∀ c, c ∈ blocks h' ∧ c.kind = .used ↔
    (c ∈ blocks h ∧ c.kind = .used ∧ c ≠ b) ∨ some c = u
  apart : ∀ c ∈ blocks h, c.kind = .used → c ≠ b → ∀ v, some v = u → c.addr ≠ v.addr
  bytes : ∀ c ∈ blocks h, c.kind = .used → c ≠ b → ∀ x, c.addr ≤ x → x < c.next →
    h'.mem x = h.mem x

/-- Replacing a run of blocks, one of which may be used. -/
theorem Aligned.rewritten (ha : Aligned h) (hbs : blocks h = xs ++ (ys ++ zs))
    (ht : Tagged h' (xs ++ (ys' ++ zs))) (hstart : h'.start = h.start) (hsize : h'.size = h.size)
    (hmem : ∀ q r, Tiles Block.addr Block.next q ys r → ∀ x, x < q ∨ r ≤ x → h'.mem x = h.mem x)
    (hb : b ∈ ys) (hold : ∀ c ∈ ys, c.kind = .used → c = b) {u : Option Block}
    (hnew : ∀ c, c ∈ ys' ∧ c.kind = .used ↔ some c = u)
    (haddr : ∀ c ∈ ys', c.addr % 8 = h.start % 8) : Rewritten h h' b u := by
  have hbs' := ht.blocks_eq
  have htiles := ha.tiles
  rw [hbs] at htiles
  have hpair := htiles.pairwise
  obtain ⟨q, hx, hyz⟩ := tiles_append.mp htiles
  obtain ⟨r, hy, hz⟩ := tiles_append.mp hyz
  have hby := hy.bounds hb
  -- the other used blocks are outside the run
  have hout {c : Block} (hc : c ∈ blocks h) (hu : c.kind = .used) (hne : c ≠ b) :
      c ∈ xs ∧ c.next ≤ q ∨ c ∈ zs ∧ r ≤ c.addr := by
    rw [hbs, List.mem_append, List.mem_append] at hc
    rcases hc with hc | hc | hc
    · exact .inl ⟨hc, (hx.bounds hc).2.2⟩
    · exact absurd (hold c hc hu) hne
    · exact .inr ⟨hc, (hz.bounds hc).1⟩
  have hne {c : Block} (hc : c ∈ xs ∨ c ∈ zs) : c ≠ b := by
    rintro rfl
    unfold Block.next at hby
    rcases hc with hc | hc
    · have hcx := (hx.bounds hc).2.2
      unfold Block.next at hcx
      omega
    · have hcz := (hz.bounds hc).1
      omega
  refine ⟨⟨hbs'.symm ▸ ht, hsize ▸ ha.size_mod, fun c hc => ?_⟩, hstart, hsize, fun c => ?_,
    fun c hc hu hcb v hv heq => ?_, fun c hc hu hcb x hlo hhi => ?_⟩
  · rw [hbs', List.mem_append, List.mem_append] at hc
    rw [hstart]
    rcases hc with hc | hc | hc
    · exact ha.addr_mod c (by rw [hbs]; simp [hc])
    · exact haddr c hc
    · exact ha.addr_mod c (by rw [hbs]; simp [hc])
  · rw [hbs', List.mem_append, List.mem_append]
    constructor
    · rintro ⟨hc | hc | hc, hu⟩
      · exact .inl ⟨by rw [hbs]; simp [hc], hu, hne (.inl hc)⟩
      · exact .inr ((hnew c).mp ⟨hc, hu⟩)
      · exact .inl ⟨by rw [hbs]; simp [hc], hu, hne (.inr hc)⟩
    · rintro (⟨hc, hu, hcb⟩ | hc)
      · exact ⟨(hout hc hu hcb).imp And.left fun hc => .inr hc.1, hu⟩
      · obtain ⟨hc, hu⟩ := (hnew c).mpr hc
        exact ⟨.inr (.inl hc), hu⟩
  · obtain ⟨hv, -⟩ := (hnew v).mpr hv
    have htiles' := ht.tiles
    obtain ⟨-, hvz, hxv⟩ := List.pairwise_append.mp htiles'.pairwise
    have hvz := (List.pairwise_append.mp hvz).2.2
    rcases hout hc hu hcb with ⟨hc, -⟩ | ⟨hc, -⟩
    · have hlt := hxv c hc v (List.mem_append_left _ hv)
      unfold Block.next at hlt
      omega
    · have hlt := hvz v hv c hc
      unfold Block.next at hlt
      omega
  · rcases hout hc hu hcb with ⟨-, hle⟩ | ⟨-, hle⟩
    · exact hmem q r hy x (.inl (hhi.trans_le hle))
    · exact hmem q r hy x (.inr (hle.trans hlo))

/-- The used block that a split leaves. -/
theorem splitBlocks_used (y : Block) (hle : n ≤ y.size) : ∃ u : Block, u.addr = y.addr ∧
    n ≤ u.size ∧ ∀ c, c ∈ Chain.splitBlocks y n ∧ c.kind = .used ↔ some c = some u := by
  obtain ⟨u, rest, hsplit, haddr, hu, hsize, hrest⟩ := splitBlocks_cons y hle
  refine ⟨u, haddr, hsize, fun c => ?_⟩
  rw [hsplit, List.mem_cons, Option.some.injEq]
  constructor
  · rintro ⟨rfl | hc, hcu⟩
    · rfl
    · rcases hrest with rfl | ⟨e, rfl, he⟩
      · exact absurd hc List.not_mem_nil
      · rw [List.mem_singleton.mp hc, he] at hcu
        cases hcu
  · rintro rfl
    exact ⟨.inl rfl, hu⟩

theorem splitBlocks_addr (hc : c ∈ Chain.splitBlocks y n) :
    c.addr = y.addr ∨ c.addr = y.addr + 8 + n := by
  rw [Chain.splitBlocks] at hc
  split_ifs at hc
  · exact .inl (by rw [List.mem_singleton.mp hc])
  · rcases List.mem_cons.mp hc with rfl | hc
    · exact .inl rfl
    · exact .inr (by rw [List.mem_singleton.mp hc])

/-- Splitting the block that a run of blocks has become. -/
theorem Aligned.split (ha : Aligned h) (hbs : blocks h = xs ++ (ys ++ zs))
    (hy : ∀ q r, Tiles Block.addr Block.next q ys r → Tiles Block.addr Block.next q [y] r)
    (hymod : y.addr % 8 = h.start % 8) (hb : b ∈ ys) (hold : ∀ c ∈ ys, c.kind = .used → c = b)
    (hn : n % 8 = 0) (hle : n ≤ y.size)
    (ht : Tagged h' (xs ++ (Chain.splitBlocks y n ++ zs))) (hstart : h'.start = h.start)
    (hsize : h'.size = h.size) (hmem : ∀ x, x < y.addr ∨ y.next ≤ x → h'.mem x = h.mem x) :
    ∃ u : Block, u.addr = y.addr ∧ n ≤ u.size ∧ Rewritten h h' b (some u) := by
  obtain ⟨u, haddr, hu, hused⟩ := splitBlocks_used y hle
  refine ⟨u, haddr, hu, ha.rewritten hbs ht hstart hsize (fun q r hq x hx => hmem x ?_) hb hold
    hused fun c hc => ?_⟩
  · obtain ⟨rfl, -, hr⟩ := hy q r hq
    obtain rfl : y.next = r := hr
    exact hx
  · rcases splitBlocks_addr hc with hc | hc <;> omega

/-- The block that `kalloc` takes is used up or has room for the tags of its rest. -/
theorem Aligned.taken (ha : Aligned h) (hn : n % 8 = 0) (hy : firstAbove h n = some y) :
    evenSize n = n ∧ ∃ xs zs, blocks h = xs ++ ([y] ++ zs) ∧
      Tagged (Kheap.taken h y.addr n) (xs ++ (Chain.splitBlocks y n ++ zs)) := by
  obtain ⟨hmem, -, hlt⟩ := Tagged.mem_of_firstAbove hy
  have hymod := ha.body_mod hmem
  have hys : y.size ≤ 65534 := ha.size_le hmem
  obtain ⟨xs, zs, hsplit⟩ := List.append_of_mem hmem
  have ht : Tagged h (xs ++ ([y] ++ zs)) := hsplit ▸ ha.toTagged
  refine ⟨?_, xs, zs, hsplit, ht.taken (by omega) (by omega)⟩
  rw [evenSize_of_lt (by omega)]
  omega

/-- `kalloc` fails without effect or hands out zeroed bytes of a free block. -/
theorem Aligned.kalloc (ha : Aligned h) (hn : n % 8 = 0) :
    Kheap.kalloc h n = (none, h) ∨ ∃ (y u : Block) (h' : Heap), y.kind = .free ∧ n ≤ u.size ∧
      Kheap.kalloc h n = (some (u.addr + headerSize), h') ∧ Rewritten h h' y (some u) ∧
      ∀ i < n, h'.mem (u.addr + headerSize + i) = 0 := by
  rw [ha.kalloc_eq n]
  cases hy : firstAbove h n with
  | none => exact .inl rfl
  | some y =>
    obtain ⟨hmem, hk, hlt⟩ := Tagged.mem_of_firstAbove hy
    obtain ⟨heven, xs, zs, hsplit, ht⟩ := ha.taken hn hy
    obtain ⟨u, haddr, hu, hr⟩ := ha.split hsplit (fun _ _ hq => hq) (ha.addr_mod y hmem)
      (List.mem_singleton_self y) (fun c hc _ => List.mem_singleton.mp hc) hn hlt.le ht
      (Chain.splitBlock_start ..) (Chain.splitBlock_size ..)
      fun x hx => ha.taken_mem hmem (by omega) hlt.le hx
    refine .inr ⟨y, u, Kheap.taken h y.addr n, hk, hu, by rw [haddr, heven], hr, fun i hi => ?_⟩
    rw [haddr]
    exact fill_of_mem ⟨by omega, by omega⟩

/-- The last block before the merged one, if it is free. -/
theorem blocksBefore_append (xs : List Block) : blocksBefore xs ++ (freeLast xs).toList = xs := by
  rcases List.eq_nil_or_concat xs with rfl | ⟨xs, a, rfl⟩
  · rfl
  · rw [List.concat_eq_append, blocksBefore_concat, freeLast_concat]
    split_ifs
    · rfl
    · exact List.append_nil _

theorem append_blocksAfter (zs : List Block) : (freeHead zs).toList ++ blocksAfter zs = zs := by
  cases zs with
  | nil => rfl
  | cons c zs =>
    rw [blocksAfter_cons, freeHead_cons]
    split_ifs <;> rfl

/-- The merged block covers the freed block and its free neighbours. -/
theorem tiles_mergedBlock {q r : ℕ}
    (ht : Tiles Block.addr Block.next q ((freeLast xs).toList ++ b :: (freeHead zs).toList) r) :
    Tiles Block.addr Block.next q [mergedBlock xs b zs] r := by
  have hsize (d : Block) : d.next = d.addr + d.size + 8 := rfl
  cases hx : freeLast xs <;> cases hz : freeHead zs <;> rw [hx, hz] at ht <;>
    simp only [Option.toList_none, Option.toList_some, List.nil_append, List.cons_append,
      tiles_cons, tiles_nil] at ht <;>
    simp only [mergedBlock, hx, hz, Option.getD_none, Option.getD_some, mdataSize, tiles_cons,
      tiles_nil, hsize] at ht ⊢ <;> omega

/-- `kfree` removes a used block. -/
theorem Aligned.kfree (ha : Aligned h) (hb : b ∈ blocks h) (hu : b.kind = .used) :
    Rewritten h (Kheap.kfree h (b.addr + headerSize)) b none := by
  obtain ⟨xs, zs, hsplit⟩ := List.append_of_mem hb
  have hsplit : blocks h = xs ++ ([b] ++ zs) := hsplit
  have ht : Tagged h (xs ++ ([b] ++ zs)) := hsplit ▸ ha.toTagged
  obtain ⟨ht', hmem⟩ := ht.kfree hu
  obtain ⟨hstart, hsize⟩ := ht.chain.kfree_bounds hu
  have hrun : blocks h = blocksBefore xs ++
      (((freeLast xs).toList ++ b :: (freeHead zs).toList) ++ blocksAfter zs) := by
    have hx := blocksBefore_append xs
    have hz := append_blocksAfter zs
    calc blocks h = xs ++ ([b] ++ zs) := hsplit
      _ = (blocksBefore xs ++ (freeLast xs).toList) ++
          ([b] ++ ((freeHead zs).toList ++ blocksAfter zs)) := by rw [hx, hz]
      _ = _ := by simp
  have hlast {a : Block} (hx : freeLast xs = some a) : a ∈ blocks h ∧ a.kind = .free := by
    obtain ⟨⟨xs', rfl⟩, hk⟩ := freeLast_eq_some hx
    exact ⟨by rw [hsplit]; simp, hk⟩
  refine ha.rewritten hrun ht' hstart hsize (fun q r hq x hx => hmem x ?_) (by simp)
    (fun c hc hcu => ?_) (fun c => ?_) fun c hc => ?_
  · obtain ⟨rfl, -, hr⟩ := tiles_mergedBlock hq
    obtain rfl : (mergedBlock xs b zs).next = r := hr
    exact hx
  · rw [List.mem_append, List.mem_cons, Option.mem_toList, Option.mem_toList] at hc
    rcases hc with hc | rfl | hc
    · rw [(hlast hc).2] at hcu
      cases hcu
    · rfl
    · rw [(freeHead_eq_some hc).2] at hcu
      cases hcu
  · refine iff_of_false ?_ (by simp)
    rintro ⟨hc, hcu⟩
    rw [List.mem_singleton.mp hc] at hcu
    cases hcu
  · rw [List.mem_singleton.mp hc]
    change ((freeLast xs).getD b).addr % 8 = _
    cases hx : freeLast xs with
    | none => exact ha.addr_mod b hb
    | some a => exact ha.addr_mod a (hlast hx).1

/-! ### Two neighbours merged -/

theorem mergeForward_bounds (h : Heap) (p q n : ℕ) :
    (mergeForward h p q n).2.start = h.start ∧ (mergeForward h p q n).2.size = h.size :=
  ⟨(Chain.splitBlock_start ..).trans (mergeBlock_bounds h p q).1,
    (Chain.splitBlock_size ..).trans (mergeBlock_bounds h p q).2⟩

theorem mergeBackward_bounds (h : Heap) (p q n : ℕ) :
    (mergeBackward h p q n).2.start = h.start ∧ (mergeBackward h p q n).2.size = h.size :=
  ⟨(Chain.splitBlock_start ..).trans (mergeBlock_bounds _ p q).1,
    (Chain.splitBlock_size ..).trans (mergeBlock_bounds _ p q).2⟩

section Merged

variable (hh : Headed h (xs ++ ([a, b] ++ zs))) (hs : a.size + b.size + 8 ≤ sizeMask)
  (hn : n % 2 = 0)

include hh hs hn

/-- The tags that `merge_forward` leaves. -/
theorem Headed.mergeForward_words (hfit : n = a.size + b.size + 8 ∨ n + 8 ≤ a.size + b.size + 8) :
    ∀ c ∈ Chain.splitBlocks (Chain.joinBlocks a b) n,
      (Kheap.mergeForward h a.addr b.addr n).2.tag c.addr = c.word ∧
        (Kheap.mergeForward h a.addr b.addr n).2.tag c.foot = c.word := by
  have hb := hh.head b (by simp)
  have hadj := hh.addr_eq_next
  set h₁ := (mergeBlock h a.addr b.addr).2 with hh₁
  set h₂ : Heap := { h₁ with mem := memset h₁.mem b.addr 0 (b.size + headerSize) } with hh₂
  have heq : Kheap.mergeForward h a.addr b.addr n = splitBlock h₂ a.addr n := by
    simp only [Kheap.mergeForward, hb.1, hh.mergeBlock_fst, Option.getD_some, ← hh₁, ← hh₂]
  have hjoin : Chain.joinBlocks a b ∈ xs ++ ([Chain.joinBlocks a b] ++ zs) := by simp
  have hhead : Headed h₂ (xs ++ ([Chain.joinBlocks a b] ++ zs)) := by
    refine (hh.merge hs).write hjoin rfl rfl fun x hx => fill_of_notMem ?_
    simp only [Chain.joinBlocks, Block.next] at hx
    unfold headerSize
    omega
  rw [heq]
  exact Chain.splitBlock_words (hhead.head _ hjoin) (hhead.limit_eq ▸ (hhead.bounds hjoin).2)
    (hhead.limit_eq ▸ hhead.fits) hn hfit

omit hs hn in
/-- `merge_backward` moves the data and goes on like `merge_forward`. -/
theorem Headed.mergeBackward_eq (hroom : b.size ≤ a.size + 4) : ∃ h₁ : Heap,
    Headed h₁ (xs ++ ([a, b] ++ zs)) ∧
      Kheap.mergeBackward h a.addr b.addr n = Kheap.mergeForward h₁ a.addr b.addr n := by
  have hadj := hh.addr_eq_next
  have hfit := hh.fits
  obtain ⟨-, hhi⟩ := hh.bounds (b := b) (by simp)
  set h₁ : Heap := { h with mem := memmove h.mem (a.addr + 4) (b.addr + 4) b.size } with hh₁
  have hhead : Headed h₁ (xs ++ ([a, b] ++ zs)) := by
    refine hh.write (b := a) (by simp) rfl rfl fun x hx => memmove_of_notMem ?_
    unfold Block.next at hx
    omega
  have htag : h₁.tag b.addr &&& sizeMask = b.size := (hhead.head b (by simp)).1
  refine ⟨h₁, hhead, ?_⟩
  simp only [Kheap.mergeBackward, headerSize, (hh.head b (by simp)).1, ← hh₁,
    add64_of_lt (show a.addr + 4 < 2 ^ 64 by omega),
    add64_of_lt (show b.addr + 4 < 2 ^ 64 by omega)]
  simp only [Kheap.mergeForward, headerSize, htag]

end Merged

/-- Splitting the block that two neighbours have become, one of which was free. -/
theorem Aligned.merged (ha : Aligned h) (hbs : blocks h = xs ++ ([a, c] ++ zs)) (hb : b ∈ [a, c])
    (hold : ∀ d ∈ [a, c], d.kind = .used → d = b) (hn : n % 8 = 0) (hle : n ≤ a.size + c.size + 8)
    (hstart : h'.start = h.start) (hsize : h'.size = h.size)
    (hwords : ∀ d ∈ Chain.splitBlocks (Chain.joinBlocks a c) n,
      h'.tag d.addr = d.word ∧ h'.tag d.foot = d.word)
    (hout : ∀ x, x < a.addr ∨ c.next ≤ x → h'.mem x = h.mem x) :
    ∃ u : Block, u.addr = a.addr ∧ n ≤ u.size ∧ Rewritten h h' b (some u) := by
  have ht : Tagged h (xs ++ ([a, c] ++ zs)) := hbs ▸ ha.toTagged
  have hadj := ht.chain.addr_eq_next
  have hnext : (Chain.joinBlocks a c).next = c.next := by
    simp only [Chain.joinBlocks, Block.next] at hadj ⊢
    omega
  have hjoin {q r : ℕ} (hq : Tiles Block.addr Block.next q [a, c] r) :=
    Chain.tiles_joinBlocks hq
  refine ha.split (y := Chain.joinBlocks a c) hbs (fun q r hq => hjoin hq)
    (ha.addr_mod a (by rw [hbs]; simp)) hb hold hn hle
    (ht.splice hstart hsize (fun q r hq x hx => ?_)
      (fun q r hq => Chain.tiles_splitBlocks (hjoin hq)) fun d hd => ?_)
    hstart hsize fun x hx => hout x (hnext ▸ hx)
  · obtain ⟨rfl, -, hr⟩ := hjoin hq
    obtain rfl : (Chain.joinBlocks a c).next = r := hr
    exact hout x (hnext ▸ hx)
  · obtain ⟨hhead, hfoot⟩ := hwords d hd
    have heven : (Chain.joinBlocks a c).size % 2 = 0 := by
      have hae := (ht.tagged a (by simp)).2.2.1
      have hce := (ht.tagged c (by simp)).2.2.1
      simp only [Chain.joinBlocks]
      omega
    exact ⟨hhead, hfoot, (Chain.splitBlocks_size hd heven (by omega) hle).1,
      Chain.not_virgin_splitBlocks hd⟩

/-- A result of `krealloc` on the block `b` that keeps the heap aligned and the data. -/
def Moved (h : Heap) (b : Block) (n : ℕ) (r : Option ℕ × Heap) : Prop :=
  r = (none, h) ∨ ∃ (u : Block) (h' : Heap), n ≤ u.size ∧ r = (some (u.addr + headerSize), h') ∧
    Rewritten h h' b (some u) ∧
    ∀ i < min b.size n, h'.mem (u.addr + headerSize + i) = h.mem (b.addr + headerSize + i)

theorem Aligned.moved_forward (ha : Aligned h) (hbs : blocks h = xs ++ ([b, c] ++ zs))
    (hc : c.kind = .free) (hn : n % 8 = 0) (hle : n ≤ b.size + c.size + 8) :
    Moved h b n (payload (mergeForward h b.addr c.addr n)) := by
  have ht : Tagged h (xs ++ ([b, c] ++ zs)) := hbs ▸ ha.toTagged
  have hbmod := ha.body_mod (b := b) (by rw [hbs]; simp)
  have hcmod := ha.body_mod (b := c) (by rw [hbs]; simp)
  have hadj := ht.chain.addr_eq_next
  have hfit := ht.fits
  obtain ⟨-, hhi⟩ := ht.chain.bounds (b := b) (by simp)
  obtain ⟨hfst, -, hout, hbody⟩ := ht.chain.headed.mergeForward ht.join_size_le (by omega) hle
  have hwords := ht.chain.headed.mergeForward_words ht.join_size_le (n := n) (by omega) (by omega)
  have hold : ∀ d ∈ [b, c], d.kind = .used → d = b := by simp [hc]
  obtain ⟨u, haddr, hu, hr⟩ := ha.merged (b := b) hbs (by simp) hold hn hle
    (mergeForward_bounds ..).1 (mergeForward_bounds ..).2 hwords hout
  refine .inr ⟨u, _, hu, ?_, hr, fun i hi => ?_⟩
  · rw [payload, hfst, Option.getD_some, haddr, add64_of_lt (by unfold headerSize; omega)]
  · rw [haddr]
    exact hbody _ (by unfold headerSize; omega) (by unfold headerSize; omega)
      (by unfold headerSize; omega)

theorem Aligned.moved_backward (ha : Aligned h) (hbs : blocks h = xs ++ ([a, b] ++ zs))
    (hk : a.kind = .free) (hn : n % 8 = 0) (hle : n ≤ a.size + b.size + 8)
    (hroom : b.size ≤ a.size + 4) : Moved h b n (payload (mergeBackward h a.addr b.addr n)) := by
  have ht : Tagged h (xs ++ ([a, b] ++ zs)) := hbs ▸ ha.toTagged
  have hamod := ha.body_mod (b := a) (by rw [hbs]; simp)
  have hbmod := ha.body_mod (b := b) (by rw [hbs]; simp)
  have hfit := ht.fits
  obtain ⟨-, hhi⟩ := ht.chain.bounds (b := a) (by simp)
  obtain ⟨hfst, -, hout, hbody⟩ :=
    ht.chain.headed.mergeBackward ht.join_size_le (by omega) hle hroom
  obtain ⟨h₁, hh₁, heq⟩ := ht.chain.headed.mergeBackward_eq (n := n) hroom
  have hwords := hh₁.mergeForward_words ht.join_size_le (n := n) (by omega) (by omega)
  rw [← heq] at hwords
  have hold : ∀ d ∈ [a, b], d.kind = .used → d = b := by simp [hk]
  obtain ⟨u, haddr, hu, hr⟩ := ha.merged (b := b) hbs (by simp) hold hn hle
    (mergeBackward_bounds ..).1 (mergeBackward_bounds ..).2 hwords hout
  refine .inr ⟨u, _, hu, ?_, hr, fun i hi => ?_⟩
  · rw [payload, hfst, Option.getD_some, haddr, add64_of_lt (by unfold headerSize; omega)]
  · rw [haddr]
    exact hbody i (lt_of_lt_of_le hi (min_le_left _ _)) (lt_of_lt_of_le hi (min_le_right _ _))

/-- `krealloc` fails without effect, or gives the data a block with room for the request. -/
theorem Aligned.krealloc (ha : Aligned h) (hbs : blocks h = xs ++ ([b] ++ zs)) (hn : n % 8 = 0)
    (hok : ReallocOk h xs b zs n) : Moved h b n (Kheap.krealloc h (b.addr + headerSize) n) := by
  have ht : Tagged h (xs ++ ([b] ++ zs)) := hbs ▸ ha.toTagged
  have hround {k : ℕ} (hnm : n ≤ evenSize n) (hle : evenSize n ≤ k) (hk : k ≤ sizeMask) :
      evenSize n = n := by
    have hmask : k ≤ 65534 := hk
    rw [evenSize_of_lt (by omega)]
    omega
  rcases hok with ⟨hnm, c, hc, hle⟩ | ⟨hnext, ⟨hnm, a, hx, hle, hroom⟩ | ⟨hprev, hboth, hfull⟩⟩
  · have hz : (freeHead zs).filter (fun c => evenSize n ≤ b.size + c.size + 8) = some c :=
      Option.filter_eq_some_iff.mpr ⟨hc, by simpa using hle⟩
    rw [ht.krealloc_eq n, hz]
    obtain ⟨⟨zs', rfl⟩, hck⟩ := freeHead_eq_some hc
    have ht' : Tagged h (xs ++ ([b, c] ++ zs')) := ht
    have heven := hround hnm hle ht'.join_size_le
    rw [heven] at hle ⊢
    exact ha.moved_forward hbs hck hn hle
  · have hz : (freeHead zs).filter (fun c => evenSize n ≤ b.size + c.size + 8) = none :=
      Option.filter_eq_none_iff.mpr fun c hc => by simpa using hnext c hc
    have hlast : (freeLast xs).filter (fun a => evenSize n ≤ a.size + b.size + 8) = some a :=
      Option.filter_eq_some_iff.mpr ⟨hx, by simpa using hle⟩
    rw [ht.krealloc_eq n, hz, hlast]
    obtain ⟨⟨xs', rfl⟩, hak⟩ := freeLast_eq_some hx
    have ht' : Tagged h (xs' ++ ([a, b] ++ zs)) := by simpa using ht
    have heven := hround hnm hle ht'.join_size_le
    rw [heven] at hle ⊢
    exact ha.moved_backward (by simpa using hbs) hak hn hle hroom
  · have hmove : moveAllocation h (b.addr + headerSize) b.size (evenSize n) = (none, h) := by
      rw [moveAllocation, ha.kalloc_eq, hfull]
    rw [krealloc_eq_move ht hnext hprev hboth, hmove]
    exact .inl rfl

end

/-! ### Live allocations -/

/-- A live allocation: its address and, byte for byte, what its owner knows of its contents. -/
structure Region where
  addr : ℕ
  bytes : List (Option (BitVec 8))

namespace Region

/-- The owner writes a byte. -/
def write (r : Region) (i : ℕ) (v : BitVec 8) : Region := { r with bytes := r.bytes.set i (some v) }

/-- The allocation after `krealloc`: the data is known as far as both sizes go. -/
def resize (r : Region) (q n : ℕ) : Region :=
  ⟨q, r.bytes.take n ++ List.replicate (n - r.bytes.length) none⟩

/-- The allocation is the beginning of the body of `b`, and its owner is right about it. -/
structure Backed (m : Mem) (b : Block) (r : Region) : Prop where
  addr : r.addr = b.addr + headerSize
  length : r.bytes.length ≤ b.size
  bytes : ∀ i v, r.bytes[i]? = some (some v) → m (r.addr + i) = v

end Region

/-- The heap and its live allocations. -/
structure Store where
  heap : Heap
  live : List Region

/-- A call, or the write of one byte by the owner of an allocation. -/
inductive Request
  | kalloc (size : ℕ)
  | kfree (allocation : ℕ)
  | krealloc (allocation size : ℕ)
  | write (allocation offset : ℕ) (value : BitVec 8)

namespace Store

/-- The state after a result of `kalloc`. -/
def allocate (s : Store) (size : ℕ) : Option ℕ × Heap → Store
  | (some p, h) => ⟨h, ⟨p, List.replicate size (some 0)⟩ :: s.live⟩
  | (none, h) => ⟨h, s.live⟩

/-- The state after a result of `krealloc`. -/
def reallocate (s : Store) (p n : ℕ) : Option ℕ × Heap → Store
  | (some q, h) => ⟨h, s.live.map fun r => if r.addr = p then r.resize q n else r⟩
  | (none, h) => ⟨h, s.live⟩

/-- The state after a request. -/
def step (s : Store) : Request → Store
  | .kalloc size => s.allocate size (Kheap.kalloc s.heap size)
  | .kfree p => ⟨Kheap.kfree s.heap p, s.live.filter fun r => r.addr ≠ p⟩
  | .krealloc p n => s.reallocate p n (Kheap.krealloc s.heap p n)
  | .write p i v =>
    ⟨{ s.heap with mem := Function.update s.heap.mem (p + i) v },
      s.live.map fun r => if r.addr = p then r.write i v else r⟩

/-- Sizes are multiples of eight, pointers are live, owners write inside their allocations, and
`krealloc` is called where it keeps the data. -/
def Allowed (s : Store) : Request → Prop
  | .kalloc size => size % 8 = 0
  | .kfree p => ∃ r ∈ s.live, r.addr = p
  | .krealloc p n => (∃ r ∈ s.live, r.addr = p) ∧ n % 8 = 0 ∧ ∃ xs b zs,
      blocks s.heap = xs ++ ([b] ++ zs) ∧ p = b.addr + headerSize ∧ ReallocOk s.heap xs b zs n
  | .write p i _ => ∃ r ∈ s.live, r.addr = p ∧ i < r.bytes.length

/-- The state after `init_heap`. -/
def boot (mem : Mem) (heapStart heapSize : ℕ) : Store := ⟨initHeap mem heapStart heapSize, []⟩

/-- Every owner is right about every byte. -/
def Holds (s : Store) : Prop :=
  ∀ r ∈ s.live, ∀ i v, r.bytes[i]? = some (some v) → s.heap.mem (r.addr + i) = v

/-- The live allocations lie in the heap and apart from each other. -/
def Apart (s : Store) (heapStart heapSize : ℕ) : Prop :=
  (∀ r ∈ s.live, heapStart ≤ r.addr ∧ r.addr + r.bytes.length ≤ heapStart + heapSize) ∧
    s.live.Pairwise fun r r' => r.addr + r.bytes.length ≤ r'.addr ∨
      r'.addr + r'.bytes.length ≤ r.addr

/-- Every used block belongs to a live allocation. -/
def Owned (s : Store) : Prop :=
  ∀ b ∈ blocks s.heap, b.kind = .used → ∃ r ∈ s.live, r.addr = b.addr + headerSize

/-- The live allocations are in distinct used blocks, one for each used block. -/
structure Inv (heapStart heapSize : ℕ) (s : Store) : Prop where
  aligned : Aligned s.heap
  start : s.heap.start = heapStart
  size : s.heap.size = heapSize
  distinct : s.live.Pairwise fun r r' => r.addr ≠ r'.addr
  backed : ∀ r ∈ s.live, ∃ b ∈ blocks s.heap, b.kind = .used ∧ r.Backed s.heap.mem b
  owned : s.Owned

variable {heapStart heapSize : ℕ} {s : Store} {h' : Heap} {b c u : Block} {r : Region} {p n : ℕ}

/-- Allocations in other blocks stay. -/
theorem backed_of_ne {h : Heap} {o : Option Block} (hr : Rewritten h h' b o) (hc : c ∈ blocks h)
    (hu : c.kind = .used) (hne : c ≠ b) (hB : r.Backed h.mem c) :
    c ∈ blocks h' ∧ c.kind = .used ∧ r.Backed h'.mem c := by
  obtain ⟨hc', hu'⟩ := (hr.used c).mpr (.inl ⟨hc, hu, hne⟩)
  refine ⟨hc', hu', hB.addr, hB.length, fun i v hv => ?_⟩
  have hlt := (List.getElem?_eq_some_iff.mp hv).1
  have hlen := hB.length
  rw [← hB.bytes i v hv]
  refine hr.bytes c hc hu hne _ ?_ ?_ <;> rw [hB.addr] <;> unfold headerSize
  · omega
  · unfold Block.next
    omega

/-- The block of an allocation is known by its address. -/
theorem Inv.block_eq (hi : Inv heapStart heapSize s) (hb : b ∈ blocks s.heap)
    (hc : c ∈ blocks s.heap) (hB : r.Backed s.heap.mem c) (hr : r.addr = b.addr + headerSize) :
    c = b :=
  hi.aligned.chain.addr_inj hc hb (Nat.add_right_cancel (hB.addr.symm.trans hr))

/-- A new allocation in the place of a free block. -/
theorem Inv.add (hi : Inv heapStart heapSize s) (hr : Rewritten s.heap h' b (some u))
    (hk : b.kind = .free) (hu : r.Backed h'.mem u) : Inv heapStart heapSize ⟨h', r :: s.live⟩ := by
  have hne {c : Block} (hc : c.kind = .used) : c ≠ b := by
    rintro rfl
    rw [hk] at hc
    cases hc
  obtain ⟨hu', hused⟩ := (hr.used u).mpr (.inr rfl)
  refine ⟨hr.aligned, hr.start.trans hi.start, hr.size.trans hi.size,
    List.Pairwise.cons (fun r' hr' heq => ?_) hi.distinct, fun r' hr' => ?_, fun c hc hcu => ?_⟩
  · obtain ⟨c, hc, hcu, hB⟩ := hi.backed r' hr'
    refine hr.apart c hc hcu (hne hcu) u rfl (Nat.add_right_cancel (m := headerSize) ?_)
    rw [← hB.addr, ← hu.addr, heq]
  · rcases List.mem_cons.mp hr' with rfl | hr'
    · exact ⟨u, hu', hused, hu⟩
    · obtain ⟨c, hc, hcu, hB⟩ := hi.backed r' hr'
      exact ⟨c, backed_of_ne hr hc hcu (hne hcu) hB⟩
  · rcases (hr.used c).mp ⟨hc, hcu⟩ with ⟨hc, hcu, -⟩ | hc
    · obtain ⟨r', hr', heq⟩ := hi.owned c hc hcu
      exact ⟨r', List.mem_cons_of_mem r hr', heq⟩
    · obtain rfl := Option.some.inj hc
      exact ⟨r, List.mem_cons_self, hu.addr⟩

/-- The allocation of a block that has become free goes. -/
theorem Inv.remove (hi : Inv heapStart heapSize s) (hr : Rewritten s.heap h' b none)
    (hb : b ∈ blocks s.heap) (hp : p = b.addr + headerSize) :
    Inv heapStart heapSize ⟨h', s.live.filter fun r => r.addr ≠ p⟩ := by
  refine ⟨hr.aligned, hr.start.trans hi.start, hr.size.trans hi.size, hi.distinct.filter _,
    fun r hrl => ?_, fun c hc hcu => ?_⟩
  · obtain ⟨hrl, hne⟩ := List.mem_filter.mp hrl
    obtain ⟨c, hc, hcu, hB⟩ := hi.backed r hrl
    refine ⟨c, backed_of_ne hr hc hcu ?_ hB⟩
    rintro rfl
    simp [hB.addr, hp] at hne
  · rcases (hr.used c).mp ⟨hc, hcu⟩ with ⟨hc, hcu, hne⟩ | hc
    · obtain ⟨r, hrl, heq⟩ := hi.owned c hc hcu
      refine ⟨r, List.mem_filter.mpr ⟨hrl, ?_⟩, heq⟩
      have haddr : c.addr ≠ b.addr := fun h => hne (hi.aligned.chain.addr_inj hc hb h)
      simpa [heq, hp] using haddr
    · cases hc

/-- The allocation of one block changes, and may go to another block. -/
theorem Inv.replace (hi : Inv heapStart heapSize s) (hr : Rewritten s.heap h' b (some u))
    (hb : b ∈ blocks s.heap) (hk : b.kind = .used) (hp : p = b.addr + headerSize)
    {f : Region → Region} (hf : ∀ r ∈ s.live, r.Backed s.heap.mem b → (f r).Backed h'.mem u) :
    Inv heapStart heapSize ⟨h', s.live.map fun r => if r.addr = p then f r else r⟩ := by
  obtain ⟨hu', hused⟩ := (hr.used u).mpr (.inr rfl)
  -- the allocation at `p` is in `u` afterwards, and all others are where they were
  have hcase {r : Region} (hrl : r ∈ s.live) :
      (r.addr = p ∧ (f r).Backed h'.mem u) ∨ (r.addr ≠ p ∧ ∃ c ∈ blocks s.heap, c.kind = .used ∧
        c ≠ b ∧ r.Backed s.heap.mem c) := by
    obtain ⟨c, hc, hcu, hB⟩ := hi.backed r hrl
    by_cases heq : r.addr = p
    · obtain rfl := hi.block_eq hb hc hB (heq.trans hp)
      exact .inl ⟨heq, hf r hrl hB⟩
    · refine .inr ⟨heq, c, hc, hcu, ?_, hB⟩
      rintro rfl
      exact heq (hB.addr.trans hp.symm)
  have hapart {r r' : Region} (hu : (f r).Backed h'.mem u) (hB : ∃ c ∈ blocks s.heap,
      c.kind = .used ∧ c ≠ b ∧ r'.Backed s.heap.mem c) : (f r).addr ≠ r'.addr := by
    obtain ⟨c, hc, hcu, hne, hB⟩ := hB
    intro heq
    refine hr.apart c hc hcu hne u rfl (Nat.add_right_cancel (m := headerSize) ?_)
    rw [← hB.addr, ← hu.addr, heq]
  refine ⟨hr.aligned, hr.start.trans hi.start, hr.size.trans hi.size, ?_, fun r' hr' => ?_,
    fun c hc hcu => ?_⟩
  · refine List.pairwise_map.mpr (hi.distinct.imp_of_mem fun {r r'} hr₁ hr₂ hne => ?_)
    rcases hcase hr₁ with ⟨h₁, hB₁⟩ | ⟨h₁, hB₁⟩ <;> rcases hcase hr₂ with ⟨h₂, hB₂⟩ | ⟨h₂, hB₂⟩
    · exact absurd (h₁.trans h₂.symm) hne
    · rw [if_pos h₁, if_neg h₂]
      exact hapart hB₁ hB₂
    · rw [if_neg h₁, if_pos h₂]
      exact (hapart hB₂ hB₁).symm
    · rwa [if_neg h₁, if_neg h₂]
  · obtain ⟨r, hrl, rfl⟩ := List.mem_map.mp hr'
    rcases hcase hrl with ⟨heq, hB⟩ | ⟨heq, c, hc, hcu, hne, hB⟩
    · rw [if_pos heq]
      exact ⟨u, hu', hused, hB⟩
    · rw [if_neg heq]
      exact ⟨c, backed_of_ne hr hc hcu hne hB⟩
  · rcases (hr.used c).mp ⟨hc, hcu⟩ with ⟨hc, hcu, hne⟩ | hc
    · obtain ⟨r, hrl, heq⟩ := hi.owned c hc hcu
      refine ⟨r, List.mem_map.mpr ⟨r, hrl, if_neg ?_⟩, heq⟩
      rw [heq, hp]
      exact fun h => hne (hi.aligned.chain.addr_inj hc hb (Nat.add_right_cancel h))
    · obtain rfl := Option.some.inj hc
      obtain ⟨r, hrl, heq⟩ := hi.owned b hb hk
      have hfr := (hcase hrl).resolve_right fun h => h.1 (heq.trans hp.symm)
      exact ⟨f r, List.mem_map.mpr ⟨r, hrl, if_pos hfr.1⟩, hfr.2.addr⟩

/-! ### Steps -/

theorem inv_boot (mem : Mem) (hmod : heapSize % 8 = 0) (h16 : 16 ≤ heapSize)
    (hsmall : heapSize - mdataSize ≤ sizeMask) (hfit : heapStart + heapSize < 2 ^ 64) :
    Inv heapStart heapSize (boot mem heapStart heapSize) := by
  refine ⟨aligned_initHeap hmod h16 hsmall hfit, rfl, rfl, List.Pairwise.nil, by simp [boot],
    fun b hb hu => ?_⟩
  have ht : Tagged (boot mem heapStart heapSize).heap _ :=
    tagged_initHeap (by omega) h16 hsmall hfit
  rw [ht.blocks_eq, List.mem_singleton] at hb
  rw [hb] at hu
  cases hu

/-- Writing a byte of a body keeps the tags. -/
theorem tagged_write {h : Heap} (ha : Aligned h) (hb : b ∈ blocks h) {a : ℕ}
    (hlo : b.addr + 4 ≤ a) (hhi : a < b.addr + 4 + b.size) (v : BitVec 8) :
    Tagged { h with mem := Function.update h.mem a v } (blocks h) :=
  ha.toTagged.body_write hb rfl rfl fun _ _ => Function.update_of_ne (by omega) _ _

theorem rewritten_write {h : Heap} (ha : Aligned h) (hb : b ∈ blocks h) (hu : b.kind = .used)
    {a : ℕ} (hlo : b.addr + 4 ≤ a) (hhi : a < b.addr + 4 + b.size) (v : BitVec 8) :
    Rewritten h { h with mem := Function.update h.mem a v } b (some b) := by
  have ht := tagged_write ha hb hlo hhi v
  have hbs := ht.blocks_eq
  refine ⟨⟨hbs.symm ▸ ht, ha.size_mod, hbs.symm ▸ ha.addr_mod⟩, rfl, rfl, fun c => ?_,
    fun c hc _ hne u hu' heq => ?_, fun c hc _ hne x hx hx' => Function.update_of_ne ?_ _ _⟩
  · rw [hbs, Option.some.injEq]
    constructor
    · rintro ⟨hc, hcu⟩
      exact (em (c = b)).symm.imp (fun hne => ⟨hc, hcu, hne⟩) id
    · rintro (⟨hc, hcu, -⟩ | rfl)
      · exact ⟨hc, hcu⟩
      · exact ⟨hb, hu⟩
  · obtain rfl := Option.some.inj hu'
    exact hne (ha.chain.addr_inj hc hb heq)
  · have hapart := ha.chain.apart hc hb fun h => hne (ha.chain.addr_inj hc hb h)
    unfold Block.next at hx'
    omega

/-- A new allocation is zero. -/
theorem backed_replicate {m : Mem} (hsize : n ≤ u.size)
    (hzero : ∀ i < n, m (u.addr + headerSize + i) = 0) :
    (Region.mk (u.addr + headerSize) (List.replicate n (some 0))).Backed m u := by
  refine ⟨rfl, ?_, fun i v hv => ?_⟩
  · change (List.replicate n _).length ≤ u.size
    rwa [List.length_replicate]
  · change (List.replicate n (some 0))[i]? = some (some v) at hv
    obtain ⟨hlt, hv⟩ := List.getElem?_eq_some_iff.mp hv
    rw [List.length_replicate] at hlt
    rw [List.getElem_replicate] at hv
    rw [← Option.some.inj hv]
    exact hzero i hlt

theorem inv_kalloc (hi : Inv heapStart heapSize s) (hn : n % 8 = 0) :
    Inv heapStart heapSize (s.allocate n (Kheap.kalloc s.heap n)) := by
  rcases hi.aligned.kalloc hn with hnone | ⟨y, u, h', hk, hsize, hsome, hr, hzero⟩
  · rw [hnone]
    exact hi
  · rw [hsome]
    exact hi.add hr hk (backed_replicate hsize hzero)

theorem inv_kfree (hi : Inv heapStart heapSize s) (ha : s.Allowed (.kfree p)) :
    Inv heapStart heapSize (s.step (.kfree p)) := by
  obtain ⟨r, hr, rfl⟩ := ha
  obtain ⟨b, hb, hu, hB⟩ := hi.backed r hr
  have hfree := hi.aligned.kfree hb hu
  rw [← hB.addr] at hfree
  exact hi.remove hfree hb hB.addr

/-- The data of an allocation in its new place. -/
theorem backed_resize {m m' : Mem} (hB : r.Backed m b) (hsize : n ≤ u.size)
    (hdata : ∀ i < min b.size n, m' (u.addr + headerSize + i) = m (b.addr + headerSize + i)) :
    (r.resize (u.addr + headerSize) n).Backed m' u := by
  have hlen := hB.length
  refine ⟨rfl, ?_, fun i v hv => ?_⟩
  · rw [Region.resize, List.length_append, List.length_take, List.length_replicate]
    omega
  · rw [Region.resize, List.getElem?_append] at hv
    split_ifs at hv with hlt
    · rw [List.length_take] at hlt
      rw [List.getElem?_take_of_lt (by omega)] at hv
      rw [← hB.bytes i v hv, hB.addr]
      exact hdata i (by omega)
    · cases (List.mem_replicate.mp (List.mem_of_getElem? hv)).2

theorem inv_krealloc (hi : Inv heapStart heapSize s) (ha : s.Allowed (.krealloc p n)) :
    Inv heapStart heapSize (s.reallocate p n (Kheap.krealloc s.heap p n)) := by
  obtain ⟨⟨r, hr, hrp⟩, hn, xs, b, zs, hbs, hp, hok⟩ := ha
  have hb : b ∈ blocks s.heap := by rw [hbs]; simp
  obtain ⟨c, hc, hk, hB⟩ := hi.backed r hr
  obtain rfl := hi.block_eq hb hc hB (hrp.trans hp)
  have hmoved := hi.aligned.krealloc hbs hn hok
  rw [← hp] at hmoved
  rcases hmoved with hnone | ⟨u, h', hsize, hsome, hr, hdata⟩
  · rw [hnone]
    exact hi
  · rw [hsome]
    exact hi.replace hr hb hk hp fun r _ hB => backed_resize hB hsize hdata

theorem inv_write {i : ℕ} {v : BitVec 8} (hi : Inv heapStart heapSize s)
    (ha : s.Allowed (.write p i v)) : Inv heapStart heapSize (s.step (.write p i v)) := by
  obtain ⟨r, hr, rfl, hlt⟩ := ha
  obtain ⟨b, hb, hk, hB⟩ := hi.backed r hr
  have hlen := hB.length
  have haddr : r.addr = b.addr + 4 := hB.addr
  refine hi.replace (rewritten_write hi.aligned hb hk (by omega) (by omega) v) hb hk hB.addr
    fun r' _ hB' => ⟨hB'.addr, ?_, fun j w hw => ?_⟩
  · rw [Region.write, List.length_set]
    exact hB'.length
  · have heq : r'.addr = r.addr := hB'.addr.trans hB.addr.symm
    rw [Region.write, List.getElem?_set] at hw
    change Function.update s.heap.mem (r.addr + i) v (r'.addr + j) = w
    rw [heq]
    split_ifs at hw with hij
    · rw [hij, Function.update_self]
      exact Option.some.inj (Option.some.inj hw)
    · rw [Function.update_of_ne (by omega), ← heq]
      exact hB'.bytes j w hw

/-- Every step keeps the invariant. -/
theorem inv_step {q : Request} (hi : Inv heapStart heapSize s) (hq : s.Allowed q) :
    Inv heapStart heapSize (s.step q) := by
  cases q with
  | kalloc size => exact inv_kalloc hi hq
  | kfree p => exact inv_kfree hi hq
  | krealloc p n => exact inv_krealloc hi hq
  | write p i v => exact inv_write hi hq

theorem Inv.holds (hi : Inv heapStart heapSize s) : s.Holds := by
  intro r hr i v hv
  obtain ⟨b, -, -, hB⟩ := hi.backed r hr
  exact hB.bytes i v hv

/-- Distinct used blocks have disjoint bodies inside the heap. -/
theorem Inv.apart (hi : Inv heapStart heapSize s) : s.Apart heapStart heapSize := by
  have hbound {r : Region} (hr : r ∈ s.live) : ∃ b ∈ blocks s.heap, r.addr = b.addr + 4 ∧
      r.bytes.length ≤ b.size := by
    obtain ⟨b, hb, -, hB⟩ := hi.backed r hr
    exact ⟨b, hb, hB.addr, hB.length⟩
  constructor
  · intro r hr
    obtain ⟨b, hb, haddr, hlen⟩ := hbound hr
    have hbd := hi.aligned.chain.bounds hb
    rw [hi.start, hi.size] at hbd
    omega
  · refine hi.distinct.imp_of_mem fun {r r'} hr hr' hne => ?_
    obtain ⟨b, hb, haddr, hlen⟩ := hbound hr
    obtain ⟨b', hb', haddr', hlen'⟩ := hbound hr'
    have hcase := hi.aligned.chain.apart hb hb' (by omega)
    omega

/-- **The heap is a store.** After `init_heap` with a multiple of eight that survives `SIZE_MASK`,
in every run of `kalloc` with multiples of eight, `kfree` of live pointers, `krealloc` where it
keeps the data and writes of the owners, every live allocation holds what its owner wrote, zero
where the owner has not written; the allocations are inside the heap and apart; and no used block is
without an owner. -/
theorem holds_of_run {mem : Mem} (hmod : heapSize % 8 = 0) (h16 : 16 ≤ heapSize)
    (hsmall : heapSize - mdataSize ≤ sizeMask) (hfit : heapStart + heapSize < 2 ^ 64)
    (qs : List Request) (hrun : Run.Along step Allowed (boot mem heapStart heapSize) qs) :
    (qs.foldl step (boot mem heapStart heapSize)).Holds ∧
      (qs.foldl step (boot mem heapStart heapSize)).Apart heapStart heapSize ∧
      (qs.foldl step (boot mem heapStart heapSize)).Owned := by
  have hi := hrun.invariant (fun _ _ => inv_step) (inv_boot mem hmod h16 hsmall hfit)
  exact ⟨hi.holds, hi.apart, hi.owned⟩

/-- A write, `krealloc` into the block after and a free. -/
theorem holds_of_run_krealloc :
    let qs : List Request := [.kalloc 8, .write 4100 3 7, .kalloc 8, .write 4116 0 9,
      .krealloc 4116 24, .kfree 4100]
    (qs.foldl step (boot (fun _ => 0) 4096 96)).Holds ∧
      (qs.foldl step (boot (fun _ => 0) 4096 96)).Apart 4096 96 ∧
      (qs.foldl step (boot (fun _ => 0) 4096 96)).Owned := by
  have hgrow : 24 ≤ evenSize 24 ∧ evenSize 24 ≤ 8 + 56 + 8 := by decide +kernel
  refine holds_of_run (by decide) (by decide) (by decide) (by decide) _
    ⟨rfl, ?_, rfl, ?_, ⟨?_, rfl, [⟨4096, 8, .used⟩], ⟨4112, 8, .used⟩, [⟨4128, 56, .free⟩], ?_, rfl,
      .inl ⟨hgrow.1, ⟨4128, 56, .free⟩, rfl, hgrow.2⟩⟩, ?_, trivial⟩
  · change ∃ r ∈ _, _
    decide +kernel
  · change ∃ r ∈ _, _
    decide +kernel
  · decide +kernel
  · decide +kernel
  · change ∃ r ∈ _, _
    decide +kernel

/-! ### Nothing is lost -/

/-- No two free neighbours. -/
def Separated (h : Heap) : Prop := (blocks h).IsChain fun b c => b.kind = .free → c.kind ≠ .free

/-- The request is not `krealloc`, whose rest may be next to a free block. -/
def Plain : Request → Prop
  | .krealloc _ _ => False
  | _ => True

theorem separated_kalloc (hi : Inv heapStart heapSize s) (hs : Separated s.heap) (hn : n % 8 = 0) :
    Separated (s.allocate n (Kheap.kalloc s.heap n)).heap := by
  rw [hi.aligned.kalloc_eq n]
  cases hy : firstAbove s.heap n with
  | none => exact hs
  | some y =>
    obtain ⟨heven, xs, zs, hsplit, ht⟩ := hi.aligned.taken hn hy
    change Separated (Kheap.taken s.heap y.addr (evenSize n))
    rw [Separated, hsplit] at hs
    rw [heven, Separated, ht.blocks_eq]
    exact splitBlocks_isChain hs (Tagged.mem_of_firstAbove hy).2.1

theorem separated_kfree (hi : Inv heapStart heapSize s) (hs : Separated s.heap)
    (ha : s.Allowed (.kfree p)) : Separated (Kheap.kfree s.heap p) := by
  obtain ⟨r, hr, rfl⟩ := ha
  obtain ⟨b, hb, hu, hB⟩ := hi.backed r hr
  obtain ⟨xs, zs, hsplit⟩ := List.append_of_mem hb
  have ht : Tagged s.heap (xs ++ ([b] ++ zs)) := hsplit ▸ hi.aligned.toTagged
  rw [Separated, hsplit] at hs
  rw [hB.addr, Separated, (ht.kfree hu).1.blocks_eq]
  exact coalesce_isChain hs

theorem separated_step {q : Request} (hi : Inv heapStart heapSize s) (hs : Separated s.heap)
    (ha : s.Allowed q) (hq : Plain q) : Separated (s.step q).heap := by
  cases q with
  | kalloc n => exact separated_kalloc hi hs ha
  | kfree p => exact separated_kfree hi hs ha
  | krealloc p n => exact absurd hq id
  | write p i v =>
    obtain ⟨r, hr, rfl, hlt⟩ := ha
    obtain ⟨b, hb, -, hB⟩ := hi.backed r hr
    have hlen := hB.length
    have haddr : r.addr = b.addr + 4 := hB.addr
    have ht := tagged_write hi.aligned hb (a := r.addr + i) (by omega) (by omega) v
    rw [step, Separated, ht.blocks_eq]
    exact hs

/-- A heap without used blocks is one free block. -/
theorem blocks_of_not_used {h : Heap} (ha : Aligned h) (h16 : 16 ≤ h.size) (hs : Separated h)
    (hu : ∀ b ∈ blocks h, b.kind ≠ .used) : blocks h = [⟨h.start, h.size - 8, .free⟩] := by
  have hk {b : Block} (hb : b ∈ blocks h) : b.kind = .free := by
    by_contra hk
    exact hu b hb ((ha.tagged b hb).used_of_not_free hk)
  have htiles := ha.tiles
  rw [Separated] at hs
  cases hbs : blocks h with
  | nil =>
    rw [hbs] at htiles
    have heq : h.start = h.start + h.size := htiles
    omega
  | cons b bs =>
    cases bs with
    | nil =>
      rw [hbs] at htiles
      obtain ⟨haddr, -, hend⟩ := htiles
      have hend : b.addr + b.size + 8 = h.start + h.size := hend
      have hfree := hk (b := b) (by rw [hbs]; simp)
      have hsize : b.size = h.size - 8 := by omega
      rw [← haddr, ← hsize, ← hfree]
    | cons c bs =>
      rw [hbs, List.isChain_cons_cons] at hs
      exact absurd (hk (b := c) (by rw [hbs]; simp)) (hs.1 (hk (by rw [hbs]; simp)))

/-- **Nothing is lost.** In every run of `kalloc` with multiples of eight, `kfree` of live pointers
and writes of the owners after which no allocation is live, the heap is one free block again. -/
theorem blocks_of_all_freed {mem : Mem} (hmod : heapSize % 8 = 0) (h16 : 16 ≤ heapSize)
    (hsmall : heapSize - mdataSize ≤ sizeMask) (hfit : heapStart + heapSize < 2 ^ 64)
    (qs : List Request)
    (hrun : Run.Along step (fun s q => s.Allowed q ∧ Plain q) (boot mem heapStart heapSize) qs)
    (hfreed : (qs.foldl step (boot mem heapStart heapSize)).live = []) :
    blocks (qs.foldl step (boot mem heapStart heapSize)).heap =
      [⟨heapStart, heapSize - 8, .free⟩] := by
  have hboot := inv_boot mem hmod h16 hsmall hfit
  have hfirst : Separated (boot mem heapStart heapSize).heap := by
    have ht : Tagged (boot mem heapStart heapSize).heap _ :=
      tagged_initHeap (by omega) h16 hsmall hfit
    rw [Separated, ht.blocks_eq]
    exact List.isChain_singleton _
  obtain ⟨hi, hs⟩ := hrun.invariant
    (I := fun s => Inv heapStart heapSize s ∧ Separated s.heap)
    (fun s q hs hq => ⟨inv_step hs.1 hq.1, separated_step hs.1 hs.2 hq.1 hq.2⟩) ⟨hboot, hfirst⟩
  have hstart : (qs.foldl step (boot mem heapStart heapSize)).heap.start = heapStart := hi.start
  have hsize : (qs.foldl step (boot mem heapStart heapSize)).heap.size = heapSize := hi.size
  rw [← hsize] at h16
  refine (blocks_of_not_used hi.aligned h16 hs fun b hb hu => ?_).trans (by rw [hstart, hsize])
  obtain ⟨r, hr, -⟩ := hi.owned b hb hu
  rw [hfreed] at hr
  exact absurd hr List.not_mem_nil

/-- Two allocations, freed in the order they were made. -/
theorem blocks_of_all_freed_two :
    blocks ([Request.kalloc 8, .kalloc 16, .kfree 4100, .kfree 4116].foldl step
      (boot (fun _ => 0) 4096 96)).heap = [⟨4096, 88, .free⟩] := by
  refine blocks_of_all_freed (by decide) (by decide) (by decide) (by decide) _
    ⟨⟨rfl, trivial⟩, ⟨rfl, trivial⟩, ⟨?_, trivial⟩, ⟨?_, trivial⟩, trivial⟩ (by decide +kernel)
  · change ∃ r ∈ _, _
    decide +kernel
  · change ∃ r ∈ _, _
    decide +kernel

end Store

end Vardar.Kheap
