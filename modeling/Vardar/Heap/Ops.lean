import Vardar.Heap.Chain

/-!
# What `kalloc` and `kfree` do to the block chain

Each operation rewrites a run of adjacent blocks. `split_block` turns a free block into a used one
and possibly a free rest; `merge_block` turns two neighbours into one. The two places where the
source goes wrong appear as side conditions on the block sizes: a size that does not survive
`SIZE_MASK`, and the branch of `split_block` that hands out a whole block and writes the footer of
the smaller one, which must then not reach the real footer.

## Main definitions

* `Vardar.Kheap.SplitOk`: the sizes for which `split_block` leaves correct tags.
* `Vardar.Kheap.Chain.splitBlocks`, `Vardar.Kheap.Chain.joinBlocks`: the blocks afterwards.

## Main results

* `Vardar.Kheap.Chain.splitBlock`: the chain after `split_block`.
* `Vardar.Kheap.Chain.mergeBlock`: the chain after `merge_block`.
-/

namespace Vardar.Kheap

open ByteMemory Word Tiling

/-- The block at `ptr` can be cut for a request of `n` bytes: its masked size is at least `n`,
and if the rest is too small for tags of its own, the footer of the smaller block ends before the
real one, which already records the size. -/
def SplitOk (h : Heap) (ptr n : ℕ) : Prop :=
  n ≤ h.tag ptr &&& sizeMask ∧
    (n < h.tag ptr &&& sizeMask → h.tag ptr &&& sizeMask < n + mdataSize →
      n + footerSize ≤ h.tag ptr &&& sizeMask ∧
        h.tag (ptr + headerSize + (h.tag ptr &&& sizeMask)) &&& sizeMask =
          h.tag ptr &&& sizeMask)

instance (h : Heap) (ptr n : ℕ) : Decidable (SplitOk h ptr n) := inferInstanceAs (Decidable (_ ∧ _))

namespace Chain

variable {h : Heap} {xs zs : List Block} {a b y : Block} {n : ℕ}

theorem footerFromHeader_eq {h : Heap} {p s : ℕ} (hs : h.tag p &&& sizeMask = s)
    (hlt : p + s + 8 < 2 ^ 64) : footerFromHeader h p = p + 4 + s := by
  rw [footerFromHeader, hs, headerSize, add64_of_lt (a := p) (by omega), add64_of_lt (by omega)]

theorem nextHeader_eq {h : Heap} {p s : ℕ} (hs : h.tag p &&& sizeMask = s)
    (hlt : p + s + 8 < 2 ^ 64) :
    nextHeader h p = if p + s + 8 = h.limit then none else some (p + s + 8) := by
  have hadd : add64 (add64 (add64 p 4) s) 4 = p + s + 8 := by
    rw [add64_of_lt (a := p) (by omega), add64_of_lt (a := p + 4) (by omega),
      add64_of_lt (by omega)]
    omega
  simp only [nextHeader, hs, headerSize, footerSize, hadd]

/-! ### The tags `split_block` writes -/

section Split

variable {p m : ℕ} (hm : h.tag p &&& sizeMask = m) (hp : p + m + 8 ≤ h.limit)
  (hl : h.limit < 2 ^ 64) (hn : n % 2 = 0) (hnm : n ≤ m)

include hm hp hl hn hnm

theorem splitBlock_unfold : (Kheap.splitBlock h p n).2 =
    let h2 := (h.setTag p (n + 1)).setTag (p + 4 + n) (n + 1)
    if n = m then h2
    else if m < n + 8 then (h2.setTag p (m + 1)).setTag (p + 4 + n) (m + 1)
    else (h2.setTag (p + n + 8) (m - n - 8)).setTag (p + 4 + m) (m - n - 8) := by
  have hme : m % 2 = 0 := hm ▸ land_sizeMask_even _
  have hmle : m ≤ 65534 := hm ▸ land_sizeMask_le _
  have hhead : (h.setTag p (n + 1)).tag p = n + 1 := Heap.tag_setTag_self (by omega)
  have hmask : (h.setTag p (n + 1)).tag p &&& sizeMask = n := by
    rw [hhead, land_sizeMask_add_one hn (by simp only [sizeMask]; omega)]
  have hfoot : footerFromHeader (h.setTag p (n + 1)) p = p + 4 + n :=
    footerFromHeader_eq hmask (by omega)
  simp only [Kheap.splitBlock, hm, if_neg hnm.not_gt, lor_one_of_even hn, lor_one_of_even hme,
    footerFromHeader_eq hm (by omega), hfoot, hhead]
  by_cases hexact : n = m
  · rw [if_pos hexact, if_pos hexact]
  rw [if_neg hexact, if_neg hexact]
  by_cases hroom : m < n + 8
  · rw [if_pos hroom, if_pos (show m < n + mdataSize from hroom)]
    simp only [Heap.tag_setTag_self (show m + 1 < 2 ^ 32 by omega)]
  · rw [if_neg hroom, if_neg (show ¬ m < n + mdataSize from hroom)]
    have hnext : nextHeader (h.setTag p (n + 1)) p = some (p + n + 8) := by
      rw [nextHeader_eq hmask (by omega), if_neg (by rw [Heap.setTag_limit]; omega)]
    simp only [hnext, Option.getD_some, mdataSize,
      Heap.tag_setTag_self (show m - n - 8 < 2 ^ 32 by omega)]

/-- `split_block` writes only inside the block. -/
theorem splitBlock_mem {x : ℕ} (hx : x < p ∨ p + m + 8 ≤ x) :
    (Kheap.splitBlock h p n).2.mem x = h.mem x := by
  rw [splitBlock_unfold hm hp hl hn hnm]
  dsimp only
  split_ifs
  all_goals
    repeat rw [Heap.setTag_mem_of_notMem (by omega)]

end Split

@[simp] theorem splitBlock_start (h : Heap) (p n : ℕ) :
    (Kheap.splitBlock h p n).2.start = h.start := by
  simp only [Kheap.splitBlock]
  split_ifs <;> rfl

@[simp] theorem splitBlock_size (h : Heap) (p n : ℕ) :
    (Kheap.splitBlock h p n).2.size = h.size := by
  simp only [Kheap.splitBlock]
  split_ifs <;> rfl

/-- The blocks a split leaves. -/
def splitBlocks (y : Block) (n : ℕ) : List Block :=
  if y.size < n + 8 then [⟨y.addr, y.size, .used⟩]
  else [⟨y.addr, n, .used⟩, ⟨y.addr + 8 + n, y.size - n - 8, .free⟩]

theorem tiles_splitBlocks {q r : ℕ} (hy : Tiles Block.addr Block.next q [y] r) :
    Tiles Block.addr Block.next q (splitBlocks y n) r := by
  simp only [tiles_cons, tiles_nil, Block.next] at hy
  rw [splitBlocks]
  split_ifs
  · simp only [tiles_cons, tiles_nil, Block.next]
    omega
  · simp only [tiles_cons, tiles_nil, Block.next]
    omega

theorem not_virgin_splitBlocks {b : Block} (hb : b ∈ splitBlocks y n) : b.kind ≠ .virgin := by
  rw [splitBlocks] at hb
  split_ifs at hb
  · rw [List.mem_singleton.mp hb]
    simp
  · rcases List.mem_cons.mp hb with rfl | hb
    · simp
    · rw [List.mem_singleton.mp hb]
      simp

theorem splitBlocks_size {b : Block} (hb : b ∈ splitBlocks y n) (hye : y.size % 2 = 0)
    (hn : n % 2 = 0) (hle : n ≤ y.size) : b.size % 2 = 0 ∧ b.size ≤ y.size := by
  rw [splitBlocks] at hb
  split_ifs at hb with hroom
  · rw [List.mem_singleton.mp hb]
    exact ⟨hye, le_rfl⟩
  · rcases List.mem_cons.mp hb with rfl | hb
    · exact ⟨hn, hle⟩
    · rw [List.mem_singleton.mp hb]
      dsimp only
      omega

/-- If the block is used up or its rest has room for tags, `split_block` writes the tag of every
block it leaves at both ends. -/
theorem splitBlock_words (hy : y.HeadOk h) (hp : y.addr + y.size + 8 ≤ h.limit)
    (hl : h.limit < 2 ^ 64) (hn : n % 2 = 0) (hfit : n = y.size ∨ n + 8 ≤ y.size) :
    ∀ b ∈ splitBlocks y n, (Kheap.splitBlock h y.addr n).2.tag b.addr = b.word ∧
      (Kheap.splitBlock h y.addr n).2.tag b.foot = b.word := by
  have hyb : y.size ≤ 65534 := hy.size_le
  rw [splitBlock_unfold hy.1 hp hl hn (by omega), splitBlocks]
  dsimp only
  rcases hfit with hexact | hroom
  · subst hexact
    rw [if_pos rfl, if_pos (by omega)]
    simp only [List.mem_singleton, forall_eq]
    constructor
    · simp (disch := omega) only [Heap.tag_setTag_of_disjoint, Heap.tag_setTag_self]
      rfl
    · simp (disch := omega) only [Block.foot, Heap.tag_setTag_self]
      rfl
  · rw [if_neg (by omega), if_neg (by omega), if_neg (by omega)]
    simp only [List.mem_cons, List.not_mem_nil, or_false, forall_eq_or_imp, forall_eq]
    refine ⟨⟨?_, ?_⟩, ?_, ?_⟩
    · simp (disch := omega) only [Heap.tag_setTag_of_disjoint, Heap.tag_setTag_self]
      rfl
    · simp (disch := omega) only [Block.foot, Heap.tag_setTag_of_disjoint, Heap.tag_setTag_self]
      rfl
    · rw [show y.addr + 8 + n = y.addr + n + 8 by omega]
      simp (disch := omega) only [Heap.tag_setTag_of_disjoint, Heap.tag_setTag_self]
      rfl
    · rw [Block.foot]
      rw [show y.addr + 8 + n + 4 + (y.size - n - 8) = y.addr + 4 + y.size by omega]
      simp (disch := omega) only [Heap.tag_setTag_self]
      rfl

/-- After `split_block` the blocks it leaves have correct tags. -/
theorem splitBlock_tags (hy : y.HeadOk h) (hp : y.addr + y.size + 8 ≤ h.limit)
    (hl : h.limit < 2 ^ 64) (hn : n % 2 = 0) (hok : SplitOk h y.addr n) :
    ∀ b ∈ splitBlocks y n, b.HeadOk (Kheap.splitBlock h y.addr n).2 ∧
      b.FootOk (Kheap.splitBlock h y.addr n).2 := by
  obtain ⟨hle, hwhole⟩ := hok
  rw [hy.1] at hle hwhole
  simp only [mdataSize, footerSize, headerSize] at hwhole
  have hys := hy.size_le
  have hyb : y.size ≤ 65534 := hys
  by_cases hfit : n = y.size ∨ n + 8 ≤ y.size
  · intro b hb
    obtain ⟨hbe, hbs⟩ := splitBlocks_size hb hy.even hn hle
    obtain ⟨hhead, hfoot⟩ := splitBlock_words hy hp hl hn hfit b hb
    exact ⟨Block.headOk_of_tag hbe (hbs.trans hys) hhead,
      Block.footOk_of_tag hbe (hbs.trans hys) hfoot⟩
  · have hne : n ≠ y.size := by omega
    have hroom : y.size < n + 8 := by omega
    obtain ⟨hsep, hold⟩ := hwhole (by omega) hroom
    rw [splitBlock_unfold hy.1 hp hl hn hle, splitBlocks]
    dsimp only
    rw [if_neg hne, if_pos hroom, if_pos hroom]
    simp only [List.mem_singleton, forall_eq]
    refine ⟨Block.headOk_of_tag hy.even hys ?_, ?_⟩
    · simp (disch := omega) only [Heap.tag_setTag_of_disjoint, Heap.tag_setTag_self]
      rfl
    -- the real footer is the one the block had when it was free
    · simp (disch := omega) only [Block.FootOk, Block.foot, Heap.tag_setTag_of_disjoint]
      exact hold

/-- `split_block` on a free block turns it into a used block of at least the requested size and,
when there is room for its tags, a free rest. -/
theorem splitBlock (hc : Chain h (xs ++ ([y] ++ zs))) (hk : y.kind = .free) (hn : n % 2 = 0)
    (hok : SplitOk h y.addr n) :
    Chain (Kheap.splitBlock h y.addr n).2 (xs ++ (splitBlocks y n ++ zs)) := by
  have hmem : y ∈ xs ++ ([y] ++ zs) := by simp
  have hy := hc.head y hmem
  have hp : y.addr + y.size + 8 ≤ h.limit := hc.limit_eq ▸ (hc.bounds hmem).2
  have hl : h.limit < 2 ^ 64 := hc.limit_eq ▸ hc.fits
  have hle : n ≤ y.size := hy.1 ▸ hok.1
  have htags := splitBlock_tags hy hp hl hn hok
  refine hc.splice (splitBlock_start ..) (splitBlock_size ..) ⟨y, by simp, by simp [hk]⟩ ?_
    (fun q r => tiles_splitBlocks) (fun b hb => (htags b hb).1) (fun b hb => (htags b hb).2)
    (fun b hb => not_virgin_splitBlocks hb)
  rintro q r ⟨rfl, -, hr⟩ x hx
  obtain rfl : y.addr + y.size + 8 = r := hr
  exact splitBlock_mem hy.1 hp hl hn hle hx

/-! ### The tags `merge_block` writes -/

/-- The block two neighbours become, used exactly when the first one was. -/
def joinBlocks (a b : Block) : Block :=
  ⟨a.addr, a.size + b.size + 8, if a.kind = .used then .used else .free⟩

theorem joinBlocks_used : (joinBlocks a b).kind = .used ↔ a.kind = .used := by
  simp [joinBlocks]

theorem joinBlocks_ne_virgin : (joinBlocks a b).kind ≠ .virgin := by
  simp only [joinBlocks]
  split_ifs <;> simp

theorem tiles_joinBlocks {q r : ℕ} (hy : Tiles Block.addr Block.next q [a, b] r) :
    Tiles Block.addr Block.next q [joinBlocks a b] r := by
  simp only [tiles_cons, tiles_nil, Block.next] at hy
  simp only [tiles_cons, tiles_nil, Block.next, joinBlocks]
  omega

end Chain

namespace Headed

open Chain

variable {h : Heap} {xs zs : List Block} {a b : Block}

/-- Neighbours are adjacent in memory. -/
theorem addr_eq_next (hc : Headed h (xs ++ ([a, b] ++ zs))) : b.addr = a.addr + a.size + 8 := by
  obtain ⟨q, -, -, -, hq, -⟩ := tiles_append.mp hc.tiles
  exact hq

/-- The block after a block that is not the last. -/
theorem nextHeader_eq_some (hc : Headed h (xs ++ ([a, b] ++ zs))) :
    nextHeader h a.addr = some b.addr := by
  have hadj := hc.addr_eq_next
  obtain ⟨-, hhi⟩ := hc.bounds (b := b) (by simp)
  have hfit := hc.fits
  rw [nextHeader_eq (hc.head a (by simp)).1 (by omega), if_neg (by rw [hc.limit_eq]; omega), hadj]

theorem mergeBlock_fst (hc : Headed h (xs ++ ([a, b] ++ zs))) :
    (Kheap.mergeBlock h a.addr b.addr).1 = some a.addr := by
  rw [Kheap.mergeBlock, hc.nextHeader_eq_some]
  simp

/-- `merge_block` on two neighbours writes the tag of the joined block at both ends. -/
theorem mergeBlock_eq (hc : Headed h (xs ++ ([a, b] ++ zs))) :
    (Kheap.mergeBlock h a.addr b.addr).2 =
      (h.setTag a.addr (joinBlocks a b).word).setTag b.foot (joinBlocks a b).word := by
  have ha := hc.head a (by simp)
  have hb := hc.head b (by simp)
  have hadj := hc.addr_eq_next
  obtain ⟨-, hhi⟩ := hc.bounds (b := b) (by simp)
  have hfit := hc.fits
  have hnext := hc.nextHeader_eq_some
  have hfoot : footerFromHeader h b.addr = b.foot := footerFromHeader_eq hb.1 (by omega)
  have hsum : (a.size + b.size + 8) % 2 = 0 := by
    have hae := ha.even
    have hbe := hb.even
    omega
  have hw : a.size + b.size + 8 ||| (h.tag a.addr &&& 1) = (joinBlocks a b).word := by
    by_cases hu : a.kind = .used
    · rw [ha.2.mpr hu, lor_one_of_even hsum, Block.word_of_used (joinBlocks_used.mpr hu)]
      rfl
    · have hbit : h.tag a.addr &&& 1 = 0 := by
        have hne := mt ha.2.mp hu
        rw [land_one] at hne ⊢
        omega
      rw [hbit, Nat.or_zero, Block.word_of_not_used (mt joinBlocks_used.mp hu)]
      rfl
  have hlt : (joinBlocks a b).word < 2 ^ 32 := by
    have hle : (joinBlocks a b).word ≤ a.size + b.size + 8 + 1 := Block.word_le _
    have has : a.size ≤ 65534 := ha.size_le
    have hbs : b.size ≤ 65534 := hb.size_le
    omega
  simp only [Kheap.mergeBlock, hnext, ne_eq, not_true_eq_false, if_false, hfoot, mergeSize, ha.1,
    hb.1, mdataSize, hw, Heap.tag_setTag_self hlt]

/-- `merge_block` writes only inside its two blocks. -/
theorem mergeBlock_mem (hc : Headed h (xs ++ ([a, b] ++ zs))) {x : ℕ}
    (hx : x < a.addr ∨ b.next ≤ x) : (Kheap.mergeBlock h a.addr b.addr).2.mem x = h.mem x := by
  have hadj := hc.addr_eq_next
  unfold Block.next at hx
  rw [hc.mergeBlock_eq, Heap.setTag_mem_of_notMem (by simp only [Block.foot]; omega),
    Heap.setTag_mem_of_notMem (by omega)]

/-- The header and the footer of the joined block hold its tag. -/
theorem mergeBlock_tags (hc : Headed h (xs ++ ([a, b] ++ zs)))
    (hs : a.size + b.size + 8 ≤ sizeMask) :
    (Kheap.mergeBlock h a.addr b.addr).2.tag a.addr = (joinBlocks a b).word ∧
      (Kheap.mergeBlock h a.addr b.addr).2.tag (joinBlocks a b).foot = (joinBlocks a b).word := by
  have hadj := hc.addr_eq_next
  have hlt : (joinBlocks a b).word < 2 ^ 32 := by
    have hle : (joinBlocks a b).word ≤ a.size + b.size + 8 + 1 := Block.word_le _
    have hsb : a.size + b.size + 8 ≤ 65534 := hs
    omega
  have hfoot : (joinBlocks a b).foot = b.foot := by
    simp only [Block.foot, joinBlocks]
    omega
  rw [hc.mergeBlock_eq, hfoot, Heap.tag_setTag_self hlt,
    Heap.tag_setTag_of_disjoint (by simp only [Block.foot]; omega), Heap.tag_setTag_self hlt]
  exact ⟨rfl, rfl⟩

end Headed

namespace Chain

variable {h : Heap} {xs zs : List Block} {a b : Block}

theorem addr_eq_next (hc : Chain h (xs ++ ([a, b] ++ zs))) : b.addr = a.addr + a.size + 8 :=
  hc.headed.addr_eq_next

theorem mergeBlock_eq (hc : Chain h (xs ++ ([a, b] ++ zs))) :
    (Kheap.mergeBlock h a.addr b.addr).2 =
      (h.setTag a.addr (joinBlocks a b).word).setTag b.foot (joinBlocks a b).word :=
  hc.headed.mergeBlock_eq

theorem mergeBlock_mem (hc : Chain h (xs ++ ([a, b] ++ zs))) {x : ℕ}
    (hx : x < a.addr ∨ b.next ≤ x) : (Kheap.mergeBlock h a.addr b.addr).2.mem x = h.mem x :=
  hc.headed.mergeBlock_mem hx

theorem mergeBlock_tags (hc : Chain h (xs ++ ([a, b] ++ zs)))
    (hs : a.size + b.size + 8 ≤ sizeMask) :
    (Kheap.mergeBlock h a.addr b.addr).2.tag a.addr = (joinBlocks a b).word ∧
      (Kheap.mergeBlock h a.addr b.addr).2.tag (joinBlocks a b).foot = (joinBlocks a b).word :=
  hc.headed.mergeBlock_tags hs

/-- `merge_block` on two neighbours, not both virgin, joins them. -/
theorem mergeBlock (hc : Chain h (xs ++ ([a, b] ++ zs)))
    (hk : ∃ c ∈ [a, b], c.kind ≠ .virgin) (hs : a.size + b.size + 8 ≤ sizeMask) :
    Chain (Kheap.mergeBlock h a.addr b.addr).2 (xs ++ ([joinBlocks a b] ++ zs)) := by
  have hsum : (joinBlocks a b).size % 2 = 0 := by
    have hae := (hc.head a (by simp)).even
    have hbe := (hc.head b (by simp)).even
    simp only [joinBlocks]
    omega
  obtain ⟨hhead, hfoot⟩ := hc.mergeBlock_tags hs
  refine hc.splice (by rw [hc.mergeBlock_eq]; rfl) (by rw [hc.mergeBlock_eq]; rfl) hk ?_
    (fun _ _ => tiles_joinBlocks) ?_ ?_ ?_
  · rintro q r ⟨rfl, -, -, -, hr⟩ x hx
    simp only [tiles_nil] at hr
    exact hc.mergeBlock_mem (by omega)
  · simp only [List.mem_singleton, forall_eq]
    exact Block.headOk_of_tag hsum hs hhead
  · simp only [List.mem_singleton, forall_eq]
    exact Block.footOk_of_tag hsum hs hfoot
  · simpa using joinBlocks_ne_virgin

end Chain

end Vardar.Kheap
