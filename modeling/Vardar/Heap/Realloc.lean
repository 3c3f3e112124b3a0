import Vardar.Heap.Alloc

/-!
# `krealloc`

`krealloc` grows a block into the free block after it, slides it into the free block before it,
joins all three, or allocates a new block, copies and frees. The first way keeps the data. The
second keeps it if the body is no longer than the body and the footer of the block before: a longer
one is copied over its own header, and cleared again with the old block. The third copies in the
wrong direction, and the fourth returns an address four bytes into the new block.

The merges read headers only, and leave footers wrong on the way, so the blocks are followed through
`Headed` here.

## Main definitions

* `Vardar.Kheap.Reallocated`: a result of `krealloc` that keeps the data.
* `Vardar.Kheap.ReallocOk`: the layouts and sizes for which the first two ways, or none, are taken.

## Main results

* `Vardar.Kheap.Tagged.krealloc_eq`: which way is taken.
* `Vardar.Kheap.Headed.mergeForward`, `Vardar.Kheap.Headed.mergeBackward`.
* `Vardar.Kheap.krealloc_keeps_data`, `Vardar.Kheap.krealloc_move_not_reallocated`.
-/

namespace Vardar.Kheap

open ByteMemory Word Tiling

namespace Headed

variable {h h' : Heap} {bs xs ys ys' zs : List Block} {a b y : Block} {n : ℕ}

/-! ### Headers after a write -/

/-- Rewriting a run of blocks into blocks with correct headers over the same bytes. -/
theorem splice (hh : Headed h (xs ++ (ys ++ zs))) (hstart : h'.start = h.start)
    (hsize : h'.size = h.size)
    (hmem : ∀ q r, Tiles Block.addr Block.next q ys r → ∀ x, x < q ∨ r ≤ x → h'.mem x = h.mem x)
    (htiles : ∀ q r, Tiles Block.addr Block.next q ys r → Tiles Block.addr Block.next q ys' r)
    (hheads : ∀ y ∈ ys', y.HeadOk h') : Headed h' (xs ++ (ys' ++ zs)) := by
  obtain ⟨q, hx, hyz⟩ := tiles_append.mp hh.tiles
  obtain ⟨r, hy, hz⟩ := tiles_append.mp hyz
  refine ⟨by rw [hstart, hsize]; exact hh.fits,
    by rw [hstart, hsize]; exact hh.tiles.splice htiles, fun b hb => ?_⟩
  rcases List.mem_append.mp hb with hb | hb
  · exact Chain.headOk_congr
      (fun x _ hlt => hmem q r hy x (Or.inl (hlt.trans_le (hx.bounds hb).2.2)))
      (hh.head b (List.mem_append_left _ hb))
  rcases List.mem_append.mp hb with hb | hb
  · exact hheads b hb
  · exact Chain.headOk_congr
      (fun x hle _ => hmem q r hy x (Or.inr ((hz.bounds hb).1.trans hle)))
      (hh.head b (List.mem_append_right _ (List.mem_append_right _ hb)))

/-- Writing behind the header of a block keeps all headers. -/
theorem write (hh : Headed h bs) (hb : b ∈ bs) (hstart : h'.start = h.start)
    (hsize : h'.size = h.size)
    (hmem : ∀ x, x < b.addr + 4 ∨ b.next ≤ x → h'.mem x = h.mem x) : Headed h' bs := by
  refine ⟨by rw [hstart, hsize]; exact hh.fits, by rw [hstart, hsize]; exact hh.tiles,
    fun c hc => ?_⟩
  have htag : h'.tag c.addr = h.tag c.addr := by
    refine load_congr fun x hx hx' => hmem x ?_
    by_cases heq : c.addr = b.addr
    · omega
    · have hcase := hh.apart hc hb heq
      unfold Block.next
      omega
  simpa only [Block.HeadOk, htag] using hh.head c hc

/-! ### Splitting and merging -/

theorem splitBlock_fst {h : Heap} {p : ℕ} (hle : n ≤ h.tag p &&& sizeMask) :
    (splitBlock h p n).1 = some p := by
  simp only [splitBlock, if_neg hle.not_gt]
  split_ifs <;> rfl

section Split

variable (hh : Headed h (xs ++ ([y] ++ zs))) (hn : n % 2 = 0) (hle : n ≤ y.size)

include hh hn hle

/-- Whatever the rest, `split_block` leaves correct headers. -/
theorem split : Headed (splitBlock h y.addr n).2 (xs ++ (Chain.splitBlocks y n ++ zs)) := by
  have hmem : y ∈ xs ++ ([y] ++ zs) := by simp
  have hy := hh.head y hmem
  have hyb : y.size ≤ 65534 := hy.size_le
  have hp : y.addr + y.size + 8 ≤ h.limit := hh.limit_eq ▸ (hh.bounds hmem).2
  have hl : h.limit < 2 ^ 64 := hh.limit_eq ▸ hh.fits
  refine hh.splice (Chain.splitBlock_start ..) (Chain.splitBlock_size ..) ?_
    (fun _ _ => Chain.tiles_splitBlocks) fun b hb => ?_
  · rintro q r ⟨rfl, -, hr⟩ x hx
    obtain rfl : y.addr + y.size + 8 = r := hr
    exact Chain.splitBlock_mem hy.1 hp hl hn hle hx
  · obtain ⟨hbe, hbs⟩ := Chain.splitBlocks_size hb hy.even hn hle
    refine Block.headOk_of_tag hbe (hbs.trans hy.size_le) ?_
    by_cases hfit : n = y.size ∨ n + 8 ≤ y.size
    · exact (Chain.splitBlock_words hy hp hl hn hfit b hb).1
    · rw [Chain.splitBlocks, if_pos (by omega), List.mem_singleton] at hb
      have hunfold := Chain.splitBlock_unfold hy.1 hp hl hn hle
      dsimp only at hunfold
      rw [if_neg (by omega), if_pos (by omega)] at hunfold
      rw [hunfold, hb]
      simp (disch := omega) only [Heap.tag_setTag_of_disjoint, Heap.tag_setTag_self]
      rfl

/-- The bytes of the request keep their contents. -/
theorem split_body {x : ℕ} (hlo : y.addr + 4 ≤ x) (hhi : x < y.addr + 4 + n) :
    (splitBlock h y.addr n).2.mem x = h.mem x := by
  have hmem : y ∈ xs ++ ([y] ++ zs) := by simp
  have hp : y.addr + y.size + 8 ≤ h.limit := hh.limit_eq ▸ (hh.bounds hmem).2
  have hl : h.limit < 2 ^ 64 := hh.limit_eq ▸ hh.fits
  rw [Chain.splitBlock_unfold (hh.head y hmem).1 hp hl hn hle]
  dsimp only
  split_ifs
  all_goals
    repeat rw [Heap.setTag_mem_of_notMem (by omega)]

end Split

section Merge

variable (hh : Headed h (xs ++ ([a, b] ++ zs))) (hs : a.size + b.size + 8 ≤ sizeMask)

include hh hs

theorem merge :
    Headed (mergeBlock h a.addr b.addr).2 (xs ++ ([Chain.joinBlocks a b] ++ zs)) := by
  have hsum : (Chain.joinBlocks a b).size % 2 = 0 := by
    have hae := (hh.head a (by simp)).even
    have hbe := (hh.head b (by simp)).even
    simp only [Chain.joinBlocks]
    omega
  refine hh.splice (mergeBlock_bounds ..).1 (mergeBlock_bounds ..).2 ?_
    (fun _ _ => Chain.tiles_joinBlocks) ?_
  · rintro q r ⟨rfl, -, -, -, hr⟩ x hx
    simp only [tiles_nil] at hr
    exact hh.mergeBlock_mem (by omega)
  · simp only [List.mem_singleton, forall_eq]
    exact Block.headOk_of_tag hsum hs (hh.mergeBlock_tags hs).1

omit hs in
/-- `merge_block` leaves the bytes between its two tags alone. -/
theorem merge_body {x : ℕ} (hlo : a.addr + 4 ≤ x) (hhi : x < b.foot) :
    (mergeBlock h a.addr b.addr).2.mem x = h.mem x := by
  rw [hh.mergeBlock_eq, Heap.setTag_mem_of_notMem (by omega),
    Heap.setTag_mem_of_notMem (by omega)]

/-- `merge_forward` gives the first block a body of at least `n` bytes at the expense of the second,
and keeps what is before the second. -/
theorem mergeForward (hn : n % 2 = 0) (hle : n ≤ a.size + b.size + 8) :
    (Kheap.mergeForward h a.addr b.addr n).1 = some a.addr ∧
      Headed (Kheap.mergeForward h a.addr b.addr n).2
        (xs ++ (Chain.splitBlocks (Chain.joinBlocks a b) n ++ zs)) ∧
      (∀ x, x < a.addr ∨ b.next ≤ x →
        (Kheap.mergeForward h a.addr b.addr n).2.mem x = h.mem x) ∧
      ∀ x, a.addr + 4 ≤ x → x < a.addr + 4 + n → x < b.addr →
        (Kheap.mergeForward h a.addr b.addr n).2.mem x = h.mem x := by
  have hadj := hh.addr_eq_next
  have hb := hh.head b (by simp)
  set h₁ := (mergeBlock h a.addr b.addr).2 with hh₁
  set h₂ : Heap := { h₁ with mem := memset h₁.mem b.addr 0 (b.size + headerSize) } with hh₂
  have heq : Kheap.mergeForward h a.addr b.addr n = splitBlock h₂ a.addr n := by
    simp only [Kheap.mergeForward, hb.1, hh.mergeBlock_fst, Option.getD_some, ← hh₁, ← hh₂]
  have hzero {x : ℕ} (hx : x < b.addr ∨ b.foot ≤ x) : h₂.mem x = h₁.mem x := by
    refine fill_of_notMem ?_
    unfold Block.foot at hx
    unfold headerSize
    omega
  have hjoin : Chain.joinBlocks a b ∈ xs ++ ([Chain.joinBlocks a b] ++ zs) := by simp
  have hh₂' : Headed h₂ (xs ++ ([Chain.joinBlocks a b] ++ zs)) := by
    refine (hh.merge hs).write hjoin rfl rfl fun x hx => hzero ?_
    simp only [Chain.joinBlocks, Block.next, Block.foot] at hx ⊢
    omega
  have hmask : h₂.tag a.addr &&& sizeMask = a.size + b.size + 8 := (hh₂'.head _ hjoin).1
  have hp : a.addr + (a.size + b.size + 8) + 8 ≤ h₂.limit :=
    hh₂'.limit_eq ▸ (hh₂'.bounds hjoin).2
  have hl : h₂.limit < 2 ^ 64 := hh₂'.limit_eq ▸ hh₂'.fits
  rw [heq]
  refine ⟨splitBlock_fst (hmask ▸ hle), hh₂'.split hn hle, fun x hx => ?_,
    fun x hlo hhi hxb => ?_⟩
  · unfold Block.next at hx
    rw [Chain.splitBlock_mem hmask hp hl hn hle (by omega),
      hzero (by unfold Block.foot; omega)]
    exact hh.mergeBlock_mem (by unfold Block.next; omega)
  · refine (hh₂'.split_body hn hle hlo hhi).trans ((hzero (.inl hxb)).trans ?_)
    exact hh.merge_body hlo (by unfold Block.foot; omega)

/-- `merge_backward` moves the body of the second block to the first, if it ends before the header
of the second. -/
theorem mergeBackward (hn : n % 2 = 0) (hle : n ≤ a.size + b.size + 8)
    (hroom : b.size ≤ a.size + 4) :
    (Kheap.mergeBackward h a.addr b.addr n).1 = some a.addr ∧
      Headed (Kheap.mergeBackward h a.addr b.addr n).2
        (xs ++ (Chain.splitBlocks (Chain.joinBlocks a b) n ++ zs)) ∧
      (∀ x, x < a.addr ∨ b.next ≤ x →
        (Kheap.mergeBackward h a.addr b.addr n).2.mem x = h.mem x) ∧
      ∀ i < b.size, i < n →
        (Kheap.mergeBackward h a.addr b.addr n).2.mem (a.addr + 4 + i) =
          h.mem (b.addr + 4 + i) := by
  have hadj := hh.addr_eq_next
  have hfit := hh.fits
  obtain ⟨-, hhi⟩ := hh.bounds (b := b) (by simp)
  have hb := hh.head b (by simp)
  set h₁ : Heap := { h with mem := memmove h.mem (a.addr + 4) (b.addr + 4) b.size } with hh₁
  have hmoved {x : ℕ} (hx : x < a.addr + 4 ∨ a.addr + 4 + b.size ≤ x) : h₁.mem x = h.mem x :=
    memmove_of_notMem hx
  have hh₁' : Headed h₁ (xs ++ ([a, b] ++ zs)) := by
    refine hh.write (b := a) (by simp) rfl rfl fun x hx => hmoved ?_
    unfold Block.next at hx
    omega
  have heq : Kheap.mergeBackward h a.addr b.addr n = Kheap.mergeForward h₁ a.addr b.addr n := by
    have htag : h₁.tag b.addr &&& sizeMask = b.size := (hh₁'.head b (by simp)).1
    simp only [Kheap.mergeBackward, headerSize, hb.1, ← hh₁,
      add64_of_lt (show a.addr + 4 < 2 ^ 64 by omega),
      add64_of_lt (show b.addr + 4 < 2 ^ 64 by omega)]
    simp only [Kheap.mergeForward, headerSize, htag]
  obtain ⟨hfst, hhead, hout, hbody⟩ := hh₁'.mergeForward hs hn hle
  rw [heq]
  refine ⟨hfst, hhead, fun x hx => ?_, fun i hi hin => ?_⟩
  · rw [hout x hx, hmoved (by unfold Block.next at hx; omega)]
  · rw [hbody _ (by omega) (by omega) (by omega)]
    change memmove h.mem (a.addr + 4) (b.addr + 4) b.size (a.addr + 4 + i) = _
    rw [memmove_apply, if_pos (by omega), Nat.add_sub_cancel_left]

end Merge

end Headed

/-! ### Which way is taken -/

theorem evenSize_even (n : ℕ) : evenSize n % 2 = 0 := by
  rw [evenSize, Nat.shiftLeft_eq]
  omega

theorem freeHead_eq_some {zs : List Block} {c : Block} (h : freeHead zs = some c) :
    (∃ zs', zs = c :: zs') ∧ c.kind = .free := by
  cases zs with
  | nil => cases h
  | cons d zs =>
    rw [freeHead_cons] at h
    split_ifs at h with hd
    obtain rfl := Option.some.inj h
    exact ⟨⟨zs, rfl⟩, hd⟩

theorem freeLast_eq_some {xs : List Block} {a : Block} (h : freeLast xs = some a) :
    (∃ xs', xs = xs' ++ [a]) ∧ a.kind = .free := by
  rcases List.eq_nil_or_concat xs with rfl | ⟨xs, d, rfl⟩
  · cases h
  · rw [List.concat_eq_append, freeLast_concat] at h
    split_ifs at h with hd
    obtain rfl := Option.some.inj h
    exact ⟨⟨xs, List.concat_eq_append⟩, hd⟩

namespace Tagged

variable {h : Heap} {xs zs : List Block} {a b c : Block} {n size : ℕ}

/-- The free block after `b`, as `krealloc` finds it. -/
theorem nextHeader_filter (ht : Tagged h (xs ++ ([b] ++ zs))) :
    (nextHeader h b.addr).filter (fun next => h.tag next &&& 1 = 0) =
      (freeHead zs).map Block.addr := by
  rw [ht.chain.nextHeader_at]
  cases zs with
  | nil => rfl
  | cons c zs =>
    have hbit := ht.chain.tag_land_one (b := c) (by simp)
    rw [freeHead_cons]
    by_cases hc : c.kind = .free
    · have hzero := hbit.mpr (by simp [hc])
      simp [Option.filter, hzero, hc]
    · have hu := (ht.tagged c (by simp)).used_of_not_free hc
      have hone : h.tag c.addr &&& 1 = 1 := (ht.headOk (by simp)).2.mpr hu
      simp [Option.filter, hone, hc]

/-- The free block before `b`, as `krealloc` finds it. -/
theorem prevFooter_filter (ht : Tagged h (xs ++ ([b] ++ zs))) :
    ((prevFooter h b.foot).filter fun f => h.tag f &&& 1 = 0).map (headerFromFooter h) =
      (freeLast xs).map Block.addr := by
  rw [ht.chain.prevFooter_at (ht.footOk (by simp))]
  rcases List.eq_nil_or_concat xs with rfl | ⟨xs, a, rfl⟩
  · rfl
  · rw [List.concat_eq_append] at ht ⊢
    obtain ⟨-, hfoot, heven, -⟩ := ht.tagged a (by simp)
    have hback := ht.chain.headerFromFooter_at (b := a) (by simp) (ht.footOk (by simp))
    rw [freeLast_concat]
    by_cases ha : a.kind = .free
    · rw [Block.word_of_not_used (by simp [ha])] at hfoot
      have hzero : h.tag a.foot &&& 1 = 0 := by rw [hfoot, land_one, heven]
      simp [Option.filter, hzero, ha, hback]
    · rw [Block.word_of_used ((ht.tagged a (by simp)).used_of_not_free ha)] at hfoot
      have hone : h.tag a.foot &&& 1 = 1 := by
        rw [hfoot, land_one]
        omega
      simp [Option.filter, hone, ha]

/-- `krealloc` in terms of the blocks. -/
theorem krealloc_eq (ht : Tagged h (xs ++ ([b] ++ zs))) (size : ℕ) :
    krealloc h (b.addr + headerSize) size =
      match (freeHead zs).filter fun c => evenSize size ≤ b.size + c.size + 8 with
      | some c => payload (mergeForward h b.addr c.addr (evenSize size))
      | none =>
        match (freeLast xs).filter fun a => evenSize size ≤ a.size + b.size + 8 with
        | some a => payload (mergeBackward h a.addr b.addr (evenSize size))
        | none =>
          match freeLast xs, freeHead zs with
          | some a, some c =>
            if evenSize size ≤ a.size + b.size + c.size + 16 then
              payload (threewayMerge h a.addr b.addr c.addr (evenSize size))
            else moveAllocation h (b.addr + headerSize) b.size (evenSize size)
          | _, _ => moveAllocation h (b.addr + headerSize) b.size (evenSize size) := by
  have hb := ht.headOk (b := b) (by simp)
  obtain ⟨-, hhi⟩ := ht.chain.bounds (b := b) (by simp)
  have hfit := ht.fits
  have hheader : sub64 (b.addr + headerSize) headerSize = b.addr := by
    rw [sub64_of_le (by omega) (by unfold headerSize; omega), Nat.add_sub_cancel]
  have hfooter : add64 (b.addr + headerSize) b.size = b.foot :=
    add64_of_lt (by unfold headerSize; omega)
  have hnext := ht.nextHeader_filter
  have hprev := ht.prevFooter_filter
  have hc {c : Block} (h' : freeHead zs = some c) : h.tag c.addr &&& sizeMask = c.size := by
    obtain ⟨⟨zs', rfl⟩, -⟩ := freeHead_eq_some h'
    exact (ht.headOk (by simp)).1
  have ha {a : Block} (h' : freeLast xs = some a) : h.tag a.addr &&& sizeMask = a.size := by
    obtain ⟨⟨xs', rfl⟩, -⟩ := freeLast_eq_some h'
    exact (ht.headOk (by simp)).1
  rw [krealloc]
  simp only [hheader, hb.1, hfooter, hnext, hprev]
  cases hz : freeHead zs with
  | none =>
    cases hx : freeLast xs with
    | none => simp only [reallocBlock, Option.map_none, Option.filter_none]
    | some a =>
      simp only [reallocBlock, Option.map_none, Option.map_some, Option.filter, mergeSize, ha hx,
        hb.1, mdataSize]
      by_cases hle : evenSize size ≤ a.size + b.size + 8
      · simp only [hle, decide_true, if_true]
      · simp only [hle, decide_false, Bool.false_eq_true, if_false]
  | some c =>
    cases hx : freeLast xs with
    | none =>
      simp only [reallocBlock, Option.map_none, Option.map_some, Option.filter, mergeSize, hc hz,
        hb.1, mdataSize]
      by_cases hle : evenSize size ≤ b.size + c.size + 8
      · simp only [hle, decide_true, if_true]
      · simp only [hle, decide_false, Bool.false_eq_true, if_false]
    | some a =>
      simp only [reallocBlock, Option.map_some, Option.filter, mergeSize, threewayMergeSize, ha hx,
        hc hz, hb.1, mdataSize, Nat.reduceMul]
      by_cases hle : evenSize size ≤ b.size + c.size + 8
      · simp only [hle, decide_true, if_true]
      · by_cases hle' : evenSize size ≤ a.size + b.size + 8
        · simp only [hle, hle', decide_true, decide_false, Bool.false_eq_true, if_true, if_false]
        · simp only [hle, hle', decide_false, Bool.false_eq_true, if_false]

end Tagged

/-! ### The data -/

/-- A result of `krealloc` for `n` bytes that keeps the data of the live block `b`: on failure the
heap is as before; on success the address is the payload of a live block with room for `n` bytes,
the bytes of `b` are at its start as far as `n` goes, every other live block has kept its place and
its bytes, and `b` is no longer live if the address has changed. -/
def Reallocated (h : Heap) (b : Block) (n : ℕ) : Option ℕ × Heap → Prop
  | (none, h') => h' = h
  | (some q, h') =>
    (∃ c ∈ blocks h', c.kind = .used ∧ q = c.addr + headerSize ∧ n ≤ c.size) ∧
    (∀ i < min b.size n, h'.mem (q + i) = h.mem (b.addr + headerSize + i)) ∧
    (∀ c ∈ blocks h, c.kind = .used → c ≠ b → c ∈ blocks h' ∧
      ∀ x, c.addr ≤ x → x < c.next → h'.mem x = h.mem x) ∧
    (q = b.addr + headerSize ∨ ∀ c ∈ blocks h', c.kind = .used → c.addr ≠ b.addr)

/-- The layouts and sizes, `m` bytes when rounded, for which `krealloc` does not go wrong. The size
does not wrap when it is rounded, and the free block after `b` gives enough room, or the free block
before `b` does and the body of `b` is no longer than its body and footer. Or no merge gives enough
room, and no free block is larger than the request. -/
def ReallocOk (h : Heap) (xs : List Block) (b : Block) (zs : List Block) (n : ℕ) : Prop :=
  let m := evenSize n
  (n ≤ m ∧ ∃ c, freeHead zs = some c ∧ m ≤ b.size + c.size + 8) ∨
  ((∀ c, freeHead zs = some c → b.size + c.size + 8 < m) ∧
    ((n ≤ m ∧ ∃ a, freeLast xs = some a ∧ m ≤ a.size + b.size + 8 ∧ b.size ≤ a.size + 4) ∨
      ((∀ a, freeLast xs = some a → a.size + b.size + 8 < m) ∧
        (∀ a c, freeLast xs = some a → freeHead zs = some c →
          a.size + b.size + c.size + 16 < m) ∧
        firstAbove h m = none)))

/-- What a merge of two blocks and a split leave, one of the two being `b` and the other one free:
the data is at the start of a live block, and nothing else is lost. -/
theorem reallocated_of_headed {h h' : Heap} {xs zs : List Block} {a c b : Block} {m n : ℕ}
    (ht : Tagged h (xs ++ ([a, c] ++ zs))) (hb : b ∈ [a, c])
    (hused : ∀ d ∈ [a, c], d.kind = .used → d = b) (hnm : n ≤ m) (hle : m ≤ a.size + c.size + 8)
    (hh : Headed h' (xs ++ (Chain.splitBlocks (Chain.joinBlocks a c) m ++ zs)))
    (hout : ∀ x, x < a.addr ∨ c.next ≤ x → h'.mem x = h.mem x)
    (hdata : ∀ i < b.size, i < n → h'.mem (a.addr + 4 + i) = h.mem (b.addr + 4 + i)) :
    Reallocated h b n (some (a.addr + headerSize), h') := by
  obtain ⟨u, rest, hsplit, haddr, hu, hsize, hrest⟩ :=
    splitBlocks_cons (Chain.joinBlocks a c) (n := m) hle
  obtain ⟨-, hyz, hxyz⟩ := List.pairwise_append.mp ht.tiles.pairwise
  obtain ⟨-, -, hyz⟩ := List.pairwise_append.mp hyz
  have hvirgin : ∀ d ∈ xs ++ (Chain.splitBlocks (Chain.joinBlocks a c) m ++ zs),
      d.kind ≠ .virgin := by
    intro d hd
    simp only [List.mem_append] at hd
    rcases hd with hd | hd | hd
    · exact (ht.tagged d (by simp [hd])).2.2.2
    · exact Chain.not_virgin_splitBlocks hd
    · exact (ht.tagged d (by simp [hd])).2.2.2
  have hblocks := hh.blocks_eq hvirgin
  rw [hsplit] at hblocks
  refine ⟨⟨u, by rw [hblocks]; simp, hu, by rw [haddr]; rfl, hnm.trans hsize⟩, fun i hi => ?_,
    fun d hd hdu hne => ?_, ?_⟩
  · exact hdata i (lt_of_lt_of_le hi (min_le_left _ _)) (lt_of_lt_of_le hi (min_le_right _ _))
  · rw [ht.blocks_eq] at hd
    rw [hblocks]
    simp only [List.mem_append] at hd ⊢
    rcases hd with hd | hd | hd
    · refine ⟨.inl hd, fun x _ hhi => hout x (.inl (hhi.trans_le ?_))⟩
      exact hxyz d hd a (by simp)
    · exact absurd (hused d hd hdu) hne
    · refine ⟨.inr (.inr hd), fun x hlo _ => hout x (.inr (le_trans ?_ hlo))⟩
      exact hyz c (by simp) d hd
  · by_cases heq : a.addr = b.addr
    · exact .inl (by rw [heq])
    refine .inr fun d hd hdu => ?_
    rw [hblocks] at hd
    simp only [List.mem_append, List.mem_cons] at hd
    rcases hd with hd | (rfl | hd) | hd
    · have hlt := hxyz d hd b (List.mem_append_left _ hb)
      unfold Block.next at hlt
      omega
    · rwa [haddr]
    · rcases hrest with rfl | ⟨e, rfl, he⟩
      · exact absurd hd List.not_mem_nil
      · rw [List.mem_singleton.mp hd, he] at hdu
        cases hdu
    · have hlt := hyz b hb d hd
      unfold Block.next at hlt
      omega

section Ways

variable {h : Heap} {xs zs : List Block} {a b c : Block} {m n : ℕ}

/-- Growing into the block after keeps the data. -/
theorem reallocated_forward (ht : Tagged h (xs ++ ([b, c] ++ zs))) (hc : c.kind = .free)
    (hm : m % 2 = 0) (hnm : n ≤ m) (hle : m ≤ b.size + c.size + 8) :
    Reallocated h b n (payload (mergeForward h b.addr c.addr m)) := by
  obtain ⟨hfst, hhead, hout, hbody⟩ := ht.chain.headed.mergeForward ht.join_size_le hm hle
  obtain ⟨-, hhi⟩ := ht.chain.bounds (b := b) (by simp)
  have hfit := ht.fits
  have hadj := ht.chain.addr_eq_next
  rw [payload, hfst, Option.getD_some, add64_of_lt (by unfold headerSize; omega)]
  refine reallocated_of_headed ht (by simp) (fun d hd hdu => ?_) hnm hle hhead hout
    fun i hi hin => hbody _ (by omega) (by omega) (by omega)
  rcases List.mem_cons.mp hd with rfl | hd
  · rfl
  · rw [List.mem_singleton.mp hd, hc] at hdu
    cases hdu

/-- Sliding into the block before keeps the data of a block that is short enough. -/
theorem reallocated_backward (ht : Tagged h (xs ++ ([a, b] ++ zs))) (ha : a.kind = .free)
    (hm : m % 2 = 0) (hnm : n ≤ m) (hle : m ≤ a.size + b.size + 8) (hroom : b.size ≤ a.size + 4) :
    Reallocated h b n (payload (mergeBackward h a.addr b.addr m)) := by
  obtain ⟨hfst, hhead, hout, hbody⟩ :=
    ht.chain.headed.mergeBackward ht.join_size_le hm hle hroom
  obtain ⟨-, hhi⟩ := ht.chain.bounds (b := a) (by simp)
  have hfit := ht.fits
  rw [payload, hfst, Option.getD_some, add64_of_lt (by unfold headerSize; omega)]
  refine reallocated_of_headed ht (by simp) (fun d hd hdu => ?_) hnm hle hhead hout
    fun i hi hin => hbody i hi (by omega)
  rcases List.mem_cons.mp hd with rfl | hd
  · rw [ha] at hdu
    cases hdu
  · exact List.mem_singleton.mp hd

end Ways

/-- If no merge gives enough room, `krealloc` moves the allocation. -/
theorem krealloc_eq_move {h : Heap} {xs zs : List Block} {b : Block}
    (ht : Tagged h (xs ++ ([b] ++ zs))) {n : ℕ}
    (hnext : ∀ c, freeHead zs = some c → b.size + c.size + 8 < evenSize n)
    (hprev : ∀ a, freeLast xs = some a → a.size + b.size + 8 < evenSize n)
    (hboth : ∀ a c, freeLast xs = some a → freeHead zs = some c →
      a.size + b.size + c.size + 16 < evenSize n) :
    krealloc h (b.addr + headerSize) n =
      moveAllocation h (b.addr + headerSize) b.size (evenSize n) := by
  have hz : (freeHead zs).filter (fun c => evenSize n ≤ b.size + c.size + 8) = none :=
    Option.filter_eq_none_iff.mpr fun c hc => by simpa using hnext c hc
  have hx : (freeLast xs).filter (fun a => evenSize n ≤ a.size + b.size + 8) = none :=
    Option.filter_eq_none_iff.mpr fun a ha => by simpa using hprev a ha
  rw [ht.krealloc_eq n, hz, hx]
  cases ha : freeLast xs with
  | none => rfl
  | some a =>
    cases hc : freeHead zs with
    | none => rfl
    | some c =>
      dsimp only
      rw [if_neg (hboth a c ha hc).not_ge]

/-- **When `krealloc` keeps the data.** For every block of a well-formed heap and every size, if
the free block after it gives enough room, or the one before it does and the body is no longer than
its body and footer, or no merge and no other block gives enough room, then `krealloc` fails without
a change or returns a live block that starts with the data. -/
theorem krealloc_keeps_data {h : Heap} {xs zs : List Block} {b : Block} (hw : WellFormed h)
    (hbs : blocks h = xs ++ ([b] ++ zs)) {n : ℕ} (hok : ReallocOk h xs b zs n) :
    Reallocated h b n (krealloc h (b.addr + headerSize) n) := by
  have ht : Tagged h (xs ++ ([b] ++ zs)) := hbs ▸ hw.toTagged
  have heven := evenSize_even n
  rcases hok with ⟨hnm, c, hc, hle⟩ | ⟨hnext, ⟨hnm, a, ha, hle, hroom⟩ | ⟨hprev, hboth, hfull⟩⟩
  · have hz : (freeHead zs).filter (fun c => evenSize n ≤ b.size + c.size + 8) = some c :=
      Option.filter_eq_some_iff.mpr ⟨hc, by simpa using hle⟩
    rw [ht.krealloc_eq n, hz]
    obtain ⟨⟨zs', rfl⟩, hck⟩ := freeHead_eq_some hc
    exact reallocated_forward ht hck heven hnm hle
  · have hz : (freeHead zs).filter (fun c => evenSize n ≤ b.size + c.size + 8) = none :=
      Option.filter_eq_none_iff.mpr fun c hc => by simpa using hnext c hc
    have hx : (freeLast xs).filter (fun a => evenSize n ≤ a.size + b.size + 8) = some a :=
      Option.filter_eq_some_iff.mpr ⟨ha, by simpa using hle⟩
    rw [ht.krealloc_eq n, hz, hx]
    obtain ⟨⟨xs', rfl⟩, hak⟩ := freeLast_eq_some ha
    have ht' : Tagged h (xs' ++ ([a, b] ++ zs)) := by simpa using ht
    exact reallocated_backward ht' hak heven hnm hle hroom
  · have hmove : moveAllocation h (b.addr + headerSize) b.size (evenSize n) = (none, h) := by
      rw [moveAllocation, hw.kalloc_eq, hfull]
    rw [krealloc_eq_move ht hnext hprev hboth, hmove]
    exact rfl

/-- Growing into the rest of the heap. -/
theorem krealloc_keeps_data_forward :
    blocks (kalloc (initHeap (fun _ => 0) 4096 96) 8).2 =
        [] ++ ([⟨4096, 8, .used⟩] ++ [⟨4112, 72, .free⟩]) ∧
      Reallocated (kalloc (initHeap (fun _ => 0) 4096 96) 8).2 ⟨4096, 8, .used⟩ 24
        (krealloc (kalloc (initHeap (fun _ => 0) 4096 96) 8).2 4100 24) := by
  have hw : WellFormed (kalloc (initHeap (fun _ => 0) 4096 96) 8).2 := by decide +kernel
  have hbs : blocks (kalloc (initHeap (fun _ => 0) 4096 96) 8).2 =
      [] ++ ([⟨4096, 8, .used⟩] ++ [⟨4112, 72, .free⟩]) := by decide +kernel
  exact ⟨hbs, krealloc_keeps_data hw hbs
    (.inl ⟨by decide +kernel, ⟨4112, 72, .free⟩, rfl, by decide +kernel⟩)⟩

/-- A used block of two bytes in front of the rest of the heap. -/
def twoBytes : Heap := (kalloc (initHeap (fun _ => 0) 4096 96) 2).2

/-- The heap with `n` bytes from `a` on set to one, as a caller may. -/
def withOnes (h : Heap) (a n : ℕ) : Heap := { h with mem := fill h.mem a 1 n }

/-- A free block of two bytes, a used one of eight and another one. -/
def freeBefore : Heap := withOnes (kfree (kalloc (kalloc twoBytes 8).2 8).2 4100) 4110 8

/-- A free block of two bytes, a used one of four, a free one of two and a used one. -/
def freeAround : Heap :=
  withOnes (kfree (kfree (kalloc (kalloc (kalloc twoBytes 4).2 2).2 8).2 4100) 4122) 4110 4

/-- Three ways to lose the data: a moved allocation is returned four bytes too far; a slide into a
short block clears the end of the data; a join of three blocks overwrites it. -/
theorem krealloc_loses_data :
    (WellFormed (kalloc twoBytes 8).2 ∧ (krealloc (kalloc twoBytes 8).2 4100 24).1 = some 4130 ∧
        ¬ Reallocated (kalloc twoBytes 8).2 ⟨4096, 2, .used⟩ 24
          (krealloc (kalloc twoBytes 8).2 4100 24)) ∧
      (WellFormed freeBefore ∧ (krealloc freeBefore 4110 8).1 = some 4100 ∧
        ¬ Reallocated freeBefore ⟨4106, 8, .used⟩ 8 (krealloc freeBefore 4110 8)) ∧
      WellFormed freeAround ∧ (krealloc freeAround 4110 20).1 = some 4100 ∧
        ¬ Reallocated freeAround ⟨4106, 4, .used⟩ 20 (krealloc freeAround 4110 20) := by
  have hmove : (krealloc (kalloc twoBytes 8).2 4100 24).1 = some 4130 ∧
      ∀ c ∈ blocks (krealloc (kalloc twoBytes 8).2 4100 24).2, 4130 ≠ c.addr + headerSize := by
    decide +kernel
  have hslide : (krealloc freeBefore 4110 8).1 = some 4100 ∧
      (krealloc freeBefore 4110 8).2.mem (4100 + 6) ≠ freeBefore.mem (4106 + headerSize + 6) := by
    decide +kernel
  have hjoin : (krealloc freeAround 4110 20).1 = some 4100 ∧
      (krealloc freeAround 4110 20).2.mem (4100 + 0) ≠ freeAround.mem (4106 + headerSize + 0) := by
    decide +kernel
  refine ⟨⟨by decide +kernel, hmove.1, fun hr => ?_⟩, ⟨by decide +kernel, hslide.1, fun hr => ?_⟩,
    by decide +kernel, hjoin.1, fun hr => ?_⟩
  · rw [← Prod.mk.eta (p := krealloc (kalloc twoBytes 8).2 4100 24), hmove.1] at hr
    obtain ⟨⟨c, hc, -, hq, -⟩, -⟩ := hr
    exact hmove.2 c hc hq
  · rw [← Prod.mk.eta (p := krealloc freeBefore 4110 8), hslide.1] at hr
    exact hslide.2 (hr.2.1 6 (by decide))
  · rw [← Prod.mk.eta (p := krealloc freeAround 4110 20), hjoin.1] at hr
    exact hjoin.2 (hr.2.1 0 (by decide))

/-- A used block stays when another one is freed. -/
theorem Tagged.mem_kfree {h : Heap} {bs : List Block} {b c : Block} (ht : Tagged h bs) (hb : b ∈ bs)
    (hu : b.kind = .used) (hc : c ∈ bs) (hcu : c.kind = .used) (hne : c ≠ b) :
    ∃ bs', Tagged (Kheap.kfree h (b.addr + headerSize)) bs' ∧ c ∈ bs' := by
  obtain ⟨xs, zs, hsplit⟩ := List.append_of_mem hb
  have hsplit : bs = xs ++ ([b] ++ zs) := hsplit
  rw [hsplit] at ht hc
  refine ⟨coalesce xs b zs, (ht.kfree hu).1, mem_coalesce ?_ (by simp [hcu])⟩
  simp only [List.mem_append, List.mem_singleton, hne, false_or] at hc ⊢
  exact hc

/-- The heap of a moved allocation after the copy. -/
def copied (h : Heap) (b y : Block) (n : ℕ) : Heap :=
  { taken h y.addr n with
    mem := memmove (taken h y.addr n).mem (y.addr + headerSize + headerSize)
      (b.addr + headerSize + headerSize) b.size }

/-- The copy of a moved allocation stays inside the body of the new block. -/
theorem tagged_copied {h : Heap} {b y : Block} {n : ℕ} (hw : WellFormed h) (hb : b ∈ blocks h)
    (hu : b.kind = .used) (hy : y ∈ blocks h) (hk : y.kind = .free) (hn : n % 2 = 0)
    (hfit : n = y.size ∨ n + 8 ≤ y.size) (hroom : b.size + 4 ≤ n) :
    ∃ bs u, Tagged (copied h b y n) bs ∧ b ∈ bs ∧ u ∈ bs ∧ u.kind = .used ∧ u ≠ b ∧
      u.addr = y.addr ∧ n ≤ u.size := by
  obtain ⟨ys, ws, hsplit⟩ := List.append_of_mem hy
  have hsplit : blocks h = ys ++ ([y] ++ ws) := hsplit
  have ht : Tagged (taken h y.addr n) (ys ++ (Chain.splitBlocks y n ++ ws)) :=
    (hsplit ▸ hw.toTagged : Tagged h (ys ++ ([y] ++ ws))).taken hn hfit
  obtain ⟨u, rest, hcons, haddr, huu, husize, -⟩ := splitBlocks_cons y (n := n) (by omega)
  have hum : u ∈ ys ++ (Chain.splitBlocks y n ++ ws) := by simp [hcons]
  have hby : b ≠ y := by
    rintro rfl
    rw [hk] at hu
    cases hu
  refine ⟨_, u, ht.body_write hum rfl rfl fun x hx => memmove_of_notMem ?_, ?_, hum, huu, ?_, haddr,
    husize⟩
  · unfold headerSize
    omega
  · have hbm := hb
    rw [hsplit] at hbm
    simp only [List.mem_append, List.mem_singleton, hby, false_or] at hbm ⊢
    exact hbm.imp_right Or.inr
  · rintro rfl
    exact hby (hw.chain.addr_inj hb hy haddr)

/-- The block that a moved allocation would have to start is not there: the address returned is
four bytes into the payload of the new block. -/
theorem krealloc_move_not_reallocated {h : Heap} {xs zs : List Block} {b y : Block}
    (hw : WellFormed h) (hbs : blocks h = xs ++ ([b] ++ zs)) (hu : b.kind = .used) {n : ℕ}
    (hnext : ∀ c, freeHead zs = some c → b.size + c.size + 8 < evenSize n)
    (hprev : ∀ a, freeLast xs = some a → a.size + b.size + 8 < evenSize n)
    (hboth : ∀ a c, freeLast xs = some a → freeHead zs = some c →
      a.size + b.size + c.size + 16 < evenSize n)
    (hy : firstAbove h (evenSize n) = some y)
    (hfit : evenSize n = y.size ∨ evenSize n + 8 ≤ y.size) (hroom : b.size + 4 ≤ evenSize n) :
    ¬ Reallocated h b n (krealloc h (b.addr + headerSize) n) := by
  have ht : Tagged h (xs ++ ([b] ++ zs)) := hbs ▸ hw.toTagged
  obtain ⟨hmem, hk, -⟩ := Tagged.mem_of_firstAbove hy
  have heven := evenSize_even n
  have hys : y.size ≤ 65534 := hw.size_le hmem
  have hm : evenSize (evenSize n) = evenSize n := by
    rw [evenSize_of_lt (by omega)]
    omega
  have hbm : b ∈ blocks h := hbs ▸ (by simp)
  obtain ⟨-, hyhi⟩ := hw.chain.bounds hmem
  obtain ⟨-, hbhi⟩ := hw.chain.bounds hbm
  have hfits := hw.fits
  obtain ⟨bs, u, hcopied, hb₁, hu₁, huu, hub, haddr, husize⟩ :=
    tagged_copied hw hbm hu hmem hk heven hfit hroom
  obtain ⟨bs', hfreed, hu₂⟩ := hcopied.mem_kfree hb₁ hu hu₁ huu hub
  have hcall : krealloc h (b.addr + headerSize) n = (some (y.addr + headerSize + headerSize),
      Kheap.kfree (copied h b y (evenSize n)) (b.addr + headerSize)) := by
    rw [krealloc_eq_move ht hnext hprev hboth, moveAllocation, hw.kalloc_eq, hy, hm]
    simp only [add64_of_lt (show y.addr + headerSize + headerSize < 2 ^ 64 by
      unfold headerSize; omega), add64_of_lt (show b.addr + headerSize + headerSize < 2 ^ 64 by
      unfold headerSize; omega), copied]
  rw [hcall]
  rintro ⟨⟨c, hc, -, hq, -⟩, -⟩
  rw [hfreed.blocks_eq] at hc
  simp only [headerSize] at hq
  have hne : u.addr ≠ c.addr := by omega
  have hapart := hfreed.chain.apart hu₂ hc hne
  omega

end Vardar.Kheap
