import Vardar.Heap.Coalesce

/-!
# `kalloc` on well-formed heaps

The search of `kalloc` compares the header, not the size it stands for rounded up, with the size
requested: it stops at the lowest free block with a body of *more* than `size` bytes. On a heap with
correct tags this decides which block is taken. What happens to this block depends on its rest: if
the rest is two, four or six bytes, `split_block` hands out the whole block but leaves the footer
behind.

## Main definitions

* `Vardar.Kheap.firstAbove`: the block the search stops at.
* `Vardar.Kheap.LowestFit`: the lowest free block with room for the request.
* `Vardar.Kheap.Allocated`: what a successful `kalloc` should have done.

## Main results

* `Vardar.Kheap.Tagged.kalloc_eq`: `kalloc` in terms of the blocks.
* `Vardar.Kheap.kalloc_lowestFit_iff`: when `kalloc` takes the lowest block that fits.
* `Vardar.Kheap.kalloc_wellFormed_iff`: when `kalloc` keeps a heap well formed.
-/

namespace Vardar.Kheap

open ByteMemory Word Tiling

/-- The lowest free block with a body of more than `size` bytes. -/
def firstAbove (h : Heap) (size : ℕ) : Option Block :=
  (blocks h).find? fun b => b.kind = .free ∧ size < b.size

/-- The heap after `kalloc` has taken the block at `p` for `n` bytes. -/
def taken (h : Heap) (p n : ℕ) : Heap :=
  { (splitBlock h p n).2 with mem := memset (splitBlock h p n).2.mem (p + headerSize) 0 n }

theorem evenSize_of_lt {size : ℕ} (h : size + 1 < 2 ^ 64) : evenSize size = size + size % 2 := by
  rw [evenSize, add64_of_lt h, Nat.shiftRight_eq_div_pow, Nat.shiftLeft_eq]
  omega

namespace Tagged

variable {h h' : Heap} {bs xs zs : List Block} {b y : Block} {size n : ℕ}

/-- The search passes a tagged block if it is used or not larger than the request. -/
theorem search_passes_iff (ht : Tagged h bs) (hb : b ∈ bs) (size : ℕ) :
    (h.tag b.addr &&& 1 ≠ 0 ∨ h.tag b.addr ≤ size) ↔ ¬ (b.kind = .free ∧ size < b.size) := by
  obtain ⟨hhead, -, heven, -⟩ := ht.tagged b hb
  rw [hhead, land_one]
  by_cases hk : b.kind = .free
  · rw [Block.word_of_not_used (by simp [hk])]
    simp only [hk, true_and, not_lt]
    omega
  · rw [Block.word_of_used ((ht.tagged b hb).used_of_not_free hk)]
    simp only [hk, false_and, not_false_eq_true, iff_true]
    omega

/-- From the start of a run of tagged blocks, the search stops at the first of them that is free
and larger than the request. -/
theorem findBlock_from (ht : Tagged h bs) (size : ℕ) : ∀ (zs : List Block) (fuel p : ℕ),
    (∀ b ∈ zs, b ∈ bs) → Tiles Block.addr Block.next p zs h.limit → zs.length ≤ fuel →
    findBlock h size fuel p =
      ((zs.find? fun b => b.kind = .free ∧ size < b.size).map Block.addr).getD h.limit
  | [], fuel, p, _, hp, _ => by
    obtain rfl : p = h.limit := hp
    cases fuel with
    | zero => rfl
    | succ fuel =>
      rw [findBlock, if_neg fun hc => lt_irrefl _ hc.1]
      rfl
  | c :: zs, 0, _, _, _, hf => by simp at hf
  | c :: zs, fuel + 1, p, hsub, hp, hf => by
    obtain ⟨rfl, -, hrest⟩ := hp
    have hc := hsub c List.mem_cons_self
    have hle : c.next ≤ h.limit := hrest.le
    have hlt : c.addr < h.limit := by
      unfold Block.next at hle
      omega
    have hfit := ht.chain.limit_eq ▸ ht.fits
    rw [findBlock, (ht.headOk hc).1, List.find?_cons]
    by_cases hfree : c.kind = .free ∧ size < c.size
    · rw [if_neg fun hcond => (ht.search_passes_iff hc size).mp hcond.2 hfree]
      simp [hfree]
    · have hnext : add64 c.addr (c.size + headerSize + footerSize) = c.next := by
        unfold Block.next headerSize footerSize at *
        rw [add64_of_lt (by omega)]
        omega
      rw [if_pos ⟨hlt, (ht.search_passes_iff hc size).mpr hfree⟩, hnext]
      simp only [hfree, decide_false]
      exact ht.findBlock_from size zs fuel c.next
        (fun b hb => hsub b (List.mem_cons_of_mem c hb)) hrest (by simpa using hf)

theorem findBlock_eq (ht : Tagged h (blocks h)) (size : ℕ) :
    findBlock h size h.size h.start = ((firstAbove h size).map Block.addr).getD h.limit := by
  refine ht.findBlock_from size (blocks h) h.size h.start (fun _ hb => hb) ?_ ?_
  · rw [ht.chain.limit_eq]
    exact ht.tiles
  · have hlen := ht.tiles.length_le fun b _ => show b.addr < b.next by unfold Block.next; omega
    omega

theorem mem_of_firstAbove (hy : firstAbove h size = some y) :
    y ∈ blocks h ∧ y.kind = .free ∧ size < y.size := by
  have hsome := List.find?_some hy
  exact ⟨List.mem_of_find?_eq_some hy, by simpa using hsome⟩

/-- The rounded request fits the block that the search stops at. -/
theorem evenSize_le (ht : Tagged h (blocks h)) (hy : firstAbove h size = some y) :
    evenSize size % 2 = 0 ∧ size ≤ evenSize size ∧ evenSize size ≤ y.size := by
  obtain ⟨hmem, -, hlt⟩ := mem_of_firstAbove hy
  have heven := (ht.tagged y hmem).2.2.1
  have hle : y.size ≤ 65534 := ht.size_le hmem
  rw [evenSize_of_lt (by omega)]
  omega

/-- `kalloc` takes the block the search stops at, or fails and changes nothing. -/
theorem kalloc_eq (ht : Tagged h (blocks h)) (size : ℕ) :
    kalloc h size = match firstAbove h size with
      | none => (none, h)
      | some y => (some (y.addr + headerSize), taken h y.addr (evenSize size)) := by
  have hfit := ht.chain.limit_eq ▸ ht.fits
  rw [kalloc, ht.findBlock_eq size]
  cases hy : firstAbove h size with
  | none => simp
  | some y =>
    obtain ⟨hmem, -, -⟩ := mem_of_firstAbove hy
    obtain ⟨-, hhi⟩ := ht.chain.bounds hmem
    rw [← ht.chain.limit_eq] at hhi
    have hadd : add64 y.addr headerSize = y.addr + headerSize :=
      add64_of_lt (by unfold headerSize; omega)
    simp only [Option.map_some, Option.getD_some, hadd, taken]
    rw [if_pos (by omega)]

/-- Searching the blocks from the start finds the lowest one with a property. -/
theorem find?_eq_some_iff (ht : Tagged h (blocks h)) (P : Block → Prop) [DecidablePred P] :
    (blocks h).find? (fun b => P b) = some b ↔
      (b ∈ blocks h ∧ P b) ∧ ∀ c ∈ blocks h, P c → b.addr ≤ c.addr := by
  have hlow {b : Block} (hb : (blocks h).find? (fun b => P b) = some b) :
      (b ∈ blocks h ∧ P b) ∧ ∀ c ∈ blocks h, P c → b.addr ≤ c.addr := by
    obtain ⟨hP, xs, ys, hsplit, hxs⟩ := List.find?_eq_some_iff_append.mp hb
    refine ⟨⟨List.mem_of_find?_eq_some hb, by simpa using hP⟩, fun c hc hPc => ?_⟩
    rw [hsplit] at hc
    have hpair := ht.tiles.pairwise
    rw [hsplit] at hpair
    rcases List.mem_append.mp hc with hc | hc
    · exact absurd (hxs c hc) (by simp [hPc])
    rcases List.mem_cons.mp hc with rfl | hc
    · exact le_rfl
    · have hle : b.next ≤ c.addr :=
        (List.pairwise_cons.mp (List.pairwise_append.mp hpair).2.1).1 c hc
      unfold Block.next at hle
      omega
  refine ⟨hlow, fun ⟨⟨hmem, hP⟩, hmin⟩ => ?_⟩
  cases hfind : (blocks h).find? (fun b => P b) with
  | none => exact absurd hP (by simpa using List.find?_eq_none.mp hfind b hmem)
  | some c =>
    obtain ⟨⟨hcm, hPc⟩, hcmin⟩ := hlow hfind
    rw [ht.chain.addr_inj hcm hmem (le_antisymm (hcmin b hmem hP) (hmin c hcm hPc))]

end Tagged

/-! ### Which block is taken -/

/-- The lowest free block with a body of at least `n` bytes. -/
def LowestFit (h : Heap) (n : ℕ) (b : Block) : Prop :=
  (b ∈ blocks h ∧ b.kind = .free ∧ n ≤ b.size) ∧
    ∀ c ∈ blocks h, c.kind = .free ∧ n ≤ c.size → b.addr ≤ c.addr

/-- A free block with room for `n` bytes is not below the lowest one. -/
theorem exists_lowestFit {h : Heap} (ht : Tagged h (blocks h)) {n : ℕ} {b : Block}
    (hb : b ∈ blocks h) (hk : b.kind = .free) (hn : n ≤ b.size) : ∃ c, LowestFit h n c := by
  cases hfind : (blocks h).find? (fun b => b.kind = .free ∧ n ≤ b.size) with
  | none => exact absurd (List.find?_eq_none.mp hfind b hb) (by simp [hk, hn])
  | some c => exact ⟨c, (ht.find?_eq_some_iff fun b => b.kind = .free ∧ n ≤ b.size).mp hfind⟩

/-- **When `kalloc` fails only if it must.** On any heap with correct tags and for any size,
`kalloc` fails exactly if no free block has room for the size rounded up to an even number, and
otherwise takes the lowest such block, if and only if the body of this block does not have exactly
the size requested. -/
theorem kalloc_lowestFit_iff {h : Heap} (ht : Tagged h (blocks h)) (size : ℕ) :
    (((kalloc h size).1 = none ↔
        ∀ b ∈ blocks h, b.kind = .free → b.size < size + size % 2) ∧
      ∀ b, LowestFit h (size + size % 2) b → (kalloc h size).1 = some (b.addr + headerSize)) ↔
    ∀ b, LowestFit h (size + size % 2) b → b.size ≠ size := by
  have hkalloc := ht.kalloc_eq size
  constructor
  · rintro ⟨-, htake⟩ b hb rfl
    have hret := htake b hb
    cases hfind : firstAbove h b.size with
    | none =>
      rw [hkalloc, hfind] at hret
      cases hret
    | some y =>
      rw [hkalloc, hfind] at hret
      obtain ⟨hmem, -, hlt⟩ := Tagged.mem_of_firstAbove hfind
      have haddr := Nat.add_right_cancel (Option.some.inj hret)
      rw [ht.chain.addr_inj hmem hb.1.1 haddr] at hlt
      exact lt_irrefl _ hlt
  · intro hne
    -- the lowest block that fits is larger than the request, so the search stops there
    have hfirst {b : Block} (hb : LowestFit h (size + size % 2) b) : firstAbove h size = some b := by
      obtain ⟨⟨hmem, hk, hle⟩, hmin⟩ := hb
      refine (ht.find?_eq_some_iff fun b => b.kind = .free ∧ size < b.size).mpr
        ⟨⟨hmem, hk, ?_⟩, fun c hc ⟨hck, hclt⟩ => hmin c hc ⟨hck, ?_⟩⟩
      · have hsize := hne b ⟨⟨hmem, hk, hle⟩, hmin⟩
        omega
      · have heven := (ht.tagged c hc).2.2.1
        omega
    refine ⟨⟨fun hnone b hb hk => ?_, fun hno => ?_⟩, fun b hb => ?_⟩
    · by_contra hle
      obtain ⟨c, hc⟩ := exists_lowestFit ht hb hk (not_lt.mp hle)
      rw [hkalloc, hfirst hc] at hnone
      cases hnone
    · cases hfind : firstAbove h size with
      | none => rw [hkalloc, hfind]
      | some y =>
        obtain ⟨hmem, hk, hlt⟩ := Tagged.mem_of_firstAbove hfind
        have heven := (ht.tagged y hmem).2.2.1
        have hno := hno y hmem hk
        omega
    · rw [hkalloc, hfirst hb]

/-- A request of eight bytes to a heap with one free block of 24. -/
theorem kalloc_lowestFit_iff_room :
    LowestFit (initHeap (fun _ => 0) 4096 32) 8 ⟨4096, 24, .free⟩ ∧
      (kalloc (initHeap (fun _ => 0) 4096 32) 8).1 = some 4100 := by
  have hw : WellFormed (initHeap (fun _ => 0) 4096 32) := by decide +kernel
  have hbs : blocks (initHeap (fun _ => 0) 4096 32) = [⟨4096, 24, .free⟩] := by decide +kernel
  have hfit : LowestFit (initHeap (fun _ => 0) 4096 32) 8 ⟨4096, 24, .free⟩ := by
    rw [LowestFit, hbs]
    simp
  refine ⟨hfit, ((kalloc_lowestFit_iff hw.toTagged 8).mpr ?_).2 _ hfit⟩
  rintro b ⟨⟨hmem, -⟩, -⟩
  rw [hbs, List.mem_singleton] at hmem
  simp [hmem]

/-- A request of eight bytes to a heap with one free block of eight fails. -/
theorem kalloc_refuses_exact_fit :
    WellFormed (initHeap (fun _ => 0) 4096 16) ∧
      blocks (initHeap (fun _ => 0) 4096 16) = [⟨4096, 8, .free⟩] ∧
      (kalloc (initHeap (fun _ => 0) 4096 16) 8).1 = none := by
  decide +kernel

/-! ### The heap afterwards -/

namespace Tagged

variable {h h' : Heap} {bs xs zs : List Block} {b y : Block} {size n : ℕ}

/-- `split_block` leaves tagged blocks if the block is used up or its rest has room for tags. -/
theorem split (ht : Tagged h (xs ++ ([y] ++ zs))) (hn : n % 2 = 0)
    (hfit : n = y.size ∨ n + 8 ≤ y.size) :
    Tagged (splitBlock h y.addr n).2 (xs ++ (Chain.splitBlocks y n ++ zs)) := by
  have hmem : y ∈ xs ++ ([y] ++ zs) := by simp
  have hhead := ht.headOk hmem
  have hp : y.addr + y.size + 8 ≤ h.limit := ht.chain.limit_eq ▸ (ht.chain.bounds hmem).2
  have hl : h.limit < 2 ^ 64 := ht.chain.limit_eq ▸ ht.fits
  refine ht.splice (Chain.splitBlock_start ..) (Chain.splitBlock_size ..) ?_
    (fun _ _ => Chain.tiles_splitBlocks) fun b hb => ?_
  · rintro q r ⟨rfl, -, hr⟩ x hx
    obtain rfl : y.addr + y.size + 8 = r := hr
    exact Chain.splitBlock_mem hhead.1 hp hl hn (by omega) hx
  · obtain ⟨hhead', hfoot'⟩ := Chain.splitBlock_words hhead hp hl hn hfit b hb
    exact ⟨hhead', hfoot', (Chain.splitBlocks_size hb hhead.even hn (by omega)).1,
      Chain.not_virgin_splitBlocks hb⟩

/-- Writing inside the body of a block keeps the tags. -/
theorem body_write (ht : Tagged h bs) (hb : b ∈ bs) (hstart : h'.start = h.start)
    (hsize : h'.size = h.size)
    (hmem : ∀ x, x < b.addr + 4 ∨ b.addr + 4 + b.size ≤ x → h'.mem x = h.mem x) :
    Tagged h' bs := by
  refine ⟨hsize ▸ ht.small, by rw [hstart, hsize]; exact ht.fits,
    by rw [hstart, hsize]; exact ht.tiles, fun c hc => ?_⟩
  obtain ⟨hhead, hfoot, hrest⟩ := ht.tagged c hc
  have hout : ∀ x, (c.addr ≤ x ∧ x < c.addr + 4) ∨ (c.foot ≤ x ∧ x < c.foot + 4) →
      h'.mem x = h.mem x := by
    intro x hx
    refine hmem x ?_
    unfold Block.foot at hx
    by_cases heq : c.addr = b.addr
    · obtain rfl := ht.chain.addr_inj hc hb heq
      omega
    · have hcase := ht.chain.apart hc hb heq
      omega
  have htag : h'.tag c.addr = h.tag c.addr := load_congr fun x hx hx' => hout x (.inl ⟨hx, hx'⟩)
  have htag' : h'.tag c.foot = h.tag c.foot := load_congr fun x hx hx' => hout x (.inr ⟨hx, hx'⟩)
  exact ⟨htag.trans hhead, htag'.trans hfoot, hrest⟩

/-- `kalloc` writes nothing outside the block it takes. -/
theorem taken_mem (ht : Tagged h bs) (hy : y ∈ bs) (hn : n % 2 = 0) (hle : n ≤ y.size) {x : ℕ}
    (hx : x < y.addr ∨ y.next ≤ x) : (taken h y.addr n).mem x = h.mem x := by
  have hp : y.addr + y.size + 8 ≤ h.limit := ht.chain.limit_eq ▸ (ht.chain.bounds hy).2
  have hl : h.limit < 2 ^ 64 := ht.chain.limit_eq ▸ ht.fits
  unfold Block.next at hx
  refine (fill_of_notMem ?_).trans (Chain.splitBlock_mem (ht.headOk hy).1 hp hl hn hle (by omega))
  unfold headerSize
  omega

/-- The heap after `kalloc` has taken a block that is used up or has room for the tags of its
rest. -/
theorem taken (ht : Tagged h (xs ++ ([y] ++ zs))) (hn : n % 2 = 0)
    (hfit : n = y.size ∨ n + 8 ≤ y.size) :
    Tagged (Kheap.taken h y.addr n) (xs ++ (Chain.splitBlocks y n ++ zs)) := by
  obtain ⟨b, hb, haddr, hsize⟩ : ∃ b ∈ Chain.splitBlocks y n, b.addr = y.addr ∧ n ≤ b.size := by
    rw [Chain.splitBlocks]
    split_ifs
    · exact ⟨_, List.mem_singleton_self _, rfl, by dsimp only; omega⟩
    · exact ⟨_, List.mem_cons_self, rfl, le_rfl⟩
  refine (ht.split hn hfit).body_write (b := b)
    (List.mem_append_right _ (List.mem_append_left _ hb)) rfl rfl fun x hx => fill_of_notMem ?_
  unfold headerSize
  omega

/-- If the rest is positive and has no room for tags, the footer of the whole block does not get
the allocation bit. -/
theorem taken_tags (ht : Tagged h bs) (hy : y ∈ bs) (hk : y.kind = .free) (hn : n % 2 = 0)
    (hlt : n < y.size) (hroom : y.size < n + 8) :
    (Kheap.taken h y.addr n).tag y.addr = y.size + 1 ∧
      (Kheap.taken h y.addr n).tag y.foot % 2 = 0 := by
  obtain ⟨-, hfoot, heven, -⟩ := ht.tagged y hy
  rw [Block.word_of_not_used (by simp [hk])] at hfoot
  have hp : y.addr + y.size + 8 ≤ h.limit := ht.chain.limit_eq ▸ (ht.chain.bounds hy).2
  have hl : h.limit < 2 ^ 64 := ht.chain.limit_eq ▸ ht.fits
  have hle : y.size ≤ 65534 := ht.size_le hy
  have hunfold := Chain.splitBlock_unfold (ht.headOk hy).1 hp hl hn hlt.le
  dsimp only at hunfold
  rw [if_neg hlt.ne, if_pos hroom] at hunfold
  have hmemset (q : ℕ) (hq : q + 4 ≤ y.addr + 4 ∨ y.addr + 4 + n ≤ q) :
      (Kheap.taken h y.addr n).tag q = (splitBlock h y.addr n).2.tag q := by
    refine load_congr fun x hx hx' => fill_of_notMem ?_
    unfold headerSize
    omega
  unfold Block.foot at hfoot ⊢
  rw [hmemset _ (by omega), hmemset _ (by omega), hunfold]
  constructor
  · simp (disch := omega) only [Heap.tag_setTag_of_disjoint, Heap.tag_setTag_self]
  · by_cases hsep : n + 4 ≤ y.size
    · simp (disch := omega) only [Heap.tag_setTag_of_disjoint]
      rw [hfoot, heven]
    -- the two footers overlap: the first byte of the real one is the third of the other
    · have hbyte : ∀ h₀ : Heap, (h₀.setTag (y.addr + 4 + n) (y.size + 1)).mem
          (y.addr + 4 + y.size) = 0 := by
        intro h₀
        have hoff : y.addr + 4 + y.size - (y.addr + 4 + n) = 2 := by omega
        have hzero : (y.size + 1) / 256 ^ 2 = 0 := Nat.div_eq_of_lt (by omega)
        simp only [Heap.setTag, store]
        rw [if_pos (by omega), hoff, hzero]
        rfl
      rw [Heap.tag, load_succ, hbyte]
      simp [Nat.mul_mod]

end Tagged

/-- The result of a `kalloc` of `size` bytes that keeps the boundary tags: on failure the heap is as
before; on success a free block is now used with a body of at least `size` bytes, its rest is one
free block or nothing, the bytes handed out are zero, the heap is well formed and every other used
block has kept its place and its bytes. -/
def Allocated (h : Heap) (size : ℕ) : Option ℕ × Heap → Prop
  | (none, h') => h' = h
  | (some p, h') =>
    (∃ xs y zs b rest, blocks h = xs ++ ([y] ++ zs) ∧ y.kind = .free ∧ p = y.addr + headerSize ∧
      blocks h' = xs ++ ((b :: rest) ++ zs) ∧ b.addr = y.addr ∧ b.kind = .used ∧ size ≤ b.size ∧
      (rest = [] ∨ ∃ c, rest = [c] ∧ c.kind = .free)) ∧
    (∀ x, p ≤ x → x < p + size → h'.mem x = 0) ∧ WellFormed h' ∧
    ∀ c ∈ blocks h, c.kind = .used → c ∈ blocks h' ∧
      ∀ x, c.addr ≤ x → x < c.next → h'.mem x = h.mem x

/-- Splitting a free block leaves no two free neighbours. -/
theorem splitBlocks_isChain {xs zs : List Block} {y : Block} {n : ℕ}
    (hbs : (xs ++ ([y] ++ zs)).IsChain fun b c => b.kind = .free → c.kind ≠ .free)
    (hk : y.kind = .free) :
    (xs ++ (Chain.splitBlocks y n ++ zs)).IsChain fun b c => b.kind = .free → c.kind ≠ .free := by
  obtain ⟨hx, hyz, hlast⟩ := List.isChain_append.mp hbs
  obtain ⟨-, hz, hhead⟩ := List.isChain_append.mp hyz
  have hnext : ∀ c ∈ zs.head?, c.kind ≠ .free := fun c hc => hhead y rfl c hc hk
  rw [Chain.splitBlocks]
  split_ifs
  · refine List.isChain_append.mpr ⟨hx, List.isChain_append.mpr ⟨List.isChain_singleton _, hz, ?_⟩,
      ?_⟩
    · exact fun _ _ c hc _ => hnext c hc
    · rintro a - c hc -
      obtain rfl := Option.some.inj hc
      simp
  · refine List.isChain_append.mpr ⟨hx, List.isChain_append.mpr ⟨?_, hz, ?_⟩, ?_⟩
    · simp
    · exact fun _ _ c hc _ => hnext c hc
    · rintro a - c hc -
      obtain rfl := Option.some.inj hc
      simp

/-- A split leaves a used block with room for the request, and one free block or nothing. -/
theorem splitBlocks_cons (y : Block) {n : ℕ} (hle : n ≤ y.size) :
    ∃ b rest, Chain.splitBlocks y n = b :: rest ∧ b.addr = y.addr ∧ b.kind = .used ∧ n ≤ b.size ∧
      (rest = [] ∨ ∃ c, rest = [c] ∧ c.kind = .free) := by
  rw [Chain.splitBlocks]
  split_ifs
  · exact ⟨_, [], rfl, rfl, rfl, hle, .inl rfl⟩
  · exact ⟨_, _, rfl, rfl, rfl, le_rfl, .inr ⟨_, rfl, rfl⟩⟩

/-- Taking a block that is used up or has room for the tags of its rest. -/
theorem allocated_taken {h : Heap} (hw : WellFormed h) {size : ℕ} {y : Block}
    (hy : firstAbove h size = some y)
    (hfit : evenSize size = y.size ∨ evenSize size + 8 ≤ y.size) :
    Allocated h size (some (y.addr + headerSize), taken h y.addr (evenSize size)) := by
  obtain ⟨hn, hsize, hle⟩ := hw.evenSize_le hy
  obtain ⟨hmem, hk, -⟩ := Tagged.mem_of_firstAbove hy
  obtain ⟨xs, zs, hsplit⟩ := List.append_of_mem hmem
  have hsplit : blocks h = xs ++ ([y] ++ zs) := hsplit
  have ht : Tagged h (xs ++ ([y] ++ zs)) := hsplit ▸ hw.toTagged
  have ht' := ht.taken hn hfit
  have hblocks := ht'.blocks_eq
  obtain ⟨b, rest, hbr, haddr, hused, hbsize, hrest⟩ := splitBlocks_cons y hle
  refine ⟨⟨xs, y, zs, b, rest, hsplit, hk, rfl, hbr ▸ hblocks, haddr, hused, hsize.trans hbsize,
    hrest⟩, fun x hlo hhi => ?_, ⟨hblocks ▸ ht', ?_⟩, fun c hc hcu => ⟨?_, fun x hlo hhi => ?_⟩⟩
  · exact fill_of_mem ⟨hlo, by omega⟩
  · rw [hblocks]
    exact splitBlocks_isChain (hsplit ▸ hw.separated) hk
  · rw [hsplit, List.mem_append, List.mem_append] at hc
    rw [hblocks, List.mem_append, List.mem_append]
    rcases hc with hc | hc | hc
    · exact .inl hc
    · rw [List.mem_singleton.mp hc, hk] at hcu
      cases hcu
    · exact .inr (.inr hc)
  · refine hw.taken_mem hmem hn hle ?_
    have hne : c.addr ≠ y.addr := by
      intro heq
      rw [hw.chain.addr_inj hc hmem heq, hk] at hcu
      cases hcu
    have hapart := hw.chain.apart hc hmem hne
    unfold Block.next at hhi ⊢
    omega

/-- **When `kalloc` keeps the boundary tags.** On any well-formed heap and for any size, `kalloc`
fails without a change or allocates a block and leaves a well-formed heap, if and only if the lowest
free block with a body of more than `size` bytes, if there is one, is used up by the rounded size or
has eight bytes more. -/
theorem kalloc_wellFormed_iff {h : Heap} (hw : WellFormed h) (size : ℕ) :
    Allocated h size (kalloc h size) ↔ ∀ y, firstAbove h size = some y →
      evenSize size = y.size ∨ evenSize size + 8 ≤ y.size := by
  rw [hw.kalloc_eq size]
  cases hy : firstAbove h size with
  | none => exact iff_of_true rfl (by simp)
  | some y =>
    simp only [Option.some.injEq, forall_eq']
    refine ⟨fun halloc => ?_, fun hfit => allocated_taken hw hy hfit⟩
    obtain ⟨⟨xs, y', zs, b, rest, -, -, hp, hbs, haddr, hused, -, -⟩, -, hw', -⟩ := halloc
    obtain ⟨hn, -, hle⟩ := hw.evenSize_le hy
    obtain ⟨hmem, hk, -⟩ := Tagged.mem_of_firstAbove hy
    by_contra hno
    obtain ⟨hhead, hfoot⟩ :=
      hw.taken_tags hmem hk hn (show evenSize size < y.size by omega) (by omega)
    have hb : b.addr = y.addr := haddr.trans (Nat.add_right_cancel hp).symm
    -- header and footer of the block handed out disagree about the allocation bit
    obtain ⟨hbhead, hbfoot, -⟩ := hw'.tagged b (by rw [hbs]; simp)
    rw [Block.word_of_used hused] at hbhead hbfoot
    rw [hb, hhead] at hbhead
    have hsize : b.size = y.size := by omega
    rw [show b.foot = y.foot by rw [Block.foot, Block.foot, hb, hsize]] at hbfoot
    have heven := (hw.tagged y hmem).2.2.1
    omega

/-- Eight bytes out of 24. -/
theorem kalloc_wellFormed_iff_room :
    firstAbove (initHeap (fun _ => 0) 4096 32) 8 = some ⟨4096, 24, .free⟩ ∧
      Allocated (initHeap (fun _ => 0) 4096 32) 8 (kalloc (initHeap (fun _ => 0) 4096 32) 8) := by
  have hfirst : firstAbove (initHeap (fun _ => 0) 4096 32) 8 = some ⟨4096, 24, .free⟩ := by
    decide +kernel
  refine ⟨hfirst, (kalloc_wellFormed_iff (by decide +kernel) 8).mpr fun y hy => ?_⟩
  obtain rfl := Option.some.inj (hfirst.symm.trans hy)
  decide +kernel

/-- Twenty bytes out of 24: the block is handed out whole, and its footer does not say so. -/
theorem kalloc_breaks_footer :
    WellFormed (initHeap (fun _ => 0) 4096 32) ∧
      (kalloc (initHeap (fun _ => 0) 4096 32) 20).1 = some 4100 ∧
      (kalloc (initHeap (fun _ => 0) 4096 32) 20).2.tag 4096 = 25 ∧
      (kalloc (initHeap (fun _ => 0) 4096 32) 20).2.tag 4124 = 24 ∧
      ¬ WellFormed (kalloc (initHeap (fun _ => 0) 4096 32) 20).2 := by
  decide +kernel

end Vardar.Kheap
