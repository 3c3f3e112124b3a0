import Vardar.Lib.Tiling
import Vardar.Heap.Kheap

/-!
# The block chain of the kernel heap

The invariant that `kalloc` and `kfree` keep: blocks reached by masked header sizes tile the heap,
every header records its block, and footers record the size of their block wherever a free can
read them. A block is *virgin* when it belongs to the zeroed rest of a heap too large for
`SIZE_MASK`, which the search reads as a row of empty blocks; virgin blocks are never allocated
and nothing is known about their footers. The allocation bit of the footer of an allocated block
may be clear: `split_block` leaves the old footer when it hands out a whole block.

## Main definitions

* `Vardar.Kheap.Block`, `Vardar.Kheap.Chain`: the blocks of a heap and the invariant.
* `Vardar.Kheap.Headed`: the part of the invariant about headers.

## Main results

* `Vardar.Kheap.Chain.splice`: an operation that rewrites a run of blocks and touches no byte
  outside them keeps the invariant.
* `Vardar.Kheap.Chain.findBlock_spec`: where the search of `kalloc` stops.
-/

namespace Vardar.Kheap

open ByteMemory Word Tiling

/-! ### Masks -/

theorem land_sizeMask (w : ℕ) : w &&& sizeMask = w / 2 % 2 ^ 15 * 2 := by
  have h := land_mask w 15 1
  simpa [sizeMask] using h

theorem land_sizeMask_of_even {w : ℕ} (h : w % 2 = 0) (hw : w ≤ sizeMask) :
    w &&& sizeMask = w := by
  rw [land_sizeMask]
  unfold sizeMask at hw
  omega

theorem land_sizeMask_add_one {w : ℕ} (h : w % 2 = 0) (hw : w ≤ sizeMask) :
    (w + 1) &&& sizeMask = w := by
  rw [land_sizeMask]
  unfold sizeMask at hw
  omega

theorem land_sizeMask_even (w : ℕ) : (w &&& sizeMask) % 2 = 0 := by
  rw [land_sizeMask]
  omega

theorem land_sizeMask_le (w : ℕ) : w &&& sizeMask ≤ sizeMask :=
  Nat.and_le_right

/-! ### Tags -/

namespace Heap

variable {h : Heap} {p q v : ℕ}

@[simp] theorem setTag_start (h : Heap) (p v : ℕ) : (h.setTag p v).start = h.start := rfl

@[simp] theorem setTag_size (h : Heap) (p v : ℕ) : (h.setTag p v).size = h.size := rfl

@[simp] theorem setTag_limit (h : Heap) (p v : ℕ) : (h.setTag p v).limit = h.limit := rfl

theorem tag_lt (h : Heap) (p : ℕ) : h.tag p < 2 ^ 32 := load_lt h.mem p 4

theorem tag_setTag_self (hv : v < 2 ^ 32) : (h.setTag p v).tag p = v :=
  (load_store_self h.mem p 4 v).trans (Nat.mod_eq_of_lt hv)

theorem tag_setTag_of_disjoint (hd : p + 4 ≤ q ∨ q + 4 ≤ p) : (h.setTag p v).tag q = h.tag q :=
  load_store_of_disjoint hd

theorem setTag_mem_of_notMem {x : ℕ} (hx : x < p ∨ p + 4 ≤ x) : (h.setTag p v).mem x = h.mem x :=
  store_of_notMem hx

end Heap

/-! ### Blocks -/

/-- What is known about a block. -/
inductive Kind
  | used
  | free
  | virgin
  deriving DecidableEq

/-- A block: its header address, the masked size of its body and its kind. -/
structure Block where
  addr : ℕ
  size : ℕ
  kind : Kind
  deriving DecidableEq

namespace Block

/-- The address of the footer. -/
def foot (b : Block) : ℕ := b.addr + 4 + b.size

/-- The address after the block. -/
def next (b : Block) : ℕ := b.addr + b.size + 8

/-- The tag of a block: its size with the allocation bit. -/
def word (b : Block) : ℕ := b.size + if b.kind = .used then 1 else 0

/-- The header records the size and the allocation bit. -/
def HeadOk (h : Heap) (b : Block) : Prop :=
  h.tag b.addr &&& sizeMask = b.size ∧ (h.tag b.addr &&& 1 = 1 ↔ b.kind = .used)

/-- The footer records the size. -/
def FootOk (h : Heap) (b : Block) : Prop := h.tag b.foot &&& sizeMask = b.size

theorem HeadOk.even {h : Heap} {b : Block} (hb : b.HeadOk h) : b.size % 2 = 0 :=
  hb.1 ▸ land_sizeMask_even _

theorem HeadOk.size_le {h : Heap} {b : Block} (hb : b.HeadOk h) : b.size ≤ sizeMask :=
  hb.1 ▸ land_sizeMask_le _

theorem word_le (b : Block) : b.word ≤ b.size + 1 := by
  unfold word
  split_ifs <;> omega

theorem word_of_used {b : Block} (hu : b.kind = .used) : b.word = b.size + 1 := by
  rw [word, if_pos hu]

theorem word_of_not_used {b : Block} (hu : b.kind ≠ .used) : b.word = b.size := by
  rw [word, if_neg hu, Nat.add_zero]

section Word

variable {h : Heap} {b : Block} (he : b.size % 2 = 0) (hs : b.size ≤ sizeMask)

include he hs

theorem word_land_sizeMask : b.word &&& sizeMask = b.size := by
  by_cases hu : b.kind = .used
  · rw [word_of_used hu, land_sizeMask_add_one he hs]
  · rw [word_of_not_used hu, land_sizeMask_of_even he hs]

/-- A header that holds the tag of its block. -/
theorem headOk_of_tag (ht : h.tag b.addr = b.word) : b.HeadOk h := by
  refine ⟨by rw [ht, word_land_sizeMask he hs], ?_⟩
  rw [ht, land_one]
  by_cases hu : b.kind = .used
  · rw [word_of_used hu]
    exact iff_of_true (by omega) hu
  · rw [word_of_not_used hu]
    exact iff_of_false (by omega) hu

/-- A footer that holds the tag of its block. -/
theorem footOk_of_tag (ht : h.tag b.foot = b.word) : b.FootOk h := by
  rw [FootOk, ht, word_land_sizeMask he hs]

end Word

end Block

/-- The blocks `bs` tile the heap with headers that record them; footers record sizes for used
blocks and for every block in front of one that is not virgin. -/
structure Chain (h : Heap) (bs : List Block) : Prop where
  fits : h.start + h.size < 2 ^ 64
  tiles : Tiles Block.addr Block.next h.start bs (h.start + h.size)
  head : ∀ b ∈ bs, b.HeadOk h
  virgin : ∀ b ∈ bs, b.kind = .virgin → h.tag b.addr = 0
  foot : ∀ b ∈ bs, b.kind = .used → b.FootOk h
  before : bs.Pairwise fun b c => c.kind ≠ .virgin → b.FootOk h

/-- The blocks tile the heap with headers that record them, whatever the footers are. -/
structure Headed (h : Heap) (bs : List Block) : Prop where
  fits : h.start + h.size < 2 ^ 64
  tiles : Tiles Block.addr Block.next h.start bs (h.start + h.size)
  head : ∀ b ∈ bs, b.HeadOk h

namespace Headed

variable {h : Heap} {bs : List Block} {b c : Block}

theorem limit_eq (hc : Headed h bs) : h.limit = h.start + h.size := add64_of_lt hc.fits

theorem bounds (hc : Headed h bs) (hb : b ∈ bs) :
    h.start ≤ b.addr ∧ b.addr + b.size + 8 ≤ h.start + h.size :=
  ⟨(hc.tiles.bounds hb).1, (hc.tiles.bounds hb).2.2⟩

/-- Two blocks at different addresses do not overlap. -/
theorem apart (hc : Headed h bs) (hb : b ∈ bs) (hcb : c ∈ bs) (hne : b.addr ≠ c.addr) :
    b.addr + b.size + 8 ≤ c.addr ∨ c.addr + c.size + 8 ≤ b.addr := by
  obtain ⟨xs, ys, rfl⟩ := List.append_of_mem hb
  obtain ⟨-, hby, hxb⟩ := List.pairwise_append.mp hc.tiles.pairwise
  rcases List.mem_append.mp hcb with hx | hx
  · exact Or.inr (hxb c hx b List.mem_cons_self)
  rcases List.mem_cons.mp hx with rfl | hx
  · exact absurd rfl hne
  · exact Or.inl ((List.pairwise_cons.mp hby).1 c hx)

/-- A block is determined by its address. -/
theorem addr_inj (hc : Headed h bs) (hb : b ∈ bs) (hcb : c ∈ bs) (heq : b.addr = c.addr) :
    b = c := by
  obtain ⟨xs, ys, rfl⟩ := List.append_of_mem hb
  obtain ⟨-, hby, hxb⟩ := List.pairwise_append.mp hc.tiles.pairwise
  rcases List.mem_append.mp hcb with hx | hx
  · have hlt : c.addr + c.size + 8 ≤ b.addr := hxb c hx b List.mem_cons_self
    omega
  rcases List.mem_cons.mp hx with rfl | hx
  · rfl
  · have hlt : b.addr + b.size + 8 ≤ c.addr := (List.pairwise_cons.mp hby).1 c hx
    omega

end Headed

namespace Chain

variable {h h' : Heap} {bs xs ys ys' zs : List Block} {b c : Block}

theorem headed (hc : Chain h bs) : Headed h bs := ⟨hc.fits, hc.tiles, hc.head⟩

theorem limit_eq (hc : Chain h bs) : h.limit = h.start + h.size := hc.headed.limit_eq

theorem bounds (hc : Chain h bs) (hb : b ∈ bs) :
    h.start ≤ b.addr ∧ b.addr + b.size + 8 ≤ h.start + h.size :=
  hc.headed.bounds hb

theorem apart (hc : Chain h bs) (hb : b ∈ bs) (hcb : c ∈ bs) (hne : b.addr ≠ c.addr) :
    b.addr + b.size + 8 ≤ c.addr ∨ c.addr + c.size + 8 ≤ b.addr :=
  hc.headed.apart hb hcb hne

theorem addr_inj (hc : Chain h bs) (hb : b ∈ bs) (hcb : c ∈ bs) (heq : b.addr = c.addr) :
    b = c :=
  hc.headed.addr_inj hb hcb heq

/-- Two memories that agree on the bytes of a block agree on its tags. -/
theorem headOk_congr (hm : ∀ x, b.addr ≤ x → x < b.next → h'.mem x = h.mem x)
    (hb : b.HeadOk h) : b.HeadOk h' := by
  have htag : h'.tag b.addr = h.tag b.addr :=
    load_congr fun x hx hx' => hm x hx (by unfold Block.next; omega)
  simpa only [Block.HeadOk, htag] using hb

theorem footOk_congr (hm : ∀ x, b.addr ≤ x → x < b.next → h'.mem x = h.mem x)
    (hb : b.FootOk h) : b.FootOk h' := by
  have htag : h'.tag b.foot = h.tag b.foot :=
    load_congr fun x hx hx' => hm x (by unfold Block.foot at hx; omega)
      (by unfold Block.foot at hx'; unfold Block.next; omega)
  simpa only [Block.FootOk, htag] using hb

/-- Rewriting a run of blocks, one of which is not virgin, into a run of blocks with correct tags,
without touching a byte outside the run, keeps the chain. -/
theorem splice (hc : Chain h (xs ++ (ys ++ zs)))
    (hstart : h'.start = h.start) (hsize : h'.size = h.size)
    (hnv : ∃ y ∈ ys, y.kind ≠ .virgin)
    (hmem : ∀ q r, Tiles Block.addr Block.next q ys r →
      ∀ x, x < q ∨ r ≤ x → h'.mem x = h.mem x)
    (htiles : ∀ q r, Tiles Block.addr Block.next q ys r →
      Tiles Block.addr Block.next q ys' r)
    (hhead : ∀ y ∈ ys', y.HeadOk h') (hfoot : ∀ y ∈ ys', y.FootOk h')
    (hvirgin : ∀ y ∈ ys', y.kind ≠ .virgin) : Chain h' (xs ++ (ys' ++ zs)) := by
  obtain ⟨q, hx, hyz⟩ := tiles_append.mp hc.tiles
  obtain ⟨r, hy, hz⟩ := tiles_append.mp hyz
  have hxs (b : Block) (hb : b ∈ xs) : ∀ x, b.addr ≤ x → x < b.next → h'.mem x = h.mem x :=
    fun x _ hx' => hmem q r hy x (Or.inl (hx'.trans_le (hx.bounds hb).2.2))
  have hzs (b : Block) (hb : b ∈ zs) : ∀ x, b.addr ≤ x → x < b.next → h'.mem x = h.mem x :=
    fun x hx' _ => hmem q r hy x (Or.inr ((hz.bounds hb).1.trans hx'))
  have htag (b : Block) (hb : b ∈ xs ∨ b ∈ zs) : h'.tag b.addr = h.tag b.addr := by
    refine load_congr fun x hx' hx'' => ?_
    have hn : x < b.next := by unfold Block.next; omega
    exact hb.elim (fun hb => hxs b hb x hx' hn) (fun hb => hzs b hb x hx' hn)
  obtain ⟨hbx, hbyz, hbxyz⟩ := List.pairwise_append.mp hc.before
  obtain ⟨-, hbz, -⟩ := List.pairwise_append.mp hbyz
  obtain ⟨y, hyy, hynv⟩ := hnv
  have hfx (b : Block) (hb : b ∈ xs) : b.FootOk h' :=
    footOk_congr (hxs b hb) (hbxyz b hb y (List.mem_append_left zs hyy) hynv)
  refine ⟨by rw [hstart, hsize]; exact hc.fits, by rw [hstart, hsize]; exact hc.tiles.splice htiles,
    ?_, ?_, ?_, ?_⟩
  · intro b hb
    rcases List.mem_append.mp hb with hb | hb
    · exact headOk_congr (hxs b hb) (hc.head b (List.mem_append_left _ hb))
    rcases List.mem_append.mp hb with hb | hb
    · exact hhead b hb
    · exact headOk_congr (hzs b hb)
        (hc.head b (List.mem_append_right _ (List.mem_append_right _ hb)))
  · intro b hb hv
    rcases List.mem_append.mp hb with hb | hb
    · rw [htag b (Or.inl hb)]
      exact hc.virgin b (List.mem_append_left _ hb) hv
    rcases List.mem_append.mp hb with hb | hb
    · exact absurd hv (hvirgin b hb)
    · rw [htag b (Or.inr hb)]
      exact hc.virgin b (List.mem_append_right _ (List.mem_append_right _ hb)) hv
  · intro b hb hu
    rcases List.mem_append.mp hb with hb | hb
    · exact hfx b hb
    rcases List.mem_append.mp hb with hb | hb
    · exact hfoot b hb
    · exact footOk_congr (hzs b hb)
        (hc.foot b (List.mem_append_right _ (List.mem_append_right _ hb)) hu)
  · refine List.pairwise_append.mpr ⟨?_, List.pairwise_append.mpr ⟨?_, ?_, ?_⟩, ?_⟩
    · exact hbx.imp_of_mem fun ha _ _ _ => hfx _ ha
    · exact List.pairwise_of_forall_mem_list fun b hb _ _ _ => hfoot b hb
    · exact hbz.imp_of_mem fun ha _ hab hv => footOk_congr (hzs _ ha) (hab hv)
    · exact fun b hb _ _ _ => hfoot b hb
    · exact fun b hb _ _ _ => hfx b hb

/-- Writing inside the body of a block keeps the chain. -/
theorem body_write (hc : Chain h bs) (hb : b ∈ bs) (hstart : h'.start = h.start)
    (hsize : h'.size = h.size)
    (hmem : ∀ x, x < b.addr + 4 ∨ b.addr + 4 + b.size ≤ x → h'.mem x = h.mem x) :
    Chain h' bs := by
  have htag (c : Block) (hcb : c ∈ bs) : h'.tag c.addr = h.tag c.addr ∧
      h'.tag c.foot = h.tag c.foot := by
    by_cases heq : c.addr = b.addr
    · obtain rfl := hc.addr_inj hcb hb heq
      exact ⟨load_congr fun x _ _ => hmem x (by omega),
        load_congr fun x hx _ => hmem x (by simp only [Block.foot] at hx; omega)⟩
    · have hcase := hc.apart hcb hb heq
      refine ⟨load_congr fun x hx hx' => hmem x (by omega), load_congr fun x hx hx' => hmem x ?_⟩
      simp only [Block.foot] at hx hx'
      omega
  refine ⟨by rw [hstart, hsize]; exact hc.fits, by rw [hstart, hsize]; exact hc.tiles,
    fun c hcb => ?_, fun c hcb hv => ?_, fun c hcb hu => ?_, ?_⟩
  · simpa only [Block.HeadOk, (htag c hcb).1] using hc.head c hcb
  · rw [(htag c hcb).1]
    exact hc.virgin c hcb hv
  · simpa only [Block.FootOk, (htag c hcb).2] using hc.foot c hcb hu
  · exact hc.before.imp_of_mem fun ha _ hab hv => by
      simpa only [Block.FootOk, (htag _ ha).2] using hab hv

/-! ### The search of `kalloc` -/

private theorem findBlock_tiles (h : Heap) (size : ℕ) (hlt : h.limit < 2 ^ 64) :
    ∀ (bs : List Block) (fuel p : ℕ), Tiles Block.addr Block.next p bs h.limit →
      (∀ b ∈ bs, b.HeadOk h) → bs.length ≤ fuel →
      findBlock h size fuel p = h.limit ∨ ∃ y ∈ bs, findBlock h size fuel p = y.addr ∧
        h.tag y.addr &&& 1 = 0 ∧ size < h.tag y.addr
  | [], fuel, p, ht, _, _ => by
    left
    obtain rfl : p = h.limit := ht
    cases fuel with
    | zero => rfl
    | succ fuel => rw [findBlock, if_neg (by omega)]
  | b :: bs, 0, _, _, _, hf => by simp at hf
  | b :: bs, fuel + 1, p, ht, hh, hf => by
    obtain ⟨rfl, -, hrest⟩ := ht
    have hb := hh b List.mem_cons_self
    have hnext : b.next ≤ h.limit := hrest.le
    rw [findBlock, hb.1]
    split_ifs with hcond
    · have hadd : add64 b.addr (b.size + headerSize + footerSize) = b.next := by
        unfold Block.next headerSize footerSize at *
        rw [add64_of_lt (by omega)]
        omega
      rw [hadd]
      rcases findBlock_tiles h size hlt bs fuel b.next hrest
        (fun c hc => hh c (List.mem_cons_of_mem b hc)) (by simpa using hf) with he | ⟨y, hy, hr⟩
      · exact Or.inl he
      · exact Or.inr ⟨y, List.mem_cons_of_mem b hy, hr⟩
    · have hin : b.addr < h.limit := by unfold Block.next at hnext; omega
      have hno : ¬ (h.tag b.addr &&& 1 ≠ 0 ∨ h.tag b.addr ≤ size) := fun hd => hcond ⟨hin, hd⟩
      simp only [not_or, not_not, not_le] at hno
      exact Or.inr ⟨b, List.mem_cons_self, rfl, hno⟩

/-- The search leaves the heap or stops at a free block whose header exceeds the request. -/
theorem findBlock_spec (hc : Chain h bs) (size : ℕ) :
    findBlock h size h.size h.start = h.limit ∨ ∃ y ∈ bs,
      findBlock h size h.size h.start = y.addr ∧ y.kind = .free ∧ size < h.tag y.addr := by
  have hlen : bs.length ≤ h.size := by
    have hpos := hc.tiles.length_le fun b _ => show b.addr < b.next by unfold Block.next; omega
    omega
  have ht := hc.tiles
  rw [← hc.limit_eq] at ht
  rcases findBlock_tiles h size (hc.limit_eq ▸ hc.fits) bs h.size h.start ht hc.head hlen with
    he | ⟨y, hy, he, hbit, hsz⟩
  · exact Or.inl he
  · refine Or.inr ⟨y, hy, he, ?_, hsz⟩
    cases hk : y.kind with
    | used =>
      have hone := (hc.head y hy).2.mpr hk
      omega
    | free => rfl
    | virgin =>
      have hzero := hc.virgin y hy hk
      omega

end Chain

end Vardar.Kheap
