import Vardar.Heap.Ops

/-!
# `kfree` on the block chain

`kfree` clears the allocation bits of its block and then merges it with the block after it and
the block before it, each when its tag is not marked allocated. The block before is found through
its footer, so a used block whose footer was left unmarked by `split_block` absorbs the freed one
and stays used. In every case the other used blocks keep their place and do not shrink.

## Main definitions

* `Vardar.Kheap.Kept`: the used blocks of one list are blocks of another, no smaller.
* `Vardar.Kheap.mergedSize`: the size of the block `kfree` leaves.

## Main results

* `Vardar.Kheap.Chain.kfree`: the chain after `kfree` of a used block, if the merged size fits
  `SIZE_MASK`.
-/

namespace Vardar.Kheap

open ByteMemory Word Tiling

/-! ### Used blocks that stay -/

/-- Every used block of `bs` is still a used block of `bs'` at its address, no smaller. -/
def Kept (bs bs' : List Block) : Prop :=
  ∀ c ∈ bs, c.kind = .used → ∃ c' ∈ bs', c'.kind = .used ∧ c'.addr = c.addr ∧ c.size ≤ c'.size

namespace Kept

theorem refl (bs : List Block) : Kept bs bs := fun c hc hu => ⟨c, hc, hu, rfl, le_rfl⟩

theorem trans {bs bs' bs'' : List Block} (h : Kept bs bs') (h' : Kept bs' bs'') :
    Kept bs bs'' := by
  intro c hc hu
  obtain ⟨c', hc', hu', ha, hs⟩ := h c hc hu
  obtain ⟨c'', hc'', hu'', ha', hs'⟩ := h' c' hc' hu'
  exact ⟨c'', hc'', hu'', ha'.trans ha, hs.trans hs'⟩

theorem splice {xs ys ys' zs : List Block} (h : Kept ys ys') :
    Kept (xs ++ (ys ++ zs)) (xs ++ (ys' ++ zs)) := by
  intro c hc hu
  simp only [List.mem_append] at hc
  rcases hc with hc | hc | hc
  · exact ⟨c, by simp [hc], hu, rfl, le_rfl⟩
  · obtain ⟨c', hc', hr⟩ := h c hc hu
    exact ⟨c', by simp [hc'], hr⟩
  · exact ⟨c, by simp [hc], hu, rfl, le_rfl⟩

theorem join {a b : Block} (hb : b.kind ≠ .used) : Kept [a, b] [Chain.joinBlocks a b] := by
  intro c hc hu
  simp only [List.mem_cons, List.not_mem_nil, or_false] at hc
  rcases hc with rfl | rfl
  · exact ⟨_, List.mem_singleton_self _, Chain.joinBlocks_used.mpr hu, rfl,
      by simp only [Chain.joinBlocks]; omega⟩
  · exact absurd hu hb

end Kept

/-! ### The size `kfree` leaves -/

/-- What merging with the neighbour whose tag is at `tag` adds. -/
def freeGain (h : Heap) : Option ℕ → ℕ
  | some tag => if h.tag tag &&& 1 = 0 then (h.tag tag &&& sizeMask) + mdataSize else 0
  | none => 0

/-- What merging with the block after `header` adds. -/
def nextGain (h : Heap) (header : ℕ) : ℕ := freeGain h (nextHeader h header)

/-- What merging with the block before the one with footer `footer` adds. -/
def prevGain (h : Heap) (footer : ℕ) : ℕ := freeGain h (prevFooter h footer)

/-- The size of the freed block together with the neighbours `kfree` merges it with. -/
def mergedSize (h : Heap) (allocation : ℕ) : ℕ :=
  let size := h.tag (allocation - headerSize) &&& sizeMask
  size + nextGain h (allocation - headerSize) + prevGain h (allocation + size)

/-! ### Merging leaves the bounds of the heap alone -/

theorem mergeBlock_bounds (h : Heap) (p q : ℕ) :
    (mergeBlock h p q).2.start = h.start ∧ (mergeBlock h p q).2.size = h.size := by
  simp only [mergeBlock]
  split_ifs <;> exact ⟨rfl, rfl⟩

theorem mergeNext_bounds (h : Heap) (p : ℕ) (next : Option ℕ) :
    (mergeNext h p next).start = h.start ∧ (mergeNext h p next).size = h.size := by
  cases next with
  | none => exact ⟨rfl, rfl⟩
  | some next =>
    simp only [mergeNext]
    split_ifs
    · exact mergeBlock_bounds ..
    · exact ⟨rfl, rfl⟩

theorem mergePrev_bounds (h : Heap) (p : ℕ) (footer : Option ℕ) :
    (mergePrev h p footer).start = h.start ∧ (mergePrev h p footer).size = h.size := by
  cases footer with
  | none => exact ⟨rfl, rfl⟩
  | some footer =>
    simp only [mergePrev]
    split_ifs
    · exact mergeBlock_bounds ..
    · exact ⟨rfl, rfl⟩

/-! ### The first two stores of `kfree` -/

/-- The heap after the allocation bits of `b` are cleared. -/
def cleared (h : Heap) (b : Block) : Heap := (h.setTag b.addr b.size).setTag b.foot b.size

theorem cleared_mem {h : Heap} {b : Block} {x : ℕ} (hx : x < b.addr ∨ b.next ≤ x) :
    (cleared h b).mem x = h.mem x := by
  unfold Block.next at hx
  rw [cleared, Heap.setTag_mem_of_notMem (by simp only [Block.foot]; omega),
    Heap.setTag_mem_of_notMem (by omega)]

/-- Header and footer of a cleared block hold its tag as a free block. -/
theorem cleared_tags {h : Heap} {b : Block} (hs : b.size ≤ sizeMask) :
    (cleared h b).tag b.addr = b.size ∧ (cleared h b).tag b.foot = b.size := by
  have hs : b.size ≤ 65534 := hs
  rw [cleared, Heap.tag_setTag_of_disjoint (by simp only [Block.foot]; omega),
    Heap.tag_setTag_self (by omega), Heap.tag_setTag_self (by omega)]
  exact ⟨rfl, rfl⟩

namespace Chain

variable {h : Heap} {xs zs : List Block} {b : Block}

theorem tag_land_one {bs : List Block} (hc : Chain h bs) (hb : b ∈ bs) :
    h.tag b.addr &&& 1 = 0 ↔ b.kind ≠ .used := by
  have hbit := (hc.head b hb).2
  rw [← not_iff_not, not_not, ← hbit, land_one]
  omega

/-- The block after `b`, as `next_header` finds it. -/
theorem nextHeader_at (hc : Chain h (xs ++ ([b] ++ zs))) :
    nextHeader h b.addr = (zs.head?).map Block.addr := by
  obtain ⟨-, hhi⟩ := hc.bounds (b := b) (by simp)
  have hfit := hc.fits
  rw [nextHeader_eq (hc.head b (by simp)).1 (by omega), hc.limit_eq]
  obtain ⟨q, -, hq, -, hz⟩ := tiles_append.mp hc.tiles
  cases zs with
  | nil =>
    rw [if_pos (show b.addr + b.size + 8 = h.start + h.size from hz)]
    rfl
  | cons c zs =>
    have hcb := (hc.bounds (b := c) (by simp)).2
    have hca : c.addr = b.addr + b.size + 8 := hz.1
    rw [if_neg (by omega), ← hca]
    rfl

/-- The footer in front of `b`, as `prev_footer` finds it from the footer of `b`. -/
theorem prevFooter_at (hc : Chain h (xs ++ ([b] ++ zs))) (hf : b.FootOk h) :
    prevFooter h b.foot = (xs.getLast?).map Block.foot := by
  obtain ⟨hlo, hhi⟩ := hc.bounds (b := b) (by simp)
  have hfit := hc.fits
  have hb1 : sub64 (sub64 b.foot b.size) headerSize = b.addr := by
    simp only [Block.foot, headerSize]
    rw [sub64_of_le (a := b.addr + 4 + b.size) (by omega) (by omega),
      sub64_of_le (by omega) (by omega)]
    omega
  simp only [prevFooter, show h.tag b.foot &&& sizeMask = b.size from hf, hb1]
  obtain ⟨q, hx, hq, -⟩ := tiles_append.mp hc.tiles
  rcases List.eq_nil_or_concat xs with rfl | ⟨xs, a, rfl⟩
  · rw [if_pos (hq.trans hx.symm)]
    rfl
  · rw [List.concat_eq_append] at hx ⊢
    obtain ⟨r, hr, ha, -, har⟩ := tiles_append.mp hx
    have har : a.addr + a.size + 8 = q := har
    have hra := hr.le
    have hsub : sub64 b.addr footerSize = a.foot := by
      rw [sub64_of_le (by simp only [footerSize]; omega) (by omega)]
      simp only [Block.foot, footerSize]
      omega
    rw [if_neg (by omega), hsub, List.getLast?_append]
    rfl

/-- The header of a block, as `header_from_footer` finds it from a footer that records the size. -/
theorem headerFromFooter_at {bs : List Block} (hc : Chain h bs) (hb : b ∈ bs) (hf : b.FootOk h) :
    headerFromFooter h b.foot = b.addr := by
  obtain ⟨hlo, hhi⟩ := hc.bounds hb
  have hfit := hc.fits
  rw [headerFromFooter, show h.tag b.foot &&& sizeMask = b.size from hf]
  simp only [Block.foot, headerSize]
  rw [sub64_of_le (a := b.addr + 4 + b.size) (by omega) (by omega),
    sub64_of_le (by omega) (by omega)]
  omega

theorem prevGain_at (hc : Chain h (xs ++ ([b] ++ zs))) (hf : b.FootOk h) {a : Block}
    (ha : xs.getLast? = some a) (haf : a.FootOk h) (hbit : h.tag a.foot &&& 1 = 0) :
    prevGain h b.foot = a.size + 8 := by
  have haf : h.tag a.foot &&& sizeMask = a.size := haf
  rw [prevGain, hc.prevFooter_at hf, ha, Option.map_some, freeGain, if_pos hbit, haf, mdataSize]

/-- Clearing the allocation bits of a used block. -/
theorem clear (hc : Chain h (xs ++ ([b] ++ zs))) (hu : b.kind = .used) :
    Chain (cleared h b) (xs ++ ([{ b with kind := .free }] ++ zs)) := by
  have hb := hc.head b (by simp)
  have he := hb.even
  have hs := hb.size_le
  obtain ⟨hhead, hfoot⟩ := cleared_tags hs
  refine hc.splice rfl rfl ⟨b, by simp, by simp [hu]⟩ ?_ (fun _ _ ht => ht) ?_ ?_ ?_
  · rintro q r ⟨rfl, -, hr⟩ x hx
    simp only [tiles_nil] at hr
    exact cleared_mem (by omega)
  · simp only [List.mem_singleton, forall_eq]
    exact Block.headOk_of_tag he hs hhead
  · simp only [List.mem_singleton, forall_eq]
    exact Block.footOk_of_tag he hs hfoot
  · simp

/-- `kfree` of a used block clears its allocation bits, merges with the block after it and then
with the block before it. -/
theorem kfree_eq (hc : Chain h (xs ++ ([b] ++ zs))) (hu : b.kind = .used) :
    Kheap.kfree h (b.addr + headerSize) =
      Kheap.mergePrev (Kheap.mergeNext (cleared h b) b.addr (nextHeader (cleared h b) b.addr))
        b.addr ((xs.getLast?).map Block.foot) := by
  have hb := hc.head b (by simp)
  have hs : b.size ≤ 65534 := hb.size_le
  have hfoot : h.tag b.foot &&& sizeMask = b.size := hc.foot b (by simp) hu
  obtain ⟨hlo, hhi⟩ := hc.bounds (b := b) (by simp)
  have hfit := hc.fits
  have hback : sub64 (b.addr + headerSize) headerSize = b.addr := by
    rw [headerSize, sub64_of_le (by omega) (by omega), Nat.add_sub_cancel]
  have hfaddr : add64 (b.addr + headerSize) b.size = b.foot := by
    rw [headerSize]
    exact add64_of_lt (by omega)
  have hftag : (h.setTag b.addr b.size).tag b.foot &&& sizeMask = b.size := by
    rw [Heap.tag_setTag_of_disjoint (by simp only [Block.foot]; omega), hfoot]
  have hprev : prevFooter (cleared h b) b.foot = (xs.getLast?).map Block.foot :=
    (hc.clear hu).prevFooter_at (b := { b with kind := .free })
      (Block.footOk_of_tag hb.even hb.size_le (cleared_tags hb.size_le).2)
  simp only [Kheap.kfree, hback, hb.1, Heap.tag_setTag_self (show b.size < 2 ^ 32 by omega),
    hfaddr, hftag, ← cleared.eq_1, hprev]

theorem kfree_bounds (hc : Chain h (xs ++ ([b] ++ zs))) (hu : b.kind = .used) :
    (Kheap.kfree h (b.addr + headerSize)).start = h.start ∧
      (Kheap.kfree h (b.addr + headerSize)).size = h.size := by
  rw [hc.kfree_eq hu, (mergePrev_bounds ..).1, (mergePrev_bounds ..).2, (mergeNext_bounds ..).1,
    (mergeNext_bounds ..).2]
  exact ⟨rfl, rfl⟩

/-- Merging a free block with the block after it. -/
theorem mergeNext (hc : Chain h (xs ++ ([b] ++ zs))) (hk : b.kind = .free)
    (hs : b.size + nextGain h b.addr ≤ sizeMask) :
    ∃ b' zs', Chain (Kheap.mergeNext h b.addr (nextHeader h b.addr)) (xs ++ ([b'] ++ zs')) ∧
      b'.addr = b.addr ∧ b'.kind = .free ∧ b'.size = b.size + nextGain h b.addr ∧
      Kept (xs ++ ([b] ++ zs)) (xs ++ ([b'] ++ zs')) ∧
      ∀ x < b.addr, (Kheap.mergeNext h b.addr (nextHeader h b.addr)).mem x = h.mem x := by
  have hnext := hc.nextHeader_at
  cases zs with
  | nil =>
    rw [hnext]
    exact ⟨b, [], hc, rfl, hk, by simp [nextGain, freeGain, hnext], Kept.refl _,
      fun _ _ => rfl⟩
  | cons c zs =>
    have hcc := hc.head c (by simp)
    have hfree := hc.tag_land_one (b := c) (by simp)
    simp only [hnext, List.head?_cons, Option.map_some, Kheap.mergeNext, nextGain,
      freeGain] at hs ⊢
    by_cases hu : c.kind = .used
    · have hbit := mt hfree.mp (not_not.mpr hu)
      rw [if_neg hbit, if_neg hbit]
      exact ⟨b, c :: zs, hc, rfl, hk, rfl, Kept.refl _, fun _ _ => rfl⟩
    · rw [if_pos (hfree.mpr hu), hcc.1, mdataSize] at hs
      rw [if_pos (hfree.mpr hu), if_pos (hfree.mpr hu), hcc.1, mdataSize]
      have hc' : Chain h (xs ++ ([b, c] ++ zs)) := hc
      refine ⟨joinBlocks b c, zs, hc'.mergeBlock ⟨b, by simp, by simp [hk]⟩ (by omega), rfl,
        by simp [joinBlocks, hk], by simp [joinBlocks, Nat.add_assoc],
        Kept.splice (show Kept [b, c] [joinBlocks b c] from Kept.join hu), fun x hx => ?_⟩
      exact hc'.mergeBlock_mem (Or.inl hx)

/-- Merging a free block with the block before it, whose footer records its size. -/
theorem mergePrev (hc : Chain h (xs ++ ([b] ++ zs))) (hk : b.kind = .free)
    (hf : ∀ a ∈ xs.getLast?, h.tag a.foot &&& 1 = 0 → a.size + b.size + 8 ≤ sizeMask) :
    ∃ bs', Chain (Kheap.mergePrev h b.addr ((xs.getLast?).map Block.foot)) bs' ∧
      Kept (xs ++ ([b] ++ zs)) bs' := by
  rcases List.eq_nil_or_concat xs with rfl | ⟨xs, a, rfl⟩
  · exact ⟨_, hc, Kept.refl _⟩
  · rw [List.concat_eq_append] at hc hf ⊢
    simp only [List.getLast?_append, List.getLast?_singleton, Option.some_or, Option.map_some,
      Option.mem_def, Option.some.injEq, forall_eq', Kheap.mergePrev] at hf ⊢
    split_ifs with hbit
    · have hfoot : a.FootOk h :=
        (List.pairwise_append.mp hc.before).2.2 a (by simp) b (by simp) (by simp [hk])
      have hc' : Chain h (xs ++ ([a, b] ++ zs)) := by simpa using hc
      rw [hc.headerFromFooter_at (by simp) hfoot]
      refine ⟨_, hc'.mergeBlock ⟨b, by simp, by simp [hk]⟩ (hf hbit), ?_⟩
      have hkept : Kept (xs ++ ([a, b] ++ zs)) (xs ++ ([joinBlocks a b] ++ zs)) :=
        Kept.splice (Kept.join (by simp [hk]))
      simpa using hkept
    · exact ⟨_, hc, Kept.refl _⟩

/-- `kfree` of a used block keeps the chain and every other used block, provided the merged size
survives `SIZE_MASK`. -/
theorem kfree (hc : Chain h (xs ++ ([b] ++ zs))) (hu : b.kind = .used)
    (hs : mergedSize h (b.addr + 4) ≤ sizeMask) :
    (Kheap.kfree h (b.addr + 4)).start = h.start ∧ (Kheap.kfree h (b.addr + 4)).size = h.size ∧
      ∃ bs', Chain (Kheap.kfree h (b.addr + 4)) bs' ∧ Kept (xs ++ zs) bs' := by
  refine ⟨(hc.kfree_bounds hu).1, (hc.kfree_bounds hu).2, ?_⟩
  have hb := hc.head b (by simp)
  have hfoot := hc.foot b (by simp) hu
  -- the heap after the two allocation bits are cleared
  set h2 := cleared h b with hh2
  have hc2 : Chain h2 (xs ++ ([{ b with kind := .free }] ++ zs)) := hc.clear hu
  have hout (x : ℕ) (hx : x < b.addr ∨ b.addr + b.size + 8 ≤ x) : h2.mem x = h.mem x :=
    cleared_mem hx
  have hnext2 : nextHeader h2 b.addr = nextHeader h b.addr := by
    rw [hc.nextHeader_at]
    exact hc2.nextHeader_at
  have hgain : nextGain h2 b.addr = nextGain h b.addr := by
    rw [nextGain, nextGain, hnext2, hc.nextHeader_at]
    cases zs with
    | nil => rfl
    | cons c zs =>
      have hc' : Chain h (xs ++ ([b, c] ++ zs)) := hc
      have hadj := hc'.addr_eq_next
      have htag : h2.tag c.addr = h.tag c.addr :=
        load_congr fun x hx _ => hout x (Or.inr (by omega))
      simp only [List.head?_cons, Option.map_some, freeGain, htag]
  simp only [mergedSize, headerSize, Nat.add_sub_cancel, hb.1] at hs
  obtain ⟨b', zs', hc3, haddr, hkind, hsize, hkept, hbelow⟩ :=
    hc2.mergeNext rfl (by simp only [hgain]; omega)
  have haddr : b'.addr = b.addr := haddr
  have hsize : b'.size = b.size + nextGain h b.addr := by rw [hsize, hgain]
  rw [show b.addr + 4 = b.addr + headerSize from rfl, hc.kfree_eq hu, ← hh2, ← haddr]
  rw [show ({ b with kind := .free } : Block).addr = b'.addr from haddr.symm] at hc3 hbelow
  obtain ⟨bs', hc4, hkept'⟩ := hc3.mergePrev hkind (by
    intro a ha hbit
    -- the footer before `b` is as it was when `kfree` was called
    obtain ⟨xs', rfl⟩ := List.getLast?_eq_some_iff.mp ha
    have hadj : a.addr + a.size + 8 = b.addr := by
      obtain ⟨q, hx, hq, -⟩ := tiles_append.mp hc.tiles
      obtain ⟨r, -, -, -, har⟩ := tiles_append.mp hx
      exact Eq.trans har hq.symm
    have htag : (Kheap.mergeNext h2 b'.addr (nextHeader h2 b'.addr)).tag a.foot = h.tag a.foot := by
      refine load_congr fun x hx hx' => ?_
      simp only [Block.foot] at hx hx'
      rw [hbelow x (by omega), hout x (by omega)]
    have hafoot : a.FootOk h :=
      (List.pairwise_append.mp hc.before).2.2 a (by simp) b (by simp) (by simp [hu])
    have hprev := hc.prevGain_at hfoot ha hafoot (htag ▸ hbit)
    simp only [Block.foot] at hprev
    omega)
  refine ⟨bs', hc4, Kept.trans ?_ (hkept.trans hkept')⟩
  intro c hcm hcu
  refine ⟨c, ?_, hcu, rfl, le_rfl⟩
  rcases List.mem_append.mp hcm with hcm | hcm
  · exact List.mem_append_left _ hcm
  · exact List.mem_append_right _ (List.mem_append_right _ hcm)

end Chain

end Vardar.Kheap
