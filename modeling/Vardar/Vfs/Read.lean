import Vardar.Heap.Alloc
import Vardar.Vfs.Walk

/-!
# What reading a file does to the heap

`ustar_read` copies the file to the byte behind the pointer that `kalloc` returned, and returns a
pointer to that byte. The pointer is not compared with null, and it is not one that `kfree` takes:
the four bytes before it are the last three of the header and the first of the body, so the
allocation bit of the block stays set.

## Main definitions

* `Vardar.Ustar.Found`: the header at which `ustar_read` finds the file.
* `Vardar.Ustar.SoundCopy`, `Vardar.Ustar.ReadSound`: what a read may do to the heap.

## Main results

* `Vardar.Kheap.kfree_add_one_mem`: `kfree` of the byte behind a body leaves the allocation bit.
* `Vardar.Ustar.readSound_iff`: a read leaves the heap sound exactly if the file is not found.
-/

namespace Vardar.Kheap

open ByteMemory Word

variable {h : Heap} {first second header q x : ℕ}

/-! ### The bytes that `kfree` writes -/

theorem footerFromHeader_eq_mod (h : Heap) (header : ℕ) :
    ∃ s ≤ 65534, footerFromHeader h header = (header + 4 + s) % 2 ^ 64 := by
  refine ⟨_, land_sizeMask_le (h.tag header), ?_⟩
  rw [footerFromHeader, add64, add64, headerSize]
  omega

theorem nextHeader_eq_mod {next : ℕ} (hnext : nextHeader h header = some next) :
    ∃ s ≤ 65534, next = (header + 8 + s) % 2 ^ 64 := by
  refine ⟨_, land_sizeMask_le (h.tag header), ?_⟩
  rw [nextHeader] at hnext
  split_ifs at hnext
  rw [← Option.some.inj hnext, add64, add64, add64, headerSize, footerSize]
  omega

/-- `merge_block` writes the first header and the second footer, if the blocks are neighbours. -/
theorem mergeBlock_mem_of_apart
    (hfirst : nextHeader h first = some second → x < first ∨ first + 4 ≤ x)
    (hsecond : x < footerFromHeader h second ∨ footerFromHeader h second + 4 ≤ x) :
    (mergeBlock h first second).2.mem x = h.mem x := by
  rw [mergeBlock]
  dsimp only
  split_ifs with hne
  · rfl
  · rw [Heap.setTag_mem_of_notMem hsecond, Heap.setTag_mem_of_notMem (hfirst (not_not.mp hne))]

/-- The merge with the block before does not write the header or the byte before it. -/
theorem mergePrev_mem (hx : header ≤ x + 1) (hx' : x ≤ header)
    (footer : Option ℕ) : (mergePrev h header footer).mem x = h.mem x := by
  cases footer with
  | none => rfl
  | some footer =>
    rw [mergePrev]
    split_ifs
    · refine mergeBlock_mem_of_apart (fun hnext => ?_) ?_
      · obtain ⟨s, hs, hheader⟩ := nextHeader_eq_mod hnext
        have hfirst : headerFromFooter h footer < 2 ^ 64 := by
          rw [headerFromFooter, sub64]
          exact Nat.mod_lt _ (by decide)
        omega
      · obtain ⟨s, hs, hfooter⟩ := footerFromHeader_eq_mod h header
        omega
    · rfl

/-- The merge with the block after does not write the byte before the header. -/
theorem mergeNext_mem (hx : header = x + 1) :
    (mergeNext h header (nextHeader h header)).mem x = h.mem x := by
  cases hnext : nextHeader h header with
  | none => rfl
  | some next =>
    rw [mergeNext]
    split_ifs
    · refine mergeBlock_mem_of_apart (fun _ => .inl (by omega)) ?_
      obtain ⟨s, hs, hn⟩ := nextHeader_eq_mod hnext
      obtain ⟨t, ht, hfooter⟩ := footerFromHeader_eq_mod h next
      omega
    · rfl

/-- `kfree` of the byte behind the start of a body leaves the first byte of the header. -/
theorem kfree_add_one_mem (hq : x + 5 < 2 ^ 64) : (kfree h (x + 5)).mem x = h.mem x := by
  have hheader : sub64 (x + 5) headerSize = x + 1 := sub64_of_le (by rw [headerSize]; omega) hq
  rw [kfree]
  simp only [hheader]
  rw [mergePrev_mem (by omega) (by omega), mergeNext_mem rfl, Heap.setTag_mem_of_notMem,
    Heap.setTag_mem_of_notMem (by omega)]
  have htag : h.tag (x + 1) &&& sizeMask ≤ 65534 := land_sizeMask_le (h.tag (x + 1))
  rw [Heap.tag_setTag_self (by omega), add64]
  omega

/-- The allocation bit is in the first byte of a tag. -/
theorem tag_mod_two (h : Heap) (p : ℕ) : h.tag p % 2 = (h.mem p).toNat % 2 := by
  rw [Heap.tag, load_succ]
  omega

/-- The merge with the block after leaves the allocation bit of the header clear. -/
theorem mergeNext_tag_even (heven : h.tag header % 2 = 0) :
    (mergeNext h header (nextHeader h header)).tag header % 2 = 0 := by
  cases hnext : nextHeader h header with
  | none => exact heven
  | some next =>
    rw [mergeNext]
    split_ifs
    · rw [mergeBlock, if_neg (not_not_intro hnext)]
      obtain ⟨s, hs, hn⟩ := nextHeader_eq_mod hnext
      obtain ⟨t, ht, hfooter⟩ := footerFromHeader_eq_mod h next
      have heven₁ := land_sizeMask_even (h.tag header)
      have heven₂ := land_sizeMask_even (h.tag next)
      have hle₁ : h.tag header &&& sizeMask ≤ 65534 := land_sizeMask_le _
      have hle₂ : h.tag next &&& sizeMask ≤ 65534 := land_sizeMask_le _
      have hclear : h.tag header &&& 1 = 0 := (land_one _).trans heven
      rw [hclear, Nat.or_zero, mergeSize, mdataSize, tag_mod_two,
        Heap.setTag_mem_of_notMem (by omega), ← tag_mod_two, Heap.tag_setTag_self (by omega)]
      omega
    · exact heven

/-- `kfree` of a body clears the allocation bit of the header. -/
theorem kfree_tag_even (hx : x + 4 < 2 ^ 64) : (kfree h (x + 4)).tag x % 2 = 0 := by
  have hheader : sub64 (x + 4) headerSize = x := sub64_of_le (by rw [headerSize]; omega) hx
  have htag : h.tag x &&& sizeMask ≤ 65534 := land_sizeMask_le (h.tag x)
  rw [kfree]
  simp only [hheader]
  rw [tag_mod_two, mergePrev_mem (by omega) le_rfl, ← tag_mod_two]
  refine mergeNext_tag_even ?_
  rw [tag_mod_two, Heap.setTag_mem_of_notMem, ← tag_mod_two, Heap.tag_setTag_self (by omega)]
  · exact land_sizeMask_even _
  · rw [Heap.tag_setTag_self (by omega), add64]
    omega

/-- The block that `kalloc` takes is marked as allocated. -/
theorem Tagged.taken_odd {bs : List Block} {y : Block} {n : ℕ} (ht : Tagged h bs) (hy : y ∈ bs)
    (hk : y.kind = .free) (hn : n % 2 = 0) (hle : n ≤ y.size) :
    (Kheap.taken h y.addr n).tag y.addr % 2 = 1 := by
  have heven := (ht.tagged y hy).2.2.1
  by_cases hfit : n = y.size ∨ n + 8 ≤ y.size
  · have hp : y.addr + y.size + 8 ≤ h.limit := ht.chain.limit_eq ▸ (ht.chain.bounds hy).2
    have hl : h.limit < 2 ^ 64 := ht.chain.limit_eq ▸ ht.fits
    have hsame : (Kheap.taken h y.addr n).tag y.addr = (splitBlock h y.addr n).2.tag y.addr := by
      refine load_congr fun x hx hx' => fill_of_notMem ?_
      rw [headerSize]
      omega
    have hwords := Chain.splitBlock_words (ht.headOk hy) hp hl hn hfit
    rw [Chain.splitBlocks] at hwords
    rw [hsame]
    split_ifs at hwords
    · have hword := (hwords _ (List.mem_singleton_self _)).1
      rw [Block.word_of_used rfl] at hword
      simp only [hword]
      omega
    · have hword := (hwords _ List.mem_cons_self).1
      rw [Block.word_of_used rfl] at hword
      simp only [hword]
      omega
  · rw [(ht.taken_tags hy hk hn (by omega) (by omega)).1]
    omega

end Vardar.Kheap

namespace Vardar.Ustar

open ByteMemory Word Kheap Relation

variable {h : Heap} {ustar filename p q : ℕ}

/-! ### Reads -/

/-- `ustar_read` finds the file at the header `p`. -/
def Found (m : Mem) (filename ustar p : ℕ) : Prop :=
  ReflTransGen (ReadStep m filename) ustar p ∧ Signed m p ∧
    ∃ N n, strlen (fun i => m (p + i)) N = some n ∧ ¬ Differs m filename p n

/-- What a read may do with what `kalloc` returned to it: if that is null, it writes nothing and
returns null; otherwise it writes only inside the body of the block, and `kfree` of what it returns
frees the block. -/
structure SoundCopy (allocation out : Option ℕ × Heap) : Prop where
  null : allocation.1 = none → out = (none, allocation.2)
  inside : ∀ q, allocation.1 = some q → ∀ x,
    x < q ∨ q + (allocation.2.tag (sub64 q headerSize) &&& sizeMask) ≤ x →
      out.2.mem x = allocation.2.mem x
  release : ∀ q a, allocation.1 = some q → out.1 = some a → kfree out.2 a = kfree out.2 q

/-- Whenever `ustar_read` returns: if it has not found the file, it has written nothing and returns
null; and if it has, the copy is sound. -/
def ReadSound (h : Heap) (filename ustar : ℕ) : Prop :=
  ∀ fuel out, ustarRead h filename fuel ustar = some out →
    ((∀ p, ¬ Found h.mem filename ustar p) → out = (none, h)) ∧
      ∀ p, Found h.mem filename ustar p → SoundCopy (kalloc h (u64 (sizeAt h.mem p))) out

/-- If the file is found, it is copied. -/
theorem Found.returns (hp : Found h.mem filename ustar p) :
    Returns h filename ustar (readFile h p (u64 (sizeAt h.mem p))) := by
  obtain ⟨hreach, hs, N, n, hn, hsame⟩ := hp
  induction hreach using ReflTransGen.head_induction_on with
  | refl =>
    refine ⟨N + 1, fun fuel hfuel => ?_⟩
    obtain ⟨fuel, rfl⟩ : ∃ k, fuel = k + 1 := ⟨fuel - 1, by omega⟩
    rw [ustarRead_succ hs (strlen_mono hn (by omega)), if_pos (not_not.mp hsame)]
  | head hstep _ ih => exact ih.step hstep

/-- `ustar_read` returns null, or it has found the file. -/
theorem ustarRead_eq_some {fuel : ℕ} {out : Option ℕ × Heap}
    (hr : ustarRead h filename fuel ustar = some out) :
    out = (none, h) ∨ ∃ p, Found h.mem filename ustar p := by
  induction fuel generalizing ustar with
  | zero => exact absurd hr (Option.some_ne_none out).symm
  | succ fuel ih =>
    by_cases hs : Signed h.mem ustar
    · cases hn : strlen (fun i => h.mem (ustar + i)) fuel with
      | none =>
        rw [ustarRead, if_pos (signed_iff.mpr hs)] at hr
        simp only [hn, Option.bind_none] at hr
        exact absurd hr (Option.some_ne_none out).symm
      | some n =>
        by_cases hdiff : Differs h.mem filename ustar n
        · rw [ustarRead_succ hs hn, if_neg hdiff] at hr
          rcases ih hr with hnone | ⟨p, hreach, hrest⟩
          · exact .inl hnone
          · exact .inr ⟨p, hreach.head ⟨hs, ⟨fuel, n, hn, hdiff⟩, rfl⟩, hrest⟩
        · exact .inr ⟨ustar, .refl, hs, fuel, n, hn, hdiff⟩
    · rw [ustarRead_of_not_signed hs] at hr
      exact .inl (Option.some.inj hr).symm

/-- A copy is never sound. -/
theorem not_soundCopy (ht : Tagged h (blocks h)) (p len : ℕ) :
    ¬ SoundCopy (kalloc h len) (readFile h p len) := by
  intro hsound
  have hkalloc := ht.kalloc_eq len
  cases hy : firstAbove h len with
  | none =>
    rw [hy] at hkalloc
    -- the result is the byte behind the null pointer
    have hnull := congrArg Prod.fst (hsound.null (by rw [hkalloc]))
    rw [readFile, hkalloc] at hnull
    exact absurd hnull (Option.some_ne_none _)
  | some y =>
    rw [hy] at hkalloc
    obtain ⟨hmem, hfree, -⟩ := Tagged.mem_of_firstAbove hy
    obtain ⟨heven, -, hle⟩ := ht.evenSize_le hy
    have hbounds := (ht.chain.bounds hmem).2
    have hfits := ht.fits
    have hodd := ht.taken_odd hmem hfree heven hle
    have hone : add64 ((some (y.addr + headerSize)).getD 0) 1 = y.addr + 5 := by
      rw [Option.getD_some, headerSize, add64_of_lt (by omega)]
    have hrel := hsound.release (y.addr + headerSize) (y.addr + 5) (by rw [hkalloc])
      (by rw [readFile, hkalloc, ← hone])
    have hcopy : (readFile h p len).2.mem y.addr = (taken h y.addr (evenSize len)).mem y.addr := by
      rw [readFile, hkalloc]
      refine memmove_of_notMem (.inl ?_)
      rw [hone]
      omega
    -- one call leaves the allocation bit and the other clears it
    have hclear := kfree_tag_even (h := (readFile h p len).2) (show y.addr + 4 < 2 ^ 64 by omega)
    have hstays := kfree_add_one_mem (h := (readFile h p len).2)
      (show y.addr + 5 < 2 ^ 64 by omega)
    rw [show y.addr + 4 = y.addr + headerSize from rfl, ← hrel, tag_mod_two, hstays, hcopy,
      ← tag_mod_two] at hclear
    omega

/-- **When a read leaves the heap sound.** On a heap with correct tags and for any archive and
name, `ustar_read` writes only inside the body of the block that `kalloc` returned to it, returns
null without a write if `kalloc` fails, and otherwise returns a pointer with which `kfree` frees
that block, if and only if it does not find the file. -/
theorem readSound_iff (ht : Tagged h (blocks h)) (filename ustar : ℕ) :
    ReadSound h filename ustar ↔ ∀ p, ¬ Found h.mem filename ustar p := by
  constructor
  · intro hsound p hp
    obtain ⟨N, hN⟩ := hp.returns
    exact not_soundCopy ht p _ ((hsound N _ (hN N le_rfl)).2 p hp)
  · intro hnot fuel out hr
    refine ⟨fun _ => ?_, fun p hp => absurd hp (hnot p)⟩
    exact (ustarRead_eq_some hr).resolve_right fun ⟨p, hp⟩ => hnot p hp

/-- The file `b` is not in an archive with only the file `a`. -/
theorem readSound_absent : ReadSound (bootHeap [(0, fileA [] (by decide))]) 4096 0 := by
  have hw : WellFormed (bootHeap [(0, fileA [] (by decide))]) := by decide +kernel
  refine (readSound_iff hw.toTagged 4096 0).mpr ?_
  rintro p ⟨hreach, hs, N, n, hn, hsame⟩
  have hlen : strlen (fun i => (bootHeap [(0, fileA [] (by decide))]).mem (0 + i)) 2 = some 1 := by
    decide +kernel
  rcases hreach.cases_head with rfl | ⟨q, ⟨-, -, rfl⟩, hrest⟩
  · have hone : n = 1 := Option.some.inj ((strlen_mono hn (le_max_left N 2)).symm.trans
      (strlen_mono hlen (le_max_right N 2)))
    subst hone
    refine hsame ?_
    rw [Differs]
    decide +kernel
  · have hnext : nextPtr (bootHeap [(0, fileA [] (by decide))]).mem 0 = 512 := by decide +kernel
    rw [hnext] at hrest
    rcases hrest.cases_head with rfl | ⟨q, ⟨hs', -⟩, -⟩
    · exact absurd hs (by decide +kernel)
    · exact absurd hs' (by decide +kernel)

/-- The file `b` with two bytes, and a heap. -/
def twoByteFile : Heap := bootHeap [(0, ⟨[0x62], [1, 7], fileB.length_name, by decide⟩)]

/-- The second byte of the file overwrites the footer of the block, and `kfree` of the result
leaves the block allocated. -/
theorem read_breaks_footer :
    WellFormed twoByteFile ∧ (kalloc twoByteFile 2).1 = some 8196 ∧
      (kalloc twoByteFile 2).2.tag 8198 = 3 ∧
      (∃ out, ustarRead twoByteFile 4096 3 0 = some out ∧ out.1 = some 8197 ∧
        out.2.tag 8198 = 7 ∧ (kfree out.2 8197).tag 8192 % 2 = 1) ∧
      ¬ ReadSound twoByteFile 4096 0 := by
  have hw : WellFormed twoByteFile := by decide +kernel
  have hfound : Found twoByteFile.mem 4096 0 0 := by
    refine ⟨.refl, by decide +kernel, 2, 1, by decide +kernel, ?_⟩
    rw [Differs]
    decide +kernel
  refine ⟨hw, by decide +kernel, by decide +kernel, ?_, fun hsound => ?_⟩
  · have hread : (ustarRead twoByteFile 4096 3 0).map (fun out =>
        (out.1, out.2.tag 8198, (kfree out.2 8197).tag 8192 % 2)) = some (some 8197, 7, 1) := by
      decide +kernel
    obtain ⟨out, hout, heq⟩ := Option.map_eq_some_iff.mp hread
    simp only [Prod.mk.injEq] at heq
    exact ⟨out, hout, heq.1, heq.2.1, heq.2.2⟩
  · obtain ⟨N, hN⟩ := hfound.returns
    exact not_soundCopy hw.toTagged 0 _ ((hsound N _ (hN N le_rfl)).2 0 hfound)

end Vardar.Ustar
