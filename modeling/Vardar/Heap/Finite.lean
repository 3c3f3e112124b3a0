import Vardar.Heap.Kheap

/-!
# The heap writes finitely many bytes

A memory is finite if all bytes behind some address are zero. Each operation of the heap writes
ranges of bytes, and a memory stays finite when a range is written.

## Main definitions

* `ByteMemory.FiniteImage`.

## Main results

* `Vardar.Kheap.kalloc_finite`, `Vardar.Kheap.kfree_finite`, `Vardar.Kheap.krealloc_finite`.
-/

namespace ByteMemory

/-- All bytes behind some address are zero. -/
def FiniteImage (m : Mem) : Prop := ∃ b, ∀ x, b ≤ x → m x = 0

variable {m m' : Mem}

/-- Bytes up to some address are written. -/
theorem FiniteImage.write (h : FiniteImage m) (a : ℕ) (hm : ∀ x, a ≤ x → m' x = m x) :
    FiniteImage m' := by
  obtain ⟨b, hb⟩ := h
  refine ⟨max a b, fun x hx => ?_⟩
  rw [hm x (le_of_max_le_left hx), hb x (le_of_max_le_right hx)]

theorem FiniteImage.store (h : FiniteImage m) (a n v : ℕ) : FiniteImage (store m a n v) :=
  h.write (a + n) fun _ hx => store_of_notMem (.inr hx)

theorem FiniteImage.fill (h : FiniteImage m) (a : ℕ) (c : BitVec 8) (n : ℕ) :
    FiniteImage (fill m a c n) :=
  h.write (a + n) fun _ hx => fill_of_notMem (.inr hx)

end ByteMemory

namespace Vardar.Kheap

open ByteMemory Word

variable {h : Heap}

theorem memmove_finite {m : Mem} (hm : FiniteImage m) (dst src n : ℕ) :
    FiniteImage (memmove m dst src n) :=
  hm.write (dst + n) fun _ hx => memmove_of_notMem (.inr hx)

theorem memset_finite {m : Mem} (hm : FiniteImage m) (dest n : ℕ) :
    FiniteImage (memset m dest 0 n) :=
  hm.fill dest 0 n

theorem setTag_finite (hm : FiniteImage h.mem) (p v : ℕ) : FiniteImage (h.setTag p v).mem :=
  hm.store p 4 v

theorem splitBlock_finite (hm : FiniteImage h.mem) (block n : ℕ) :
    FiniteImage (splitBlock h block n).2.mem := by
  rw [splitBlock]
  dsimp only
  split_ifs
  · exact hm
  · exact setTag_finite (setTag_finite hm _ _) _ _
  · exact setTag_finite (setTag_finite (setTag_finite (setTag_finite hm _ _) _ _) _ _) _ _
  · exact setTag_finite (setTag_finite (setTag_finite (setTag_finite hm _ _) _ _) _ _) _ _

theorem mergeBlock_finite (hm : FiniteImage h.mem) (first second : ℕ) :
    FiniteImage (mergeBlock h first second).2.mem := by
  rw [mergeBlock]
  dsimp only
  split_ifs
  · exact hm
  · exact setTag_finite (setTag_finite hm _ _) _ _

theorem kalloc_finite (hm : FiniteImage h.mem) (size : ℕ) : FiniteImage (kalloc h size).2.mem := by
  rw [kalloc]
  dsimp only
  split_ifs
  · exact memset_finite (splitBlock_finite hm _ _) _ _
  · exact hm

theorem mergeNext_finite (hm : FiniteImage h.mem) (header : ℕ) (next : Option ℕ) :
    FiniteImage (mergeNext h header next).mem := by
  cases next with
  | none => exact hm
  | some next =>
    rw [mergeNext]
    split_ifs
    · exact mergeBlock_finite hm _ _
    · exact hm

theorem mergePrev_finite (hm : FiniteImage h.mem) (header : ℕ) (footer : Option ℕ) :
    FiniteImage (mergePrev h header footer).mem := by
  cases footer with
  | none => exact hm
  | some footer =>
    rw [mergePrev]
    split_ifs
    · exact mergeBlock_finite hm _ _
    · exact hm

theorem kfree_finite (hm : FiniteImage h.mem) (allocation : ℕ) :
    FiniteImage (kfree h allocation).mem :=
  mergePrev_finite (mergeNext_finite (setTag_finite (setTag_finite hm _ _) _ _) _ _) _ _

theorem mergeForward_finite (hm : FiniteImage h.mem) (first second size : ℕ) :
    FiniteImage (mergeForward h first second size).2.mem :=
  splitBlock_finite (memset_finite (mergeBlock_finite hm _ _) _ _) _ _

theorem mergeBackward_finite (hm : FiniteImage h.mem) (first second size : ℕ) :
    FiniteImage (mergeBackward h first second size).2.mem :=
  splitBlock_finite (memset_finite (mergeBlock_finite (memmove_finite hm _ _ _) _ _) _ _) _ _

theorem threewayMerge_finite (hm : FiniteImage h.mem) (front middle back size : ℕ) :
    FiniteImage (threewayMerge h front middle back size).2.mem :=
  splitBlock_finite (memset_finite (memmove_finite
    (setTag_finite (setTag_finite hm _ _) _ _) _ _ _) _ _) _ _

theorem moveAllocation_finite (hm : FiniteImage h.mem) (allocation blockSize size : ℕ) :
    FiniteImage (moveAllocation h allocation blockSize size).2.mem := by
  have hk := kalloc_finite hm size
  rw [moveAllocation]
  cases hkalloc : kalloc h size with
  | mk r h' =>
    rw [hkalloc] at hk
    cases r with
    | none => exact hk
    | some q => exact kfree_finite (memmove_finite hk _ _ _) _

theorem reallocBlock_finite (hm : FiniteImage h.mem) (allocation header blockSize : ℕ)
    (prevBlock nextBlock : Option ℕ) (size : ℕ) :
    FiniteImage (reallocBlock h allocation header blockSize prevBlock nextBlock size).2.mem := by
  unfold reallocBlock
  split
  · exact mergeForward_finite hm _ _ _
  · split
    · exact mergeBackward_finite hm _ _ _
    · split
      · split_ifs
        · exact threewayMerge_finite hm _ _ _ _
        · exact moveAllocation_finite hm _ _ _
      · exact moveAllocation_finite hm _ _ _

theorem krealloc_finite (hm : FiniteImage h.mem) (allocation size : ℕ) :
    FiniteImage (krealloc h allocation size).2.mem :=
  reallocBlock_finite hm _ _ _ _ _ _

end Vardar.Kheap
