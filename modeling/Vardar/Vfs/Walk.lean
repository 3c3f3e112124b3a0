import Vardar.Heap.Finite
import Vardar.Lib.Loop
import Vardar.Vfs.Archive

/-!
# Where the walks over an archive go

`ustar_read` and `ustar_readdir` pass a header by the number of blocks of its size, and by one block
if that number is zero. The size is read from eleven bytes that nobody checks, as an `int`, and then
converted to a `size_t`. A negative size of less than a block leaves the pointer where it is, and
other negative sizes move it back.

## Main definitions

* `Vardar.Ustar.sizeAt`, `Vardar.Ustar.nextPtr`: the size in a header, and the next header.
* `Vardar.Ustar.Forward`: the sizes that move the pointer forward.
* `Vardar.Ustar.ReadStep`, `Vardar.Ustar.ReaddirStep`: the rounds of the two loops that do not
  return.
* `Vardar.Ustar.Advances`: all these rounds move the pointer forward.

## Main results

* `Vardar.Ustar.lt_nextPtr_iff`: the pointer moves forward exactly for these sizes.
* `Vardar.Ustar.walks_end_iff`: when the two loops advance and end.
-/

namespace Vardar.Ustar

open ByteMemory Word Kheap Relation

/-! ### The next header -/

/-- The size in a header. -/
def sizeAt (m : Mem) (p : ℕ) : ℤ := oct2bin (fun i => m (p + 124 + i)) 11

/-- The address to which the walks go from a header. -/
def nextPtr (m : Mem) (p : ℕ) : ℕ :=
  add64 p (blockSize * if 0 < numBlocks (u64 (sizeAt m p)) then numBlocks (u64 (sizeAt m p)) else 1)

/-- A size that is not negative moves the pointer forward by whole blocks, if it does not wrap. A
negative one moves it back, which is forward if it wraps. -/
def Forward (p : ℕ) (size : ℤ) : Prop :=
  (0 ≤ size ∧ p + 512 * max 1 (numBlocks size.toNat) < 2 ^ 64) ∨
    (size < 0 ∧ p < 512 * (size.natAbs / 512))

instance (p : ℕ) (size : ℤ) : Decidable (Forward p size) := inferInstanceAs (Decidable (_ ∨ _))

theorem nextPtr_lt (m : Mem) (p : ℕ) : nextPtr m p < 2 ^ 64 := add64_lt _ _

/-- A size is an `int`. -/
theorem sizeAt_bounds (m : Mem) (p : ℕ) : -2 ^ 31 ≤ sizeAt m p ∧ sizeAt m p < 2 ^ 31 := by
  rw [sizeAt, oct2bin, int32]
  generalize int32 _ + _ = i
  rw [Int.bmod_def]
  omega

/-- The pointer moves forward exactly for the sizes that do. -/
theorem lt_nextPtr_iff {m : Mem} {p : ℕ} (hp : p < 2 ^ 64) :
    p < nextPtr m p ↔ Forward p (sizeAt m p) := by
  have hbounds := sizeAt_bounds m p
  rw [nextPtr, Forward]
  generalize sizeAt m p = size at hbounds
  by_cases hneg : size < 0
  · -- as a `size_t` the size is `2 ^ 64` minus its absolute value
    have hlen : u64 size = 2 ^ 64 - size.natAbs := by
      rw [u64]
      omega
    have hblocks : numBlocks (u64 size) = 2 ^ 55 - size.natAbs / 512 := by
      rw [hlen, numBlocks, blockSize]
      split_ifs <;> omega
    rw [hblocks, if_pos (by omega), blockSize, add64]
    omega
  · have hlen : u64 size = size.toNat := by
      rw [u64]
      omega
    have hblocks : numBlocks size.toNat ≤ size.toNat := by
      rw [numBlocks, blockSize]
      split_ifs <;> omega
    have hmax : (if 0 < numBlocks size.toNat then numBlocks size.toNat else 1) =
        max 1 (numBlocks size.toNat) := by
      split_ifs <;> omega
    rw [hlen, hmax, blockSize, add64]
    omega

/-! ### Strings -/

/-- More fuel gives the same length. -/
theorem strlen_mono {str : ℕ → BitVec 8} {fuel n : ℕ} (h : strlen str fuel = some n) {fuel' : ℕ}
    (hle : fuel ≤ fuel') : strlen str fuel' = some n := by
  induction fuel generalizing str n fuel' with
  | zero => exact absurd h (Option.some_ne_none n).symm
  | succ fuel ih =>
    obtain ⟨fuel', rfl⟩ : ∃ k, fuel' = k + 1 := ⟨fuel' - 1, by omega⟩
    rw [strlen] at h ⊢
    split_ifs at h ⊢ with hnul
    · obtain ⟨k, hk, hn⟩ := Option.map_eq_some_iff.mp h
      rw [ih hk (by omega), Option.map_some, hn]
    · exact h

/-- A string with a NUL has a length. -/
theorem exists_strlen_of_nul (str : ℕ → BitVec 8) {k : ℕ} (hk : str k = 0) :
    ∃ n, strlen str (k + 1) = some n := by
  induction k generalizing str with
  | zero => exact ⟨0, by rw [strlen, if_neg (not_not_intro hk)]⟩
  | succ k ih =>
    obtain ⟨n, hn⟩ := ih (fun i => str (i + 1)) hk
    rw [strlen, hn]
    split_ifs
    · exact ⟨_, rfl⟩
    · exact ⟨0, rfl⟩

/-- In a finite memory every string has a length. -/
theorem exists_strlen {m : Mem} (hm : FiniteImage m) (a : ℕ) :
    ∃ N n, strlen (fun i => m (a + i)) N = some n := by
  obtain ⟨b, hb⟩ := hm
  obtain ⟨n, hn⟩ := exists_strlen_of_nul (fun i => m (a + i)) (hb _ (Nat.le_add_left b a))
  exact ⟨b + 1, n, hn⟩

/-! ### Rounds -/

/-- The name in a header, of which `strlen` gives the length `n`, is not the name that is looked
up. -/
def Differs (m : Mem) (filename p n : ℕ) : Prop :=
  strncmp (fun i => m (p + i)) (fun i => m (filename + i)) ((n + 1) % 2 ^ 32) ≠ 0

/-- A round of `ustar_read` that does not return. -/
def ReadStep (m : Mem) (filename p p' : ℕ) : Prop :=
  Signed m p ∧ (∃ N n, strlen (fun i => m (p + i)) N = some n ∧ Differs m filename p n) ∧
    p' = nextPtr m p

/-- A round of `ustar_readdir`. -/
def ReaddirStep (dirname : ℕ) (s s' : Readdir) : Prop :=
  Signed s.heap.mem s.ptr ∧
    ∃ N n, strlen (fun i => s.heap.mem (dirname + i)) N = some n ∧ s' = s.round dirname n

/-- In every round from a state on, the pointer moves forward. -/
def Advances {σ : Type} (R : σ → σ → Prop) (ptr : σ → ℕ) (x : σ) : Prop :=
  ∀ y z, ReflTransGen R x y → R y z → ptr y < ptr z

variable {h : Heap} {m : Mem} {s s' : Readdir} {ustar filename dirname p p' : ℕ}

/-! ### `ustar_read` -/

theorem ustarRead_succ (hs : Signed h.mem p) {fuel n : ℕ}
    (hn : strlen (fun i => h.mem (p + i)) fuel = some n) :
    ustarRead h filename (fuel + 1) p =
      if strncmp (fun i => h.mem (p + i)) (fun i => h.mem (filename + i)) ((n + 1) % 2 ^ 32) = 0
        then some (readFile h p (u64 (sizeAt h.mem p)))
        else ustarRead h filename fuel (nextPtr h.mem p) := by
  rw [ustarRead, if_pos (signed_iff.mpr hs)]
  simp only [hn, Option.bind_some]
  rfl

/-- A round that does not return. -/
theorem Returns.step (hstep : ReadStep h.mem filename p p') {out : Option ℕ × Heap}
    (hr : Returns h filename p' out) : Returns h filename p out := by
  obtain ⟨hs, ⟨N, n, hn, hdiff⟩, rfl⟩ := hstep
  obtain ⟨N', hN'⟩ := hr
  refine ⟨max N N' + 1, fun fuel hfuel => ?_⟩
  obtain ⟨fuel, rfl⟩ : ∃ k, fuel = k + 1 := ⟨fuel - 1, by omega⟩
  rw [ustarRead_succ hs (strlen_mono hn (by omega)), if_neg hdiff]
  exact hN' fuel (by omega)

/-- If no round leads on, `ustar_read` returns. -/
theorem returns_of_last (hm : FiniteImage h.mem) (hlast : ∀ p', ¬ ReadStep h.mem filename p p') :
    ∃ out, Returns h filename p out := by
  by_cases hs : Signed h.mem p
  · obtain ⟨N, n, hn⟩ := exists_strlen hm p
    have hsame : ¬ Differs h.mem filename p n := fun hdiff =>
      hlast _ ⟨hs, ⟨N, n, hn, hdiff⟩, rfl⟩
    refine ⟨readFile h p (u64 (sizeAt h.mem p)), N + 1, fun fuel hfuel => ?_⟩
    obtain ⟨fuel, rfl⟩ : ∃ k, fuel = k + 1 := ⟨fuel - 1, by omega⟩
    rw [ustarRead_succ hs (strlen_mono hn (by omega)), if_pos (not_not.mp hsame)]
  · exact ⟨_, returns_of_not_signed hs⟩

theorem returns_of_advances (hm : FiniteImage h.mem)
    (hadv : Advances (ReadStep h.mem filename) id ustar) : ∃ out, Returns h filename ustar out := by
  refine Loop.induction_of_measure (R := ReadStep h.mem filename)
    (P := fun p => ∃ out, Returns h filename p out) id (2 ^ 64) (fun y z hy hz => ?_)
    fun y _ hnext => ?_
  · refine ⟨hadv y z hy hz, ?_⟩
    rw [hz.2.2]
    exact (nextPtr_lt _ _).le
  · by_cases hlast : ∃ z, ReadStep h.mem filename y z
    · obtain ⟨z, hz⟩ := hlast
      obtain ⟨out, hr⟩ := hnext z hz
      exact ⟨out, hr.step hz⟩
    · exact returns_of_last hm fun z hz => hlast ⟨z, hz⟩

theorem ReadStep.lt_of_reaches (hu : ustar < 2 ^ 64)
    (hp : ReflTransGen (ReadStep m filename) ustar p) : p < 2 ^ 64 := by
  induction hp with
  | refl => exact hu
  | tail _ hstep =>
    rw [hstep.2.2]
    exact nextPtr_lt _ _

/-! ### `ustar_readdir` -/

theorem round_ptr (dirname n : ℕ) (s : Readdir) :
    (s.round dirname n).ptr = nextPtr s.heap.mem s.ptr := by
  rw [Readdir.round, nextPtr, sizeAt]

theorem doubled_heap (s : Readdir) (r : Option ℕ × Heap) : (s.doubled r).heap = r.2 := rfl

theorem stored_finite {r : Option ℕ × Heap} (hr : FiniteImage r.2.mem) (s : Readdir) :
    FiniteImage (s.stored r).heap.mem := by
  rw [Readdir.stored]
  exact memmove_finite (hr.store _ _ _) _ _ _

theorem grow_finite (hm : FiniteImage s.heap.mem) : FiniteImage s.grow.heap.mem := by
  rw [Readdir.grow]
  split_ifs
  · rw [doubled_heap]
    exact krealloc_finite hm _ _
  · exact hm

theorem append_finite (hm : FiniteImage s.heap.mem) : FiniteImage s.append.heap.mem :=
  stored_finite (kalloc_finite (grow_finite hm) _) _

theorem round_finite (hm : FiniteImage s.heap.mem) (dirname n : ℕ) :
    FiniteImage (s.round dirname n).heap.mem := by
  have hcollect : FiniteImage (s.collect dirname n).heap.mem := by
    rw [Readdir.collect]
    split_ifs
    · exact hm
    · exact append_finite hm
    · exact hm
  exact hcollect

theorem ReaddirStep.finite_of_reaches (hm : FiniteImage s.heap.mem)
    (hs : ReflTransGen (ReaddirStep dirname) s s') : FiniteImage s'.heap.mem := by
  induction hs with
  | refl => exact hm
  | tail _ hstep ih =>
    obtain ⟨-, N, n, -, rfl⟩ := hstep
    exact round_finite ih dirname n

theorem ReaddirStep.lt_of_reaches (hu : s.ptr < 2 ^ 64)
    (hs : ReflTransGen (ReaddirStep dirname) s s') : s'.ptr < 2 ^ 64 := by
  induction hs with
  | refl => exact hu
  | tail _ hstep =>
    obtain ⟨-, N, n, -, rfl⟩ := hstep
    rw [round_ptr]
    exact nextPtr_lt _ _

/-- With enough fuel, the loop of `ustar_readdir` ends. -/
def LoopEnds (dirname : ℕ) (s : Readdir) : Prop :=
  ∃ N out, ∀ fuel, N ≤ fuel → Readdir.loop dirname fuel s = some out

theorem loopEnds_of_advances (hm : FiniteImage s.heap.mem)
    (hadv : Advances (ReaddirStep dirname) Readdir.ptr s) : LoopEnds dirname s := by
  refine Loop.induction_of_measure (R := ReaddirStep dirname) (P := LoopEnds dirname) Readdir.ptr
    (2 ^ 64) (fun y z hy hz => ?_) fun y hy hnext => ?_
  · refine ⟨hadv y z hy hz, ?_⟩
    obtain ⟨-, N, n, -, rfl⟩ := hz
    rw [round_ptr]
    exact (nextPtr_lt _ _).le
  · by_cases hs : Signed y.heap.mem y.ptr
    · obtain ⟨N, n, hn⟩ := exists_strlen (ReaddirStep.finite_of_reaches hm hy) dirname
      obtain ⟨N', out, hout⟩ := hnext _ ⟨hs, N, n, hn, rfl⟩
      refine ⟨max N N' + 1, out, fun fuel hfuel => ?_⟩
      obtain ⟨fuel, rfl⟩ : ∃ k, fuel = k + 1 := ⟨fuel - 1, by omega⟩
      rw [Readdir.loop, if_pos (signed_iff.mpr hs), strlen_mono hn (by omega), Option.bind_some]
      exact hout fuel (by omega)
    · refine ⟨1, y, fun fuel hfuel => ?_⟩
      obtain ⟨fuel, rfl⟩ : ∃ k, fuel = k + 1 := ⟨fuel - 1, by omega⟩
      rw [Readdir.loop, if_neg fun hc => hs (signed_iff.mp hc)]

/-! ### Both walks -/

/-- **When the walks over an archive advance and end.** In every finite memory, every round of
`ustar_read` that does not return moves the pointer forward, and it returns, if and only if the
sizes in the headers that it passes move the pointer forward; and the same holds for
`ustar_readdir`, where a round may change the memory. -/
theorem walks_end_iff (hm : FiniteImage h.mem) (hu : ustar < 2 ^ 64) (filename dirname : ℕ) :
    ((Advances (ReadStep h.mem filename) id ustar ∧
        ∃ fuel out, ustarRead h filename fuel ustar = some out) ↔
      ∀ p p', ReflTransGen (ReadStep h.mem filename) ustar p → ReadStep h.mem filename p p' →
        Forward p (sizeAt h.mem p)) ∧
    ((Advances (ReaddirStep dirname) Readdir.ptr (Readdir.start h ustar) ∧
        ∃ fuel out, ustarReaddir h ustar dirname fuel = some out) ↔
      ∀ s s', ReflTransGen (ReaddirStep dirname) (Readdir.start h ustar) s →
        ReaddirStep dirname s s' → Forward s.ptr (sizeAt s.heap.mem s.ptr)) := by
  have hread : Advances (ReadStep h.mem filename) id ustar ↔
      ∀ p p', ReflTransGen (ReadStep h.mem filename) ustar p → ReadStep h.mem filename p p' →
        Forward p (sizeAt h.mem p) := by
    refine forall₂_congr fun p p' => forall₂_congr fun hp hstep => ?_
    rw [hstep.2.2]
    exact lt_nextPtr_iff (ReadStep.lt_of_reaches hu hp)
  have hreaddir : Advances (ReaddirStep dirname) Readdir.ptr (Readdir.start h ustar) ↔
      ∀ s s', ReflTransGen (ReaddirStep dirname) (Readdir.start h ustar) s →
        ReaddirStep dirname s s' → Forward s.ptr (sizeAt s.heap.mem s.ptr) := by
    refine forall₂_congr fun s s' => forall₂_congr fun hs hstep => ?_
    obtain ⟨-, N, n, -, rfl⟩ := hstep
    rw [round_ptr]
    exact lt_nextPtr_iff (ReaddirStep.lt_of_reaches hu hs)
  rw [← hread, ← hreaddir]
  refine ⟨and_iff_left_of_imp fun hadv => ?_, and_iff_left_of_imp fun hadv => ?_⟩
  · obtain ⟨out, N, hN⟩ := returns_of_advances hm hadv
    exact ⟨N, out, hN N le_rfl⟩
  · have hstart : FiniteImage (Readdir.start h ustar).heap.mem := kalloc_finite hm pointerSize
    obtain ⟨N, out, hN⟩ := loopEnds_of_advances hstart hadv
    exact ⟨N, _, by rw [ustarReaddir, hN N le_rfl, Option.map_some]⟩

/-! ### Two images -/

theorem put_finite (hm : FiniteImage m) (a : ℕ) (l : List (BitVec 8)) : FiniteImage (put m a l) :=
  hm.write (a + l.length) fun x hx => if_neg (by omega)

theorem putEntry_finite (hm : FiniteImage m) (p : ℕ) (e : Entry) : FiniteImage (putEntry m p e) :=
  put_finite (put_finite (put_finite (put_finite hm _ _) _ _) _ _) _ _

theorem initHeap_finite (hm : FiniteImage m) (heapStart heapSize : ℕ) :
    FiniteImage (initHeap m heapStart heapSize).mem :=
  (hm.store _ _ _).store _ _ _

theorem zero_finite : FiniteImage 0 := ⟨0, fun _ _ => rfl⟩

/-- `ustar_read` passes the file `a` and ends at the block behind it. -/
theorem walks_end_empty :
    Advances (ReadStep (bootHeap [(0, fileA [] (by decide))]).mem 4096) id 0 ∧ ∃ fuel out,
      ustarRead (bootHeap [(0, fileA [] (by decide))]) 4096 fuel 0 = some out := by
  have hfin : FiniteImage (bootHeap [(0, fileA [] (by decide))]).mem :=
    initHeap_finite (putEntry_finite (put_finite zero_finite _ _) _ _) _ _
  refine (walks_end_iff hfin (by decide) 4096 0).1.mpr fun p p' hp hstep => ?_
  have hreach : ∀ q, ReflTransGen (ReadStep (bootHeap [(0, fileA [] (by decide))]).mem 4096) 0 q →
      q = 0 ∨ q = 512 := by
    intro q hq
    induction hq with
    | refl => exact .inl rfl
    | tail _ hlast ih =>
      obtain ⟨hs, -, rfl⟩ := hlast
      rcases ih with rfl | rfl
      · exact .inr (by decide +kernel)
      · exact absurd hs (by decide +kernel)
  rcases hreach p hp with rfl | rfl
  · decide +kernel
  · exact absurd hstep.1 (by decide +kernel)

/-- A header of the file `a` with the size `-1` at 0, the name `b` at 768 and a heap at 1024. -/
def stuckHeap : Heap :=
  initHeap (put (put (put (put 0 768 [0x62]) 0 [0x61]) 124 (List.replicate 10 0x30 ++ [0x2F]))
    257 signature) 1024 64

/-- The pointer of `ustar_read` stays at the header, and it does not return. -/
theorem ustarRead_stuck :
    FiniteImage stuckHeap.mem ∧ (∃ a, ∀ p, a ≤ p → ¬ Signed stuckHeap.mem p) ∧
      ReadStep stuckHeap.mem 768 0 0 ∧ ∀ fuel, ustarRead stuckHeap 768 fuel 0 = none := by
  have hs : Signed stuckHeap.mem 0 := by decide +kernel
  have hnext : nextPtr stuckHeap.mem 0 = 0 := by decide +kernel
  have hlen : strlen (fun i => stuckHeap.mem (0 + i)) 2 = some 1 := by decide +kernel
  have hdiff : Differs stuckHeap.mem 768 0 1 := by
    rw [Differs]
    decide +kernel
  have hfin : FiniteImage stuckHeap.mem :=
    initHeap_finite (put_finite (put_finite (put_finite (put_finite zero_finite _ _) _ _) _ _)
      _ _) _ _
  refine ⟨hfin, ?_, ⟨hs, ⟨2, 1, hlen, hdiff⟩, hnext.symm⟩, fun fuel => ?_⟩
  · obtain ⟨a, ha⟩ := hfin
    refine ⟨a, fun p hp hsigned => ?_⟩
    have hbyte : (0 : BitVec 8) = 0x75 := (ha (p + 257) (by omega)).symm.trans hsigned.1
    exact absurd hbyte (by decide)
  · induction fuel with
    | zero => rfl
    | succ fuel ih =>
      cases hn : strlen (fun i => stuckHeap.mem (0 + i)) fuel with
      | none =>
        rw [ustarRead, if_pos (signed_iff.mpr hs)]
        simp only [hn, Option.bind_none]
      | some n =>
        have hone : n = 1 := Option.some.inj ((strlen_mono hn (le_max_left fuel 2)).symm.trans
          (strlen_mono hlen (le_max_right fuel 2)))
        rw [hone] at hn
        rw [ustarRead_succ hs hn, if_neg hdiff, hnext]
        exact ih

end Vardar.Ustar
