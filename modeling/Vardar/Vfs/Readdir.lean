import Vardar.Vfs.Walk

/-!
# What listing a directory stores

`ustar_readdir` keeps the number of results and the number of pointers that its array has room for.
The number of results is incremented before it is used as the index of the next pointer, so the
first result is stored at index 1 of an array with room for one pointer, and index 0 is never used.

Until the first result is stored, a round changes only the pointer and `found_dir`, and the walk
goes over the memory as the first `kalloc` has left it.

## Main definitions

* `Vardar.Ustar.StoredAt`: the header at an address is stored as a result.
* `Vardar.Ustar.Lists`: a run of the loop, with the headers that it stores.
* `Vardar.Ustar.Listed`: what the stores should be.
* `Vardar.Ustar.Quiet`: nothing is stored yet.

## Main results

* `Vardar.Ustar.Quiet.round`: a round that stores nothing.
* `Vardar.Ustar.readdir_listed_iff`: the listing is right exactly if nothing is stored.
-/

namespace Vardar.Ustar

open ByteMemory Word Kheap Relation

/-! ### Stores -/

/-- The header at `p` has the name, and it is not that of a directory. -/
def StoredAt (m : Mem) (dirname p : ℕ) : Prop :=
  Signed m p ∧ (∃ N n, strlen (fun i => m (dirname + i)) N = some n ∧
    strncmp (fun i => m (p + i)) (fun i => m (dirname + i)) ((n + 1) % 2 ^ 32) = 0) ∧
  m (p + 156) ≠ ustarDir

/-- The bytes of the header at the pointer. -/
def Readdir.header (s : Readdir) : List (BitVec 8) :=
  (List.range blockSize).map fun i => s.heap.mem (s.ptr + i)

/-- A run of the loop to its end, with the headers that it stores, in order. -/
inductive Lists (dirname : ℕ) : Readdir → List (List (BitVec 8)) → Readdir → Prop
  | done {s : Readdir} (hs : ¬ Signed s.heap.mem s.ptr) : Lists dirname s [] s
  | pass {s s' t : Readdir} {l : List (List (BitVec 8))} (hstep : ReaddirStep dirname s s')
      (hnot : ¬ StoredAt s.heap.mem dirname s.ptr) (hrest : Lists dirname s' l t) :
      Lists dirname s l t
  | store {s s' t : Readdir} {l : List (List (BitVec 8))} (hstep : ReaddirStep dirname s s')
      (hst : StoredAt s.heap.mem dirname s.ptr) (hrest : Lists dirname s' l t) :
      Lists dirname s (s.header :: l) t

/-- Every pointer is stored inside the array, whose size is the number of pointers after it has
grown; and if the result is not null, the pointers from index 0 on are those to copies of the
headers, in order. -/
structure Listed (h : Heap) (ustar dirname : ℕ) : Prop where
  inside : ∀ s, ReflTransGen (ReaddirStep dirname) (Readdir.start h ustar) s →
    StoredAt s.heap.mem dirname s.ptr → s.numResults + 1 < s.grow.arrSize
  copies : ∀ fuel r h' l t, ustarReaddir h ustar dirname fuel = some (r, h') → r ≠ 0 →
    Lists dirname (Readdir.start h ustar) l t → ∀ j b, l[j]? = some b →
      Holds h'.mem (load h'.mem (r + pointerSize * j) pointerSize) b

/-! ### Rounds without a store -/

/-- The walk over a memory that stays. -/
def PassStep (m : Mem) (p p' : ℕ) : Prop := Signed m p ∧ p' = nextPtr m p

/-- Nothing is stored yet. -/
structure Quiet (h : Heap) (s : Readdir) : Prop where
  heap : s.heap = h
  numResults : s.numResults = 0
  arrSize : s.arrSize = 1

variable {h : Heap} {s s' t : Readdir} {l : List (List (BitVec 8))} {ustar dirname N n p : ℕ}

theorem quiet_start (h : Heap) (ustar : ℕ) :
    Quiet (kalloc h pointerSize).2 (Readdir.start h ustar) := ⟨rfl, rfl, rfl⟩

/-- A round that stores nothing. -/
theorem Quiet.round (hq : Quiet h s) (hs : Signed h.mem s.ptr)
    (hn : strlen (fun i => h.mem (dirname + i)) N = some n)
    (hnot : ¬ StoredAt h.mem dirname s.ptr) : Quiet h (s.round dirname n) := by
  have hcollect : Quiet h (s.collect dirname n) := by
    rw [Readdir.collect]
    split_ifs with hname hdir
    · exact ⟨hq.heap, hq.numResults, hq.arrSize⟩
    · rw [hq.heap] at hname hdir
      exact absurd ⟨hs, ⟨N, n, hn, hname⟩, hdir⟩ hnot
    · exact hq
  exact ⟨hcollect.heap, hcollect.numResults, hcollect.arrSize⟩

/-- The first store is outside the array. -/
theorem Quiet.not_inside (hq : Quiet h s) : ¬ s.numResults + 1 < s.grow.arrSize := by
  have hgrow : s.grow = s := by
    rw [Readdir.grow, if_neg]
    rw [hq.numResults, hq.arrSize]
    omega
  rw [hgrow, hq.numResults, hq.arrSize]
  omega

/-- If no header of the walk is stored, nothing is. -/
theorem Quiet.of_reaches (hnot : ∀ p, ReflTransGen (PassStep h.mem) s.ptr p →
      ¬ StoredAt h.mem dirname p) (hq : Quiet h s)
    (hs : ReflTransGen (ReaddirStep dirname) s s') :
    Quiet h s' ∧ ReflTransGen (PassStep h.mem) s.ptr s'.ptr := by
  induction hs with
  | refl => exact ⟨hq, .refl⟩
  | tail _ hstep ih =>
    obtain ⟨hq', hreach⟩ := ih
    obtain ⟨hsigned, N, n, hn, rfl⟩ := hstep
    rw [hq'.heap] at hsigned hn
    refine ⟨hq'.round hsigned hn (hnot _ hreach), hreach.tail ⟨hsigned, ?_⟩⟩
    rw [round_ptr, hq'.heap]

/-- The walk is made as long as nothing is stored. -/
theorem Quiet.reaches (hn : strlen (fun i => h.mem (dirname + i)) N = some n)
    (hnot : ∀ s', ReflTransGen (ReaddirStep dirname) s s' → Quiet h s' →
      ¬ StoredAt h.mem dirname s'.ptr) (hq : Quiet h s)
    (hp : ReflTransGen (PassStep h.mem) s.ptr p) :
    ∃ s', ReflTransGen (ReaddirStep dirname) s s' ∧ Quiet h s' ∧ s'.ptr = p := by
  induction hp with
  | refl => exact ⟨s, .refl, hq, rfl⟩
  | tail _ hstep ih =>
    obtain ⟨s', hreach, hq', rfl⟩ := ih
    obtain ⟨hsigned, rfl⟩ := hstep
    refine ⟨s'.round dirname n, hreach.tail ⟨?_, N, n, ?_, rfl⟩,
      hq'.round hsigned hn (hnot s' hreach hq'), ?_⟩
    · rw [hq'.heap]
      exact hsigned
    · rw [hq'.heap]
      exact hn
    · rw [round_ptr, hq'.heap]

/-- A run that stores nothing. -/
theorem Lists.eq_nil (hnot : ∀ s', ReflTransGen (ReaddirStep dirname) s s' →
      ¬ StoredAt s'.heap.mem dirname s'.ptr) (hl : Lists dirname s l t) : l = [] := by
  induction hl with
  | done _ => rfl
  | pass hstep _ _ ih => exact ih fun s' hs' => hnot s' (hs'.head hstep)
  | store _ hst _ _ => exact absurd hst (hnot _ .refl)

/-- **When a listing is right.** For any archive and name, every pointer that `ustar_readdir` stores
is inside its array, and what it returns is null or the array of copies from index 0 on, if and only
if the walk over the archive, in the memory that the first `kalloc` leaves, meets no header with the
name that is not a directory. -/
theorem readdir_listed_iff (h : Heap) (ustar dirname : ℕ) :
    Listed h ustar dirname ↔
      ∀ p, ReflTransGen (PassStep (kalloc h pointerSize).2.mem) ustar p →
        ¬ StoredAt (kalloc h pointerSize).2.mem dirname p := by
  have hq := quiet_start h ustar
  constructor
  · rintro ⟨hinside, -⟩ p hp hst
    have hnot : ∀ s', ReflTransGen (ReaddirStep dirname) (Readdir.start h ustar) s' →
        Quiet (kalloc h pointerSize).2 s' →
          ¬ StoredAt (kalloc h pointerSize).2.mem dirname s'.ptr := by
      intro s' hs' hq' hst'
      rw [← hq'.heap] at hst'
      exact hq'.not_inside (hinside s' hs' hst')
    obtain ⟨-, ⟨N, n, hn, -⟩, -⟩ := id hst
    obtain ⟨s', hs', hq', rfl⟩ := hq.reaches hn hnot hp
    exact hnot s' hs' hq' hst
  · intro hnot
    have hnone : ∀ s', ReflTransGen (ReaddirStep dirname) (Readdir.start h ustar) s' →
        ¬ StoredAt s'.heap.mem dirname s'.ptr := by
      intro s' hs'
      obtain ⟨hq', hreach⟩ := Quiet.of_reaches hnot hq hs'
      rw [hq'.heap]
      exact hnot _ hreach
    refine ⟨fun s' hs' hst => absurd hst (hnone s' hs'), ?_⟩
    intro fuel r h' l t _ _ hl j b hb
    rw [hl.eq_nil hnone, List.getElem?_nil] at hb
    exact absurd hb (Option.some_ne_none b).symm

/-- The file `b` with one byte, its name at 4096 and a heap at 8192. -/
def listHeap : Heap := initHeap (putEntry (put 0 4096 [0x62]) 0 fileB) 8192 1024

/-- Both allocations succeed, and the pointer to the copy is stored behind the array. -/
theorem readdir_stores_outside :
    (kalloc listHeap pointerSize).1 = some 8196 ∧
      (kalloc (Readdir.start listHeap 0).heap blockSize).1 = some 8212 ∧
      StoredAt (Readdir.start listHeap 0).heap.mem 4096 (Readdir.start listHeap 0).ptr ∧
      (Readdir.start listHeap 0).numResults + 1 = (Readdir.start listHeap 0).grow.arrSize ∧
      ¬ Listed listHeap 0 4096 := by
  have hst : StoredAt (Readdir.start listHeap 0).heap.mem 4096 (Readdir.start listHeap 0).ptr :=
    ⟨by decide +kernel, ⟨2, 1, by decide +kernel, by decide +kernel⟩, by decide +kernel⟩
  refine ⟨by decide +kernel, by decide +kernel, hst, rfl, fun hlisted => ?_⟩
  exact (quiet_start listHeap 0).not_inside (hlisted.inside _ .refl hst)

end Vardar.Ustar
