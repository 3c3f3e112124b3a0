import Vardar.Heap.Kheap

/-!
# The initial file system

`ustar_read` walks over the headers of a `ustar` archive and copies the file with the name it is
given to the heap. A header is a block of 512 bytes, and the blocks of its file follow it.
`ustar_readdir` walks over the headers in the same way and collects copies of those with the name it
is given in an array that grows.

The number of rounds is bounded by `fuel`, as is the search for the end of a name. The number of
results and the size of their array are natural numbers.

## Main definitions

* `Vardar.Ustar.oct2bin`, `Vardar.Ustar.ustarRead`.
* `Vardar.Ustar.Readdir`, `Vardar.Ustar.ustarReaddir`.
-/

namespace Vardar.Ustar

open ByteMemory Word Kheap

/-- `oct2bin`, an `int`. -/
def oct2bin (str : ℕ → BitVec 8) : ℕ → ℤ
  | 0 => 0
  | size + 1 => int32 (int32 (oct2bin str size * 8) + ((str size).toInt - 48))

/-- `BLOCK_SIZE`, and the size of a `ustar_entry_t`. -/
def blockSize : ℕ := 512

/-- The literal `"ustar"`. -/
def signature : List (BitVec 8) := [0x75, 0x73, 0x74, 0x61, 0x72]

/-- `num_blocks`. -/
def numBlocks (len : ℕ) : ℕ :=
  if len % blockSize = 0 then len / blockSize else len / blockSize + 1

/-- The copy of the file behind a header. The result of `kalloc` is not compared with null. -/
def readFile (h : Heap) (ptr len : ℕ) : Option ℕ × Heap :=
  let (allocation, h) := kalloc h len
  let res := add64 (allocation.getD 0) 1
  (some res, { h with mem := memmove h.mem res (add64 ptr blockSize) len })

/-- `ustar_read`, from a header on; null is `none`. The fields of a header are its name at 0, its
size at 124 and its signature at 257. -/
def ustarRead (h : Heap) (filename : ℕ) : ℕ → ℕ → Option (Option ℕ × Heap)
  | 0, _ => none
  | fuel + 1, ptr =>
    if strncmp (fun i => h.mem (ptr + 257 + i)) (fun i => signature.getD i 0) 5 = 0 then
      let len := u64 (oct2bin (fun i => h.mem (ptr + 124 + i)) 11)
      let name := fun i => h.mem (ptr + i)
      (strlen name fuel).bind fun n =>
        if strncmp name (fun i => h.mem (filename + i)) ((n + 1) % 2 ^ 32) = 0 then
          some (readFile h ptr len)
        else
          let blocks := if 0 < numBlocks len then numBlocks len else 1
          ustarRead h filename fuel (add64 ptr (blockSize * blocks))
    else some (none, h)

/-! ### `ustar_readdir` -/

/-- The locals of `ustar_readdir`, and the heap. A null pointer is 0. -/
structure Readdir where
  heap : Heap
  ptr : ℕ
  foundDir : Bool
  results : ℕ
  numResults : ℕ
  arrSize : ℕ

/-- `USTAR_DIR`. -/
def ustarDir : BitVec 8 := 0x35

/-- The size of a pointer. -/
def pointerSize : ℕ := 8

namespace Readdir

/-- The array has doubled, and `krealloc` has returned. -/
def doubled (s : Readdir) (results : Option ℕ × Heap) : Readdir :=
  { s with heap := results.2, results := results.1.getD 0, arrSize := s.arrSize * 2 }

/-- The array grows if there are more results than it has room for. -/
def grow (s : Readdir) : Readdir :=
  if s.arrSize < s.numResults then
    s.doubled (krealloc s.heap s.results (s.arrSize * 2 * pointerSize))
  else s

/-- The address of `results[num_results]`. -/
def slot (s : Readdir) : ℕ := add64 s.results (pointerSize * s.numResults)

/-- The stores after `kalloc` has returned: the pointer to the copy, and the copy. -/
def stored (s : Readdir) (copy : Option ℕ × Heap) : Readdir :=
  let m := store copy.2.mem s.slot pointerSize (copy.1.getD 0)
  { s with heap := { copy.2 with mem := memmove m (load m s.slot pointerSize) s.ptr blockSize } }

/-- The next result is a copy of the header. The count is compared before it is incremented. -/
def append (s : Readdir) : Readdir :=
  let s := { s.grow with numResults := s.numResults + 1 }
  s.stored (kalloc s.heap blockSize)

/-- The part of a round about the header, `n` being the length of `dirname`. -/
def collect (dirname n : ℕ) (s : Readdir) : Readdir :=
  let name := fun i => s.heap.mem (s.ptr + i)
  if strncmp name (fun i => s.heap.mem (dirname + i)) ((n + 1) % 2 ^ 32) = 0 then
    if s.heap.mem (s.ptr + 156) = ustarDir then { s with foundDir := true } else s.append
  else s

/-- One round of the loop. -/
def round (dirname n : ℕ) (s : Readdir) : Readdir :=
  let len := u64 (oct2bin (fun i => s.heap.mem (s.ptr + 124 + i)) 11)
  let blocks := if 0 < numBlocks len then numBlocks len else 1
  { s.collect dirname n with ptr := add64 s.ptr (blockSize * blocks) }

/-- The loop of `ustar_readdir`. -/
def loop (dirname : ℕ) : ℕ → Readdir → Option Readdir
  | 0, _ => none
  | fuel + 1, s =>
    if strncmp (fun i => s.heap.mem (s.ptr + 257 + i)) (fun i => signature.getD i 0) 5 = 0 then
      (strlen (fun i => s.heap.mem (dirname + i)) fuel).bind fun n =>
        loop dirname fuel (s.round dirname n)
    else some s

/-- The locals before the loop. -/
def start (h : Heap) (ustar : ℕ) : Readdir :=
  let results := kalloc h pointerSize
  ⟨results.2, ustar, false, results.1.getD 0, 0, 1⟩

end Readdir

/-- `ustar_readdir`. -/
def ustarReaddir (h : Heap) (ustar dirname fuel : ℕ) : Option (ℕ × Heap) :=
  (Readdir.loop dirname fuel (Readdir.start h ustar)).map fun s =>
    (if s.foundDir then s.results else 0, s.heap)

end Vardar.Ustar
