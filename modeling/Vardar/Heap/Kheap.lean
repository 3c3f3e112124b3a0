import Vardar.Lib.Word
import Vardar.Utils.CString

/-!
# The kernel heap

`kheap.c` keeps its blocks back to back in `[HEAP_START, HEAP_START + HEAP_SIZE)`. A block is a
four-byte header, a body and a four-byte footer; header and footer hold the size of the body with
the allocation bit in bit 0. Sizes are read back through `SIZE_MASK`, which keeps bits 1 to 15.

The memory is one byte memory, pointers are 64-bit words and a null pointer is `none`. Only
`kalloc`, `krealloc`, `kfree` and what they call are here.

## Main definitions

* `Vardar.Kheap.Heap`: the memory with `HEAP_START` and `HEAP_SIZE`.
* `Vardar.Kheap.initHeap`, `Vardar.Kheap.kalloc`, `Vardar.Kheap.kfree`, `Vardar.Kheap.krealloc`.
* `Vardar.Kheap.splitBlock`, `Vardar.Kheap.mergeBlock`: the two operations that rewrite tags.
-/

namespace Vardar.Kheap

open ByteMemory Word

/-- `SIZE_MASK`. -/
def sizeMask : ℕ := 0xFFFE

/-- `HEADER_SIZE`. -/
def headerSize : ℕ := 4

/-- `FOOTER_SIZE`. -/
def footerSize : ℕ := 4

/-- `MDATA_SIZE`. -/
def mdataSize : ℕ := 8

/-- The memory, `HEAP_START` and `HEAP_SIZE`. -/
structure Heap where
  mem : Mem
  start : ℕ
  size : ℕ

namespace Heap

/-- The `uint32_t` at `p`. -/
def tag (h : Heap) (p : ℕ) : ℕ := load h.mem p 4

/-- Store a `uint32_t` at `p`. -/
def setTag (h : Heap) (p v : ℕ) : Heap := { h with mem := store h.mem p 4 v }

/-- `HEAP_START + HEAP_SIZE`. -/
def limit (h : Heap) : ℕ := add64 h.start h.size

end Heap

/-- `init_heap`, the memory at `frame + KERNEL_DATA` being what `AllocContiguous` returned. -/
def initHeap (mem : Mem) (heapStart heapSize : ℕ) : Heap :=
  let h : Heap := ⟨mem, heapStart, heapSize⟩
  let h := h.setTag heapStart (sub64 heapSize mdataSize)
  h.setTag (add64 (add64 heapStart headerSize) (h.tag heapStart)) (h.tag heapStart)

/-- `footer_from_header`. -/
def footerFromHeader (h : Heap) (header : ℕ) : ℕ :=
  add64 (add64 header headerSize) (h.tag header &&& sizeMask)

/-- `header_from_footer`. -/
def headerFromFooter (h : Heap) (footer : ℕ) : ℕ :=
  sub64 (sub64 footer (h.tag footer &&& sizeMask)) headerSize

/-- `next_header`: null after the last block. -/
def nextHeader (h : Heap) (header : ℕ) : Option ℕ :=
  let next := add64 (add64 (add64 header headerSize) (h.tag header &&& sizeMask)) footerSize
  if next = h.limit then none else some next

/-- `prev_footer`: null before the first block. -/
def prevFooter (h : Heap) (footer : ℕ) : Option ℕ :=
  let blockSize := h.tag footer &&& sizeMask
  if sub64 (sub64 footer blockSize) headerSize = h.start then none
  else some (sub64 (sub64 (sub64 footer blockSize) headerSize) footerSize)

/-- `merge_size`. -/
def mergeSize (h : Heap) (block1 block2 : ℕ) : ℕ :=
  (h.tag block1 &&& sizeMask) + (h.tag block2 &&& sizeMask) + mdataSize

/-- `split_block`. The result of the call is never used by `kalloc`; null is `none`. -/
def splitBlock (h : Heap) (block allocSize : ℕ) : Option ℕ × Heap :=
  let blockSize := h.tag block &&& sizeMask
  if blockSize < allocSize then (none, h)
  else
    let outerFooter := footerFromHeader h block
    let h := h.setTag block (allocSize ||| 1)
    let innerHeader := nextHeader h block
    let innerFooter := footerFromHeader h block
    let h := h.setTag innerFooter (h.tag block)
    if allocSize = blockSize then (some block, h)
    else if blockSize < allocSize + mdataSize then
      let h := h.setTag block (blockSize ||| 1)
      -- `inner_footer` still points at the footer of the smaller block.
      let h := h.setTag innerFooter (h.tag block)
      (some block, h)
    else
      let inner := innerHeader.getD 0
      let h := h.setTag inner (blockSize - allocSize - mdataSize)
      let h := h.setTag outerFooter (h.tag inner)
      (some block, h)

/-- `merge_block`. -/
def mergeBlock (h : Heap) (first second : ℕ) : Option ℕ × Heap :=
  let secondFooter := footerFromHeader h second
  if nextHeader h first ≠ some second then (none, h)
  else
    let h := h.setTag first (mergeSize h first second ||| (h.tag first &&& 1))
    let h := h.setTag secondFooter (h.tag first)
    (some first, h)

/-- The search loop of `kalloc`: the first pointer that has left the heap or has an unallocated
header above `size`. Every round advances by at least eight bytes. -/
def findBlock (h : Heap) (size : ℕ) : ℕ → ℕ → ℕ
  | 0, ptr => ptr
  | fuel + 1, ptr =>
    if ptr < h.limit ∧ (h.tag ptr &&& 1 ≠ 0 ∨ h.tag ptr ≤ size) then
      findBlock h size fuel
        (add64 ptr ((h.tag ptr &&& sizeMask) + headerSize + footerSize))
    else ptr

/-- The size `kalloc` passes on, rounded up to an even number. -/
def evenSize (size : ℕ) : ℕ := (add64 size 1 >>> 1) <<< 1

/-- `kalloc`. -/
def kalloc (h : Heap) (size : ℕ) : Option ℕ × Heap :=
  let ptr := findBlock h size h.size h.start
  if ptr < h.limit then
    let newSize := evenSize size
    let h := (splitBlock h ptr newSize).2
    let h := { h with mem := memset h.mem (add64 ptr headerSize) 0 newSize }
    (some (add64 ptr headerSize), h)
  else (none, h)

/-- The merge of a block being freed with the block after it. -/
def mergeNext (h : Heap) (header : ℕ) : Option ℕ → Heap
  | some next => if h.tag next &&& 1 = 0 then (mergeBlock h header next).2 else h
  | none => h

/-- The merge of a block being freed with the block before it, found by its footer. -/
def mergePrev (h : Heap) (header : ℕ) : Option ℕ → Heap
  | some footer =>
    if h.tag footer &&& 1 = 0 then (mergeBlock h (headerFromFooter h footer) header).2 else h
  | none => h

/-- `kfree`. -/
def kfree (h : Heap) (allocation : ℕ) : Heap :=
  let header := sub64 allocation headerSize
  let h := h.setTag header (h.tag header &&& sizeMask)
  let footer := add64 allocation (h.tag header)
  let h := h.setTag footer (h.tag footer &&& sizeMask)
  let nextBlockHeader := nextHeader h header
  let prevBlockFooter := prevFooter h footer
  let h := mergeNext h header nextBlockHeader
  mergePrev h header prevBlockFooter

/-- `threeway_merge_size`. -/
def threewayMergeSize (h : Heap) (front middle back : ℕ) : ℕ :=
  (h.tag front &&& sizeMask) + (h.tag middle &&& sizeMask) + (h.tag back &&& sizeMask) +
    mdataSize * 2

/-- `merge_forward`. -/
def mergeForward (h : Heap) (first second size : ℕ) : Option ℕ × Heap :=
  let secondSize := h.tag second &&& sizeMask
  let (newBlock, h) := mergeBlock h first second
  let h := { h with mem := memset h.mem second 0 (secondSize + headerSize) }
  splitBlock h (newBlock.getD 0) size

/-- `merge_backward`. -/
def mergeBackward (h : Heap) (first second size : ℕ) : Option ℕ × Heap :=
  let secondSize := h.tag second &&& sizeMask
  let h := { h with
    mem := memmove h.mem (add64 first headerSize) (add64 second headerSize) secondSize }
  let (newBlock, h) := mergeBlock h first second
  let h := { h with mem := memset h.mem second 0 (secondSize + headerSize) }
  splitBlock h (newBlock.getD 0) size

/-- `threeway_merge`. -/
def threewayMerge (h : Heap) (front middle back size : ℕ) : Option ℕ × Heap :=
  let backFooter := footerFromHeader h back
  let middleSize := h.tag middle &&& sizeMask
  let h := h.setTag front (threewayMergeSize h front middle back ||| 1)
  let h := h.setTag backFooter (h.tag front)
  -- the arguments are the destination and the source, in this order
  let h := { h with mem := memmove h.mem middle front middleSize }
  let sizeToZero := sub64 backFooter (add64 front middleSize)
  let h := { h with mem := memset h.mem (add64 front middleSize) 0 sizeToZero }
  splitBlock h front size

/-- `HEADER_SIZE` after the block that a merge returned, null or not. -/
def payload (r : Option ℕ × Heap) : Option ℕ × Heap :=
  (some (add64 (r.1.getD 0) headerSize), r.2)

/-- The last lines of `krealloc`: a new allocation, a copy and a free. -/
def moveAllocation (h : Heap) (allocation blockSize size : ℕ) : Option ℕ × Heap :=
  match kalloc h size with
  | (none, h) => (none, h)
  | (some newAllocation, h) =>
    let h := { h with
      mem := memmove h.mem (add64 newAllocation headerSize) (add64 allocation headerSize) blockSize }
    (some (add64 newAllocation headerSize), kfree h allocation)

/-- The choice `krealloc` makes between its four ways, `size` being rounded and the neighbours
given if they are free. -/
def reallocBlock (h : Heap) (allocation header blockSize : ℕ) (prevBlock nextBlock : Option ℕ)
    (size : ℕ) : Option ℕ × Heap :=
  match nextBlock.filter fun next => size ≤ mergeSize h header next with
  | some next => payload (mergeForward h header next size)
  | none =>
    match prevBlock.filter fun prev => size ≤ mergeSize h prev header with
    | some prev => payload (mergeBackward h prev header size)
    | none =>
      match prevBlock, nextBlock with
      | some prev, some next =>
        if size ≤ threewayMergeSize h prev header next then
          payload (threewayMerge h prev header next size)
        else moveAllocation h allocation blockSize size
      | _, _ => moveAllocation h allocation blockSize size

/-- `krealloc`. The previous block is null exactly if its footer is: no block is at address 0. -/
def krealloc (h : Heap) (allocation size : ℕ) : Option ℕ × Heap :=
  let header := sub64 allocation headerSize
  let blockSize := h.tag header &&& sizeMask
  let footer := add64 allocation blockSize
  let nextBlock := (nextHeader h header).filter fun next => h.tag next &&& 1 = 0
  let prevBlock :=
    ((prevFooter h footer).filter fun f => h.tag f &&& 1 = 0).map (headerFromFooter h)
  reallocBlock h allocation header blockSize prevBlock nextBlock (evenSize size)

end Vardar.Kheap
