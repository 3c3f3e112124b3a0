import Vardar.Lib.Word
import Vardar.Utils.CString

/-!
# The physical memory manager

`physical_memory_manager.c` keeps one bit for each page frame in a bitmap that lies in the first
usable memory-map entry large enough for it. The bitmap is part of the byte memory whose frames
are handed out and zeroed.

Frame indices are C `int`s and wrap modulo `2 ^ 32`; a shift by a negative count takes the count
modulo 32 as the processor does. The two searches can run forever, so they take a bound on their
rounds and return `none` when it is used up or when a remainder by zero traps. The entries of a
memory map are a list, and the counters over them are natural numbers.

## Main definitions

* `Vardar.Pmm`: the memory and the fields of `PHYS_MEMORY_MAP` the functions use.
* `Vardar.Pmm.initPmm`, `Vardar.Pmm.allocFirstFrame`, `Vardar.Pmm.allocContiguous`,
  `Vardar.Pmm.freeFrame`, `Vardar.Pmm.numFreeFrames`.
-/

namespace Vardar

open ByteMemory Word

/-- `FRAME_SIZE`. -/
def frameSize : ℕ := 4096

/-- `struct stivale2_mmap_entry`. -/
structure MmapEntry where
  base : ℕ
  length : ℕ
  type : ℕ

/-- `USABLE_PAGE`. -/
def usablePage : ℕ := 1

/-- `RoundToNearestMultiple`. The mask is a `uint32_t`. -/
def roundToNearestMultiple (num multiple : ℕ) : ℕ :=
  sub64 (add64 num multiple) 1 &&& (2 ^ 32 - 1 - (multiple + (2 ^ 32 - 1)) % 2 ^ 32)

/-- `PHYS_MEMORY_MAP` and the memory it describes. `cleared` is not in the source: it lists the
ranges that the calls have zeroed. -/
structure Pmm where
  mem : Mem
  numEntries : ℕ
  lastUsed : ℕ
  bitmapSize : ℕ
  bitmap : ℕ
  uppermostAddr : ℕ
  cleared : List (ℕ × ℕ)

namespace Pmm

/-- The address of `bitmap[index / 8]`. -/
def bitmapByte (p : Pmm) (index : ℤ) : ℕ := add64 p.bitmap (u64 (index.tdiv 8))

/-- The count of a shift by `index % 8`. -/
def shiftCount (index : ℤ) : ℕ := (index.tmod 8 % 32).toNat

/-- `SetPageUsed`. -/
def setPageUsed (p : Pmm) (index : ℤ) : Pmm :=
  let a := p.bitmapByte index
  { p with mem := Function.update p.mem a (p.mem a ||| 1#8 <<< shiftCount index) }

/-- `SetPageFree`. -/
def setPageFree (p : Pmm) (index : ℤ) : Pmm :=
  let a := p.bitmapByte index
  { p with mem := Function.update p.mem a (p.mem a &&& ~~~(1#8 <<< shiftCount index)) }

/-- `PageIsUsed`. -/
def pageIsUsed (p : Pmm) (index : ℤ) : Bool :=
  p.mem (p.bitmapByte index) >>> shiftCount index &&& 1#8 = 1#8

/-- `memset(a, 0, n)`. -/
def zero (p : Pmm) (a n : ℕ) : Pmm :=
  { p with mem := memset p.mem a 0 n, cleared := (a, n) :: p.cleared }

/-! ### `InitPmm` -/

/-- `UppermostUsableAddr`: the last usable entry decides. -/
def uppermostUsableAddr (memmap : List MmapEntry) : ℕ :=
  match memmap.reverse.find? fun e => e.type = usablePage with
  | some e => sub64 (add64 e.base e.length) 1
  | none => 0

/-- `FindMemEntryBySize`; `-1` is `none`. -/
def findMemEntryBySize (memmap : List MmapEntry) (minimumNumBytes : ℕ) : Option ℕ :=
  memmap.findIdx? fun e => minimumNumBytes ≤ e.length ∧ e.type = usablePage

/-- The loop that frees the pages of one entry. It runs at most `ending_page` rounds: an index
that has wrapped is a large unsigned number. -/
def setPagesFree (endingPage : ℕ) : ℕ → ℤ → Pmm → Pmm
  | 0, _, p => p
  | fuel + 1, i, p =>
    if u64 i < endingPage then setPagesFree endingPage fuel (int32 (i + 1)) (p.setPageFree i)
    else p

/-- One round of the loop of `InitPmm` over the entries. -/
def initEntry (bmpInd : ℕ) (p : Pmm) (i : ℕ) (e : MmapEntry) : Pmm :=
  if e.type = usablePage ∧ i ≠ bmpInd then
    let startingPage := e.base / frameSize
    let endingPage := startingPage + e.length / frameSize
    let p := setPagesFree endingPage endingPage (int32 startingPage) p
    if p.lastUsed = 0 then { p with lastUsed := sub64 startingPage 1 } else p
  else p

/-- The loop of `InitPmm` over the entries, from entry `i` on. -/
def initEntries (bmpInd : ℕ) : ℕ → List MmapEntry → Pmm → Pmm
  | _, [], p => p
  | i, e :: es, p => initEntries bmpInd (i + 1) es (initEntry bmpInd p i e)

/-- `InitPmm`. -/
def initPmm (p : Pmm) (memmap : List MmapEntry) : Bool × Pmm :=
  let uppermost := uppermostUsableAddr memmap
  let bitmapSize := uppermost / frameSize / 8 % 2 ^ 32
  let p := { p with
    numEntries := uppermost / frameSize
    bitmapSize := roundToNearestMultiple bitmapSize frameSize % 2 ^ 32
    uppermostAddr := uppermost }
  match findMemEntryBySize memmap p.bitmapSize with
  | none => (false, p)
  | some bmpInd =>
    let bitmap := ((memmap[bmpInd]?).map MmapEntry.base).getD 0
    let p := { p with bitmap := bitmap, mem := memset p.mem bitmap (-1) p.bitmapSize }
    (true, initEntries bmpInd 0 memmap p)

/-! ### Allocation -/

/-- The loop of `AllocFirstFrame`. -/
def allocFirstFrameFrom : ℕ → ℤ → Pmm → Option (Option ℕ × Pmm)
  | 0, _, _ => none
  | fuel + 1, i, p =>
    if u64 i = p.lastUsed then some (none, p)
    else if p.pageIsUsed i then
      if p.numEntries = 0 then none
      else allocFirstFrameFrom fuel (int32 ↑(u64 (int32 (i + 1)) % p.numEntries)) p
    else
      let p := { p.setPageUsed i with lastUsed := u64 i }
      let frame := u64 i * frameSize % 2 ^ 64
      some (some frame, p.zero frame frameSize)

/-- `AllocFirstFrame`, with at most `fuel` rounds. -/
def allocFirstFrame (fuel : ℕ) (p : Pmm) : Option (Option ℕ × Pmm) :=
  allocFirstFrameFrom fuel (int32 ↑(add64 p.lastUsed 1)) p

/-- The inner loop of `AllocContiguous`: whether it ran to its bound, and `tail`. -/
def findChunk (p : Pmm) (numPages head : ℕ) : ℕ → ℤ → Option (Bool × ℤ)
  | 0, _ => none
  | fuel + 1, tail =>
    if sub64 (u64 tail) head ≤ numPages then
      if p.pageIsUsed tail then some (false, tail)
      else findChunk p numPages head fuel (int32 (tail + 1))
    else some (true, tail)

/-- The loop of `AllocContiguous` that marks the chunk. -/
def setPagesUsed (tail : ℤ) : ℕ → ℤ → Pmm → Option Pmm
  | 0, _, _ => none
  | fuel + 1, i, p =>
    if i ≤ tail then setPagesUsed tail fuel (int32 (i + 1)) (p.setPageUsed i) else some p

/-- The number of pages for `size` bytes. -/
def numPages (size : ℕ) : ℕ := size / frameSize + if 0 < size % frameSize then 1 else 0

/-- The outer loop of `AllocContiguous`; `inner` bounds the inner loops. -/
def allocContiguousFrom (numPages inner : ℕ) : ℕ → ℕ → Pmm → Option (Option ℕ × Pmm)
  | 0, _, _ => none
  | fuel + 1, head, p =>
    if head = p.lastUsed then some (none, p)
    else
      match findChunk p numPages head inner (int32 head) with
      | none => none
      | some (false, tail) =>
        if p.numEntries = 0 then none
        else allocContiguousFrom numPages inner fuel (add64 (u64 tail) 1 % p.numEntries) p
      | some (true, tail) =>
        match setPagesUsed tail inner (int32 head) p with
        | none => none
        | some p =>
          let frame := head * frameSize % 2 ^ 64
          let p := p.zero frame (frameSize * numPages % 2 ^ 64)
          some (some frame, { p with lastUsed := add64 head numPages })

/-- `AllocContiguous`, with at most `fuel` rounds of each loop. -/
def allocContiguous (fuel : ℕ) (p : Pmm) (size : ℕ) : Option (Option ℕ × Pmm) :=
  allocContiguousFrom (numPages size) fuel fuel (add64 p.lastUsed 1) p

/-- `FreeFrame`. -/
def freeFrame (p : Pmm) (frame : ℕ) : Pmm :=
  (p.zero frame frameSize).setPageFree (int32 ↑(frame / frameSize))

/-- The loop of `NumFreeFrames`. It runs at most `num_entries` rounds: an index that has wrapped is
a large unsigned number. -/
def countFreeFrames (p : Pmm) : ℕ → ℤ → ℤ → ℤ
  | 0, _, freeFrames => freeFrames
  | fuel + 1, i, freeFrames =>
    if u64 i < p.numEntries then
      countFreeFrames p fuel (int32 (i + 1)) (int32 (freeFrames + if p.pageIsUsed i then 0 else 1))
    else freeFrames

/-- `NumFreeFrames`. -/
def numFreeFrames (p : Pmm) : ℤ := p.countFreeFrames p.numEntries 0 0

end Pmm

end Vardar
