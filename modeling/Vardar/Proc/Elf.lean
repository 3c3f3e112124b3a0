import Vardar.Vmm.Vmm

/-!
# The ELF loader

`parse_elf` takes a frame as the root of a new address space, copies every page of the loadable
segments into a frame of its own, maps these frames and a stack for the user, and adds the
kernel's mappings. It checks neither the frames it gets nor the results of the mappings.

`raw_elf` is an address in the kernel's address space. What the kernel reads there depends on the
memory, so an image is a function of it; offsets count from `raw_elf`. A null frame is the address
0 of the flat memory.

## Main definitions

* `Vardar.Kernel`, `Vardar.mapHeap`.
* `Vardar.Elf.Image`, `Vardar.Elf.Phdr`, `Vardar.Elf.Pcb`, `Vardar.Elf.Load`.
* `Vardar.Elf.loadSegments`, `Vardar.Elf.parseElf`.
-/

namespace Vardar

open ByteMemory Word Vmm

/-- `KERNEL_PAGE_TABLE_ROOT`, `HEAP_START`, `HEAP_SIZE` and the boot information. -/
structure Kernel where
  info : BootInfo
  root : ℕ
  heapStart : ℕ
  heapSize : ℕ

/-- The next multiple of the page size, as the loader and the heap round up. -/
def roundUp (n : ℕ) : ℕ := sub64 (add64 n (1 <<< 12)) 1 >>> 12 <<< 12

/-- `map_heap`. -/
def mapHeap (fuel : ℕ) (k : Kernel) (root : ℕ) (s : Machine) : Option Machine :=
  let heapPaddr := vAddrToPAddr s.mem k.root k.heapStart
  mapIf True fuel root heapPaddr (add64 heapPaddr (roundUp k.heapSize)) kernelData kernelPage s

namespace Elf

/-- The bytes the kernel reads at `raw_elf`, by offset. -/
abbrev Image : Type := Mem → ℕ → BitVec 8

/-- `ELF_MAGIC`. -/
def elfMagic (i : ℕ) : BitVec 8 := [0x7F#8, 0x45#8, 0x4C#8, 0x46#8].getD i 0

/-- `USER_PROC_PAGE`. -/
def userProcPage : ℕ := present ||| readWritable ||| userAccessible

/-- `DEFAULT_STACK_BASE`. -/
def defaultStackBase : ℕ := 0xFFFFFFFF

/-- `ELF_PHDR_LOAD`. -/
def elfPhdrLoad : ℕ := 1

/-- `entry_pt` of `elf_hdr_t`. -/
def entryPt (img : ℕ → BitVec 8) : ℕ := load img 24 8

/-- `phdr_offset` of `elf_hdr_t`. -/
def phdrOffset (img : ℕ → BitVec 8) : ℕ := load img 32 8

/-- `phdr_num_entries` of `elf_hdr_t`. -/
def phdrNumEntries (img : ℕ → BitVec 8) : ℕ := load img 56 2

/-- The fields of `elf_phdr_t` that matter for loading; `parse_elf` does not read `file_size`. -/
structure Phdr where
  type : ℕ
  offset : ℕ
  vaddr : ℕ
  fileSize : ℕ
  memSize : ℕ
  deriving DecidableEq

/-- `phdrs[i]`, for a table at the given offset. -/
def phdr (img : ℕ → BitVec 8) (phdrs i : ℕ) : Phdr where
  type := load img (add64 phdrs (56 * i)) 4
  offset := load img (add64 phdrs (56 * i + 8)) 8
  vaddr := load img (add64 phdrs (56 * i + 16)) 8
  fileSize := load img (add64 phdrs (56 * i + 32)) 8
  memSize := load img (add64 phdrs (56 * i + 40)) 8

/-- `seg_bound`, rounded up. -/
def Phdr.segBound (ph : Phdr) : ℕ := roundUp (add64 ph.vaddr ph.memSize)

/-- The fields of `pcb_t` that `parse_elf` writes. -/
structure Pcb where
  pagemap : ℕ
  rip : ℕ
  rsp : ℕ
  rbp : ℕ

/-- A machine on which a process is loaded. `pages` is not in the source: it lists what
`AllocFirstFrame` returned for segment pages and for the stack, newest first. -/
structure Load where
  machine : Machine
  pages : List (Option ℕ)

/-- An `AllocFirstFrame` for a segment page or the stack, as an address. -/
def Load.allocPage (x : Load) : ℕ × Load :=
  (x.machine.allocFirstFrame.1.getD 0,
    ⟨x.machine.allocFirstFrame.2, x.machine.allocFirstFrame.1 :: x.pages⟩)

/-- `memmove` of a page at the given offset of the image into a frame. -/
def copyPage (img : Image) (m : Mem) (frame off : ℕ) : Mem := fun x =>
  if frame ≤ x ∧ x < frame + 0x1000 then img m (off + (x - frame)) else m x

/-- One round of the loop over the pages of a segment. -/
def loadPage (img : Image) (root vaddr off : ℕ) (x : Load) : Load :=
  let (frame, x) := x.allocPage
  let s := { x.machine with mem := copyPage img x.machine.mem frame off }
  { x with machine := (mapPage s root vaddr frame userProcPage).2 }

/-- The loop over the pages of a segment, from `off` on. -/
def loadPages (img : Image) (root : ℕ) (ph : Phdr) : ℕ → ℕ → Load → Option Load
  | 0, _, _ => none
  | fuel + 1, off, x =>
    if off < ph.segBound then
      loadPages img root ph fuel (add64 off 0x1000)
        (loadPage img root (add64 ph.vaddr off) (add64 ph.offset off) x)
    else some x

/-- The body of the loop over the program headers. -/
def loadSegment (img : Image) (root fuel : ℕ) (ph : Phdr) (x : Load) : Option Load :=
  if ph.type = elfPhdrLoad then loadPages img root ph fuel 0 x else some x

/-- The loop over the program headers, from header `i` on. -/
def loadSegments (img : Image) (root phdrs pageFuel : ℕ) : ℕ → ℕ → Load → Option Load
  | 0, _, _ => none
  | fuel + 1, i, x =>
    if i < phdrNumEntries (img x.machine.mem) then do
      let x ← loadSegment img root pageFuel (phdr (img x.machine.mem) phdrs i) x
      loadSegments img root phdrs pageFuel fuel (i + 1) x
    else some x

/-- The stack: a frame of its own, mapped for the user. -/
def mapStack (root : ℕ) (x : Load) : Load :=
  let (stack, x) := x.allocPage
  { x with machine := (mapPage x.machine root defaultStackBase stack userProcPage).2 }

/-- `parse_elf`: the result, the process control block and the state after it. -/
def parseElf (fuel : ℕ) (k : Kernel) (rawElf : Image) (pcb : Pcb) (s : Machine) :
    Option (ℤ × Pcb × Load) :=
  let (pagemap, s) := s.allocFirstFrame
  let pcb := { pcb with pagemap := pagemap.getD 0 }
  if strncmp (rawElf s.mem) elfMagic 4 ≠ 0 then some (-1, pcb, ⟨s, []⟩)
  else do
    let pcb := { pcb with rip := entryPt (rawElf s.mem) }
    let x ← loadSegments rawElf pcb.pagemap (phdrOffset (rawElf s.mem)) fuel fuel 0 ⟨s, []⟩
    let x := mapStack pcb.pagemap x
    let (_, s) ← mapKernelPmrs fuel k.info pcb.pagemap x.machine
    let s ← mapHeap fuel k pcb.pagemap s
    some (0, { pcb with rbp := defaultStackBase, rsp := defaultStackBase }, ⟨s, x.pages⟩)

/-- The bytes with the given fields, each an offset, a size and a value, and 0 elsewhere. -/
def bytesOf (fields : List (ℕ × ℕ × ℕ)) : ℕ → BitVec 8 :=
  fields.foldl (fun m f => store m f.1 f.2.1 f.2.2) fun _ => 0

/-- An image with its magic and one loadable segment. -/
def oneSegment (offset vaddr fileSize memSize : ℕ) : ℕ → BitVec 8 :=
  bytesOf [(0, 4, 0x464C457F), (32, 8, 64), (56, 2, 1), (64, 4, 1), (72, 8, offset),
    (80, 8, vaddr), (96, 8, fileSize), (104, 8, memSize)]

end Elf

end Vardar
