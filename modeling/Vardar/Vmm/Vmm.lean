import Vardar.Pmm.Pmm

/-!
# The virtual memory manager

`virtual_memory_manager.c` keeps four-level page tables in page frames. A table is 512 eight-byte
entries; the low nine bits of an entry are flags and the rest is the address of a child table or,
in the last table, of a page frame. Tables are addressed physically, through the identity mapping.

The page frames come from `AllocFirstFrame`, which is a sequence of results here: each call takes
the next one, and a result that is not null is zeroed. Loops over addresses take a bound on their
rounds and return `none` when it is used up. `TestKernelMapping` only prints and is left out.

## Main definitions

* `Vardar.Machine`, `Vardar.Machine.allocFirstFrame`.
* `Vardar.Vmm.mapPage`, `Vardar.Vmm.unmapPage`, `Vardar.Vmm.vAddrToPAddr`.
* `Vardar.Vmm.remapPage`, `Vardar.Vmm.assertKernelMapping`.
* `Vardar.Vmm.mapMultiple`, `Vardar.Vmm.mapKernelPmrs`, `Vardar.Vmm.initPageTable`.
-/

namespace Vardar

open ByteMemory Word

/-- The memory, what the calls of `AllocFirstFrame` return, and the number of calls made. -/
structure Machine where
  mem : Mem
  frames : ℕ → Option ℕ
  next : ℕ

/-- The effect of a call of `AllocFirstFrame` with the given result. -/
def Machine.take (s : Machine) : Option ℕ → Machine
  | none => { s with next := s.next + 1 }
  | some f => { s with mem := memset s.mem f 0 frameSize, next := s.next + 1 }

/-- `AllocFirstFrame`: the next result, zeroed. -/
def Machine.allocFirstFrame (s : Machine) : Option ℕ × Machine :=
  (s.frames s.next, s.take (s.frames s.next))

namespace Vmm

/-! ### Addresses and flags -/

/-- `KERNEL_DATA`. -/
def kernelData : ℕ := 0xffff800000000000

/-- `PRESENT`. -/
def present : ℕ := 1

/-- `READ_WRITABLE`. -/
def readWritable : ℕ := 1 <<< 1

/-- `USER_ACCESSIBLE`. -/
def userAccessible : ℕ := 1 <<< 2

/-- `EXECUTABLE`. -/
def executable : ℕ := 2 ^ 64 - 1 - 1 <<< 62

/-- `KERNEL_PAGE`. -/
def kernelPage : ℕ := present ||| readWritable

/-- `USER_PAGE`. -/
def userPage : ℕ := present ||| readWritable ||| userAccessible

/-- `~(511)`, as a 64-bit word. -/
def addressMask : ℕ := 2 ^ 64 - 512

/-- `V_ADDR_INDEX`. -/
def vAddrIndex (vaddr level : ℕ) : Fin 512 :=
  ⟨vaddr >>> (12 + 9 * (level - 1)) &&& 0x1FF, Nat.lt_of_le_of_lt Nat.and_le_right (by decide)⟩

/-! ### Tables -/

/-- The address of entry `i` of a table. -/
def slot (table : ℕ) (i : Fin 512) : ℕ := add64 table (8 * i)

/-- Entry `i` of a table. -/
def entry (m : Mem) (table : ℕ) (i : Fin 512) : ℕ := load m (slot table i) 8

/-- `GetPageFlag`. -/
def getPageFlag (page flag : ℕ) : Bool := page &&& flag ≠ 0

/-- A pointer, `none` if it is null. -/
def nonNull (pointer : ℕ) : Option ℕ := if pointer = 0 then none else some pointer

/-- The table an entry points to. -/
def tableOf (page : ℕ) : Option ℕ :=
  if getPageFlag page present then nonNull (page &&& addressMask) else none

/-- `GetPageTable`. -/
def getPageTable (m : Mem) (parent : ℕ) (index : Fin 512) : Option ℕ :=
  tableOf (entry m parent index)

/-- Link a new table if the allocation succeeded. -/
def linkTable (s : Machine) (parent : ℕ) (index : Fin 512) (flags : ℕ) :
    Option ℕ → Option ℕ × Machine
  | none => (none, s)
  | some f => (some f, { s with mem := store s.mem (slot parent index) 8 (f ||| flags) })

/-- `GetOrCreatePageTable`. -/
def getOrCreatePageTable (s : Machine) (parent : ℕ) (index : Fin 512) (flags : ℕ) :
    Option ℕ × Machine :=
  if getPageFlag (entry s.mem parent index) present then
    (nonNull (entry s.mem parent index &&& addressMask), s)
  else
    linkTable s.allocFirstFrame.2 parent index flags s.allocFirstFrame.1

/-- The loop of `GetPage` and `VAddrToPAddr` over the given levels. -/
def getTables (m : Mem) (vaddr : ℕ) : List ℕ → ℕ → Option ℕ
  | [], parent => some parent
  | i :: levels, parent =>
    (getPageTable m parent (vAddrIndex vaddr i)).bind fun child => getTables m vaddr levels child

/-- `GetPage`: the address of the entry. -/
def getPage (m : Mem) (root vaddr : ℕ) : Option ℕ :=
  (getTables m vaddr [4, 3, 2] root).map fun table => slot table (vAddrIndex vaddr 1)

/-- The loop of `CreatePage` over the given levels. -/
def createTables (vaddr flags : ℕ) : List ℕ → ℕ → Machine → Option ℕ × Machine
  | [], parent, s => (some parent, s)
  | i :: levels, parent, s =>
    match getOrCreatePageTable s parent (vAddrIndex vaddr i) flags with
    | (none, s) => (none, s)
    | (some child, s) => createTables vaddr flags levels child s

/-- `CreatePage`: the address of the entry. -/
def createPage (s : Machine) (root vaddr flags : ℕ) : Option ℕ × Machine :=
  let r := createTables vaddr flags [4, 3, 2] root s
  (r.1.map fun table => slot table (vAddrIndex vaddr 1), r.2)

/-- `MapPage`. -/
def mapPage (s : Machine) (root vaddr paddr flags : ℕ) : Bool × Machine :=
  match createPage s root vaddr flags with
  | (none, s) => (false, s)
  | (some e, s) => (true, { s with mem := store s.mem e 8 (paddr ||| flags) })

/-- `UnmapPage`. -/
def unmapPage (s : Machine) (root vaddr : ℕ) : Bool × Machine :=
  match getPage s.mem root vaddr with
  | none => (false, s)
  | some e => (true, { s with mem := store s.mem e 8 0 })

/-- `VAddrToPAddr`. -/
def vAddrToPAddr (m : Mem) (root vaddr : ℕ) : ℕ :=
  match getTables m vaddr [4, 3, 2] root with
  | none => 0
  | some table => entry m table (vAddrIndex vaddr 1) &&& addressMask

/-- `RemapPage`, which does not read `new_vaddr`. -/
def remapPage (s : Machine) (root formerVaddr _newVaddr flags : ℕ) : Bool × Machine :=
  let paddr := vAddrToPAddr s.mem root formerVaddr
  let (unmapCode, s) := unmapPage s root formerVaddr
  let (mapCode, s) := mapPage s root formerVaddr paddr flags
  (unmapCode && mapCode, s)

/-- `KernelVAddrToPAddr`, `KERNEL_PAGE_TABLE_ROOT` given. -/
def kernelVAddrToPAddr (m : Mem) (kernelPageTableRoot vaddr : ℕ) : ℕ :=
  vAddrToPAddr m kernelPageTableRoot vaddr

/-- `RemapKernelPage`, `KERNEL_PAGE_TABLE_ROOT` given. -/
def remapKernelPage (s : Machine) (kernelPageTableRoot formerVaddr newVaddr flags : ℕ) :
    Bool × Machine :=
  remapPage s kernelPageTableRoot formerVaddr newVaddr flags

/-- An index of `AssertKernelMapping`: masked first, then shifted. -/
def entryIndex (virtAddr shift : ℕ) : Fin 512 :=
  ⟨(virtAddr &&& 0x1ff <<< shift) >>> shift, by
    rw [Nat.shiftRight_and_distrib, Nat.shiftLeft_shiftRight]
    exact Nat.lt_of_le_of_lt Nat.and_le_right (by decide)⟩

/-- `! page & PRESENT`: the negation binds tighter than the mask. -/
def notPage (page : ℕ) : ℕ := (if page = 0 then 1 else 0) &&& present

/-- `AssertKernelMapping`, `KERNEL_PAGE_TABLE_ROOT` given. -/
def assertKernelMapping (m : Mem) (kernelPageTableRoot physAddr virtAddr : ℕ) : Bool :=
  if kernelPageTableRoot = 0 then false
  else match getPageTable m kernelPageTableRoot (entryIndex virtAddr 39) with
    | none => false
    | some pml3 => match getPageTable m pml3 (entryIndex virtAddr 30) with
      | none => false
      | some pml2 => match getPageTable m pml2 (entryIndex virtAddr 21) with
        | none => false
        | some pml1 =>
          if notPage (entry m pml1 (entryIndex virtAddr 12)) ≠ 0 then false
          else entry m pml1 (entryIndex virtAddr 12) &&& addressMask = physAddr

/-- `MapMultiple`, from `addr` on. -/
def mapMultiple (root bound offset flags : ℕ) : ℕ → ℕ → Machine → Option (Bool × Machine)
  | 0, _, _ => none
  | fuel + 1, addr, s =>
    if addr < bound then
      match mapPage s root (add64 addr offset) addr flags with
      | (false, s) => some (false, s)
      | (true, s) => mapMultiple root bound offset flags fuel (add64 addr frameSize) s
    else some (true, s)

/-! ### The kernel's mappings -/

/-- `struct stivale2_pmr`, without the permissions, which nothing reads. -/
structure Pmr where
  base : ℕ
  length : ℕ

/-- `MMAP`, `BASE_ADDR` and `PMRs`. -/
structure BootInfo where
  memmap : List MmapEntry
  physicalBaseAddress : ℕ
  virtualBaseAddress : ℕ
  pmrs : List Pmr

/-- `STIVALE2_MMAP_BOOTLOADER_RECLAIMABLE`. -/
def bootloaderReclaimable : ℕ := 0x1000

/-- `STIVALE2_MMAP_FRAMEBUFFER`. -/
def framebuffer : ℕ := 0x1002

/-- `four_gb`. -/
def fourGb : ℕ := 0x100000000

/-- `phys` of a protected memory range. -/
def BootInfo.phys (info : BootInfo) (pmr : Pmr) : ℕ :=
  add64 info.physicalBaseAddress (sub64 pmr.base info.virtualBaseAddress)

/-- The loop of `MapKernelPmrs` over the protected memory ranges. -/
def mapPmrs (fuel : ℕ) (info : BootInfo) (root : ℕ) :
    List Pmr → Bool → Machine → Option (Bool × Machine)
  | [], success, s => some (success, s)
  | pmr :: pmrs, success, s => do
    let phys := info.phys pmr
    let (b, s) ← mapMultiple root (add64 phys pmr.length) (sub64 pmr.base phys) kernelPage fuel phys s
    mapPmrs fuel info root pmrs (success && b) s

/-- A `MapMultiple` whose result is not used, made if `c` holds. -/
def mapIf (c : Prop) [Decidable c] (fuel root base bound offset flags : ℕ) (s : Machine) :
    Option Machine :=
  if c then (mapMultiple root bound offset flags fuel base s).map Prod.snd else some s

/-- The loop of `MapKernelPmrs` over the memory map. -/
def mapEntries (fuel root : ℕ) : List MmapEntry → Bool → Machine → Option (Bool × Machine)
  | [], success, s => some (success, s)
  | e :: es, success, s => do
    let bound := add64 e.base e.length
    let s ← mapIf (e.type = framebuffer ∨ e.type = bootloaderReclaimable) fuel root e.base bound 0
      (kernelPage &&& executable) s
    let s ← mapIf (e.type = framebuffer) fuel root e.base bound kernelData
      (kernelPage &&& executable) s
    if bound ≤ 0x100000000 then mapEntries fuel root es success s
    else do
      let (b, s) ← mapMultiple root bound 0 kernelPage fuel e.base s
      let (b', s) ← mapMultiple root bound kernelData kernelPage fuel e.base s
      mapEntries fuel root es (success && b && b') s

/-- `MapKernelPmrs`. -/
def mapKernelPmrs (fuel : ℕ) (info : BootInfo) (root : ℕ) (s : Machine) :
    Option (Bool × Machine) := do
  let s ← mapIf True fuel root 0x1000 fourGb kernelData kernelPage s
  let (success, s) ← mapPmrs fuel info root info.pmrs true s
  mapEntries fuel root info.memmap success s

/-- `InitPageTable`: the result, `KERNEL_PAGE_TABLE_ROOT` and the state after it. -/
def initPageTable (fuel : ℕ) (info : BootInfo) (s : Machine) : Option (Bool × ℕ × Machine) :=
  match s.allocFirstFrame with
  | (none, s) => some (false, 0, s)
  | (some root, s) => do
    let (b, s) ← mapKernelPmrs fuel info root s
    let (b', s) ← mapMultiple root fourGb 0 kernelPage fuel 0x1000 s
    let (b'', s) ← mapMultiple root fourGb kernelData kernelPage fuel 0x1000 s
    some (b && b' && b'', root, s)

end Vmm

end Vardar
