import Vardar.Lib.Word
import Vardar.Lib.ByteMemory
import Vardar.Lib.Bitmap
import Vardar.Lib.Tiling
import Vardar.Lib.Run
import Vardar.Utils.CString
import Vardar.Heap.Kheap
import Vardar.Heap.Chain
import Vardar.Heap.Ops
import Vardar.Heap.Free
import Vardar.Heap.Runs
import Vardar.Heap.Store
import Vardar.Pmm.Pmm
import Vardar.Pmm.Ownership
import Vardar.Lib.RadixTree
import Vardar.Vmm.Vmm
import Vardar.Vmm.Refinement
import Vardar.Vmm.Rights
import Vardar.Lib.LastWrite
import Vardar.Vmm.Ranges
import Vardar.Vmm.Boot
import Vardar.Proc.Elf
import Vardar.Vmm.Advance
import Vardar.Proc.Pages
import Vardar.Proc.UserFrames
import Vardar.Proc.KernelHalf
import Vardar.Proc.Total
import Vardar.Proc.Loading
import Vardar.Acpi.Records
import Vardar.Hal.IoApic
import Vardar.Hal.Entries
import Vardar.Hal.Register
import Vardar.Hal.Setters
import Vardar.Hal.VectorIndex
import Vardar.Acpi.Encoding
import Vardar.Acpi.Order
import Vardar.Graphics.DoubleBuffer
import Vardar.Vfs.Archive
import Vardar.Pmm.Bounds
import Vardar.Graphics.Cursor
import Vardar.Interrupts.Keyboard
import Vardar.Utils.Format
import Vardar.Interrupts.Syscall
import Vardar.Heap.Coalesce
import Vardar.Vmm.Translation
import Vardar.Vmm.Coverage
import Vardar.Heap.Alloc
import Vardar.Heap.Realloc
import Vardar.Lib.RingSearch
import Vardar.Pmm.Scan
import Vardar.Pmm.Contiguous
import Vardar.Pmm.Count
import Vardar.Vmm.Supply
import Vardar.Vmm.Unmap
import Vardar.Vmm.Shortage
import Vardar.Lib.FirstMatch
import Vardar.Acpi.Acpi
import Vardar.Acpi.Overrides
import Vardar.Acpi.Lookup
import Vardar.Hal.Lapic
import Vardar.Lib.Loop
import Vardar.Acpi.Robust
import Vardar.Heap.Finite
import Vardar.Vfs.Walk
import Vardar.Vfs.Read
import Vardar.Vfs.Readdir
import Vardar.Lib.Moves
import Vardar.Graphics.Pixels
import Vardar.Graphics.Scroll
import Vardar.Proc.RunProc
import Vardar.Utils.Convert
import Vardar.Utils.Itoa
import Vardar.Lib.TextGrid
import Vardar.Graphics.TextScreen
import Vardar.Memory.Frames
import Vardar.Memory.Paging
import Vardar.Memory.Isolation
import Vardar.Graphics.Display
import Vardar.Interrupts.Typing
import Vardar.Utils.SpinLock
import Vardar.Lib.Protection
import Vardar.Gdt.Gdt
import Vardar.Interrupts.Idt
import Vardar.Interrupts.Entry
import Vardar.Lib.IntervalTimer
import Vardar.Hal.Pit
import Vardar.Utils.Strings
import Vardar.Hal.Lines
import Vardar.Proc.Start
import Vardar.Hal.CpuInit
import Vardar.Hal.LapicControl
