import DoomOs.Outcome
import DoomOs.Moves
import DoomOs.Numerals
import DoomOs.LinkedList
import DoomOs.Arranged
import DoomOs.RadixHeap
import DoomOs.Page
import DoomOs.Bitmap
import DoomOs.BitmapStorage
import DoomOs.BitmapShift
import DoomOs.BootInfo
import DoomOs.Pmm
import DoomOs.PmmInvariant
import DoomOs.PmmInitial
import DoomOs.PmmRuns
import DoomOs.Paging
import DoomOs.RadixTree
import DoomOs.RadixShape
import DoomOs.RadixWalk
import DoomOs.RadixLeaf
import DoomOs.RadixRanges
import DoomOs.RadixUnmap
import DoomOs.RadixLocal
import DoomOs.RadixRoom
import DoomOs.RadixGrowth
import DoomOs.RadixTidy
import DoomOs.RadixMarks
import DoomOs.KernelEnv
import DoomOs.Mmu
import DoomOs.MmuInit
import DoomOs.MmuFill
import DoomOs.MmuImage
import DoomOs.PageMap
import DoomOs.PageMapAnswers
import DoomOs.Vmm
import DoomOs.VmmTable
import DoomOs.VmmWindow
import DoomOs.VmmBacking
import DoomOs.VmmGrowth
import DoomOs.VmmRuns
import DoomOs.VmmAnswers
import DoomOs.VmmDirect
import DoomOs.VmmMmio
import DoomOs.VmmMarks
import DoomOs.VmmUndo
import DoomOs.VmmLeaks
import DoomOs.VmmStores
import DoomOs.Lifecycle
import DoomOs.LifecycleInvariant
import DoomOs.LifecycleVisit
import DoomOs.LifecycleRuns
import DoomOs.LifecycleRegistry
import DoomOs.LifecycleOrder
import DoomOs.InitGraph
import DoomOs.InitGraphAfter
import DoomOs.Multiboot2
import DoomOs.Multiboot2Walk
import DoomOs.Multiboot2Tags
import DoomOs.Multiboot2Order
import DoomOs.Multiboot2Capacity
import DoomOs.Memmove
import DoomOs.InplaceVector
import DoomOs.MemoryReads
import DoomOs.Files
import DoomOs.FilesCursors
import DoomOs.FilesVectors
import DoomOs.Mmap
import DoomOs.Acpi
import DoomOs.Madt
import DoomOs.FormatSpec
import DoomOs.Kprint
import DoomOs.FieldGrammar
import DoomOs.Emit
import DoomOs.Printers
import DoomOs.FilesWrite
import DoomOs.SharedMemory
import DoomOs.Served
import DoomOs.Atomic
import DoomOs.Spinlock
import DoomOs.PmmCpus
import DoomOs.Kheap
import DoomOs.CxaGuard
import DoomOs.MemoryWrites
import DoomOs.Trap
import DoomOs.Descriptors
import DoomOs.CoreInit
import DoomOs.Delivery
import DoomOs.BootPaging
import DoomOs.FairRuns
import DoomOs.Serial
import DoomOs.LongMode
