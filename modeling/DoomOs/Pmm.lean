/-
# The physical frame allocator

`kernel/mm/pmm.cpp`.  One bit per 4 KiB frame says whether the frame is free; the
frames come in blocks of 512 (2 MiB), and each block has a count of its free
frames.  The blocks that are entirely free hang in the list `whole`, those that
are partly free in the list `broken`; both lists are threaded through the array
of blocks.

`populate` builds this from the boot information, `alloc` takes a 4 KiB frame, a
2 MiB block or a 1 GiB run of blocks, and `free` gives one back.
-/
import DoomOs.Bitmap
import DoomOs.BootInfo

namespace DoomOs

/-! ## Sizes -/

/-- `MAX_PHYSICAL_MEMORY`. -/
def maxPhysicalMemory : ℕ := 0x400000000

/-- `MAX_FRAMES`. -/
def maxFrames : ℕ := 4194304

/-- `FRAMES_PER_BLOCK`. -/
def framesPerBlock : ℕ := 512

/-- `WORDS_PER_BLOCK`. -/
def wordsPerBlock : ℕ := 8

/-- `BLOCK_COUNT`. -/
def blockCount : ℕ := 8192

/-- `NIL`. -/
def nil : ℕ := 65535

example : maxFrames = maxPhysicalMemory / frameSize ∧ wordsPerBlock = framesPerBlock / 64 ∧
    blockCount = maxFrames / framesPerBlock ∧ framesPerBlock = PageSize.size2M.framesIn := by
  decide

/-- `frame_map`. -/
abbrev FrameMap : Type := Bitmap maxFrames 64

/-- `block`. -/
structure Block where
  free : ℕ
  next : ℕ
  prev : ℕ
  deriving DecidableEq

/-- The state of the allocator: `m_frames`, `m_blocks`, `m_whole`, `m_broken`. -/
structure Pmm where
  frames : FrameMap
  blocks : ℕ → Block
  whole : ℕ
  broken : ℕ

/-- Which of the two list heads a reference stands for. -/
inductive Head where
  | whole
  | broken
  deriving DecidableEq

namespace Pmm

open Comp

/-- The state of the allocator before `populate`. -/
def zero : Pmm :=
  { frames := Bitmap.zero maxFrames 64, blocks := fun _ => ⟨0, 0, 0⟩, whole := nil, broken := nil }

/-- `address_of`. -/
def addressOf (frame : ℕ) : ℕ := frame * 4096

/-! ## The block lists -/

/-- Reading a head. -/
def head (s : Pmm) : Head → ℕ
  | .whole => s.whole
  | .broken => s.broken

/-- Assigning to a head. -/
def setHead (s : Pmm) (h : Head) (value : ℕ) : Pmm :=
  match h with
  | .whole => { s with whole := value }
  | .broken => { s with broken := value }

/-- Assigning to one block. -/
def setBlock (s : Pmm) (index : ℕ) (b : Block) : Pmm :=
  { s with blocks := Function.update s.blocks index b }

/-- `list_of`. -/
def listOf (free : ℕ) : Option Head :=
  if free = 0 then none else if free = framesPerBlock then some .whole else some .broken

/-- `push`. -/
def push (s : Pmm) (h : Head) (index : ℕ) : Pmm :=
  let s := s.setBlock index { s.blocks index with next := s.head h, prev := nil }
  let s := if s.head h ≠ nil then
      s.setBlock (s.head h) { s.blocks (s.head h) with prev := u16 index }
    else s
  s.setHead h (u16 index)

/-- `unlink`.  The block is read through a reference, so after each write again. -/
def unlink (s : Pmm) (h : Head) (index : ℕ) : Pmm :=
  let s := if (s.blocks index).prev = nil then s.setHead h (s.blocks index).next
    else s.setBlock (s.blocks index).prev
      { s.blocks (s.blocks index).prev with next := (s.blocks index).next }
  if (s.blocks index).next ≠ nil then
    s.setBlock (s.blocks index).next
      { s.blocks (s.blocks index).next with prev := (s.blocks index).prev }
  else s

/-- Taking a block out of the list a head points to, if there is one. -/
def unlinkFrom (s : Pmm) (source : Option Head) (index : ℕ) : Pmm :=
  match source with
  | some h => s.unlink h index
  | none => s

/-- Putting a block into the list a head points to, if there is one. -/
def pushTo (s : Pmm) (target : Option Head) (index : ℕ) : Pmm :=
  match target with
  | some h => s.push h index
  | none => s

/-- The list changes of `set_free`. -/
def relist (s : Pmm) (source target : Option Head) (index : ℕ) : Pmm :=
  if source ≠ target then (s.unlinkFrom source index).pushTo target index else s

/-- `set_free`. -/
def setFree (s : Pmm) (index free : ℕ) : Pmm :=
  let s := s.relist (listOf (s.blocks index).free) (listOf free) index
  s.setBlock index { s.blocks index with free := u16 free }

/-- `set_free(first + i, free)` for `i` below `count`. -/
def setFreeRun (s : Pmm) (free : ℕ) : (first count : ℕ) → Pmm
  | _, 0 => s
  | first, n + 1 => setFreeRun (s.setFree first free) free (first + 1) n

/-! ## Allocation -/

/-- `take_whole`. -/
def takeWhole (first count : ℕ) : Comp Fault MmError Pmm ℕ := do
  modify fun s =>
    { s with frames := s.frames.clearRange (first * framesPerBlock) (count * framesPerBlock) }
  modify fun s => s.setFreeRun 0 first count
  pure (addressOf (first * framesPerBlock))

/-- The inner loop of `find_whole_run`: how many of the `remaining` blocks after the
first `whole` ones are free in a row. -/
def countWhole (s : Pmm) (first : ℕ) : (remaining whole : ℕ) → ℕ
  | 0, whole => whole
  | n + 1, whole =>
    if (s.blocks (first + whole)).free = framesPerBlock then countWhole s first n (whole + 1)
    else whole

/-- The outer loop of `find_whole_run`: `n` candidates from `first` on. -/
def searchRun (s : Pmm) (blocks : ℕ) : (first n : ℕ) → ℕ
  | _, 0 => nil
  | first, n + 1 =>
    if s.countWhole first blocks 0 = blocks then first else searchRun s blocks (first + blocks) n

/-- `find_whole_run`. -/
def findWholeRun (s : Pmm) (blocks : ℕ) : ℕ :=
  if blocks = 1 then s.whole else s.searchRun blocks 0 (blockCount / blocks)

/-- `take<SIZE_4K>`. -/
def takeFrame : Comp Fault MmError Pmm ℕ := do
  let index ← gets fun s => if s.broken ≠ nil then s.broken else s.whole
  if index = nil then fail .outOfMemory
  else
    match ← gets fun s => s.frames.findSet (index * wordsPerBlock) wordsPerBlock with
    | none => stop (.listedButEmpty index)
    | some frame =>
      modify fun s => { s with frames := s.frames.clear frame }
      modify fun s => s.setFree index (sub64 (s.blocks index).free 1)
      pure (addressOf frame)

/-- `take<S>` for the larger sizes. -/
def takeBlocks (size : PageSize) : Comp Fault MmError Pmm ℕ := do
  let blocks := size.framesIn / framesPerBlock
  let first ← gets fun s => s.findWholeRun blocks
  if first = nil then fail .outOfMemory else takeWhole first blocks

/-- `alloc`. -/
def alloc (size : PageSize) : Comp Fault MmError Pmm ℕ :=
  match size with
  | .size4K => takeFrame
  | .size2M => takeBlocks .size2M
  | .size1G => takeBlocks .size1G

/-- `free`. -/
def free (size : PageSize) (base : ℕ) : Comp Fault MmError Pmm Unit := do
  let count := size.framesIn
  let first := base / 4096
  if !isAligned base size.bytesIn || first ≥ maxFrames || count > maxFrames - first then
    stop (.invalidRelease count base)
  else
    match ← gets fun s => s.frames.findSetIn first count with
    | some _ => stop (.doubleFree count base)
    | none =>
      modify fun s => { s with frames := s.frames.setRange first count }
      let index := first / framesPerBlock
      if count < framesPerBlock then
        modify fun s => s.setFree index ((s.blocks index).free + count)
      else
        modify fun s => s.setFreeRun framesPerBlock index (count / framesPerBlock)

/-! ## Initialisation -/

/-- `phase`. -/
inductive Phase where
  | free
  | reserve
  deriving DecidableEq

/-- `mark`. -/
def mark (base length : ℕ) (usable : Bool) (m : FrameMap) : FrameMap :=
  if length = 0 ∨ base ≥ maxPhysicalMemory then m
  else
    let last := if length > maxPhysicalMemory - base then maxPhysicalMemory else base + length
    let lo := if usable then alignUp base 4096 else alignDown base 4096
    let hi := if usable then alignDown last 4096 else alignUp last 4096
    if lo ≥ hi then m
    else if usable then m.setRange (lo / 4096) ((hi - lo) / 4096)
    else m.clearRange (lo / 4096) ((hi - lo) / 4096)

/-- `claim` at a `memory_region`. -/
def claimRegion (p : Phase) (m : FrameMap) (r : MemoryRegion) : FrameMap :=
  let usable := decide (r.kind = .usable)
  if decide (p = .free) = usable then mark r.base r.length usable m else m

/-- `claim` at an `address_range`. -/
def claimRange (p : Phase) (m : FrameMap) (r : AddressRange) : FrameMap :=
  if p = .reserve then mark r.base r.length false m else m

/-- `claim` at the boot information: the fields in the order of their declaration,
which is how the reflection visits them. -/
def claim (boot : BootInfo) (p : Phase) (m : FrameMap) : FrameMap :=
  let m := boot.memoryMap.foldl (claimRegion p) m
  let m := boot.modules.foldl (fun m mod => claimRange p m mod.range) m
  let m := boot.reserved.foldl (claimRange p) m
  let m := claimRange p m boot.framebuffer.range
  claimRange p m boot.acpi.rsdp

/-- The bits that `populate` leaves, for a kernel image that reaches from
`bootStart` to `kernelEnd`. -/
def populateFrames (boot : BootInfo) (bootStart kernelEnd : ℕ) (m : FrameMap) : FrameMap :=
  let m := claim boot .free m
  let m := mark 0 (1024 * 1024) false m
  let m := mark bootStart (sub64 kernelEnd bootStart) false m
  claim boot .reserve m

/-- The last loop of `populate`, from block `index` on: count and list `n` blocks. -/
def countBlocks (s : Pmm) : (index n : ℕ) → Pmm
  | _, 0 => s
  | index, n + 1 =>
    countBlocks (s.setFree index (s.frames.countSet (index * wordsPerBlock) wordsPerBlock))
      (index + 1) n

/-- `populate`. -/
def populate (boot : BootInfo) (bootStart kernelEnd : ℕ) (s : Pmm) : Pmm :=
  ({ s with frames := populateFrames boot bootStart kernelEnd s.frames }).countBlocks 0 blockCount

end Pmm

end DoomOs
