/-
# The virtual memory manager

`kernel/mm/vmm.cpp`.  Allocations are ranges of whole pages in the window that starts
at `VMALLOC_BASE`; a table sorted by base says which ranges are in use.  `alloc` takes
the first gap that leaves a page free behind the range and backs it page by page,
giving everything back when it runs out of frames; `free` unmaps a range and returns
its frames; `protect` changes protections inside one range; and `map_mmio` maps device
memory into a window of its own.

`release` and `back` work on the page tables and the frame allocator, the rest of the
bookkeeping on the table, so each part has its own state.
-/
import DoomOs.Mmu

namespace DoomOs

open Comp

/-! ## The allocation table -/

/-- `MAX_ALLOCATIONS`. -/
def maxAllocations : ℕ := 1024

/-- `allocation`. -/
structure Allocation where
  base : ℕ
  bytes : ℕ
  deriving DecidableEq, Repr

/-- `m_allocations` and `m_count`. -/
structure AllocationTable where
  allocations : ℕ → Allocation
  count : ℕ

namespace AllocationTable

/-- The table before the first call. -/
def empty : AllocationTable := ⟨fun _ => ⟨0, 0⟩, 0⟩

variable (t : AllocationTable)

/-- `gap_start`. -/
def gapStart (index : ℕ) : ℕ :=
  if index = 0 then vmallocBase
  else
    let previous := t.allocations (index - 1)
    u64 (previous.base + previous.bytes + frameSize)

/-- `gap_end`. -/
def gapEnd (index : ℕ) : ℕ :=
  if index = t.count then vmallocBase + vmallocSize else (t.allocations index).base

/-- The condition in the loop of `find_gap`. -/
def fits (bytes index : ℕ) : Bool :=
  sub64 (t.gapEnd index) (t.gapStart index) ≥ u64 (bytes + frameSize)

/-- `find_gap`. -/
def findGap (bytes : ℕ) : Except MmError ℕ :=
  if t.count = maxAllocations then .error .outOfMemory
  else
    match (List.range (t.count + 1)).find? (t.fits bytes) with
    | some index => .ok index
    | none => .error .outOfMemory

/-- Assigning to `m_allocations[index]`. -/
def assign (index : ℕ) (entry : Allocation) : Comp Fault MmError AllocationTable Unit :=
  if index < maxAllocations then
    modify fun t => { t with allocations := Function.update t.allocations index entry }
  else stop (.outOfBounds index)

/-- The loop of `insert`, from `i` down. -/
def shiftUp (index : ℕ) : ℕ → Comp Fault MmError AllocationTable Unit
  | 0 => pure ()
  | i + 1 => do
    if i + 1 > index then
      let entry ← gets fun t => t.allocations i
      assign (i + 1) entry
      shiftUp index i
    else pure ()

/-- `insert`. -/
def insert (index : ℕ) (entry : Allocation) : Comp Fault MmError AllocationTable Unit := do
  let count ← gets AllocationTable.count
  shiftUp index count
  assign index entry
  modify fun t => { t with count := t.count + 1 }

/-- The loop of `erase`. -/
def shiftDown (index count : ℕ) : Comp Fault MmError AllocationTable Unit :=
  forRange (count - (index + 1)) fun k => do
    let entry ← gets fun t => t.allocations (index + 1 + k)
    assign (index + k) entry

/-- `erase`. -/
def erase (index : ℕ) : Comp Fault MmError AllocationTable Unit := do
  let count ← gets AllocationTable.count
  shiftDown index count
  modify fun t => { t with count := t.count - 1 }

/-- The loop of `free`, up to the entry it finds. -/
def indexOf (base : ℕ) : Option ℕ :=
  (List.range t.count).find? fun index => (t.allocations index).base = base

/-- The loop of `protect`, up to the entry it finds. -/
def covering (first last : ℕ) : Option ℕ :=
  (List.range t.count).find? fun index =>
    first ≥ (t.allocations index).base ∧
      last ≤ u64 ((t.allocations index).base + (t.allocations index).bytes)

end AllocationTable

/-! ## Backing a range with frames -/

namespace Vmm

variable (L : Layout) (feat : Features)

/-- The callback of `release`. -/
def freeRemoved (removed : Mapping) : Comp Fault MmError Kernel Unit :=
  Kernel.inPmm (Pmm.free removed.size removed.frame)

/-- `release`. -/
def release (base bytes : ℕ) : Comp Fault MmError Kernel Unit :=
  if bytes = 0 then pure ()
  else do
    match ← attempt ((Mmu.kernelSpace L feat).unmapRange base bytes .size4K freeRemoved) with
    | .ok _ => pure ()
    | .error _ => stop (.notFullyMapped base)

/-- The body of the loop of `back`. -/
def backPage (base offset : ℕ) (p : PageProt) : Comp Fault MmError Kernel Unit := do
  match ← attempt (Kernel.inPmm (Pmm.alloc .size4K)) with
  | .error e =>
    release L feat base offset
    fail e
  | .ok frame =>
    match ← attempt ((Mmu.kernelSpace L feat).mapRange (u64 (base + offset)) frame frameSize
        .size4K p) with
    | .ok _ => pure ()
    | .error e =>
      Kernel.inPmm (Pmm.free .size4K frame)
      release L feat base offset
      fail e

/-- `back`. -/
def back (base bytes : ℕ) (p : PageProt) : Comp Fault MmError Kernel Unit :=
  forRange ((bytes + (frameSize - 1)) / frameSize) fun i => backPage L feat base (i * frameSize) p

end Vmm

/-! ## The operations -/

/-- The state of the virtual memory manager, with what it works on. -/
structure Vmm where
  kernel : Kernel
  table : AllocationTable

namespace Vmm

variable (L : Layout) (feat : Features)

/-- Working on the page tables and the frame allocator. -/
def inKernel {α : Type} (x : Comp Fault MmError Kernel α) : Comp Fault MmError Vmm α :=
  zoom Vmm.kernel (fun kernel s => { s with kernel := kernel }) x

/-- Working on the allocation table. -/
def inTable {α : Type} (x : Comp Fault MmError AllocationTable α) : Comp Fault MmError Vmm α :=
  zoom Vmm.table (fun table s => { s with table := table }) x

/-- `alloc`. -/
def alloc (bytes : ℕ) (p : PageProt) : Comp Fault MmError Vmm ℕ := do
  if bytes = 0 ∨ bytes > vmallocSize then fail .invalidAddress
  else
    let size := alignUp bytes frameSize
    match ← gets fun s => s.table.findGap size with
    | .error e => fail e
    | .ok index =>
      let base ← gets fun s => s.table.gapStart index
      inKernel (back L feat base size p)
      inTable (AllocationTable.insert index ⟨base, size⟩)
      pure base

/-- `free`. -/
def free (ptr bytes : ℕ) : Comp Fault MmError Vmm Unit := do
  match ← gets fun s => s.table.indexOf ptr with
  | none => fail .invalidAddress
  | some index =>
    let entry ← gets fun s => s.table.allocations index
    if entry.bytes ≠ alignUp bytes frameSize then fail .invalidAddress
    else
      inKernel (release L feat entry.base entry.bytes)
      inTable (AllocationTable.erase index)

/-- `protect`. -/
def protect (ptr bytes : ℕ) (p : PageProt) : Comp Fault MmError Vmm Unit := do
  let last := alignUp (u64 (ptr + bytes)) frameSize
  if bytes = 0 ∨ ptr &&& (frameSize - 1) ≠ 0 ∨ last ≤ ptr then fail .invalidAddress
  else
    match ← gets fun s => s.table.covering ptr last with
    | none => fail .invalidAddress
    | some _ => inKernel ((Mmu.kernelSpace L feat).protectRange ptr (last - ptr) .size4K p)

/-- `vrt_to_phy`. -/
def vrtToPhy (va : ℕ) : Comp Fault MmError Vmm Mapping :=
  inKernel ((Mmu.kernelSpace L feat).translate va)

/-- `map_mmio`. -/
def mapMmio (pa bytes : ℕ) : Comp Fault MmError Vmm ℕ := do
  if bytes = 0 ∨ pa ≥ mmioMapSize ∨ bytes > mmioMapSize - pa then fail .invalidAddress
  else
    let first := alignDown pa frameSize
    let last := alignUp (pa + bytes) frameSize
    inKernel ((Mmu.kernelSpace L feat).mapRange (mmioMapBase + first) first (last - first) .size4K
      .mmio)
    pure (mmioMapBase + pa)

/-! ## Runs -/

/-- A call of the virtual memory manager that may change something. -/
inductive Call where
  | alloc (bytes : ℕ) (p : PageProt)
  | free (ptr bytes : ℕ)
  | protect (ptr bytes : ℕ) (p : PageProt)
  | mapMmio (pa bytes : ℕ)

/-- Making a call. -/
def exec : Call → Comp Fault MmError Vmm Unit
  | .alloc bytes p => do
    let _ ← alloc L feat bytes p
  | .free ptr bytes => free L feat ptr bytes
  | .protect ptr bytes p => protect L feat ptr bytes p
  | .mapMmio pa bytes => do
    let _ ← mapMmio L feat pa bytes

/-- The states that calls, successful or not, reach from `s₀`. -/
inductive Reachable (s₀ : Vmm) : Vmm → Prop
  | start : Reachable s₀ s₀
  | call {s s' : Vmm} (c : Call) : Reachable s₀ s → ((exec L feat c).run s).state? = some s' →
      Reachable s₀ s'

end Vmm

end DoomOs
