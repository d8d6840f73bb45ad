/-
# Setting up the kernel's address space

`arch/x86_64/mmu/mmu.cpp`: the static tables are linked, the image and the described
memory are mapped with 2 MiB pages, and then the image gets its final protections and
the rest of its window is unmapped.

Where things are is fixed by the linker; `Layout` carries the addresses together with
what `config/linker.ld.in` and the static assertions say about them.
-/
import DoomOs.KernelEnv
import DoomOs.RadixLocal

namespace DoomOs

open Comp Paging RadixFormat

/-! ## The address space -/

/-- `address_space`. -/
def addressSpace (image : Image) (feat : Features) (root : ℕ) : RadixTree Kernel :=
  ⟨kernelEnv image, feat, root⟩

/-- `KERNEL_BASE`, which is `DOOM_OS_KERNEL_VMA`. -/
def kernelBase : ℕ := 0xffffffff80000000

/-- `DIRECT_MAP_BASE`. -/
def directMapBase : ℕ := 0xffff800000000000

/-- `DIRECT_MAP_SIZE`, which is `DOOM_OS_MAX_PHYSICAL_MEMORY`. -/
def directMapSize : ℕ := 0x400000000

/-- `MMIO_MAP_BASE`. -/
def mmioMapBase : ℕ := 0xffff808000000000

/-- `MMIO_MAP_SIZE`. -/
def mmioMapSize : ℕ := 0x8000000000

/-- `VMALLOC_BASE`. -/
def vmallocBase : ℕ := 0xffffc00000000000

/-- `VMALLOC_SIZE`. -/
def vmallocSize : ℕ := 0x8000000000

/-- `DIRECT_PD_COUNT`. -/
def directPdCount : ℕ := 16

example : directPdCount = directMapSize / PageSize.size1G.bytesIn := by decide

/-- What the linker fixes: where the image and its sections lie, and the physical
addresses of the static tables. -/
structure Layout where
  bootStart : ℕ
  image : Image
  textStart : ℕ
  textEnd : ℕ
  rodataStart : ℕ
  rodataEnd : ℕ
  dataRelRoStart : ℕ
  pml4 : ℕ
  kernelPdpt : ℕ
  kernelPd : ℕ
  directPdpt : ℕ
  directPds : ℕ → ℕ
  boot_le : bootStart ≤ image.first
  image_le : image.first ≤ image.last
  /-- `kernel image does not fit in the early page tables` -/
  image_fits : image.last ≤ 0x40000000
  image_aligned : image.last % 4096 = 0
  text_le : kernelBase ≤ textStart ∧ textStart ≤ textEnd
  rodata_le : textEnd ≤ rodataStart ∧ rodataStart ≤ rodataEnd
  data_le : rodataEnd ≤ dataRelRoStart ∧ dataRelRoStart ≤ kernelBase + image.last
  tables_nodup :
    (pml4 :: kernelPdpt :: kernelPd :: directPdpt :: (List.range 16).map directPds).Nodup
  tables_aligned :
    ∀ t ∈ pml4 :: kernelPdpt :: kernelPd :: directPdpt :: (List.range 16).map directPds,
      t % 4096 = 0
  tables_inside :
    ∀ t ∈ pml4 :: kernelPdpt :: kernelPd :: directPdpt :: (List.range 16).map directPds,
      image.first ≤ t ∧ t < image.last

namespace Layout

variable (L : Layout)

/-- `kernel_end`. -/
def kernelEnd : ℕ := kernelBase + L.image.last

/-- The static tables. -/
def tables : List ℕ :=
  L.pml4 :: L.kernelPdpt :: L.kernelPd :: L.directPdpt :: (List.range 16).map L.directPds

/-- `kernel_window_size`. -/
def kernelWindowSize : ℕ := alignUp L.image.last PageSize.size2M.bytesIn

theorem mem_tables : L.pml4 ∈ L.tables ∧ L.kernelPdpt ∈ L.tables ∧
    L.kernelPd ∈ L.tables ∧ L.directPdpt ∈ L.tables ∧ ∀ i < 16, L.directPds i ∈ L.tables := by
  refine ⟨by simp [tables], by simp [tables], by simp [tables],
    by simp [tables], fun i hi => ?_⟩
  simp only [tables, List.mem_cons, List.mem_map, List.mem_range]
  exact Or.inr (Or.inr (Or.inr (Or.inr ⟨i, hi, rfl⟩)))

/-- The static tables are different tables. -/
theorem tables_distinct : L.kernelPdpt ≠ L.pml4 ∧ L.kernelPd ≠ L.pml4 ∧
    L.directPdpt ≠ L.pml4 ∧ L.kernelPd ≠ L.kernelPdpt ∧ L.directPdpt ≠ L.kernelPdpt ∧
    L.directPdpt ≠ L.kernelPd ∧
    (∀ i < 16, L.directPds i ≠ L.pml4 ∧ L.directPds i ≠ L.kernelPdpt ∧
      L.directPds i ≠ L.kernelPd ∧ L.directPds i ≠ L.directPdpt) ∧
    ∀ i < 16, ∀ j < 16, L.directPds i = L.directPds j → i = j := by
  have h := L.tables_nodup
  simp only [List.nodup_cons, List.mem_cons, not_or, List.mem_map, List.mem_range, not_exists,
    not_and] at h
  obtain ⟨⟨h1, h2, h3, h4⟩, ⟨h5, h6, h7⟩, ⟨h8, h9⟩, h10, hmap⟩ := h
  refine ⟨Ne.symm h1, Ne.symm h2, Ne.symm h3, Ne.symm h5, Ne.symm h6, Ne.symm h8,
    fun i hi => ⟨h4 i hi, h7 i hi, h9 i hi, h10 i hi⟩, fun i hi j hj heq => ?_⟩
  exact List.inj_on_of_nodup_map hmap (List.mem_range.mpr hi) (List.mem_range.mpr hj) heq

end Layout

/-! ## `init_kernel_space` -/

/-- `init_error`, as far as it is used here. -/
inductive InitError where
  | noUsableMemory
  deriving DecidableEq, Repr

namespace Mmu

variable (L : Layout) (feat : Features)

/-- `m_kernel_space` once it is set. -/
def kernelSpace : RadixTree Kernel := addressSpace L.image feat L.pml4

/-- `link_tables`. -/
def linkTables : Comp Fault MmError Kernel Unit := do
  modify (Kernel.poke L.pml4 0 0#64)
  modify (Kernel.poke L.pml4 (index 4 kernelBase) (tableEntry L.kernelPdpt))
  modify (Kernel.poke L.kernelPdpt (index 3 kernelBase) (tableEntry L.kernelPd))
  modify (Kernel.poke L.pml4 (index 4 directMapBase) (tableEntry L.directPdpt))
  forRange directPdCount fun i =>
    modify (Kernel.poke L.directPdpt i (tableEntry (L.directPds i)))

/-- `fill_2m`. -/
def fill2m (pd va pa length : ℕ) (p : PageProt) : Comp Fault MmError Kernel Unit :=
  forRange ((length + 0x1fffff) / 0x200000) fun i =>
    modify (Kernel.poke pd (index 2 (u64 (va + i * 0x200000)))
      (leafEntry feat (u64 (pa + i * 0x200000)) .size2M p))

/-- The body of the loop of `fill_direct_map` over the memory map. -/
def fillRegion (region : MemoryRegion) : Comp Fault MmError Kernel Unit :=
  if region.kind = .defective ∨ region.length = 0 ∨ region.base ≥ directMapSize then pure ()
  else
    let last := if region.length > directMapSize - region.base then directMapSize
      else region.base + region.length
    let lo := alignDown region.base PageSize.size2M.bytesIn
    let hi := alignUp last PageSize.size2M.bytesIn
    forRange ((hi - lo + 0x1fffff) / 0x200000) fun i =>
      fill2m feat (L.directPds ((lo + i * 0x200000) / PageSize.size1G.bytesIn))
        (u64 (directMapBase + (lo + i * 0x200000))) (lo + i * 0x200000) 0x200000 .kernelData

/-- `fill_direct_map`. -/
def fillDirectMap (boot : BootInfo) : Comp Fault MmError Kernel Unit :=
  forEach (fillRegion L feat) boot.memoryMap

/-- `protect_region`. -/
def protectRegion (first last : ℕ) (p : PageProt) : Comp Fault MmError Kernel Unit :=
  let start := alignDown first 4096
  let stop := alignUp last 4096
  (kernelSpace L feat).protectRange start (sub64 stop start) .size4K p

/-- The end of `protect_image`: the rest of the window is unmapped. -/
def unmapAround (imageFirst imageLast windowLast : ℕ) : Comp Fault MmError Kernel Unit := do
  if imageFirst > kernelBase then
    (kernelSpace L feat).unmapRange kernelBase (imageFirst - kernelBase) .size4K
      RadixTree.ignoreRemoved
  if windowLast > imageLast then
    (kernelSpace L feat).unmapRange imageLast (windowLast - imageLast) .size4K
      RadixTree.ignoreRemoved

/-- `protect_image`. -/
def protectImage : Comp Fault MmError Kernel Unit := do
  protectRegion L feat L.dataRelRoStart L.kernelEnd .kernelData
  protectRegion L feat L.rodataStart L.rodataEnd .kernelRodata
  protectRegion L feat L.textStart L.textEnd .kernelText
  unmapAround L feat (alignDown L.textStart 4096) (alignUp L.kernelEnd 4096)
    (kernelBase + L.kernelWindowSize)

/-- `init_kernel_space`. -/
def initKernelSpace (boot : BootInfo) : Comp Fault MmError Kernel (Except InitError Unit) := do
  linkTables L
  fill2m feat L.kernelPd kernelBase 0 L.kernelWindowSize
    { write := true, exec := true, global := true }
  fillDirectMap L feat boot
  match ← attempt (protectImage L feat) with
  | .error _ => pure (.error .noUsableMemory)
  | .ok _ => pure (.ok ())

end Mmu

end DoomOs
