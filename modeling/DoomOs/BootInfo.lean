/-
# What the boot protocol hands over

`kernel/boot/protocol.hpp`: the strings, the memory map, the boot modules, the other
address ranges that must not be handed out, the framebuffer and the ACPI root
pointer.  The containers of the source have a fixed capacity.  A `fixed_string`
cuts its text off at the capacity and at the first NUL, and its structure says so; an
`inplace_vector` is a list here, and `emplaceBack` is where its capacity is checked.
-/
import DoomOs.Page

namespace DoomOs

/-! ## Fixed-size strings -/

/-- `fixed_string<N>`: the characters before the terminator. -/
@[ext]
structure FixedString (N : ℕ) where
  chars : List UInt8
  fits : chars.length ≤ N
  noNul : 0 ∉ chars
  deriving DecidableEq

namespace FixedString

/-- The empty string. -/
def empty (N : ℕ) : FixedString N := ⟨[], Nat.zero_le N, List.not_mem_nil⟩

/-- One step of `append`, on a string that is not full and a character that is not NUL. -/
def push {N : ℕ} (s : FixedString N) (c : UInt8) (hroom : s.chars.length < N) (hc : c ≠ 0) :
    FixedString N where
  chars := s.chars ++ [c]
  fits := by
    rw [List.length_append, List.length_singleton]
    omega
  noNul := by
    intro h
    rcases List.mem_append.mp h with h | h
    · exact s.noNul h
    · exact hc (List.mem_singleton.mp h).symm

instance (N : ℕ) : Inhabited (FixedString N) := ⟨empty N⟩

end FixedString

/-! ## Capacities -/

/-- `MAX_BOOT_STRING`. -/
def maxBootString : ℕ := 256

/-- `MAX_BOOT_MEMORY_REGIONS`. -/
def maxBootMemoryRegions : ℕ := 128

/-- `MAX_BOOT_MODULES`. -/
def maxBootModules : ℕ := 32

/-- `MAX_BOOT_RESERVED_RANGES`. -/
def maxBootReservedRanges : ℕ := 8

/-- `MAX_BOOT_MODULE_COMMAND_LINE`. -/
def maxBootModuleCommandLine : ℕ := 128

/-- `MAX_BOOT_PALETTE_COLORS`. -/
def maxBootPaletteColors : ℕ := 256

/-! ## The boot information -/

/-- `memory_kind`. -/
inductive MemoryKind where
  | usable
  | reserved
  | acpiReclaimable
  | acpiNvs
  | defective
  deriving DecidableEq, Repr

/-- `address_range`. -/
structure AddressRange where
  base : ℕ
  length : ℕ
  deriving DecidableEq, Repr

/-- `memory_region`. -/
structure MemoryRegion where
  base : ℕ
  length : ℕ
  kind : MemoryKind
  deriving DecidableEq, Repr

/-- `module_info`. -/
structure ModuleInfo where
  range : AddressRange
  commandLine : FixedString maxBootModuleCommandLine := default
  deriving DecidableEq

/-- `framebuffer_kind`. -/
inductive FramebufferKind where
  | rgb
  | indexed
  | text
  deriving DecidableEq, Repr

/-- `pixel_channel`. -/
structure PixelChannel where
  position : ℕ := 0
  size : ℕ := 0
  deriving DecidableEq, Repr

/-- `palette_color`. -/
structure PaletteColor where
  red : ℕ
  green : ℕ
  blue : ℕ
  deriving DecidableEq, Repr

/-- `framebuffer_info`. -/
structure FramebufferInfo where
  present : Bool := false
  kind : FramebufferKind := .rgb
  range : AddressRange := ⟨0, 0⟩
  pitch : ℕ := 0
  width : ℕ := 0
  height : ℕ := 0
  bitsPerPixel : ℕ := 0
  red : PixelChannel := {}
  green : PixelChannel := {}
  blue : PixelChannel := {}
  palette : List PaletteColor := []
  deriving DecidableEq, Repr

/-- `acpi_info`. -/
structure AcpiInfo where
  present : Bool := false
  rsdp : AddressRange := ⟨0, 0⟩
  revision : ℕ := 0
  deriving DecidableEq, Repr

/-- `info`. -/
structure BootInfo where
  commandLine : FixedString maxBootString := default
  bootloaderName : FixedString maxBootString := default
  memoryMap : List MemoryRegion := []
  modules : List ModuleInfo := []
  reserved : List AddressRange := []
  framebuffer : FramebufferInfo := {}
  acpi : AcpiInfo := {}
  deriving DecidableEq

/-- `info::reset`. -/
def BootInfo.reset : BootInfo := {}

end DoomOs
