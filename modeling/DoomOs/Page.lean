/-
# Pages, protections and errors

The vocabulary of the memory subsystem (`kernel/mm/page.hpp`) and the alignment
helpers of `kernel/core/utils/bits.hpp`.  Addresses and lengths are natural
numbers; where the 64-bit arithmetic of the source can wrap, the wrap is written
out with `u64`.

The spinlocks of the source and the flushes of the translation lookaside buffer
leave no trace in the model.
-/
import DoomOs.Outcome

namespace DoomOs

/-! ## 64-bit arithmetic and alignment -/

/-- Reduction to 64 bits. -/
def u64 (n : ℕ) : ℕ := n % 2 ^ 64

/-- Reduction to 16 bits. -/
def u16 (n : ℕ) : ℕ := n % 2 ^ 16

/-- 64-bit subtraction, which wraps. -/
def sub64 (a b : ℕ) : ℕ := u64 (a + 2 ^ 64 - b)

/-- `align_down`: `value & ~(alignment - 1)`. -/
def alignDown (value alignment : ℕ) : ℕ := value - (value &&& (alignment - 1))

/-- `align_up`: the sum is taken in 64 bits. -/
def alignUp (value alignment : ℕ) : ℕ := alignDown (u64 (value + alignment - 1)) alignment

/-- `is_aligned`. -/
def isAligned (value alignment : ℕ) : Bool := (value &&& (alignment - 1)) == 0

theorem u64_of_lt {n : ℕ} (h : n < 2 ^ 64) : u64 n = n := Nat.mod_eq_of_lt h

theorem u16_of_lt {n : ℕ} (h : n < 2 ^ 16) : u16 n = n := Nat.mod_eq_of_lt h

/-- No wrap when the result is not negative. -/
theorem sub64_of_le {a b : ℕ} (ha : a < 2 ^ 64) (h : b ≤ a) : sub64 a b = a - b := by
  unfold sub64 u64
  omega

theorem alignDown_two_pow (v k : ℕ) : alignDown v (2 ^ k) = v - v % 2 ^ k := by
  rw [alignDown, Nat.and_two_pow_sub_one_eq_mod]

theorem alignDown_4096 (v : ℕ) : alignDown v 4096 = v - v % 4096 :=
  alignDown_two_pow v 12

theorem alignUp_4096 {v : ℕ} (h : v + 4095 < 2 ^ 64) :
    alignUp v 4096 = (v + 4095) - (v + 4095) % 4096 := by
  rw [alignUp, alignDown_4096, show v + 4096 - 1 = v + 4095 by omega, u64_of_lt h]

theorem isAligned_two_pow (v k : ℕ) : isAligned v (2 ^ k) = true ↔ v % 2 ^ k = 0 := by
  rw [isAligned, Nat.and_two_pow_sub_one_eq_mod, beq_iff_eq]

/-! ## Page sizes -/

/-- `page_size`: the value is the shift. -/
inductive PageSize where
  | size4K
  | size2M
  | size1G
  deriving DecidableEq, Repr

namespace PageSize

/-- `shift_of`. -/
def shiftOf : PageSize → ℕ
  | size4K => 12
  | size2M => 21
  | size1G => 30

/-- `bytes_in`. -/
def bytesIn (size : PageSize) : ℕ := 2 ^ size.shiftOf

/-- `frames_in`. -/
def framesIn (size : PageSize) : ℕ := 2 ^ (size.shiftOf - 12)

@[simp] theorem bytesIn_size4K : bytesIn size4K = 4096 := by decide
@[simp] theorem bytesIn_size2M : bytesIn size2M = 2097152 := by decide
@[simp] theorem bytesIn_size1G : bytesIn size1G = 1073741824 := by decide
@[simp] theorem framesIn_size4K : framesIn size4K = 1 := by decide
@[simp] theorem framesIn_size2M : framesIn size2M = 512 := by decide
@[simp] theorem framesIn_size1G : framesIn size1G = 262144 := by decide

theorem bytesIn_eq (size : PageSize) : size.bytesIn = 4096 * size.framesIn := by
  cases size <;> simp

theorem framesIn_pos (size : PageSize) : 0 < size.framesIn := by
  cases size <;> simp

end PageSize

/-- `FRAME_SIZE`. -/
def frameSize : ℕ := 4096

/-! ## Protections, errors, mappings -/

/-- `page_prot`, a set of flags. -/
structure PageProt where
  write : Bool := false
  exec : Bool := false
  user : Bool := false
  global : Bool := false
  uncached : Bool := false
  deriving DecidableEq, Repr

namespace PageProt

/-- `KERNEL_TEXT`. -/
def kernelText : PageProt := { exec := true, global := true }

/-- `KERNEL_RODATA`. -/
def kernelRodata : PageProt := { global := true }

/-- `KERNEL_DATA`. -/
def kernelData : PageProt := { write := true, global := true }

/-- `MMIO`. -/
def mmio : PageProt := { write := true, global := true, uncached := true }

end PageProt

/-- `mm_error`. -/
inductive MmError where
  | outOfMemory
  | invalidAddress
  | unsupportedSize
  | notMapped
  | conflict
  deriving DecidableEq, Repr

/-- `mapping`. -/
structure Mapping where
  frame : ℕ
  offset : ℕ
  size : PageSize
  prot : PageProt
  deriving DecidableEq, Repr

/-- `mapping::physical`. -/
def Mapping.physical (m : Mapping) : ℕ := u64 (m.frame + m.offset)

/-- The panics of the memory subsystem, with the values they print, and the
iteration bound that stands for a loop the source does not bound. -/
inductive Fault where
  /-- `pmm: block .. is listed as free but holds nothing` -/
  | listedButEmpty (block : ℕ)
  /-- `pmm: invalid release of .. frames at ..` -/
  | invalidRelease (count base : ℕ)
  /-- `pmm: double free of .. frames at ..` -/
  | doubleFree (count base : ℕ)
  /-- `vmm: allocation at .. is not fully mapped` -/
  | notFullyMapped (base : ℕ)
  /-- `mmap: cannot drop write access on a fresh allocation at ..` -/
  | cannotDropWrite (memory : ℕ)
  /-- A store that the page tables do not allow. -/
  | pageFault (va : ℕ)
  /-- A write past the end of an array, which is undefined in the source. -/
  | outOfBounds (index : ℕ)
  /-- A modelled loop used up its iteration bound. -/
  | loopBound
  deriving DecidableEq, Repr

end DoomOs
