/-
# The page tables of the early boot

`setup_boot_page_tables` of `longmode.S`, in the 32-bit code before paging is on: five tables are
cleared and filled so that the first 2 MiB pages are mapped twice, at their own addresses and at
`KERNEL_VMA`.  The addresses come from `config/layout.h`, and the code checks what it needs of
them.

* `setupBootPageTables` is the code, on the registers and the memory of the CPU;
* `walk` is the translation that the CPU makes of the tables in memory;
* `boot_translate`: after the code has run, the two windows are mapped, and nothing else.
-/
import DoomOs.MemoryWrites
import DoomOs.Paging

namespace DoomOs

namespace BootPaging

open Paging

/-! ## The code -/

/-- The registers that the code uses, with the carry flag and the memory. -/
structure Cpu32 where
  eax : BitVec 32
  ecx : BitVec 32
  edx : BitVec 32
  edi : BitVec 32
  carry : Bool
  memory : Memory

/-- A doubleword stored. -/
def store32 (m : Memory) (a v : BitVec 32) : Memory := putLe m a.toNat 4 v.toNat

/-- Where the kernel and the tables lie, with what the assembler checks: a page directory is
enough, and the kernel starts one. -/
structure BootLayout where
  /-- `DOOM_OS_KERNEL_VMA`. -/
  kernelVma : ℕ
  /-- `DOOM_OS_EARLY_MAP_SIZE`. -/
  earlyMapSize : ℕ
  /-- `pml4_table`, the first of the five tables. -/
  pml4Table : ℕ
  vma_aligned : kernelVma % 2 ^ 30 = 0
  vma_high : 0xFFFF800000000000 ≤ kernelVma ∧ kernelVma < 2 ^ 64
  count_pos : 0 < earlyMapSize >>> 21
  count_le : earlyMapSize >>> 21 ≤ 512
  table_aligned : pml4Table % 4096 = 0
  table_below : pml4Table + 5 * 4096 ≤ 2 ^ 32

namespace BootLayout

variable (b : BootLayout)

def PML4_INDEX : ℕ := (b.kernelVma >>> 39) &&& 0x1FF

def PDPT_INDEX : ℕ := (b.kernelVma >>> 30) &&& 0x1FF

def PD_ENTRY_COUNT : ℕ := b.earlyMapSize >>> 21

def pdptLow : ℕ := b.pml4Table + 4096

def pdLow : ℕ := b.pdptLow + 4096

def pdptHigh : ℕ := b.pdLow + 4096

def pdHigh : ℕ := b.pdptHigh + 4096

end BootLayout

def PAGE_PRESENT : BitVec 32 := 0x001

def PAGE_WRITE : BitVec 32 := 0x002

def PAGE_SIZE : BitVec 32 := 0x080

def PD_ENTRY_SIZE : BitVec 32 := 1 <<< 21

/-- `stosl` under `rep`. -/
def stosl (s : Cpu32) : Cpu32 :=
  { s with
    memory := store32 s.memory s.edi s.eax
    edi := s.edi + 4
    ecx := s.ecx - 1 }

/-- An address with the flags of a table, and a zero, stored in an entry. -/
def putTable (table entry : ℕ) (s : Cpu32) : Cpu32 :=
  let eax := BitVec.ofNat 32 table ||| (PAGE_PRESENT ||| PAGE_WRITE)
  { s with
    eax
    memory := store32 (store32 s.memory (BitVec.ofNat 32 entry) eax)
      (BitVec.ofNat 32 (entry + 4)) 0 }

/-- The body of `.map_pd_entry`, with what `loop` counts. -/
def mapPdEntry (s : Cpu32) : Cpu32 :=
  let memory := store32 (store32 s.memory s.edi s.eax) (s.edi + 4) s.edx
  let carry := decide (2 ^ 32 ≤ s.eax.toNat + PD_ENTRY_SIZE.toNat)
  { eax := s.eax + PD_ENTRY_SIZE
    edx := s.edx + 0 + BitVec.ofNat 32 carry.toNat
    ecx := s.ecx - 1
    edi := s.edi + 8
    carry
    memory }

/-- How often a body runs that ends in `loop`. -/
def loopCount (ecx : BitVec 32) : ℕ := (ecx - 1).toNat + 1

/-- `fill_early_page_directory`. -/
def fillEarlyPageDirectory (b : BootLayout) (s : Cpu32) : Cpu32 :=
  let s :=
    { s with
      eax := PAGE_PRESENT ||| PAGE_WRITE ||| PAGE_SIZE
      edx := 0
      ecx := BitVec.ofNat 32 b.PD_ENTRY_COUNT }
  mapPdEntry^[loopCount s.ecx] s

/-- `setup_boot_page_tables`. -/
def setupBootPageTables (b : BootLayout) (s : Cpu32) : Cpu32 :=
  let s :=
    { s with
      edi := BitVec.ofNat 32 b.pml4Table
      eax := 0
      ecx := 5120 }
  let s := stosl^[s.ecx.toNat] s
  let s := putTable b.pdptLow b.pml4Table s
  let s := putTable b.pdLow b.pdptLow s
  let s := putTable b.pdptHigh (b.pml4Table + b.PML4_INDEX * 8) s
  let s := putTable b.pdHigh (b.pdptHigh + b.PDPT_INDEX * 8) s
  let s := fillEarlyPageDirectory b { s with edi := BitVec.ofNat 32 b.pdLow }
  fillEarlyPageDirectory b { s with edi := BitVec.ofNat 32 b.pdHigh }

/-! ## The translation -/

/-- Where an address leads, and what the levels on the way permit. -/
structure Translation where
  phys : ℕ
  write : Bool
  user : Bool
  deriving DecidableEq

/-- An entry in memory. -/
def entryAt (m : Memory) (a : ℕ) : Entry := BitVec.ofNat 64 (leAt m a 8)

/-- The walk from the table of a level on; there are no leaves in the root. -/
def walk (m : Memory) (va : ℕ) : (level table : ℕ) → (write user : Bool) → Option Translation
  | 0, _, _, _ => none
  | level + 1, table, write, user =>
    let entry := entryAt m (table + index (level + 1) va * 8)
    let write := write && (prot entry).write
    let user := user && (prot entry).user
    if present entry then
      if leaf entry (level + 1) then
        if level + 1 = levels then none
        else some ⟨address entry + va % (sizeAt (level + 1)).bytesIn, write, user⟩
      else walk m va level (address entry) write user
    else none

/-- The translation of an address, with `cr3`. -/
def translate (m : Memory) (cr3 va : ℕ) : Option Translation :=
  if valid va then walk m va levels cr3 true true else none

/-! ## Entries in memory -/

/-- The entries of the tables, one after the other. -/
def slots (m : Memory) (base j : ℕ) : Entry := entryAt m (base + 8 * j)

/-- The two halves of an entry stored. -/
def putEntry (m : Memory) (a : ℕ) (low high : BitVec 32) : Memory :=
  putLe (putLe m a 4 low.toNat) (a + 4) 4 high.toNat

/-- An address below 4 GiB fits a register. -/
theorem toNat_ofNat_32 {a : ℕ} (h : a < 2 ^ 32) : (BitVec.ofNat 32 a).toNat = a := by
  rw [BitVec.toNat_ofNat, Nat.mod_eq_of_lt h]

theorem ofNat_add_4 (a : ℕ) : BitVec.ofNat 32 a + 4 = BitVec.ofNat 32 (a + 4) :=
  (BitVec.ofNat_add a 4).symm

/-- An entry that leads to a table. -/
def toTable (t : ℕ) : Entry := BitVec.ofNat 64 (t + 3)

/-- An entry that maps a page. -/
def toPage (i : ℕ) : Entry := BitVec.ofNat 64 (i * 2 ^ 21 + 0x83)

/-- The registers when the loop is about to store the entry `i` of the table with the first slot
`j`. -/
structure AtEntry (base j i : ℕ) (s : Cpu32) : Prop where
  eax : s.eax = BitVec.ofNat 32 (i * 2 ^ 21 + 0x83)
  edx : s.edx = 0
  edi : s.edi = BitVec.ofNat 32 (base + 8 * (j + i))

/-- One turn of the loop. -/
theorem AtEntry.step {base j i : ℕ} {s : Cpu32} (h : AtEntry base j i s) (hi : i < 512)
    (hle : base + 8 * (j + i) + 8 ≤ 2 ^ 32) : AtEntry base j (i + 1) (mapPdEntry s) ∧
      (mapPdEntry s).memory = putEntry s.memory (base + 8 * (j + i)) s.eax 0 ∧
      s.eax.toNat = i * 2 ^ 21 + 0x83 := by
  obtain ⟨heax, hedx, hedi⟩ := h
  have hstep : PD_ENTRY_SIZE = BitVec.ofNat 32 (2 ^ 21) := by decide
  have hsize : PD_ENTRY_SIZE.toNat = 2 ^ 21 := by decide
  have htoNat : s.eax.toNat = i * 2 ^ 21 + 0x83 := by
    rw [heax, toNat_ofNat_32 (by omega)]
  have hcarry : decide (2 ^ 32 ≤ s.eax.toNat + PD_ENTRY_SIZE.toNat) = false := by
    rw [htoNat, hsize, decide_eq_false_iff_not]
    omega
  refine ⟨⟨?_, ?_, ?_⟩, ?_, htoNat⟩
  · show s.eax + PD_ENTRY_SIZE = _
    rw [heax, hstep, ← BitVec.ofNat_add]
    exact congrArg (BitVec.ofNat 32) (by omega)
  · simp only [mapPdEntry, hcarry, hedx]
    rfl
  · show s.edi + 8 = _
    rw [hedi, show (8 : BitVec 32) = BitVec.ofNat 32 8 from rfl, ← BitVec.ofNat_add]
    exact congrArg (BitVec.ofNat 32) (by omega)
  · have hedi' : s.edi + 4 = BitVec.ofNat 32 (base + 8 * (j + i) + 4) := by
      rw [hedi, ofNat_add_4]
    simp only [mapPdEntry, putEntry, store32]
    rw [hedi', hedi, hedx, toNat_ofNat_32 (show base + 8 * (j + i) < 2 ^ 32 by omega),
      toNat_ofNat_32 (show base + 8 * (j + i) + 4 < 2 ^ 32 by omega)]

namespace BootLayout

variable (b : BootLayout)

theorem PML4_INDEX_eq : b.PML4_INDEX = b.kernelVma / 2 ^ 39 % 512 := by
  rw [PML4_INDEX, Nat.shiftRight_eq_div_pow]
  exact Nat.and_two_pow_sub_one_eq_mod _ 9

theorem PDPT_INDEX_eq : b.PDPT_INDEX = b.kernelVma / 2 ^ 30 % 512 := by
  rw [PDPT_INDEX, Nat.shiftRight_eq_div_pow]
  exact Nat.and_two_pow_sub_one_eq_mod _ 9

/-- The kernel is in the upper half, so its entry of the root is not that of address 0. -/
theorem le_PML4_INDEX : 256 ≤ b.PML4_INDEX ∧ b.PML4_INDEX < 512 := by
  have h := b.vma_high
  rw [b.PML4_INDEX_eq]
  omega

theorem PDPT_INDEX_lt : b.PDPT_INDEX < 512 := by
  rw [b.PDPT_INDEX_eq]
  omega

/-- What the five tables hold. -/
def slot (j : ℕ) : Entry :=
  if 2048 ≤ j ∧ j < 2048 + b.PD_ENTRY_COUNT then toPage (j - 2048)
  else if 1024 ≤ j ∧ j < 1024 + b.PD_ENTRY_COUNT then toPage (j - 1024)
  else if j = 1536 + b.PDPT_INDEX then toTable b.pdHigh
  else if j = b.PML4_INDEX then toTable b.pdptHigh
  else if j = 512 then toTable b.pdLow
  else if j = 0 then toTable b.pdptLow
  else 0

end BootLayout

/-! The tables, one by one. -/

namespace BootLayout

variable (b : BootLayout)

theorem pdptLow_eq : b.pdptLow = b.pml4Table + 4096 * 1 := rfl

theorem pdLow_eq : b.pdLow = b.pml4Table + 4096 * 2 := by
  show b.pml4Table + 4096 + 4096 = _
  omega

theorem pdptHigh_eq : b.pdptHigh = b.pml4Table + 4096 * 3 := by
  show b.pml4Table + 4096 + 4096 + 4096 = _
  omega

theorem pdHigh_eq : b.pdHigh = b.pml4Table + 4096 * 4 := by
  show b.pml4Table + 4096 + 4096 + 4096 + 4096 = _
  omega

end BootLayout

section Slot

variable (b : BootLayout) {i : ℕ}

theorem slot_pml4 (hi : i < 512) : b.slot i =
    if i = b.PML4_INDEX then toTable (b.pml4Table + 4096 * 3)
    else if i = 0 then toTable (b.pml4Table + 4096 * 1) else 0 := by
  rw [← b.pdptLow_eq, ← b.pdptHigh_eq, BootLayout.slot, if_neg (by omega), if_neg (by omega),
    if_neg (by omega), if_neg (show i ≠ 512 by omega)]

theorem slot_pdptLow (hi : i < 512) :
    b.slot (512 * 1 + i) = if i = 0 then toTable (b.pml4Table + 4096 * 2) else 0 := by
  have hpml4 := b.le_PML4_INDEX
  rw [Nat.mul_one, ← b.pdLow_eq, BootLayout.slot, if_neg (by omega), if_neg (by omega),
    if_neg (by omega), if_neg (by omega), if_neg (show 512 + i ≠ 0 by omega)]
  simp only [Nat.add_eq_left]

theorem slot_pdLow (hi : i < 512) :
    b.slot (512 * 2 + i) = if i < b.PD_ENTRY_COUNT then toPage i else 0 := by
  have hpml4 := b.le_PML4_INDEX
  rw [show 512 * 2 = 1024 from rfl, BootLayout.slot, if_neg (by omega),
    if_neg (show 1024 + i ≠ 1536 + b.PDPT_INDEX by omega),
    if_neg (show 1024 + i ≠ b.PML4_INDEX by omega), if_neg (show 1024 + i ≠ 512 by omega),
    if_neg (show 1024 + i ≠ 0 by omega), Nat.add_sub_cancel_left]
  simp only [Nat.le_add_right, true_and, Nat.add_lt_add_iff_left]

theorem slot_pdptHigh (hi : i < 512) :
    b.slot (512 * 3 + i) =
      if i = b.PDPT_INDEX then toTable (b.pml4Table + 4096 * 4) else 0 := by
  have hpml4 := b.le_PML4_INDEX
  have hcount : b.PD_ENTRY_COUNT ≤ 512 := b.count_le
  rw [show 512 * 3 = 1536 from rfl, ← b.pdHigh_eq, BootLayout.slot, if_neg (by omega),
    if_neg (by omega), if_neg (show 1536 + i ≠ b.PML4_INDEX by omega),
    if_neg (show 1536 + i ≠ 512 by omega), if_neg (show 1536 + i ≠ 0 by omega)]
  simp only [Nat.add_right_inj]

theorem slot_pdHigh (hi : i < 512) :
    b.slot (512 * 4 + i) = if i < b.PD_ENTRY_COUNT then toPage i else 0 := by
  have hpml4 := b.le_PML4_INDEX
  have hpdpt := b.PDPT_INDEX_lt
  have hcount : b.PD_ENTRY_COUNT ≤ 512 := b.count_le
  have hlow : ¬(1024 ≤ 2048 + i ∧ 2048 + i < 1024 + b.PD_ENTRY_COUNT) := by omega
  rw [show 512 * 4 = 2048 from rfl, BootLayout.slot, if_neg hlow,
    if_neg (show 2048 + i ≠ 1536 + b.PDPT_INDEX by omega),
    if_neg (show 2048 + i ≠ b.PML4_INDEX by omega), if_neg (show 2048 + i ≠ 512 by omega),
    if_neg (show 2048 + i ≠ 0 by omega), Nat.add_sub_cancel_left]
  simp only [Nat.le_add_right, true_and, Nat.add_lt_add_iff_left]

end Slot

/-- The low bits of a table's address are free for its flags. -/
theorem getLsbD_ofNat_add {t f k : ℕ} (ht : t % 4096 = 0) (hf : f < 4096) (hk : k < 12) :
    (BitVec.ofNat 64 (t + f)).getLsbD k = f.testBit k := by
  have hmod : (t + f) % 2 ^ 12 = f := by omega
  have hbit := Nat.testBit_mod_two_pow (t + f) 12 k
  rw [hmod, decide_eq_true hk, Bool.true_and] at hbit
  rw [BitVec.getLsbD_ofNat, decide_eq_true (show k < 64 by omega), Bool.true_and, hbit]

theorem address_ofNat_add {t f : ℕ} (ht : t % 4096 = 0) (hf : f < 4096) (hlt : t < 2 ^ 32) :
    address (BitVec.ofNat 64 (t + f)) = t := by
  rw [address_eq, BitVec.toNat_ofNat, Nat.mod_eq_of_lt (show t + f < 2 ^ 64 by omega)]
  omega

theorem write_ofNat_add {t f : ℕ} (ht : t % 4096 = 0) (hf : f < 4096) :
    (prot (BitVec.ofNat 64 (t + f))).write = f.testBit 1 := by
  rw [prot_eq]
  exact getLsbD_ofNat_add ht hf (by decide)

theorem user_ofNat_add {t f : ℕ} (ht : t % 4096 = 0) (hf : f < 4096) :
    (prot (BitVec.ofNat 64 (t + f))).user = f.testBit 2 := by
  rw [prot_eq]
  exact getLsbD_ofNat_add ht hf (by decide)

section Walk

variable {m : Memory} {va level table : ℕ} {write user : Bool}

theorem walk_absent (h : entryAt m (table + index (level + 1) va * 8) = 0) :
    walk m va (level + 1) table write user = none := by
  rw [walk, h]
  rfl

/-- Down one level. -/
theorem walk_table {t : ℕ} (h : entryAt m (table + index (level + 1) va * 8) = toTable t)
    (ht : t % 4096 = 0) (hlt : t < 2 ^ 32) (hlevel : level ≠ 0) :
    walk m va (level + 1) table write user = walk m va level t write false := by
  have hpresent : present (toTable t) = true := by
    rw [present_eq]
    exact getLsbD_ofNat_add ht (by decide) (by decide)
  have hleaf : leaf (toTable t) (level + 1) = false := by
    rw [leaf_eq, beq_false_of_ne (by omega), Bool.false_or]
    exact getLsbD_ofNat_add ht (by decide) (by decide)
  have haddress : address (toTable t) = t := address_ofNat_add ht (by decide) hlt
  have hwrite : (prot (toTable t)).write = true := write_ofNat_add ht (by decide)
  have huser : (prot (toTable t)).user = false := user_ofNat_add ht (by decide)
  rw [walk]
  simp only [h, hpresent, hleaf, haddress, hwrite, huser, Bool.and_true, Bool.and_false, if_true,
    Bool.false_eq_true, if_false]

/-- A page of 2 MiB. -/
theorem walk_page {i : ℕ} (h : entryAt m (table + index 2 va * 8) = toPage i) (hi : i < 512) :
    walk m va 2 table write user = some ⟨i * 2 ^ 21 + va % 2 ^ 21, write, false⟩ := by
  have hi' : i * 2 ^ 21 % 4096 = 0 := by omega
  have hpresent : present (toPage i) = true := by
    rw [present_eq]
    exact getLsbD_ofNat_add hi' (by decide) (by decide)
  have hleaf : leaf (toPage i) 2 = true := by
    rw [leaf_eq, beq_false_of_ne (by decide), Bool.false_or]
    exact getLsbD_ofNat_add hi' (by decide) (by decide)
  have haddress : address (toPage i) = i * 2 ^ 21 := address_ofNat_add hi' (by decide) (by omega)
  have hwrite : (prot (toPage i)).write = true := write_ofNat_add hi' (by decide)
  have huser : (prot (toPage i)).user = false := user_ofNat_add hi' (by decide)
  have hsize : (sizeAt (1 + 1)).bytesIn = 2 ^ 21 := by decide
  have hroot : ¬1 + 1 = levels := by decide
  rw [walk]
  simp only [h, hpresent, hleaf, haddress, hwrite, huser, Bool.and_true, Bool.and_false, if_true,
    hroot, if_false, hsize]

end Walk

/-! ## What is mapped -/

/-- Memory with the tables that the code leaves. -/
def Mapped (b : BootLayout) (m : Memory) : Prop :=
  ∀ j < 2560, slots m b.pml4Table j = b.slot j

/-- The tables are where they were as long as nobody writes there. -/
theorem Mapped.congr {b : BootLayout} {m m' : Memory} (h : Mapped b m)
    (heq : ∀ x, b.pml4Table ≤ x → x < b.pml4Table + 20480 → m' x = m x) : Mapped b m' := by
  intro j hj
  have hbytes : leAt m' (b.pml4Table + 8 * j) 8 = leAt m (b.pml4Table + 8 * j) 8 := by
    apply leAt_congr
    intro i hi
    exact heq _ (by omega) (by omega)
  rw [← h j hj, slots, slots, entryAt, entryAt, hbytes]

/-- An entry of the table `k`. -/
theorem Mapped.entryAt {b : BootLayout} {m : Memory} (h : Mapped b m) {k i : ℕ} (hk : k < 5)
    (hi : i < 512) :
    BootPaging.entryAt m (b.pml4Table + 4096 * k + i * 8) = b.slot (512 * k + i) := by
  rw [← h (512 * k + i) (by omega), slots]
  exact congrArg _ (by omega)

theorem Mapped.walk_directory {b : BootLayout} {m : Memory} (h : Mapped b m) (va : ℕ) {k : ℕ}
    {write user : Bool} (hk : k < 5) (hslot : ∀ i < 512, b.slot (512 * k + i) =
      if i < b.PD_ENTRY_COUNT then toPage i else 0) :
    walk m va 2 (b.pml4Table + 4096 * k) write user =
      if index 2 va < b.PD_ENTRY_COUNT then
        some ⟨index 2 va * 2 ^ 21 + va % 2 ^ 21, write, false⟩
      else none := by
  have hi := index_lt 2 va
  have hentry := h.entryAt hk hi
  rw [hslot _ hi] at hentry
  by_cases hin : index 2 va < b.PD_ENTRY_COUNT
  · rw [if_pos hin] at hentry ⊢
    exact walk_page hentry hi
  · rw [if_neg hin] at hentry ⊢
    exact walk_absent hentry

theorem valid_iff {va : ℕ} (h : va < 2 ^ 64) :
    valid va = true ↔ va < 2 ^ 47 ∨ 2 ^ 64 - 2 ^ 47 ≤ va := by
  simp only [valid, Nat.shiftRight_eq_div_pow, Bool.or_eq_true, beq_iff_eq]
  omega

/-- Where a 2 MiB page leads. -/
theorem phys_eq (va : ℕ) : index 2 va * 2 ^ 21 + va % 2 ^ 21 = va % 2 ^ 30 := by
  have h2 : index 2 va = va / 2 ^ 21 % 512 := index_eq 2 va
  rw [h2]
  omega

theorem index_2_lt_iff (va n : ℕ) : index 2 va < n ↔ va % 2 ^ 30 < n * 2 ^ 21 := by
  rw [← phys_eq va]
  omega

/-- In the upper half, the indices of two levels tell in which GiB an address is. -/
theorem gib_eq {va base : ℕ} (hva : va < 2 ^ 64) (hbase : base < 2 ^ 64)
    (hhigh : 2 ^ 64 - 2 ^ 47 ≤ va) (hhigh' : 2 ^ 64 - 2 ^ 47 ≤ base) :
    va / 2 ^ 30 = base / 2 ^ 30 ↔ index 4 va = index 4 base ∧ index 3 va = index 3 base := by
  have h4 : ∀ x, index 4 x = x / 2 ^ 39 % 512 := index_eq 4
  have h3 : ∀ x, index 3 x = x / 2 ^ 30 % 512 := index_eq 3
  rw [h4, h4, h3, h3]
  omega

/-- A window: from the root through one entry of each table. -/
theorem Mapped.walk_window {b : BootLayout} {m : Memory} (h : Mapped b m) (va : ℕ) {k c : ℕ}
    (hk : k < 4)
    (hroot : b.slot (index 4 va) = toTable (b.pml4Table + 4096 * k))
    (htable : ∀ i < 512, b.slot (512 * k + i) =
      if i = c then toTable (b.pml4Table + 4096 * (k + 1)) else 0)
    (hdirectory : ∀ i < 512, b.slot (512 * (k + 1) + i) =
      if i < b.PD_ENTRY_COUNT then toPage i else 0) :
    walk m va 4 b.pml4Table true true =
      if index 3 va = c ∧ va % 2 ^ 30 < b.PD_ENTRY_COUNT * 2 ^ 21 then
        some ⟨va % 2 ^ 30, true, false⟩
      else none := by
  have hbelow := b.table_below
  have haligned := b.table_aligned
  have hentry := h.entryAt (k := 0) (by omega) (index_lt 4 va)
  simp only [Nat.mul_zero, Nat.add_zero, Nat.zero_add, hroot] at hentry
  rw [walk_table hentry (by omega) (by omega) (by omega)]
  have hentry' := h.entryAt (k := k) (by omega) (index_lt 3 va)
  rw [htable _ (index_lt 3 va)] at hentry'
  by_cases hc : index 3 va = c
  · rw [if_pos hc] at hentry'
    rw [walk_table hentry' (by omega) (by omega) (by omega),
      h.walk_directory va (by omega) hdirectory]
    simp only [hc, true_and, phys_eq, index_2_lt_iff]
  · rw [if_neg hc] at hentry'
    rw [walk_absent hentry', if_neg fun h => hc h.1]

/-- Two windows are mapped, and nothing else. -/
theorem Mapped.translate {b : BootLayout} {m : Memory} (h : Mapped b m) (va : BitVec 64) :
    BootPaging.translate m b.pml4Table va.toNat =
      if va.toNat < b.PD_ENTRY_COUNT * 2 ^ 21 then some ⟨va.toNat, true, false⟩
      else if b.kernelVma ≤ va.toNat ∧ va.toNat < b.kernelVma + b.PD_ENTRY_COUNT * 2 ^ 21 then
        some ⟨va.toNat - b.kernelVma, true, false⟩
      else none := by
  have hva := va.isLt
  generalize va.toNat = va at hva
  have hvma := b.vma_high
  have haligned := b.vma_aligned
  have hpml4 := b.le_PML4_INDEX
  have hsize : b.PD_ENTRY_COUNT * 2 ^ 21 ≤ 2 ^ 30 := by
    have hcount : b.PD_ENTRY_COUNT ≤ 512 := b.count_le
    omega
  have hpml4' : index 4 b.kernelVma = b.PML4_INDEX := rfl
  have hpdpt' : index 3 b.kernelVma = b.PDPT_INDEX := rfl
  have h4 : index 4 va = va / 2 ^ 39 % 512 := index_eq 4 va
  have h3 : index 3 va = va / 2 ^ 30 % 512 := index_eq 3 va
  have hroot := slot_pml4 b (index_lt 4 va)
  generalize hcount : b.PD_ENTRY_COUNT * 2 ^ 21 = size at hsize ⊢
  rw [BootPaging.translate]
  by_cases hvalid : va < 2 ^ 47 ∨ 2 ^ 64 - 2 ^ 47 ≤ va
  · rw [if_pos ((valid_iff hva).mpr hvalid)]
    by_cases hhigh : index 4 va = b.PML4_INDEX
    · -- the upper window
      rw [if_pos hhigh] at hroot
      refine (h.walk_window va (k := 3) (by omega) hroot (fun i hi => slot_pdptHigh b hi)
        (fun i hi => slot_pdHigh b hi)).trans ?_
      have hgib := gib_eq hva hvma.2 (by omega) hvma.1
      rw [hpml4', hpdpt'] at hgib
      rw [hcount, if_neg (show ¬va < size by omega)]
      by_cases hin : index 3 va = b.PDPT_INDEX ∧ va % 2 ^ 30 < size
      · have hsame := hgib.mpr ⟨hhigh, hin.1⟩
        have hphys : va % 2 ^ 30 = va - b.kernelVma := by omega
        rw [if_pos hin, if_pos (by omega), hphys]
      · rw [if_neg hin, if_neg fun h => hin ⟨(hgib.mp (by omega)).2, by omega⟩]
    · rw [if_neg hhigh] at hroot
      have hnot : ¬(b.kernelVma ≤ va ∧ va < b.kernelVma + size) := by
        intro h
        have hgib := (gib_eq hva hvma.2 (by omega) hvma.1).mp (by omega)
        exact hhigh (hgib.1.trans hpml4')
      rw [if_neg hnot]
      by_cases hlow : index 4 va = 0
      · -- the lower window
        rw [if_pos hlow] at hroot
        refine (h.walk_window va (k := 1) (by omega) hroot (fun i hi => slot_pdptLow b hi)
          (fun i hi => slot_pdLow b hi)).trans ?_
        rw [hcount]
        by_cases hin : index 3 va = 0 ∧ va % 2 ^ 30 < size
        · have hphys : va % 2 ^ 30 = va := by omega
          rw [if_pos hin, if_pos (by omega), hphys]
        · rw [if_neg hin, if_neg (by omega)]
      · rw [if_neg hlow] at hroot
        have hentry := h.entryAt (k := 0) (by omega) (index_lt 4 va)
        simp only [Nat.mul_zero, Nat.add_zero, Nat.zero_add, hroot] at hentry
        refine (walk_absent hentry).trans ?_
        rw [if_neg (by omega)]
  · have hnot : valid va = false := Bool.eq_false_iff.mpr (mt (valid_iff hva).mp hvalid)
    rw [hnot, if_neg Bool.false_ne_true, if_neg (by omega), if_neg (by omega)]

end BootPaging

end DoomOs
