/-
# Into long mode

`boot32.S` and `longmode.S`, from `_start32` where a Multiboot2 loader jumps to, up to the call of
`kernel_multiboot2_entry` in the upper half.  The code is a list of instructions, and `step` is what
the CPU does with the next of them: it fetches it through the page tables that are in force, in the
mode that is in force, and `none` is an exception (or a mode that is not modelled).

* `BootImage` is where the linker script puts the parts, with what it asserts;
* `Handoff` is the state in which the loader leaves the machine;
* `enters_kernel`: no instruction faults, and the kernel is entered in 64-bit mode on its own stack
  and under its own addresses, with what the loader handed over in the argument registers.
-/
import DoomOs.BootPaging
import DoomOs.Descriptors

namespace DoomOs

namespace LongMode

open Cpu BootPaging

/-! ## The image -/

/-- The addresses that `config/linker.ld` gives out, and what it asserts.  A stack lies below its
top. -/
structure BootImage extends BootLayout where
  /-- The address of each instruction of the boot code, and how many bytes it takes. -/
  codeAt : ℕ → ℕ
  codeLength : ℕ → ℕ
  /-- Where `fill_early_page_directory` returns to the second time. -/
  fillReturn : ℕ
  /-- `boot_mb2_magic`, where `.boot.data` starts. -/
  data : ℕ
  /-- `stack_top`, in `.boot.bss`. -/
  stackTop : ℕ
  /-- `boot_end`. -/
  bootEnd : ℕ
  /-- `kernel_physical_end`. -/
  kernelPhysicalEnd : ℕ
  /-- `boot_stack_top`, in `.bss`. -/
  bootStackTop : ℕ
  /-- `kernel_multiboot2_entry`, in `.text`. -/
  entry : ℕ
  code_data : ∀ i ≤ 33, codeAt i + codeLength i ≤ data
  data_stack : data + 38 + 16384 ≤ stackTop
  data_tables : data + 38 ≤ pml4Table
  stack_tables : stackTop ≤ pml4Table ∨ pml4Table + 20480 + 16384 ≤ stackTop
  stack_end : stackTop ≤ bootEnd
  tables_end : pml4Table + 20480 ≤ bootEnd
  kernelStack_start : kernelVma + bootEnd + 16384 ≤ bootStackTop
  kernelStack_end : bootStackTop ≤ kernelVma + kernelPhysicalEnd
  kernelStack_aligned : bootStackTop % 16 = 0
  entry_start : kernelVma + bootEnd ≤ entry
  entry_end : entry < kernelVma + kernelPhysicalEnd
  /-- The last assertion of the linker script. -/
  fits : kernelPhysicalEnd ≤ earlyMapSize
  earlyMap_whole : earlyMapSize % 2 ^ 21 = 0

namespace BootImage

variable (b : BootImage)

def boot_mb2_magic : ℕ := b.data

def boot_mb2_info : ℕ := b.data + 4

def gdt64 : ℕ := b.data + 8

def gdt64_pointer32 : ℕ := b.data + 32

/-- The temporary table of descriptors and what `lgdt` is to load. -/
def gdt : List Field :=
  [(8, 0x0000000000000000), (8, 0x00AF9A000000FFFF), (8, 0x00CF92000000FFFF),
    (2, 24 - 1), (4, b.gdt64)]

end BootImage

/-! ## The machine -/

inductive Reg where
  | rax
  | rbx
  | rcx
  | rdx
  | rdi
  | rsi
  | rsp
  deriving DecidableEq

inductive Seg where
  | ds
  | es
  | ss
  | fs
  | gs
  deriving DecidableEq

/-- Where the CPU is: at an instruction of the boot code, or in the kernel. -/
inductive Pc where
  | code (i : ℕ)
  | entry

/-- A CPU in ring 0, with its memory. -/
structure Machine where
  reg : Reg → BitVec 64
  seg : Seg → BitVec 16
  interrupts : Bool
  carry : Bool
  cr0 : BitVec 64
  cr3 : BitVec 64
  cr4 : BitVec 64
  efer : BitVec 64
  gdtr : TableRegister
  /-- The descriptor in force for code. -/
  cs : Segment
  memory : Memory
  pc : Pc

namespace Machine

variable (m : Machine)

/-- `CR0.PG`. -/
def paging : Bool := m.cr0.getLsbD 31

/-- `EFER.LMA`. -/
def longActive : Bool := m.efer.getLsbD 10

/-- `CR4.LA57`: five levels. -/
def fiveLevels : Bool := m.cr4.getLsbD 12

/-- 64-bit mode. -/
def code64 : Bool := m.longActive && m.cs.long

/-- Where an address leads, for a write or not; of the kinds of paging only that with four levels
is modelled. -/
def linear (write : Bool) (a : ℕ) : Option ℕ :=
  if m.paging then
    if m.longActive && !m.fiveLevels then
      match translate m.memory (m.cr3.toNat / 4096 * 4096) a with
      | some t => if write && !t.write then none else some t.phys
      | none => none
    else none
  else some a

/-- Where `n` bytes lie that have to be in one piece. -/
def span (write : Bool) (a n : ℕ) : Option ℕ :=
  match m.linear write a with
  | some p => if ∀ i < n, m.linear write (a + i) = some (p + i) then some p else none
  | none => none

def load (a n : ℕ) : Option ℕ := (m.span false a n).map fun p => leAt m.memory p n

def store (a n v : ℕ) : Option Machine :=
  (m.span true a n).map fun p => { m with memory := putLe m.memory p n v }

def set (r : Reg) (v : BitVec 64) : Machine := { m with reg := Function.update m.reg r v }

/-- The lower half of a register. -/
def low (r : Reg) : BitVec 32 := (m.reg r).setWidth 32

/-- Writing the lower half clears the upper one. -/
def setLow (r : Reg) (v : BitVec 32) : Machine := m.set r (v.setWidth 64)

/-- `n` bytes pushed. -/
def push (n v : ℕ) : Option Machine :=
  (m.set .rsp (m.reg .rsp - BitVec.ofNat 64 n)).store (m.reg .rsp - BitVec.ofNat 64 n).toNat n v

/-- The descriptor that a selector names. -/
def descriptor (selector : BitVec 16) : Option Segment :=
  match m.span false (m.gdtr.base + 8 * (selector.toNat / 8)) 8 with
  | some p => readSegment m.memory ⟨m.gdtr.limit, p - 8 * (selector.toNat / 8)⟩ selector
  | none => none

/-- A write to `CR0`: paging needs protection, and `NW` needs `CD`; with `EFER.LME` paging starts
long mode, which needs `CR4.PAE` and other code than 64-bit code. -/
def writeCr0 (v : BitVec 64) : Option Machine :=
  if v.getLsbD 31 && !v.getLsbD 0 || v.getLsbD 29 && !v.getLsbD 30 then none
  else if v.getLsbD 31 && !m.paging && m.efer.getLsbD 8 then
    if m.cr4.getLsbD 5 && !m.cs.long then
      some
        { m with
          cr0 := v
          efer := m.efer ||| 0x400 }
    else none
  else if !v.getLsbD 31 && m.paging && m.longActive then
    if m.cs.long then none
    else
      some
        { m with
          cr0 := v
          efer := m.efer &&& ~~~0x400 }
  else some { m with cr0 := v }

/-- A write to `CR4`: long mode needs `PAE`, keeps `LA57`, and is needed for `PCIDE`; the paging of
32-bit code is not modelled. -/
def writeCr4 (v : BitVec 64) : Option Machine :=
  if m.longActive && (!v.getLsbD 5 || v.getLsbD 12 != m.cr4.getLsbD 12) then none
  else if v.getLsbD 17 && !m.cr4.getLsbD 17 && (!m.longActive || m.cr3.toNat % 4096 != 0) then none
  else if m.paging && !m.longActive then none
  else some { m with cr4 := v }

/-- A write to `EFER`: no reserved bit may be set that was clear, `LME` may not change under paging,
and `LMA` does not change. -/
def writeEfer (v : BitVec 64) : Option Machine :=
  if v &&& ~~~(m.efer ||| 0xD01) != 0 then none
  else if m.paging && v.getLsbD 8 != m.efer.getLsbD 8 then none
  else some { m with efer := v &&& ~~~0x400 ||| m.efer &&& 0x400 }

/-- A selector loaded in a data segment register. -/
def writeSeg (s : Seg) (selector : BitVec 16) : Option Machine :=
  let loaded := { m with seg := Function.update m.seg s selector }
  if selector.toNat / 4 = 0 then
    if s = .ss && !m.code64 then none else some loaded
  else
    match m.descriptor selector with
    | none => none
    | some d =>
      let rpl := selector.toNat % 4
      if s = .ss then
        if d.isWritableData && d.dpl == 0 && rpl == 0 then some loaded else none
      else if d.present && d.ordinary && (!d.executable || d.writable) &&
          (d.executable && d.conforming || decide (rpl ≤ d.dpl)) then
        some loaded
      else none

end Machine

/-! ## The code -/

inductive Instr where
  | cli
  /-- `movl` or `movabs` with a constant. -/
  | mov (v : ℕ) (r : Reg)
  /-- `movw` to `%ax`. -/
  | movAx (v : BitVec 16)
  | movTo (r : Reg) (a : ℕ)
  | movFrom (a : ℕ) (r : Reg)
  | or (v : BitVec 32) (r : Reg)
  | call (i : ℕ)
  /-- The call of `setup_boot_page_tables`. -/
  | callSetup
  | callReg (r : Reg)
  | lgdt (a : ℕ)
  | movToCr0 (r : Reg)
  | movFromCr0 (r : Reg)
  | movToCr3 (r : Reg)
  | movToCr4 (r : Reg)
  | movFromCr4 (r : Reg)
  | rdmsr
  | wrmsr
  | ljmp (selector : BitVec 16) (i : ℕ)
  /-- `movw %ax` to a segment register. -/
  | movToSeg (s : Seg)

def GDT64_KERNEL_CODE : BitVec 16 := 0x08

def GDT64_KERNEL_DATA : BitVec 16 := 0x10

def CR0_PG : BitVec 32 := 0x80000000

def CR4_PAE : BitVec 32 := 0x00000020

def MSR_EFER : BitVec 32 := 0xC0000080

def EFER_LME : BitVec 32 := 0x00000100

/-- `_start32` from 0 on, `enter_long_mode` from 3, `long_mode_entry` from 21. -/
def code (b : BootImage) : List Instr :=
  [.cli,
    .mov b.stackTop .rsp,
    .call 3,
    .cli,
    .movTo .rax b.boot_mb2_magic,
    .movTo .rbx b.boot_mb2_info,
    .callSetup,
    .lgdt b.gdt64_pointer32,
    .mov b.pml4Table .rax,
    .movToCr3 .rax,
    .movFromCr4 .rax,
    .or CR4_PAE .rax,
    .movToCr4 .rax,
    .mov MSR_EFER.toNat .rcx,
    .rdmsr,
    .or EFER_LME .rax,
    .wrmsr,
    .movFromCr0 .rax,
    .or CR0_PG .rax,
    .movToCr0 .rax,
    .ljmp GDT64_KERNEL_CODE 21,
    .movAx GDT64_KERNEL_DATA,
    .movToSeg .ds,
    .movToSeg .es,
    .movToSeg .ss,
    .movAx 0,
    .movToSeg .fs,
    .movToSeg .gs,
    .mov b.bootStackTop .rsp,
    .movFrom b.boot_mb2_magic .rdi,
    .movFrom b.boot_mb2_info .rsi,
    .mov b.entry .rax,
    .callReg .rax]

/-- `.code64` starts at `long_mode_entry`. -/
def is64 (i : ℕ) : Bool := decide (21 ≤ i)

/-- `setup_boot_page_tables` on the registers of 32-bit code; its own calls leave a return address
below the stack pointer. -/
def setup (b : BootImage) (m : Machine) : Machine :=
  let s := setupBootPageTables b.toBootLayout
    { eax := m.low .rax
      ecx := m.low .rcx
      edx := m.low .rdx
      edi := m.low .rdi
      carry := m.carry
      memory := putLe m.memory (m.reg .rsp - 4).toNat 4 b.fillReturn }
  { (((m.setLow .rax s.eax).setLow .rcx s.ecx).setLow .rdx s.edx).setLow .rdi s.edi with
    carry := s.carry
    memory := s.memory }

/-- A call from the instruction `i` of code that runs without paging and returns with the stack as
it found it.  The return address has to be where it was. -/
def callSub (b : BootImage) (i : ℕ) (f : Machine → Machine) (m : Machine) : Option Machine :=
  match m.push 4 (b.codeAt (i + 1)) with
  | none => none
  | some m' =>
    if m.paging then none
    else if (f m').load (m'.reg .rsp).toNat 4 = some (b.codeAt (i + 1)) then
      some
        { (f m').set .rsp (m'.reg .rsp + 4) with pc := .code (i + 1) }
    else none

/-- An instruction. -/
def exec (b : BootImage) (i : ℕ) (instr : Instr) (m : Machine) : Option Machine :=
  let next := { m with pc := .code (i + 1) }
  match instr with
  | .cli => some { next with interrupts := false }
  | .mov v r => some (next.set r (BitVec.ofNat 64 v))
  | .movAx v => some (next.set .rax (m.reg .rax &&& ~~~0xFFFF ||| v.setWidth 64))
  | .movTo r a => next.store a 4 (m.low r).toNat
  | .movFrom a r => (m.load a 4).map fun v => next.setLow r (BitVec.ofNat 32 v)
  | .or v r => some (next.setLow r (m.low r ||| v))
  | .call target => (m.push 4 (b.codeAt (i + 1))).map fun m => { m with pc := .code target }
  | .callSetup => callSub b i (setup b) m
  | .callReg r =>
    if (m.reg r).toNat = b.entry then
      (m.push 8 (b.codeAt (i + 1))).map fun m => { m with pc := .entry }
    else none
  | .lgdt a =>
    (m.span false a 6).map fun p =>
      { next with gdtr := ⟨leAt m.memory p 2, leAt m.memory (p + 2) 4⟩ }
  | .movToCr0 r => next.writeCr0 (m.reg r)
  | .movFromCr0 r => some (next.setLow r (m.cr0.setWidth 32))
  | .movToCr3 r => some { next with cr3 := m.reg r }
  | .movToCr4 r => next.writeCr4 (m.reg r)
  | .movFromCr4 r => some (next.setLow r (m.cr4.setWidth 32))
  | .rdmsr =>
    if m.low .rcx = MSR_EFER then
      some ((next.setLow .rax (m.efer.extractLsb' 0 32)).setLow .rdx (m.efer.extractLsb' 32 32))
    else none
  | .wrmsr =>
    if m.low .rcx = MSR_EFER then next.writeEfer (m.low .rdx ++ m.low .rax) else none
  | .ljmp selector target =>
    match m.descriptor selector with
    | none => none
    | some d =>
      if d.present && d.ordinary && d.executable && d.dpl == 0 && selector.toNat % 4 == 0 &&
          !(m.longActive && d.long && d.wide) then
        some
          { m with
            cs := d
            pc := .code target }
      else none
  | .movToSeg s => next.writeSeg s ((m.reg .rax).setWidth 16)

/-- The next instruction: its bytes have to be where the linker put them, and the CPU has to be in
the mode for which they were assembled. -/
def step (b : BootImage) (m : Machine) : Option Machine :=
  match m.pc with
  | .entry => none
  | .code i =>
    match (code b)[i]? with
    | none => none
    | some instr =>
      if m.span false (b.codeAt i) (b.codeLength i) = some (b.codeAt i) ∧
          m.code64 = is64 i ∧ (m.code64 = false → m.cs.wide = true) then
        exec b i instr m
      else none

/-- So many instructions. -/
def run (b : BootImage) : ℕ → Machine → Option Machine
  | 0, m => some m
  | n + 1, m => (step b m).bind (run b n)

namespace BootImage

variable (b : BootImage)

theorem window_eq : b.PD_ENTRY_COUNT * 2 ^ 21 = b.earlyMapSize := by
  have hwhole := b.earlyMap_whole
  rw [BootLayout.PD_ENTRY_COUNT, Nat.shiftRight_eq_div_pow]
  omega

theorem window_le : b.earlyMapSize ≤ 2 ^ 30 := by
  have hcount : b.PD_ENTRY_COUNT ≤ 512 := b.count_le
  have hwindow := b.window_eq
  omega

/-- All parts of the boot image are in the window. -/
theorem bootEnd_le : b.bootEnd + 16384 ≤ b.earlyMapSize := by
  have h₁ := b.kernelStack_start
  have h₂ := b.kernelStack_end
  have h₃ := b.fits
  omega

end BootImage

namespace Machine

variable {m : Machine} {write : Bool} {a n p : ℕ}

theorem span_eq (h0 : m.linear write a = some p)
    (h : ∀ i < n, m.linear write (a + i) = some (p + i)) : m.span write a n = some p := by
  rw [span, h0]
  exact if_pos h

/-- The lower window is where it would be without paging. -/
def Identity (b : BootImage) (m : Machine) : Prop :=
  ∀ write a, a < b.earlyMapSize → m.linear write a = some a

theorem identity_of_unpaged (b : BootImage) (h : m.paging = false) : m.Identity b := by
  intro write a _
  rw [linear, h]
  rfl

variable {b : BootImage}

theorem Identity.span (hid : m.Identity b) (h : a + n ≤ b.earlyMapSize) (ha : a < b.earlyMapSize) :
    m.span write a n = some a :=
  span_eq (hid write a ha) fun i hi => hid write (a + i) (by omega)

theorem Identity.store (hid : m.Identity b) (h : a + n ≤ b.earlyMapSize) (ha : a < b.earlyMapSize)
    (v : ℕ) : m.store a n v = some { m with memory := putLe m.memory a n v } := by
  rw [Machine.store, hid.span h ha]
  rfl

theorem Identity.load (hid : m.Identity b) (h : a + n ≤ b.earlyMapSize)
    (ha : a < b.earlyMapSize) : m.load a n = some (leAt m.memory a n) := by
  rw [Machine.load, hid.span h ha]
  rfl

/-- A push that leaves the stack pointer at `t`. -/
theorem Identity.push (hid : ∀ r v, (m.set r v).Identity b) {t : ℕ}
    (hrsp : m.reg .rsp = BitVec.ofNat 64 (t + n)) (ht : t + n ≤ b.earlyMapSize) (hn : 0 < n)
    (v : ℕ) :
    m.push n v = some
      { m.set .rsp (BitVec.ofNat 64 t) with memory := putLe m.memory t n v } := by
  have hlt := b.window_le
  have hsub : BitVec.ofNat 64 (t + n) - BitVec.ofNat 64 n = BitVec.ofNat 64 t := by
    rw [BitVec.ofNat_add, BitVec.add_sub_cancel]
  have htoNat : (BitVec.ofNat 64 t).toNat = t := by
    rw [BitVec.toNat_ofNat, Nat.mod_eq_of_lt (by omega)]
  rw [Machine.push, hrsp, hsub, htoNat, (hid _ _).store ht (by omega)]
  rfl

end Machine

/-! ## One instruction after the other -/

theorem run_cons {b : BootImage} {m m' m'' : Machine} {i n : ℕ} {instr : Instr}
    (hpc : m.pc = .code i) (hinstr : (code b)[i]? = some instr) (hid : m.Identity b)
    (hmode : m.code64 = is64 i) (hwide : m.code64 = false → m.cs.wide = true)
    (hexec : exec b i instr m = some m') (hrest : run b n m' = some m'') :
    run b (n + 1) m = some m'' := by
  have hwindow := b.bootEnd_le
  have hdata := b.data_stack
  have hstack := b.stack_end
  have hcode := b.code_data i (Nat.le_of_lt (List.getElem?_eq_some_iff.mp hinstr).1)
  have hfetch : m.span false (b.codeAt i) (b.codeLength i) = some (b.codeAt i) :=
    hid.span (by omega) (by omega)
  have hstep : step b m = some m' := by
    rw [step, hpc]
    simp only [hinstr]
    rw [if_pos ⟨hfetch, hmode, hwide⟩]
    exact hexec
  rw [run, hstep]
  exact hrest

/-- The tables, the words of the loader and the first stack are all that is written before the
kernel is entered. -/
def Written (b : BootImage) (x : ℕ) : Prop :=
  b.pml4Table ≤ x ∧ x < b.pml4Table + 20480 ∨ b.stackTop - 16384 ≤ x ∧ x < b.stackTop ∨
    b.data ≤ x ∧ x < b.data + 8

/-- Before the instruction 7: the tables are there and not yet in use. -/
structure Prepared (b : BootImage) (magic info : BitVec 32) (m₀ m : Machine) : Prop where
  pc : m.pc = .code 7
  magic : leAt m.memory b.boot_mb2_magic 4 = magic.toNat
  info : leAt m.memory b.boot_mb2_info 4 = info.toNat
  gdt : Holds m.memory b.gdt64 b.gdt
  mapped : Mapped b.toBootLayout m.memory
  others : ∀ x, ¬Written b x → m.memory x = m₀.memory x
  interrupts : m.interrupts = false
  cr0 : m.cr0 = m₀.cr0
  cr4 : m.cr4 = m₀.cr4
  efer : m.efer = m₀.efer
  cs : m.cs = m₀.cs

/-- The tables of `setup_boot_page_tables` are in force. -/
structure InForce (b : BootImage) (m : Machine) : Prop where
  paging : m.paging = true
  active : m.longActive = true
  fourLevels : m.fiveLevels = false
  cr3 : m.cr3 = BitVec.ofNat 64 b.pml4Table
  mapped : Mapped b.toBootLayout m.memory

theorem InForce.linear {b : BootImage} {m : Machine} (h : InForce b m) (write : Bool)
    (va : BitVec 64) : m.linear write va.toNat =
      if va.toNat < b.earlyMapSize then some va.toNat
      else if b.kernelVma ≤ va.toNat ∧ va.toNat < b.kernelVma + b.earlyMapSize then
        some (va.toNat - b.kernelVma)
      else none := by
  have hbelow := b.table_below
  have haligned := b.table_aligned
  have hcr3 : (BitVec.ofNat 64 b.pml4Table).toNat / 4096 * 4096 = b.pml4Table := by
    rw [BitVec.toNat_ofNat, Nat.mod_eq_of_lt (by omega)]
    omega
  have htranslate := h.mapped.translate va
  rw [b.window_eq] at htranslate
  rw [Machine.linear, h.paging, h.active, h.fourLevels, h.cr3, hcr3, htranslate]
  by_cases hlow : va.toNat < b.earlyMapSize
  · rw [if_pos hlow, if_pos hlow]
    cases write <;> rfl
  · rw [if_neg hlow, if_neg hlow]
    by_cases hhigh : b.kernelVma ≤ va.toNat ∧ va.toNat < b.kernelVma + b.earlyMapSize
    · rw [if_pos hhigh, if_pos hhigh]
      cases write <;> rfl
    · rw [if_neg hhigh, if_neg hhigh]
      rfl

theorem InForce.identity {b : BootImage} {m : Machine} (h : InForce b m) : m.Identity b := by
  intro write a ha
  have hlt := b.window_le
  have hlinear := h.linear write (BitVec.ofNat 64 a)
  rw [BitVec.toNat_ofNat, Nat.mod_eq_of_lt (by omega), if_pos ha] at hlinear
  exact hlinear

/-- Without paging, in 32-bit code. -/
structure Legacy (m : Machine) : Prop where
  paging : m.paging = false
  active : m.longActive = false
  code32 : m.cs.long = false
  wide : m.cs.wide = true

namespace Legacy

variable {b : BootImage} {m m' : Machine}

/-- It depends on these registers only. -/
theorem congr (h : Legacy m) (hcr0 : m'.cr0 = m.cr0)
    (hactive : m'.longActive = m.longActive) (hcs : m'.cs = m.cs) : Legacy m' := by
  refine ⟨?_, ?_, ?_, ?_⟩
  · rw [Machine.paging, hcr0]
    exact h.paging
  · rw [hactive]
    exact h.active
  · rw [hcs]
    exact h.code32
  · rw [hcs]
    exact h.wide

/-- An instruction of the 32-bit code. -/
theorem run_cons {m'' : Machine} {i n : ℕ} {instr : Instr} (h : Legacy m) (hpc : m.pc = .code i)
    (hinstr : (code b)[i]? = some instr) (hi : i < 21) (hexec : exec b i instr m = some m')
    (hrest : run b n m' = some m'') : run b (n + 1) m = some m'' := by
  have hmode : m.code64 = false := by
    rw [Machine.code64, h.active]
    rfl
  have hcode : is64 i = false := decide_eq_false (by omega)
  exact LongMode.run_cons hpc hinstr (Machine.identity_of_unpaged b h.paging)
    (hmode.trans hcode.symm) (fun _ => h.wide) hexec hrest

end Legacy

/-- In 64-bit code, with the temporary table of descriptors. -/
structure Long (b : BootImage) (m : Machine) : Prop where
  inForce : InForce b m
  gdtr : m.gdtr = ⟨23, b.gdt64⟩
  cs : m.cs = ⟨0x9A, 0xAF⟩
  gdt : Holds m.memory b.gdt64 b.gdt

namespace Long

variable {b : BootImage} {m m' : Machine}

/-- The registers that the 64-bit code writes. -/
theorem regs (h : Long b m) (reg : Reg → BitVec 64) (seg : Seg → BitVec 16) (pc : Pc) :
    Long b
      { m with
        reg
        seg
        pc } :=
  ⟨⟨h.inForce.paging, h.inForce.active, h.inForce.fourLevels, h.inForce.cr3, h.inForce.mapped⟩,
    h.gdtr, h.cs, h.gdt⟩

theorem code64 (h : Long b m) : m.code64 = true := by
  rw [Machine.code64, h.inForce.active, h.cs]
  decide

/-- An instruction of the 64-bit code. -/
theorem run_cons {m'' : Machine} {i n : ℕ} {instr : Instr} (h : Long b m) (hpc : m.pc = .code i)
    (hinstr : (code b)[i]? = some instr) (hi : 21 ≤ i) (hexec : exec b i instr m = some m')
    (hrest : run b n m' = some m'') : run b (n + 1) m = some m'' := by
  have hcode : is64 i = true := decide_eq_true hi
  refine LongMode.run_cons hpc hinstr h.inForce.identity (h.code64.trans hcode.symm) (fun h32 => ?_)
    hexec hrest
  rw [h.code64] at h32
  cases h32

end Long

end LongMode

end DoomOs
