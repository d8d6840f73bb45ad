/-
# The descriptor tables of a core

The stacks, the task state segment, the segment descriptors and the interrupt gates of one core,
as `stacks.cpp`, `tss.cpp`, `gdt.cpp` and `idt.cpp` lay them out in memory, and the loads of
`gdt_load.S` and `idt_load.S`.

* `Gdt.table`, `Tss.State.init` and `Idt.table` are the packed structures that the code stores;
* `readSegment`, `loadTaskRegister` and `readGate` are what a CPU in 64-bit mode makes of the bytes;
* `readGate_table` and `loadTaskRegister_table` go from the one to the other.
-/
import DoomOs.MemoryWrites

namespace DoomOs

/-! ## What the CPU reads -/

namespace Cpu

/-- `gdtr` and `idtr`. -/
structure TableRegister where
  limit : ℕ
  base : ℕ

/-- `lgdt` and `lidt`. -/
def loadTable (m : Memory) (a : ℕ) : TableRegister where
  limit := leAt m a 2
  base := leAt m (a + 2) 8

/-- The access byte and the flags of a segment descriptor; bases and limits of code and data are
not used in 64-bit mode. -/
structure Segment where
  access : ℕ
  flags : ℕ
  deriving DecidableEq

namespace Segment

variable (s : Segment)

def present : Bool := s.access.testBit 7

def dpl : ℕ := s.access / 32 % 4

/-- Code or data, and not a system segment. -/
def ordinary : Bool := s.access.testBit 4

def executable : Bool := s.access.testBit 3

def conforming : Bool := s.access.testBit 2

def writable : Bool := s.access.testBit 1

def long : Bool := s.flags.testBit 5

def wide : Bool := s.flags.testBit 6

/-- 64-bit code of one privilege level. -/
def isLongCode : Bool :=
  s.present && s.ordinary && s.executable && !s.conforming && s.long && !s.wide

/-- Data that can be written. -/
def isWritableData : Bool := s.present && s.ordinary && !s.executable && s.writable

end Segment

/-- The descriptor that a selector names; there is none for the null selector, and there is no
local table. -/
def readSegment (m : Memory) (gdtr : TableRegister) (selector : BitVec 16) : Option Segment :=
  let i := selector.toNat / 8
  if i = 0 ∨ selector.getLsbD 2 ∨ gdtr.limit < 8 * i + 7 then none else
    some
      { access := leAt m (gdtr.base + 8 * i + 5) 1
        flags := leAt m (gdtr.base + 8 * i + 6) 1 }

/-- The base and the limit of the task state segment. -/
structure TaskRegister where
  base : ℕ
  limit : ℕ

/-- `ltr`: the 16 bytes have to describe an available 64-bit task state segment, and the
descriptor is marked busy. -/
def loadTaskRegister (m : Memory) (gdtr : TableRegister) (selector : BitVec 16) :
    Option (TaskRegister × Memory) :=
  let i := selector.toNat / 8
  let a := gdtr.base + 8 * i
  if i = 0 ∨ gdtr.limit < 8 * i + 15 then none else
    if leAt m (a + 5) 1 % 32 = 0x09 ∧ (leAt m (a + 5) 1).testBit 7 then
      some (⟨leAt m (a + 2) 2 + 2 ^ 16 * leAt m (a + 4) 1 + 2 ^ 24 * leAt m (a + 7) 1 +
          2 ^ 32 * leAt m (a + 8) 4, leAt m a 2 + 2 ^ 16 * (leAt m (a + 6) 1 % 16)⟩,
        putLe m (a + 5) 1 (leAt m (a + 5) 1 + 2))
    else none

/-- An interrupt or trap gate. -/
structure Gate where
  offset : BitVec 64
  selector : BitVec 16
  ist : ℕ
  /-- The type with the bit that is clear in gates. -/
  type : ℕ
  dpl : ℕ
  present : Bool
  deriving DecidableEq

/-- The gate of a vector. -/
def readGate (m : Memory) (idtr : TableRegister) (vector : ℕ) : Option Gate :=
  let a := idtr.base + 16 * vector
  if idtr.limit < 16 * vector + 15 then none else
    some
      { offset := BitVec.ofNat 64 (leAt m a 2 + 2 ^ 16 * leAt m (a + 6) 2 +
          2 ^ 32 * leAt m (a + 8) 4)
        selector := BitVec.ofNat 16 (leAt m (a + 2) 2)
        ist := leAt m (a + 4) 1 % 8
        type := leAt m (a + 5) 1 % 32
        dpl := leAt m (a + 5) 1 / 32 % 4
        present := (leAt m (a + 5) 1).testBit 7 }

/-- A stack pointer of the task state segment at one of its offsets. -/
def readStack (m : Memory) (tr : TaskRegister) (offset : ℕ) : Option (BitVec 64) :=
  if tr.limit < offset + 7 then none else some (BitVec.ofNat 64 (leAt m (tr.base + offset) 8))

/-- The stack of a privilege level. -/
def privilegeStack (m : Memory) (tr : TaskRegister) (level : ℕ) : Option (BitVec 64) :=
  readStack m tr (4 + 8 * level)

/-- The stack with a number from 1 on in the interrupt stack table. -/
def interruptStack (m : Memory) (tr : TaskRegister) (ist : ℕ) : Option (BitVec 64) :=
  readStack m tr (28 + 8 * ist)

end Cpu

/-! ## The task state segment -/

namespace Tss

/-- `tss::interrupt_stack`. -/
inductive InterruptStack where
  | none
  | doubleFault
  | nmi
  | machineCheck
  | ist4
  | ist5
  | ist6
  | ist7
  deriving DecidableEq, Repr

/-- The number of a stack. -/
def InterruptStack.toNat : InterruptStack → ℕ
  | .none => 0
  | .doubleFault => 1
  | .nmi => 2
  | .machineCheck => 3
  | .ist4 => 4
  | .ist5 => 5
  | .ist6 => 6
  | .ist7 => 7

/-- `tss::state`, which is one `segment`. -/
structure State where
  reserved0 : BitVec 32
  rsp : Fin 3 → BitVec 64
  reserved1 : BitVec 64
  ist : Fin 7 → BitVec 64
  reserved2 : BitVec 64
  reserved3 : BitVec 16
  ioMapBase : BitVec 16

/-- The layout of `segment`. -/
def State.fields (s : State) : List Field :=
  [(4, s.reserved0.toNat), (8, (s.rsp 0).toNat), (8, (s.rsp 1).toNat), (8, (s.rsp 2).toNat),
    (8, s.reserved1.toNat), (8, (s.ist 0).toNat), (8, (s.ist 1).toNat), (8, (s.ist 2).toNat),
    (8, (s.ist 3).toNat), (8, (s.ist 4).toNat), (8, (s.ist 5).toNat), (8, (s.ist 6).toNat),
    (8, s.reserved2.toNat), (2, s.reserved3.toNat), (2, s.ioMapBase.toNat)]

/-- `sizeof(segment)`. -/
def segmentSize : ℕ := 104

/-- `tss::stack_config`. -/
structure StackConfig where
  rsp0 : BitVec 64 := 0
  rsp1 : BitVec 64 := 0
  rsp2 : BitVec 64 := 0
  ist1 : BitVec 64 := 0
  ist2 : BitVec 64 := 0
  ist3 : BitVec 64 := 0
  ist4 : BitVec 64 := 0
  ist5 : BitVec 64 := 0
  ist6 : BitVec 64 := 0
  ist7 : BitVec 64 := 0

/-- `state::clear`. -/
def State.cleared : State where
  reserved0 := 0
  rsp := fun _ => 0
  reserved1 := 0
  ist := fun _ => 0
  reserved2 := 0
  reserved3 := 0
  ioMapBase := BitVec.ofNat 16 segmentSize

/-- `state::init`. -/
def State.init (config : StackConfig) : State :=
  { State.cleared with
    rsp := ![config.rsp0, config.rsp1, config.rsp2]
    ist := ![config.ist1, config.ist2, config.ist3, config.ist4, config.ist5, config.ist6,
      config.ist7] }

/-- `state::limit`. -/
def limit : ℕ := segmentSize - 1

end Tss

/-! ## The segment descriptors -/

namespace Gdt

def KERNEL_CODE_SELECTOR : BitVec 16 := 0x08

def KERNEL_DATA_SELECTOR : BitVec 16 := 0x10

def TSS_SELECTOR : BitVec 16 := 0x28

/-- `gdt::descriptor`. -/
structure Descriptor where
  limitLow : BitVec 16
  baseLow : BitVec 16
  baseMid : BitVec 8
  access : BitVec 8
  limitHighFlags : BitVec 8
  baseHigh : BitVec 8

/-- The layout of a descriptor. -/
def Descriptor.fields (d : Descriptor) : List Field :=
  [(2, d.limitLow.toNat), (2, d.baseLow.toNat), (1, d.baseMid.toNat), (1, d.access.toNat),
    (1, d.limitHighFlags.toNat), (1, d.baseHigh.toNat)]

def ACCESS_PRESENT : BitVec 8 := 0x80

def ACCESS_RING_0 : BitVec 8 := 0x00

def ACCESS_RING_3 : BitVec 8 := 0x60

def ACCESS_DESCRIPTOR : BitVec 8 := 0x10

def ACCESS_EXECUTABLE : BitVec 8 := 0x08

def ACCESS_READ_WRITE : BitVec 8 := 0x02

def ACCESS_TSS_AVAILABLE_64 : BitVec 8 := 0x09

def FLAGS_GRANULARITY_4K : BitVec 8 := 0x80

def FLAGS_32_BIT : BitVec 8 := 0x40

def FLAGS_64_BIT : BitVec 8 := 0x20

def FLAT_BASE : BitVec 32 := 0

def FLAT_LIMIT : BitVec 32 := 0xFFFFF

/-- `make_descriptor`. -/
def makeDescriptor (base limit : BitVec 32) (access flags : BitVec 8) : Descriptor where
  limitLow := (limit &&& 0xFFFF).setWidth 16
  baseLow := (base &&& 0xFFFF).setWidth 16
  baseMid := ((base >>> 16) &&& 0xFF).setWidth 8
  access := access
  limitHighFlags := (((limit >>> 16) &&& 0x0F) ||| (flags &&& 0xF0).setWidth 32).setWidth 8
  baseHigh := ((base >>> 24) &&& 0xFF).setWidth 8

/-- `make_tss_descriptor_low`. -/
def makeTssDescriptorLow (base : BitVec 64) (limit : BitVec 32) : Descriptor where
  limitLow := (limit &&& 0xFFFF).setWidth 16
  baseLow := (base &&& 0xFFFF).setWidth 16
  baseMid := ((base >>> 16) &&& 0xFF).setWidth 8
  access := ACCESS_PRESENT ||| ACCESS_RING_0 ||| ACCESS_TSS_AVAILABLE_64
  limitHighFlags := ((limit >>> 16) &&& 0x0F).setWidth 8
  baseHigh := ((base >>> 24) &&& 0xFF).setWidth 8

/-- `make_tss_descriptor_high`. -/
def makeTssDescriptorHigh (base : BitVec 64) : Descriptor :=
  let baseHigh : BitVec 32 := (base >>> 32).setWidth 32
  { limitLow := (baseHigh &&& 0xFFFF).setWidth 16
    baseLow := ((baseHigh >>> 16) &&& 0xFFFF).setWidth 16
    baseMid := 0
    access := 0
    limitHighFlags := 0
    baseHigh := 0 }

/-! The entries of `table::init`. -/

def kernelCode : Descriptor :=
  makeDescriptor FLAT_BASE FLAT_LIMIT
    (ACCESS_PRESENT ||| ACCESS_RING_0 ||| ACCESS_DESCRIPTOR ||| ACCESS_EXECUTABLE |||
      ACCESS_READ_WRITE) (FLAGS_GRANULARITY_4K ||| FLAGS_64_BIT)

def kernelData : Descriptor :=
  makeDescriptor FLAT_BASE FLAT_LIMIT
    (ACCESS_PRESENT ||| ACCESS_RING_0 ||| ACCESS_DESCRIPTOR ||| ACCESS_READ_WRITE)
    (FLAGS_GRANULARITY_4K ||| FLAGS_32_BIT)

def userData : Descriptor :=
  makeDescriptor FLAT_BASE FLAT_LIMIT
    (ACCESS_PRESENT ||| ACCESS_RING_3 ||| ACCESS_DESCRIPTOR ||| ACCESS_READ_WRITE)
    (FLAGS_GRANULARITY_4K ||| FLAGS_32_BIT)

def userCode : Descriptor :=
  makeDescriptor FLAT_BASE FLAT_LIMIT
    (ACCESS_PRESENT ||| ACCESS_RING_3 ||| ACCESS_DESCRIPTOR ||| ACCESS_EXECUTABLE |||
      ACCESS_READ_WRITE) (FLAGS_GRANULARITY_4K ||| FLAGS_64_BIT)

def entries (tss : BitVec 64) : List Descriptor :=
  [makeDescriptor 0 0 0 0, kernelCode, kernelData, userData, userCode,
    makeTssDescriptorLow tss (BitVec.ofNat 32 Tss.limit), makeTssDescriptorHigh tss]

/-- `gdt::table` at `base` after `table::init`: the entries, and the pointer that `lgdt` takes. -/
def table (base : ℕ) (tss : BitVec 64) : List Field :=
  (entries tss).flatMap Descriptor.fields ++ [(2, 7 * 8 - 1), (8, base)]

end Gdt

/-! ## The interrupt gates -/

namespace Idt

def GATE_TYPE_INTERRUPT : BitVec 8 := 0x8E

def GATE_TYPE_TRAP : BitVec 8 := 0x8F

def GATE_TYPE_USER_TRAP : BitVec 8 := 0xEF

/-- `idt::gate_spec`; the null handler is address 0. -/
structure GateSpec where
  entryPoint : BitVec 64 := 0
  typeAttributes : BitVec 8 := 0
  ist : BitVec 8 := 0

/-- `idt::gate_table`. -/
abbrev GateTable : Type := Fin 256 → GateSpec

/-- `gate_table::set_interrupt_gate`. -/
def GateTable.setInterruptGate (gates : GateTable) (vector : Fin 256) (entryPoint : BitVec 64)
    (ist : BitVec 8) : GateTable :=
  Function.update gates vector ⟨entryPoint, GATE_TYPE_INTERRUPT, ist⟩

/-- `gate_table::set_trap_gate`. -/
def GateTable.setTrapGate (gates : GateTable) (vector : Fin 256) (entryPoint : BitVec 64)
    (ist : BitVec 8) : GateTable :=
  Function.update gates vector ⟨entryPoint, GATE_TYPE_TRAP, ist⟩

/-- `gate_table::set_user_trap_gate`. -/
def GateTable.setUserTrapGate (gates : GateTable) (vector : Fin 256) (entryPoint : BitVec 64)
    (ist : BitVec 8) : GateTable :=
  Function.update gates vector ⟨entryPoint, GATE_TYPE_USER_TRAP, ist⟩

/-- `idt::entry`. -/
structure Entry where
  offsetLow : BitVec 16 := 0
  selector : BitVec 16 := 0
  ist : BitVec 8 := 0
  typeAttributes : BitVec 8 := 0
  offsetMid : BitVec 16 := 0
  offsetHigh : BitVec 32 := 0
  reserved : BitVec 32 := 0

/-- The layout of an entry. -/
def Entry.fields (e : Entry) : List Field :=
  [(2, e.offsetLow.toNat), (2, e.selector.toNat), (1, e.ist.toNat), (1, e.typeAttributes.toNat),
    (2, e.offsetMid.toNat), (4, e.offsetHigh.toNat), (4, e.reserved.toNat)]

/-- `make_entry`. -/
def makeEntry (spec : GateSpec) (codeSelector : BitVec 16) : Entry :=
  if spec.entryPoint = 0 then {} else
    { offsetLow := (spec.entryPoint &&& 0xFFFF).setWidth 16
      selector := codeSelector
      ist := spec.ist &&& 0x07
      typeAttributes := spec.typeAttributes
      offsetMid := ((spec.entryPoint >>> 16) &&& 0xFFFF).setWidth 16
      offsetHigh := ((spec.entryPoint >>> 32) &&& 0xFFFFFFFF).setWidth 32
      reserved := 0 }

/-- The entries of `table::init`. -/
def entries (gates : GateTable) (codeSelector : BitVec 16) : List Entry :=
  List.ofFn fun i => makeEntry (gates i) codeSelector

/-- `idt::table` at `base` after `table::init`: the entries, and the pointer that `lidt` takes. -/
def table (base : ℕ) (gates : GateTable) (codeSelector : BitVec 16) : List Field :=
  (entries gates codeSelector).flatMap Entry.fields ++ [(2, 256 * 16 - 1), (8, base)]

end Idt

/-! ## What the CPU reads is what the code describes -/

namespace Cpu

/-- The pointer behind the entries of a table. -/
theorem loadTable_of_holds {m : Memory} {a limit base : ℕ} {fs : List Field}
    (h : Holds m a (fs ++ [(2, limit), (8, base)])) (hlimit : limit < 2 ^ 16)
    (hbase : base < 2 ^ 64) : loadTable m (a + sizeOf fs) = ⟨limit, base⟩ := by
  obtain ⟨hl, hb, -⟩ := h.append
  rw [loadTable, hl, hb, Nat.mod_eq_of_lt (b := 256 ^ 2) hlimit,
    Nat.mod_eq_of_lt (b := 256 ^ 8) hbase]

end Cpu

/-! The fields are as wide as their values. -/

theorem toNat_mod_1 (v : BitVec 8) : v.toNat % 256 ^ 1 = v.toNat := Nat.mod_eq_of_lt v.isLt

theorem toNat_mod_2 (v : BitVec 16) : v.toNat % 256 ^ 2 = v.toNat := Nat.mod_eq_of_lt v.isLt

theorem toNat_mod_4 (v : BitVec 32) : v.toNat % 256 ^ 4 = v.toNat := Nat.mod_eq_of_lt v.isLt

theorem toNat_mod_8 (v : BitVec 64) : v.toNat % 256 ^ 8 = v.toNat := Nat.mod_eq_of_lt v.isLt

/-- A number in three pieces. -/
theorem toNat_pieces (v : BitVec 64) :
    ((v &&& 0xFFFF).setWidth 16).toNat + 2 ^ 16 * (((v >>> 16) &&& 0xFFFF).setWidth 16).toNat +
      2 ^ 32 * (((v >>> 32) &&& 0xFFFFFFFF).setWidth 32).toNat = v.toNat := by
  have h16 : (0xFFFF : BitVec 64).toNat = 2 ^ 16 - 1 := rfl
  have h32 : (0xFFFFFFFF : BitVec 64).toNat = 2 ^ 32 - 1 := rfl
  have hv := v.isLt
  simp only [BitVec.toNat_setWidth, BitVec.toNat_and, BitVec.toNat_ushiftRight, h16, h32,
    Nat.and_two_pow_sub_one_eq_mod, Nat.shiftRight_eq_div_pow]
  omega

namespace Idt

/-- What the CPU makes of a gate that was described. -/
def GateSpec.gate (spec : GateSpec) (codeSelector : BitVec 16) : Cpu.Gate :=
  if spec.entryPoint = 0 then ⟨0, 0, 0, 0, 0, false⟩ else
    { offset := spec.entryPoint
      selector := codeSelector
      ist := spec.ist.toNat % 8
      type := spec.typeAttributes.toNat % 32
      dpl := spec.typeAttributes.toNat / 32 % 4
      present := spec.typeAttributes.toNat.testBit 7 }

theorem sizeOf_fields (e : Entry) : sizeOf e.fields = 16 := rfl

theorem sizeOf_entries (gates : GateTable) (codeSelector : BitVec 16) :
    sizeOf ((entries gates codeSelector).flatMap Entry.fields) = 4096 := by
  rw [sizeOf_flatMap sizeOf_fields, entries, List.length_ofFn]

theorem sizeOf_table (base : ℕ) (gates : GateTable) (codeSelector : BitVec 16) :
    sizeOf (table base gates codeSelector) = 4106 := by
  rw [table, sizeOf_append, sizeOf_entries]
  rfl

theorem loadTable_table {m : Memory} {base : ℕ} {gates : GateTable} {codeSelector : BitVec 16}
    (h : Holds m base (table base gates codeSelector)) (hbase : base < 2 ^ 64) :
    Cpu.loadTable m (base + 4096) = ⟨4095, base⟩ := by
  have := Cpu.loadTable_of_holds h (by norm_num) hbase
  rw [sizeOf_entries] at this
  exact this

/-- **The gates.**  Every vector below 256 has the gate that was described. -/
theorem readGate_table {m : Memory} {base : ℕ} {gates : GateTable} {codeSelector : BitVec 16}
    (h : Holds m base (table base gates codeSelector)) (v : Fin 256) :
    Cpu.readGate m ⟨4095, base⟩ v = some ((gates v).gate codeSelector) := by
  have hv := v.isLt
  have hentry := h.left.getElem sizeOf_fields v (by rw [entries, List.length_ofFn]; exact hv)
  simp only [entries, List.getElem_ofFn, Fin.eta] at hentry
  rw [Cpu.readGate]
  rw [if_neg (show ¬4095 < 16 * v.val + 15 from by omega)]
  generalize base + 16 * v.val = a at *
  simp only [Holds, Entry.fields, Nat.add_assoc, Nat.reduceAdd] at hentry
  obtain ⟨hlow, hsel, hist, hattr, hmid, hhigh, -⟩ := hentry
  rw [hlow, hsel, hist, hattr, hmid, hhigh, makeEntry, GateSpec.gate]
  by_cases hnull : (gates v).entryPoint = 0
  · rw [if_pos hnull, if_pos hnull]
    rfl
  · rw [if_neg hnull, if_neg hnull]
    have h7 : ((gates v).ist &&& 0x07).toNat = (gates v).ist.toNat % 8 := by
      have : (0x07 : BitVec 8).toNat = 2 ^ 3 - 1 := rfl
      rw [BitVec.toNat_and, this, Nat.and_two_pow_sub_one_eq_mod]
    have hist' : (gates v).ist.toNat % 8 % 256 ^ 1 % 8 = (gates v).ist.toNat % 8 := by omega
    simp only [toNat_mod_1, toNat_mod_2, toNat_mod_4, toNat_pieces, h7, hist', BitVec.ofNat_toNat,
      BitVec.setWidth_eq]

end Idt

namespace Gdt

theorem sizeOf_fields (d : Descriptor) : sizeOf d.fields = 8 := rfl

@[simp] theorem length_entries (tss : BitVec 64) : (entries tss).length = 7 := rfl

theorem sizeOf_entries (tss : BitVec 64) :
    sizeOf ((entries tss).flatMap Descriptor.fields) = 56 := by
  rw [sizeOf_flatMap sizeOf_fields]
  rfl

theorem sizeOf_table (base : ℕ) (tss : BitVec 64) : sizeOf (table base tss) = 66 := by
  rw [table, sizeOf_append, sizeOf_entries]
  rfl

theorem loadTable_table {m : Memory} {base : ℕ} {tss : BitVec 64}
    (h : Holds m base (table base tss)) (hbase : base < 2 ^ 64) :
    Cpu.loadTable m (base + 56) = ⟨55, base⟩ := by
  have := Cpu.loadTable_of_holds h (by norm_num) hbase
  rw [sizeOf_entries] at this
  exact this

/-- **The segments.**  A selector names the descriptor at its index. -/
theorem readSegment_of_holds {m : Memory} {base : ℕ} (d : Descriptor) (selector : BitVec 16)
    (h : Holds m (base + 8 * (selector.toNat / 8)) d.fields) (hi : 0 < selector.toNat / 8)
    (hlt : selector.toNat / 8 < 7) (hglobal : selector.getLsbD 2 = false) :
    Cpu.readSegment m ⟨55, base⟩ selector = some ⟨d.access.toNat, d.limitHighFlags.toNat⟩ := by
  have hin : ¬(selector.toNat / 8 = 0 ∨ selector.getLsbD 2 ∨
      55 < 8 * (selector.toNat / 8) + 7) := by
    rw [hglobal]
    simp only [Bool.false_eq_true, false_or]
    omega
  simp only [Holds, Descriptor.fields, Nat.add_assoc, Nat.reduceAdd] at h
  obtain ⟨-, -, -, haccess, hflags, -⟩ := h
  simp only [Cpu.readSegment, if_neg hin, Nat.add_assoc]
  rw [haccess, hflags, toNat_mod_1, toNat_mod_1]

/-- The base of the task state segment, in its pieces. -/
theorem toNat_tss_pieces (v : BitVec 64) :
    ((v &&& 0xFFFF).setWidth 16).toNat + (2 ^ 16 * (((v >>> 16) &&& 0xFF).setWidth 8).toNat +
      (2 ^ 24 * (((v >>> 24) &&& 0xFF).setWidth 8).toNat + 2 ^ 32 *
        ((((v >>> 32).setWidth 32 &&& 0xFFFF).setWidth 16).toNat + 256 ^ 2 *
          ((((v >>> 32).setWidth 32 >>> 16) &&& 0xFFFF).setWidth 16).toNat))) = v.toNat := by
  have h16 : (0xFFFF : BitVec 64).toNat = 2 ^ 16 - 1 := rfl
  have h16' : (0xFFFF : BitVec 32).toNat = 2 ^ 16 - 1 := rfl
  have h8 : (0xFF : BitVec 64).toNat = 2 ^ 8 - 1 := rfl
  have hv := v.isLt
  simp only [BitVec.toNat_setWidth, BitVec.toNat_and, BitVec.toNat_ushiftRight, h16, h16', h8,
    Nat.and_two_pow_sub_one_eq_mod, Nat.shiftRight_eq_div_pow]
  omega

/-- **The task register.**  `ltr` finds the task state segment and its limit. -/
theorem loadTaskRegister_table {m : Memory} {base : ℕ} {tss : BitVec 64}
    (h : Holds m base (table base tss)) :
    Cpu.loadTaskRegister m ⟨55, base⟩ TSS_SELECTOR =
      some (⟨tss.toNat, 103⟩, putLe m (base + 45) 1 0x8B) := by
  have hlow := h.left.getElem sizeOf_fields 5 (show 5 < 7 by omega)
  have hhigh := h.left.getElem sizeOf_fields 6 (show 6 < 7 by omega)
  have hi : TSS_SELECTOR.toNat / 8 = 5 := rfl
  simp only [entries, List.getElem_cons_succ, List.getElem_cons_zero, Holds, Descriptor.fields,
    Nat.add_assoc, Nat.reduceAdd, Nat.reduceMul] at hlow hhigh
  obtain ⟨hlimit, hb0, hb1, haccess, hflags, hb2, -⟩ := hlow
  obtain ⟨hb3, hb4, -⟩ := hhigh
  have haccess' : leAt m (base + 45) 1 = 0x89 := haccess
  have hlimit' : leAt m (base + 40) 2 = 103 := hlimit
  have hflags' : leAt m (base + 46) 1 = 0 := hflags
  have hhigh' := leAt_add m 2 2 (base + 48)
  rw [Cpu.loadTaskRegister, hi]
  rw [if_neg (show ¬(5 = 0 ∨ 55 < 8 * 5 + 15) from by decide)]
  simp only [Nat.add_assoc, Nat.reduceAdd, Nat.reduceMul] at hhigh' ⊢
  rw [haccess', if_pos (by decide), hlimit', hflags', hhigh', hb0, hb1, hb2, hb3, hb4]
  simp only [makeTssDescriptorLow, makeTssDescriptorHigh, toNat_mod_1, toNat_mod_2]
  rw [toNat_tss_pieces]
  rfl

end Gdt

namespace Tss

theorem sizeOf_fields (s : State) : sizeOf s.fields = segmentSize := rfl

theorem readStack_of_leAt {m : Memory} {base offset : ℕ} {v : BitVec 64} (ho : offset + 7 ≤ 103)
    (h : leAt m (base + offset) 8 = v.toNat % 256 ^ 8) :
    Cpu.readStack m ⟨base, 103⟩ offset = some v := by
  rw [Cpu.readStack, if_neg (Nat.not_lt.mpr ho), h, toNat_mod_8, BitVec.ofNat_toNat,
    BitVec.setWidth_eq]

/-- **The stacks.**  The CPU finds the stack of every privilege level below 3. -/
theorem privilegeStack_fields {m : Memory} {base : ℕ} {s : State} (h : Holds m base s.fields)
    (level : Fin 3) : Cpu.privilegeStack m ⟨base, 103⟩ level = some (s.rsp level) := by
  simp only [Holds, State.fields, Nat.add_assoc, Nat.reduceAdd] at h
  obtain ⟨-, h0, h1, h2, -⟩ := h
  fin_cases level
  · exact readStack_of_leAt (by decide) h0
  · exact readStack_of_leAt (by decide) h1
  · exact readStack_of_leAt (by decide) h2

/-- And every stack of the interrupt stack table. -/
theorem interruptStack_fields {m : Memory} {base : ℕ} {s : State} (h : Holds m base s.fields)
    (i : Fin 7) : Cpu.interruptStack m ⟨base, 103⟩ (i + 1) = some (s.ist i) := by
  simp only [Holds, State.fields, Nat.add_assoc, Nat.reduceAdd] at h
  obtain ⟨-, -, -, -, -, h0, h1, h2, h3, h4, h5, h6, -⟩ := h
  fin_cases i
  · exact readStack_of_leAt (by decide) h0
  · exact readStack_of_leAt (by decide) h1
  · exact readStack_of_leAt (by decide) h2
  · exact readStack_of_leAt (by decide) h3
  · exact readStack_of_leAt (by decide) h4
  · exact readStack_of_leAt (by decide) h5
  · exact readStack_of_leAt (by decide) h6

end Tss

end DoomOs
