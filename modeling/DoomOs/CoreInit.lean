/-
# A core brings up its tables

`core_init::init_core` runs the components of one core in the order of the init graph: the stacks,
the task state segment, the segments, the gates of the exceptions, the interrupt table and the
floating-point unit.  The tables lie in `cpu::local_state`, at the offsets that the declarations of
the class give them.

* `initCore` is that run, on the memory and the registers of the core;
* `Tables` is what memory holds afterwards, and `Loaded` what the registers of the core do;
* `tables_initCore`: so it is after every run, and no load faults on the way.
-/
import DoomOs.Descriptors
import DoomOs.InitGraph

namespace DoomOs

namespace CoreInit

open Cpu InitGraph

/-! ## The stacks -/

/-- `CORE_STACK_SIZE`. -/
def CORE_STACK_SIZE : ℕ := 16 * 1024

/-- `cpu::stack`. -/
structure Stack where
  bottom : BitVec 64
  top : BitVec 64
  size : BitVec 64

/-- `describe_stack`. -/
def describeStack (storage storageSize : ℕ) : Stack where
  bottom := BitVec.ofNat 64 storage
  top := BitVec.ofNat 64 storage + BitVec.ofNat 64 storageSize
  size := BitVec.ofNat 64 storageSize

/-- Where `cpu::local_state` lies. -/
structure Core where
  base : ℕ
  aligned : base % 16 = 0
  fits : base + 74032 ≤ 2 ^ 64

namespace Core

variable (c : Core)

/-! The offsets of the members. -/

def stackSet : ℕ := c.base + 16

def kernelStorage : ℕ := c.stackSet + 96

def doubleFaultStorage : ℕ := c.kernelStorage + CORE_STACK_SIZE

def nmiStorage : ℕ := c.doubleFaultStorage + CORE_STACK_SIZE

def machineCheckStorage : ℕ := c.nmiStorage + CORE_STACK_SIZE

def tss : ℕ := c.machineCheckStorage + CORE_STACK_SIZE

def gdt : ℕ := c.tss + 104

def exceptionGates : ℕ := c.gdt + 72

def idt : ℕ := c.exceptionGates + 4096

end Core

/-- The offset of the task state segment. -/
theorem Core.tss_eq (c : Core) : c.tss = c.base + 65648 := by
  simp only [Core.tss, Core.machineCheckStorage, Core.nmiStorage, Core.doubleFaultStorage,
    Core.kernelStorage, Core.stackSet, CORE_STACK_SIZE, Nat.add_assoc, Nat.reduceMul,
    Nat.reduceAdd]

/-- `cpu::stack_set`, without its storage. -/
structure StackSet where
  kernel : Stack
  doubleFault : Stack
  nmi : Stack
  machineCheck : Stack

/-- `stack_set::init`. -/
def StackSet.init (c : Core) : StackSet where
  kernel := describeStack c.kernelStorage CORE_STACK_SIZE
  doubleFault := describeStack c.doubleFaultStorage CORE_STACK_SIZE
  nmi := describeStack c.nmiStorage CORE_STACK_SIZE
  machineCheck := describeStack c.machineCheckStorage CORE_STACK_SIZE

/-! ## The exceptions -/

/-- The exception types of `exceptions.cpp`. -/
inductive ExceptionType where
  | fault
  | debug
  | reserved
  | trap
  | nmi
  | doubleFault
  | machineCheck
  deriving DecidableEq, Repr

/-- `interrupt_stack` of a type. -/
def ExceptionType.interruptStack : ExceptionType → Tss.InterruptStack
  | .nmi => .nmi
  | .doubleFault => .doubleFault
  | .machineCheck => .machineCheck
  | _ => .none

/-- `exception_gate`. -/
inductive ExceptionGate where
  | interrupt
  | trap
  deriving DecidableEq, Repr

/-- `gate` of a type. -/
def ExceptionType.gate : ExceptionType → ExceptionGate
  | .trap => .trap
  | _ => .interrupt

/-- `CPU_EXCEPTION_COUNT`. -/
def CPU_EXCEPTION_COUNT : ℕ := 32

/-- `DOOM_OS_CPU_EXCEPTION_VECTORS`. -/
def exceptionType : Fin CPU_EXCEPTION_COUNT → ExceptionType :=
  ![.fault, .debug, .nmi, .trap, .trap, .fault, .fault, .fault, .doubleFault, .fault, .fault,
    .fault, .fault, .fault, .fault, .reserved, .fault, .fault, .machineCheck, .fault, .fault,
    .fault, .reserved, .reserved, .reserved, .reserved, .reserved, .reserved, .fault, .fault,
    .fault, .reserved]

/-- `ist_for_vector`. -/
def istForVector (vector : Fin CPU_EXCEPTION_COUNT) : BitVec 8 :=
  BitVec.ofNat 8 (exceptionType vector).interruptStack.toNat

/-- A vector of an exception among all vectors. -/
def vectorOf (vector : Fin CPU_EXCEPTION_COUNT) : Fin 256 := vector.castLE (by decide)

/-- `describe_exception_gate`; `stubs` is `x86_64_exception_stub_table`. -/
def describeExceptionGate (stubs : Fin CPU_EXCEPTION_COUNT → BitVec 64) (gates : Idt.GateTable)
    (vector : Fin CPU_EXCEPTION_COUNT) : Idt.GateTable :=
  match (exceptionType vector).gate with
  | .trap => gates.setTrapGate (vectorOf vector) (stubs vector) (istForVector vector)
  | .interrupt => gates.setInterruptGate (vectorOf vector) (stubs vector) (istForVector vector)

/-- `core_component::describe_gates`. -/
def describeGates (stubs : Fin CPU_EXCEPTION_COUNT → BitVec 64) (gates : Idt.GateTable) :
    Idt.GateTable :=
  (List.finRange CPU_EXCEPTION_COUNT).foldl (describeExceptionGate stubs) gates

/-! ## The core -/

/-- The selectors in the segment registers. -/
structure Selectors where
  cs : BitVec 16
  ds : BitVec 16
  es : BitVec 16
  ss : BitVec 16
  fs : BitVec 16
  gs : BitVec 16
  deriving DecidableEq

/-- The memory and the registers of a core, with `exception_gates_m`. -/
structure CoreState where
  memory : Memory
  gates : Idt.GateTable
  stackSet : StackSet
  gdtr : TableRegister
  idtr : TableRegister
  tr : TaskRegister
  selectors : Selectors
  cr0 : BitVec 64
  cr4 : BitVec 64
  /-- A load has faulted. -/
  faulted : Bool

/-- A data segment can be loaded with this selector, at privilege level 0. -/
def canLoadData (m : Memory) (gdtr : TableRegister) (selector : BitVec 16) : Bool :=
  match readSegment m gdtr selector with
  | some d => d.isWritableData && d.dpl == 0 && selector.toNat % 4 == 0
  | none => false

/-- A far return within privilege level 0 can load `cs` with this selector. -/
def canLoadCode (m : Memory) (gdtr : TableRegister) (selector : BitVec 16) : Bool :=
  match readSegment m gdtr selector with
  | some d => d.isLongCode && d.dpl == 0 && selector.toNat % 4 == 0
  | none => false

/-- `gdt_load`. -/
def gdtLoad (pointer : ℕ) (code data : BitVec 16) (s : CoreState) : CoreState :=
  let gdtr := loadTable s.memory pointer
  { s with
    gdtr
    selectors := ⟨code, data, data, data, 0, 0⟩
    faulted := s.faulted || !canLoadData s.memory gdtr data || !canLoadCode s.memory gdtr code }

/-- `load_task_register`. -/
def ltr (selector : BitVec 16) (s : CoreState) : CoreState :=
  match loadTaskRegister s.memory s.gdtr selector with
  | some (tr, memory) =>
    { s with
      tr
      memory }
  | none => { s with faulted := true }

/-- `idt_load`. -/
def idtLoad (pointer : ℕ) (s : CoreState) : CoreState :=
  { s with idtr := loadTable s.memory pointer }

def CR0_MONITOR_COPROCESSOR : BitVec 64 := 1 <<< 1

def CR0_EMULATION : BitVec 64 := 1 <<< 2

def CR4_OS_FXSR : BitVec 64 := 1 <<< 9

def CR4_OS_XMM_EXCEPT : BitVec 64 := 1 <<< 10

/-- `enable_sse`. -/
def enableSse (s : CoreState) : CoreState :=
  { s with
    cr0 := s.cr0 &&& ~~~CR0_EMULATION ||| CR0_MONITOR_COPROCESSOR
    cr4 := s.cr4 ||| (CR4_OS_FXSR ||| CR4_OS_XMM_EXCEPT) }

/-- The components of a core. -/
inductive Component where
  | stackSet
  | tss
  | gdt
  | exceptions
  | idt
  | fpu
  deriving DecidableEq, Repr

/-- The dependencies that the components declare. -/
def Component.deps : Component → List Component
  | .stackSet => []
  | .tss => [.stackSet]
  | .gdt => [.tss]
  | .exceptions => []
  | .idt => [.gdt, .exceptions]
  | .fpu => []

/-- `early_core_roots`. -/
def earlyCoreRoots : List Component := [.idt, .fpu]

/-- `state::init` of the task state segment, as its component calls it. -/
def taskState (stackSet : StackSet) : Tss.State :=
  Tss.State.init
    { rsp0 := stackSet.kernel.top
      ist1 := stackSet.doubleFault.top
      ist2 := stackSet.nmi.top
      ist3 := stackSet.machineCheck.top }

/-- `init` of a component. -/
def Component.init (c : Core) (stubs : Fin CPU_EXCEPTION_COUNT → BitVec 64) :
    Component → CoreState → Except InitError Unit × CoreState
  | .stackSet, s => (.ok (), { s with stackSet := StackSet.init c })
  | .tss, s =>
    (.ok (), { s with memory := putFields s.memory c.tss (taskState s.stackSet).fields })
  | .gdt, s =>
    let s :=
      { s with memory := putFields s.memory c.gdt (Gdt.table c.gdt (BitVec.ofNat 64 c.tss)) }
    (.ok (), ltr Gdt.TSS_SELECTOR
      (gdtLoad (c.gdt + 56) Gdt.KERNEL_CODE_SELECTOR Gdt.KERNEL_DATA_SELECTOR s))
  | .exceptions, s => (.ok (), { s with gates := describeGates stubs s.gates })
  | .idt, s =>
    let s :=
      { s with memory :=
          putFields s.memory c.idt (Idt.table c.idt s.gates Gdt.KERNEL_CODE_SELECTOR) }
    (.ok (), idtLoad (c.idt + 4096) s)
  | .fpu, s => (.ok (), enableSse s)

/-- `core_logger` prints, and does not touch the core. -/
def coreLogger : Logger CoreState Component where
  begin := fun _ s => s
  ok := fun _ s => s
  fail := fun _ _ s => s

/-- `init_core`, before there is a local interrupt controller. -/
def initCore (c : Core) (stubs : Fin CPU_EXCEPTION_COUNT → BitVec 64) (s : CoreState) :
    Option (Bool × CoreState) := do
  let sorted ← topoList Component.deps 6 earlyCoreRoots []
  let (done, w) := runLogged (Component.init c stubs) coreLogger sorted.components ⟨s, []⟩
  pure (done, w.state)

/-- The order of the init graph. -/
theorem topoList_earlyCoreRoots : topoList Component.deps 6 earlyCoreRoots [] =
    some ⟨[.stackSet, .tss, .gdt, .exceptions, .idt, .fpu], false⟩ := by
  decide

/-! ## What the gates are -/

/-- The gate that is described for an exception. -/
def gateSpec (stubs : Fin CPU_EXCEPTION_COUNT → BitVec 64) (vector : Fin CPU_EXCEPTION_COUNT) :
    Idt.GateSpec where
  entryPoint := stubs vector
  typeAttributes :=
    match (exceptionType vector).gate with
    | .trap => Idt.GATE_TYPE_TRAP
    | .interrupt => Idt.GATE_TYPE_INTERRUPT
  ist := istForVector vector

theorem describeExceptionGate_eq (stubs : Fin CPU_EXCEPTION_COUNT → BitVec 64)
    (gates : Idt.GateTable) (vector : Fin CPU_EXCEPTION_COUNT) :
    describeExceptionGate stubs gates vector =
      Function.update gates (vectorOf vector) (gateSpec stubs vector) := by
  unfold describeExceptionGate gateSpec
  cases (exceptionType vector).gate <;> rfl

theorem vectorOf_injective : Function.Injective vectorOf :=
  Fin.castLE_injective (by decide)

/-- Gates that are described one after the other. -/
theorem foldl_describeExceptionGate (stubs : Fin CPU_EXCEPTION_COUNT → BitVec 64) :
    ∀ (vectors : List (Fin CPU_EXCEPTION_COUNT)) (gates : Idt.GateTable) (w : Fin 256),
      (∀ v ∈ vectors, vectorOf v = w →
        vectors.foldl (describeExceptionGate stubs) gates w = gateSpec stubs v) ∧
      ((∀ v ∈ vectors, vectorOf v ≠ w) →
        vectors.foldl (describeExceptionGate stubs) gates w = gates w) := by
  intro vectors
  induction vectors with
  | nil => exact fun gates w => ⟨fun v hv => absurd hv List.not_mem_nil, fun _ => rfl⟩
  | cons u vectors ih =>
    intro gates w
    obtain ⟨hin, hout⟩ := ih (describeExceptionGate stubs gates u) w
    rw [List.foldl_cons]
    refine ⟨fun v hv hw => ?_, fun hne => ?_⟩
    · by_cases hlater : v ∈ vectors
      · exact hin v hlater hw
      · obtain rfl : v = u := (List.mem_cons.mp hv).resolve_right hlater
        have hnone : ∀ x ∈ vectors, vectorOf x ≠ w := fun x hx hxw =>
          hlater (vectorOf_injective (hxw.trans hw.symm) ▸ hx)
        rw [hout hnone, describeExceptionGate_eq, ← hw, Function.update_self]
    · rw [hout fun v hv => hne v (List.mem_cons_of_mem _ hv), describeExceptionGate_eq,
        Function.update_of_ne (hne u List.mem_cons_self).symm]

theorem describeGates_exception (stubs : Fin CPU_EXCEPTION_COUNT → BitVec 64)
    (gates : Idt.GateTable) (v : Fin CPU_EXCEPTION_COUNT) :
    describeGates stubs gates (vectorOf v) = gateSpec stubs v :=
  (foldl_describeExceptionGate stubs _ gates _).1 v (List.mem_finRange v) rfl

theorem describeGates_other (stubs : Fin CPU_EXCEPTION_COUNT → BitVec 64)
    (gates : Idt.GateTable) (w : Fin 256) (hw : CPU_EXCEPTION_COUNT ≤ w) :
    describeGates stubs gates w = gates w := by
  refine (foldl_describeExceptionGate stubs _ gates w).2 fun v _ hv => ?_
  have := v.isLt
  have : v.val = w.val := congrArg Fin.val hv
  omega

/-! ## The run -/

/-- What a core leaves in its memory. -/
structure Tables (c : Core) (stubs : Fin CPU_EXCEPTION_COUNT → BitVec 64) (gates : Idt.GateTable)
    (m : Memory) : Prop where
  tss : Holds m c.tss (taskState (StackSet.init c)).fields
  segment : ∀ (i : ℕ) (hi : i < 5), Holds m (c.gdt + 8 * i)
    ((Gdt.entries (BitVec.ofNat 64 c.tss)).get ⟨i, by simp; omega⟩).fields
  idt : Holds m c.idt (Idt.table c.idt (describeGates stubs gates) Gdt.KERNEL_CODE_SELECTOR)

/-- The tables of a core lie in one stretch of its memory. -/
theorem Tables.congr {c : Core} {stubs : Fin CPU_EXCEPTION_COUNT → BitVec 64}
    {gates : Idt.GateTable} {m m' : Memory} (h : Tables c stubs gates m)
    (hm : ∀ x, c.tss ≤ x → x < c.idt + 4106 → m' x = m x) : Tables c stubs gates m' := by
  have hgdt : c.gdt = c.tss + 104 := rfl
  have hidt : c.idt = c.gdt + 72 + 4096 := rfl
  refine ⟨h.tss.congr fun x hx hx' => hm x hx ?_, fun i hi => (h.segment i hi).congr ?_,
    h.idt.congr fun x hx hx' => hm x (by omega) ?_⟩
  · rw [Tss.sizeOf_fields, Tss.segmentSize] at hx'
    omega
  · intro x hx hx'
    rw [Gdt.sizeOf_fields] at hx'
    exact hm x (by omega) (by omega)
  · rw [Idt.sizeOf_table] at hx'
    exact hx'

/-- The registers that a core loads. -/
structure Loaded (c : Core) (s : CoreState) : Prop where
  gdtr : s.gdtr = ⟨55, c.gdt⟩
  idtr : s.idtr = ⟨4095, c.idt⟩
  tr : s.tr = ⟨c.tss, 103⟩
  selectors : s.selectors = ⟨0x08, 0x10, 0x10, 0x10, 0, 0⟩

/-- The segments and the task register of a core. -/
theorem init_gdt (c : Core) (stubs : Fin CPU_EXCEPTION_COUNT → BitVec 64) (s : CoreState) :
    Component.init c stubs .gdt s = (.ok (),
      { s with
        memory := putLe (putFields s.memory c.gdt (Gdt.table c.gdt (BitVec.ofNat 64 c.tss)))
          (c.gdt + 45) 1 0x8B
        gdtr := ⟨55, c.gdt⟩
        tr := ⟨c.tss, 103⟩
        selectors := ⟨0x08, 0x10, 0x10, 0x10, 0, 0⟩ }) := by
  have hfits := c.fits
  have htss := c.tss_eq
  have hgdt : c.gdt = c.tss + 104 := rfl
  have hholds := holds_putFields (Gdt.table c.gdt (BitVec.ofNat 64 c.tss)) s.memory c.gdt
  have hload := Gdt.loadTable_table hholds (by omega)
  have hltr := Gdt.loadTaskRegister_table hholds
  have hentry : ∀ (i : ℕ) (hi : i < 7), Holds _ (c.gdt + 8 * i) _ :=
    hholds.left.getElem Gdt.sizeOf_fields
  have hdata := Gdt.readSegment_of_holds Gdt.kernelData Gdt.KERNEL_DATA_SELECTOR
    (hentry 2 (by omega)) (by decide) (by decide) (by decide)
  have hcode := Gdt.readSegment_of_holds Gdt.kernelCode Gdt.KERNEL_CODE_SELECTOR
    (hentry 1 (by omega)) (by decide) (by decide) (by decide)
  have hcanData : canLoadData (putFields s.memory c.gdt (Gdt.table c.gdt (BitVec.ofNat 64 c.tss)))
      ⟨55, c.gdt⟩ Gdt.KERNEL_DATA_SELECTOR = true := by
    rw [canLoadData, hdata]
    decide
  have hcanCode : canLoadCode (putFields s.memory c.gdt (Gdt.table c.gdt (BitVec.ofNat 64 c.tss)))
      ⟨55, c.gdt⟩ Gdt.KERNEL_CODE_SELECTOR = true := by
    rw [canLoadCode, hcode]
    decide
  have htoNat : (BitVec.ofNat 64 c.tss).toNat = c.tss := Nat.mod_eq_of_lt (by omega)
  rw [Component.init]
  simp only [gdtLoad, hload, hcanData, hcanCode, ltr, hltr, htoNat, Bool.not_true, Bool.or_false]
  rfl

/-- **A core comes up.**  Every component succeeds, no load faults, and the tables are there. -/
theorem tables_initCore (c : Core) (stubs : Fin CPU_EXCEPTION_COUNT → BitVec 64) (s : CoreState) :
    ∃ s', initCore c stubs s = some (true, s') ∧ s'.faulted = s.faulted ∧ Loaded c s' ∧
      Tables c stubs s.gates s'.memory := by
  have hfits := c.fits
  have htss := c.tss_eq
  have hgdt : c.gdt = c.tss + 104 := rfl
  have hidt : c.idt = c.gdt + 72 + 4096 := rfl
  rw [initCore, topoList_earlyCoreRoots]
  simp only [Option.bind_eq_bind, Option.bind_some, runLogged, runAll, runComponentLogged, callInit,
    coreLogger, init_gdt]
  simp only [Component.init, Option.pure_def, Option.some.injEq, Prod.mk.injEq, true_and,
    exists_eq_left']
  -- each table stays as it was stored while the later ones are
  generalize hm₁ : putFields s.memory c.tss (taskState (StackSet.init c)).fields = m₁
  generalize hm₂ : putFields m₁ c.gdt (Gdt.table c.gdt (BitVec.ofNat 64 c.tss)) = m₂
  generalize hm₃ : putLe m₂ (c.gdt + 45) 1 0x8B = m₃
  generalize hm₄ : putFields m₃ c.idt (Idt.table c.idt (describeGates stubs s.gates)
    Gdt.KERNEL_CODE_SELECTOR) = m₄
  have h₁ : Holds m₁ c.tss (taskState (StackSet.init c)).fields := hm₁ ▸ holds_putFields _ _ _
  have h₂ : Holds m₂ c.gdt (Gdt.table c.gdt (BitVec.ofNat 64 c.tss)) :=
    hm₂ ▸ holds_putFields _ _ _
  have h₄ : Holds m₄ c.idt (Idt.table c.idt (describeGates stubs s.gates)
    Gdt.KERNEL_CODE_SELECTOR) := hm₄ ▸ holds_putFields _ _ _
  have hsame₂ : ∀ x, x < c.gdt ∨ c.gdt + 66 ≤ x → m₂ x = m₁ x := fun x hx =>
    hm₂ ▸ putFields_of_notMem _ _ _ _ (by rw [Gdt.sizeOf_table]; exact hx)
  have hsame₃ : ∀ x, x ≠ c.gdt + 45 → m₃ x = m₂ x := fun x hx =>
    hm₃ ▸ putLe_of_notMem _ _ _ _ _ (by omega)
  have hsame₄ : ∀ x, x < c.idt → m₄ x = m₃ x := fun x hx =>
    hm₄ ▸ putFields_of_notMem _ _ _ _ (.inl hx)
  refine ⟨rfl, ⟨rfl, Idt.loadTable_table h₄ (by omega), rfl, rfl⟩, ⟨?_, fun i hi => ?_, h₄⟩⟩
  · refine h₁.congr fun x hx hx' => ?_
    rw [Tss.sizeOf_fields, Tss.segmentSize] at hx'
    exact (hsame₄ x (by omega)).trans ((hsame₃ x (by omega)).trans (hsame₂ x (by omega)))
  · refine (h₂.left.getElem Gdt.sizeOf_fields i (by simp; omega)).congr fun x hx hx' => ?_
    rw [Gdt.sizeOf_fields] at hx'
    exact (hsame₄ x (by omega)).trans (hsame₃ x (by omega))

end CoreInit

end DoomOs
