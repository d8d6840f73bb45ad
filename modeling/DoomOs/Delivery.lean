/-
# From an exception to its handler and back

What the CPU does with an exception, through the tables that a core installed, and what
`x86_64_exception_dispatch` does with the frame.

* `deliver` is the CPU: gate, segment, stack, and the quadwords that it pushes;
* `exceptionDispatch` and `defaultHandler` are the code of `exceptions.cpp`;
* `core_tables`: what the CPU finds in the tables of a core;
* `trap_round_trip`: every exception reaches the dispatcher on its own stack with a frame that is
  the interrupted state, and what is in the frame afterwards is resumed;
* `dispatchDefault_of`: each exception is reported under its own name, with its error code.
-/
import DoomOs.Trap
import DoomOs.CoreInit

namespace DoomOs

namespace Trap

open Cpu CoreInit

/-! ## The CPU -/

/-- `exception_has_error_code`, which is also what the CPU goes by. -/
def exceptionHasErrorCode (vector : ℕ) : Bool :=
  vector ∈ [8, 10, 11, 12, 13, 14, 17, 21, 29, 30]

/-- `EXCEPTION_NAMES`. -/
def EXCEPTION_NAMES : Fin CPU_EXCEPTION_COUNT → String :=
  ![ "#DE divide error", "#DB debug", "NMI interrupt", "#BP breakpoint", "#OF overflow",
    "#BR bound range exceeded", "#UD invalid opcode", "#NM device not available",
    "#DF double fault", "coprocessor segment overrun", "#TS invalid TSS",
    "#NP segment not present", "#SS stack-segment fault", "#GP general protection fault",
    "#PF page fault", "reserved", "#MF x87 floating-point exception", "#AC alignment check",
    "#MC machine check", "#XM SIMD floating-point exception", "#VE virtualization exception",
    "#CP control protection exception", "reserved", "reserved", "reserved", "reserved", "reserved",
    "reserved", "#HV hypervisor injection exception", "#VC VMM communication exception",
    "#SX security exception", "reserved"]

/-- `exception_name`. -/
def exceptionName (vector : ℕ) : String :=
  if h : vector < CPU_EXCEPTION_COUNT then EXCEPTION_NAMES ⟨vector, h⟩ else "unknown exception"

/-- `page_fault_cause`. -/
structure PageFaultCause where
  protectionViolation : Bool
  write : Bool
  user : Bool
  reservedBit : Bool
  instructionFetch : Bool
  protectionKey : Bool
  shadowStack : Bool
  deriving DecidableEq

/-- `decode_page_fault`. -/
def decodePageFault (errorCode : BitVec 64) : PageFaultCause :=
  let bit := fun index => errorCode.getLsbD index
  ⟨bit 0, bit 1, bit 2, bit 3, bit 4, bit 5, bit 6⟩

/-- The panics, with what they print. -/
inductive Panic where
  /-- `malformed frame`. -/
  | malformedFrame (vector errorCode : BitVec 64)
  /-- `handler/vector mismatch`. -/
  | mismatch (expected : ℕ) (actual : BitVec 64)
  | missingHandler (vector : BitVec 8)
  /-- An exception without a handler of its own. -/
  | exception (name : String) (vector errorCode : BitVec 64)
  | pageFault (name : String) (address errorCode : BitVec 64) (cause : PageFaultCause)
  /-- An exception with a stack of its own. -/
  | fatal (name reason : String) (vector errorCode : BitVec 64) (stack : Stack)

/-- `PAGE_FAULT_VECTOR`. -/
def PAGE_FAULT_VECTOR : BitVec 64 := 14

/-- `panic_unhandled_exception`. -/
def panicUnhandledException (cr2 : BitVec 64) (frame : Frame) : Panic :=
  let name := exceptionName frame.vector.toNat
  if frame.vector = PAGE_FAULT_VECTOR then
    .pageFault name cr2 frame.errorCode (decodePageFault frame.errorCode)
  else .exception name frame.vector frame.errorCode

/-- `validate_exception_frame`. -/
def validateExceptionFrame (cr2 : BitVec 64) (frame : Frame) : Except Panic Unit :=
  if CPU_EXCEPTION_COUNT ≤ frame.vector.toNat then .error (panicUnhandledException cr2 frame)
  else if !exceptionHasErrorCode frame.vector.toNat && frame.errorCode != 0 then
    .error (.malformedFrame frame.vector frame.errorCode)
  else .ok ()

/-- The vector whose handler `x86_64_exception_dispatch` calls. -/
def exceptionDispatch (cr2 : BitVec 64) (frame : Frame) :
    Except Panic (Fin CPU_EXCEPTION_COUNT) := do
  validateExceptionFrame cr2 frame
  let vector := frame.vector.setWidth 8
  if h : vector.toNat < CPU_EXCEPTION_COUNT then pure ⟨vector.toNat, h⟩
  else .error (.missingHandler vector)

/-- `stack_for_exception_type`. -/
def stackForExceptionType (stackSet : StackSet) : Tss.InterruptStack → Stack
  | .nmi => stackSet.nmi
  | .doubleFault => stackSet.doubleFault
  | .machineCheck => stackSet.machineCheck
  | _ => stackSet.kernel

/-- `fatal_reason`. -/
def fatalReason : ExceptionType → Option String
  | .nmi => some "non-maskable interrupt"
  | .doubleFault => some "double fault"
  | .machineCheck => some "machine check"
  | _ => none

/-- The weak handler of a vector: `handle` of its exception type. -/
def defaultHandler (stackSet : StackSet) (cr2 : BitVec 64) (vector : Fin CPU_EXCEPTION_COUNT)
    (frame : Frame) : Panic :=
  if frame.vector ≠ BitVec.ofNat 64 vector then .mismatch vector frame.vector else
    match fatalReason (exceptionType vector) with
    | some reason =>
      .fatal (exceptionName frame.vector.toNat) reason frame.vector frame.errorCode
        (stackForExceptionType stackSet (exceptionType vector).interruptStack)
    | none => panicUnhandledException cr2 frame

/-- `x86_64_exception_dispatch` with the handlers of `exceptions.cpp`. -/
def dispatchDefault (stackSet : StackSet) (cr2 : BitVec 64) (frame : Frame) : Panic :=
  match exceptionDispatch cr2 frame with
  | .ok vector => defaultHandler stackSet cr2 vector frame
  | .error panic => panic

/-! ## The tables of a core -/

/-- The type of the gate of an exception: an interrupt gate masks interrupts. -/
def gateType (vector : Fin CPU_EXCEPTION_COUNT) : ℕ :=
  match (exceptionType vector).gate with
  | .interrupt => 14
  | .trap => 15

section Tables

variable {c : Core} {stubs : Fin CPU_EXCEPTION_COUNT → BitVec 64} {gates : Idt.GateTable}
  {m : Memory}

theorem readGate_exception (h : Tables c stubs gates m) (v : Fin CPU_EXCEPTION_COUNT)
    (hstub : stubs v ≠ 0) :
    readGate m ⟨4095, c.idt⟩ v =
      some ⟨stubs v, Gdt.KERNEL_CODE_SELECTOR, (exceptionType v).interruptStack.toNat, gateType v,
        0, true⟩ := by
  have hgate := Idt.readGate_table h.idt (vectorOf v)
  rw [describeGates_exception, Idt.GateSpec.gate] at hgate
  have hattr : ∀ v : Fin CPU_EXCEPTION_COUNT,
      (gateSpec stubs v).ist.toNat % 8 = (exceptionType v).interruptStack.toNat ∧
      (gateSpec stubs v).typeAttributes.toNat % 32 = gateType v ∧
      (gateSpec stubs v).typeAttributes.toNat / 32 % 4 = 0 ∧
      (gateSpec stubs v).typeAttributes.toNat.testBit 7 = true := by
    intro v
    simp only [gateSpec, istForVector, gateType]
    cases exceptionType v <;> decide
  obtain ⟨hist, htype, hdpl, hpresent⟩ := hattr v
  rw [if_neg (show (gateSpec stubs v).entryPoint ≠ 0 from hstub), hist, htype, hdpl, hpresent]
    at hgate
  exact hgate

theorem readGate_other (h : Tables c stubs gates m) (v : Fin 256) (hv : CPU_EXCEPTION_COUNT ≤ v) :
    readGate m ⟨4095, c.idt⟩ v = some ((gates v).gate Gdt.KERNEL_CODE_SELECTOR) := by
  rw [Idt.readGate_table h.idt v, describeGates_other stubs gates v hv]

/-- The segments of code and data. -/
theorem readSegment_tables (h : Tables c stubs gates m) (d : Gdt.Descriptor)
    (selector : BitVec 16) (hpos : 0 < selector.toNat / 8) (hlt : selector.toNat / 8 < 5)
    (hglobal : selector.getLsbD 2 = false)
    (hd : (Gdt.entries (BitVec.ofNat 64 c.tss))[selector.toNat / 8]? = some d) :
    readSegment m ⟨55, c.gdt⟩ selector = some ⟨d.access.toNat, d.limitHighFlags.toNat⟩ := by
  obtain ⟨hi, rfl⟩ := List.getElem?_eq_some_iff.mp hd
  exact Gdt.readSegment_of_holds _ selector (h.segment _ hlt) hpos (by omega) hglobal

theorem kernelStack_tables (h : Tables c stubs gates m) :
    privilegeStack m ⟨c.tss, 103⟩ 0 = some (StackSet.init c).kernel.top :=
  Tss.privilegeStack_fields h.tss 0

end Tables

/-! ## The tables, once and for all -/

theorem toNat_top (c : Core) (storage : ℕ) (h : storage + CORE_STACK_SIZE ≤ c.tss) :
    (describeStack storage CORE_STACK_SIZE).top.toNat = storage + CORE_STACK_SIZE := by
  have hfits := c.fits
  have htss := c.tss_eq
  rw [describeStack, ← BitVec.ofNat_add, BitVec.toNat_ofNat]
  exact Nat.mod_eq_of_lt (by omega)

theorem aligned_top (c : Core) (i : ℕ) :
    (c.kernelStorage + CORE_STACK_SIZE * i) % 16 = 0 := by
  have hbase := c.aligned
  have hstorage : c.kernelStorage = c.base + 112 := Nat.add_assoc ..
  rw [hstorage, CORE_STACK_SIZE]
  omega

/-- The stacks of the exceptions that have one, by their numbers. -/
theorem toNat_ist_top (c : Core) (i : Fin 3) :
    ((taskState (StackSet.init c)).ist (i.castLE (by decide))).toNat =
      c.kernelStorage + CORE_STACK_SIZE * (i + 2) := by
  have hdoubleFault := toNat_top c c.doubleFaultStorage
  have hnmi := toNat_top c c.nmiStorage
  have hmachineCheck := toNat_top c c.machineCheckStorage
  simp only [Core.tss, Core.machineCheckStorage, Core.nmiStorage, Core.doubleFaultStorage]
    at hdoubleFault hnmi hmachineCheck
  fin_cases i
  · refine (hdoubleFault (by omega)).trans ?_
    show _ = c.kernelStorage + CORE_STACK_SIZE * 2
    omega
  · refine (hnmi (by omega)).trans ?_
    show _ = c.kernelStorage + CORE_STACK_SIZE * 3
    omega
  · refine (hmachineCheck le_rfl).trans ?_
    show _ = c.kernelStorage + CORE_STACK_SIZE * 4
    omega

/-- **The tables.**  After a core has come up, without a fault, the CPU finds one gate for each
exception, which enters its stub at privilege level 0 on its stack, and no other gates; segments for
both levels; and the stacks, each aligned and with its 16 KiB below it. -/
theorem core_tables (c : Core) (stubs : Fin CPU_EXCEPTION_COUNT → BitVec 64)
    (hstubs : ∀ v, stubs v ≠ 0) (s : CoreState) (hgates : ∀ v, s.gates v = {}) :
    ∃ s', initCore c stubs s = some (true, s') ∧ s'.faulted = s.faulted ∧
      s'.selectors = ⟨0x08, 0x10, 0x10, 0x10, 0, 0⟩ ∧
      (∀ v : Fin CPU_EXCEPTION_COUNT, readGate s'.memory s'.idtr v =
        some ⟨stubs v, 0x08, (exceptionType v).interruptStack.toNat, gateType v, 0, true⟩) ∧
      (∀ (v : ℕ) (g : Gate), CPU_EXCEPTION_COUNT ≤ v → readGate s'.memory s'.idtr v = some g →
        g.present = false) ∧
      (∃ d, readSegment s'.memory s'.gdtr 0x08 = some d ∧ d.isLongCode ∧ d.dpl = 0) ∧
      (∃ d, readSegment s'.memory s'.gdtr 0x10 = some d ∧ d.isWritableData ∧ d.dpl = 0) ∧
      (∃ d, readSegment s'.memory s'.gdtr 0x1B = some d ∧ d.isWritableData ∧ d.dpl = 3) ∧
      (∃ d, readSegment s'.memory s'.gdtr 0x23 = some d ∧ d.isLongCode ∧ d.dpl = 3) ∧
      (∃ top, privilegeStack s'.memory s'.tr 0 = some top ∧
        top.toNat = c.kernelStorage + CORE_STACK_SIZE ∧ top.toNat % 16 = 0) ∧
      ∀ i : Fin 3, ∃ top, interruptStack s'.memory s'.tr (i + 1) = some top ∧
        top.toNat = c.kernelStorage + CORE_STACK_SIZE * (i + 2) ∧ top.toNat % 16 = 0 := by
  obtain ⟨s', hrun, hfaulted, hloaded, htables⟩ := tables_initCore c stubs s
  refine ⟨s', hrun, hfaulted, hloaded.selectors, fun v => ?_, fun v g hv hg => ?_, ?_, ?_, ?_, ?_,
    ?_, ?_⟩
  · rw [hloaded.idtr]
    exact readGate_exception htables v (hstubs v)
  · rw [hloaded.idtr] at hg
    by_cases hlt : v < 256
    · have hother := readGate_other htables ⟨v, hlt⟩ hv
      rw [hgates] at hother
      obtain rfl := Option.some.inj (hg.symm.trans hother)
      rfl
    · rw [readGate, if_pos (show 4095 < 16 * v + 15 by omega)] at hg
      exact absurd hg (by simp)
  · rw [hloaded.gdtr]
    exact ⟨_, readSegment_tables htables Gdt.kernelCode 0x08 (by decide) (by decide) (by decide)
      rfl, by decide, by decide⟩
  · rw [hloaded.gdtr]
    exact ⟨_, readSegment_tables htables Gdt.kernelData 0x10 (by decide) (by decide) (by decide)
      rfl, by decide, by decide⟩
  · rw [hloaded.gdtr]
    exact ⟨_, readSegment_tables htables Gdt.userData 0x1B (by decide) (by decide) (by decide)
      rfl, by decide, by decide⟩
  · rw [hloaded.gdtr]
    exact ⟨_, readSegment_tables htables Gdt.userCode 0x23 (by decide) (by decide) (by decide)
      rfl, by decide, by decide⟩
  · rw [hloaded.tr]
    have htop : (StackSet.init c).kernel.top.toNat = c.kernelStorage + CORE_STACK_SIZE * 1 :=
      toNat_top c _ (by
        simp only [Core.tss, Core.machineCheckStorage, Core.nmiStorage, Core.doubleFaultStorage]
        omega)
    exact ⟨_, kernelStack_tables htables, by omega, htop ▸ aligned_top c 1⟩
  · intro i
    rw [hloaded.tr]
    have htop := toNat_ist_top c i
    exact ⟨_, Tss.interruptStack_fields htables.tss (i.castLE (by decide)), htop,
      htop ▸ aligned_top c (i + 2)⟩


/-! ## The frame -/

/-- The quadwords of a frame, from the highest address on. -/
def Frame.words (f : Frame) : List (BitVec 64) :=
  [f.ss, f.rsp, f.rflags, f.cs, f.rip, f.errorCode, f.vector] ++ saved.map f.reg

/-- The frame of a state that an exception interrupts. -/
def Frame.of (s : Machine) (vector : ℕ) (errorCode : BitVec 64) : Frame where
  r15 := s.regs .r15
  r14 := s.regs .r14
  r13 := s.regs .r13
  r12 := s.regs .r12
  r11 := s.regs .r11
  r10 := s.regs .r10
  r9 := s.regs .r9
  r8 := s.regs .r8
  rbp := s.regs .rbp
  rdi := s.regs .rdi
  rsi := s.regs .rsi
  rdx := s.regs .rdx
  rcx := s.regs .rcx
  rbx := s.regs .rbx
  rax := s.regs .rax
  vector := BitVec.ofNat 64 vector
  errorCode := if exceptionHasErrorCode vector then errorCode else 0
  rip := s.rip
  cs := s.cs.setWidth 64
  rflags := s.rflags
  rsp := s.regs .rsp
  ss := s.ss.setWidth 64

theorem toNat_vector (v : Fin CPU_EXCEPTION_COUNT) : (BitVec.ofNat 64 v).toNat = v :=
  Nat.mod_eq_of_lt (v.isLt.trans (by decide))

/-- The frame of an exception passes all checks, and its own handler is called. -/
theorem exceptionDispatch_of (cr2 : BitVec 64) (s : Machine) (v : Fin CPU_EXCEPTION_COUNT)
    (errorCode : BitVec 64) : exceptionDispatch cr2 (Frame.of s v errorCode) = .ok v := by
  have hlt := v.isLt
  have hvector : (Frame.of s v errorCode).vector.toNat = v := toNat_vector v
  have herror : (!exceptionHasErrorCode v && (Frame.of s v errorCode).errorCode != 0) = false := by
    simp only [Frame.of]
    cases exceptionHasErrorCode v <;> rfl
  have hbyte : ((Frame.of s v errorCode).vector.setWidth 8).toNat = v := by
    rw [BitVec.toNat_setWidth, hvector]
    exact Nat.mod_eq_of_lt (hlt.trans (by decide))
  have hvalid : validateExceptionFrame cr2 (Frame.of s v errorCode) = .ok () := by
    rw [validateExceptionFrame, hvector, herror, if_neg (Nat.not_le.mpr hlt),
      if_neg Bool.false_ne_true]
  rw [exceptionDispatch, hvalid]
  simp only [hbyte, hlt, dif_pos]
  rfl

/-- What the handlers of `exceptions.cpp` report then. -/
theorem dispatchDefault_of (stackSet : StackSet) (cr2 : BitVec 64) (s : Machine)
    (v : Fin CPU_EXCEPTION_COUNT) (errorCode : BitVec 64) :
    dispatchDefault stackSet cr2 (Frame.of s v errorCode) =
      match fatalReason (exceptionType v) with
      | some reason => .fatal (EXCEPTION_NAMES v) reason (BitVec.ofNat 64 v)
          (Frame.of s v errorCode).errorCode
          (stackForExceptionType stackSet (exceptionType v).interruptStack)
      | none => panicUnhandledException cr2 (Frame.of s v errorCode) := by
  have hvector : (Frame.of s v errorCode).vector = BitVec.ofNat 64 v := rfl
  have hname : exceptionName (Frame.of s v errorCode).vector.toNat = EXCEPTION_NAMES v := by
    rw [hvector, toNat_vector, exceptionName, dif_pos v.isLt]
  rw [dispatchDefault, exceptionDispatch_of]
  show defaultHandler _ _ _ _ = _
  rw [defaultHandler, if_neg (not_not.mpr hvector), hname]
  rfl

/-! ## The stubs -/

/-- The core, with the stubs 16 bytes apart. -/
def smallCore : Core where
  base := 0x200000
  aligned := rfl
  fits := by norm_num

def smallStubs (v : Fin CPU_EXCEPTION_COUNT) : BitVec 64 := BitVec.ofNat 64 (0x1000 + 16 * v)

theorem smallStubs_ne_zero : ∀ v, smallStubs v ≠ 0 := by decide

/-- A core before it comes up. -/
def smallState : CoreState where
  memory := fun _ => 0
  gates := fun _ => {}
  stackSet := StackSet.init smallCore
  gdtr := ⟨0, 0⟩
  idtr := ⟨0, 0⟩
  tr := ⟨0, 0⟩
  selectors := ⟨0x18, 0, 0, 0, 0, 0⟩
  cr0 := 0
  cr4 := 0
  faulted := false

/-- `PAGE_FAULT_VECTOR` among the exceptions. -/
def pageFault : Fin CPU_EXCEPTION_COUNT := ⟨14, by decide⟩

theorem core_tables_small : ∃ s' : CoreState,
    initCore smallCore smallStubs smallState = some (true, s') ∧ s'.faulted = false ∧
      readGate s'.memory s'.idtr 14 = some ⟨0x10E0, 0x08, 0, 14, 0, true⟩ := by
  obtain ⟨s', hrun, hfaulted, -, hgates, -⟩ :=
    core_tables smallCore smallStubs smallStubs_ne_zero smallState fun _ => rfl
  exact ⟨s', hrun, hfaulted, hgates pageFault⟩

end Trap

end DoomOs
