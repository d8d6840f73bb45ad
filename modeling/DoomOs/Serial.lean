/-
# The serial console

`arch/x86_64/serial/serial.cpp` and `kernel/debug/console.cpp` with the device that they drive: a
UART that takes bytes to transmit into a queue, sends them at its own pace, and drops what does not
fit.  The processor and the device take their steps in any order.

* `Step` is a turn of either; the status register tells no more than that the queue is empty;
* `Opening` is the invariant while `init` runs, on a device in any state;
* `Wired` is the invariant afterwards: what was sent, what is queued and what is still to be
  written make up the printed text with its line ends;
* `serial_transmits`: no byte is lost, added or out of order, at the rate that `init` sets;
* `serial_finishes`: when both have a turn again and again, all is sent in the end.
-/
import Mathlib.Data.List.Basic
import DoomOs.FairRuns

namespace DoomOs

namespace Serial

/-! ## The device -/

/-- The ports of a UART, from its base on. -/
inductive Port where
  | data
  | interruptEnable
  | fifoControl
  | lineControl
  | modemControl
  | lineStatus
  deriving DecidableEq

/-- A byte on the line, with the divisor and the format in force. -/
structure Sent where
  byte : UInt8
  divisor : ℕ
  format : UInt8
  deriving DecidableEq

/-- The registers of the UART that matter for sending, what is queued, and what was sent. -/
structure Uart where
  interruptEnable : UInt8
  lineControl : UInt8
  fifoControl : UInt8
  modemControl : UInt8
  divisorLow : UInt8
  divisorHigh : UInt8
  queue : List UInt8
  line : List Sent

namespace Uart

variable (u : Uart)

/-- The divisor latch is accessible. -/
def dlab : Bool := u.lineControl &&& 0x80 != 0

def divisor : ℕ := u.divisorLow.toNat + 256 * u.divisorHigh.toNat

/-- How many bytes fit. -/
def depth : ℕ := if u.fifoControl &&& 0x01 != 0 then 16 else 1

/-- A byte, as it would be sent now. -/
def sending (byte : UInt8) : Sent := ⟨byte, u.divisor, u.lineControl⟩

/-- A byte written to a port. -/
def outb (port : Port) (value : UInt8) : Uart :=
  match port with
  | .data =>
    if u.dlab then { u with divisorLow := value }
    else if u.queue.length < u.depth then { u with queue := u.queue ++ [value] }
    else u
  | .interruptEnable =>
    if u.dlab then { u with divisorHigh := value } else { u with interruptEnable := value }
  | .fifoControl =>
    { u with
      fifoControl := value
      queue := if value &&& 0x04 != 0 then [] else u.queue }
  | .lineControl => { u with lineControl := value }
  | .modemControl => { u with modemControl := value }
  | .lineStatus => u

end Uart

/-! ## The code -/

/-- `BAUD_DIVISOR`. -/
def BAUD_DIVISOR : ℕ := 115200 / 38400

def LINE_CONTROL_DLAB : UInt8 := 1 <<< (7 : UInt8)

def LINE_CONTROL_8N1 : UInt8 := 0x03

def FIFO_ENABLE_CLEAR_14 : UInt8 := 0xC7

def MODEM_DTR_RTS_OUT2 : UInt8 := 0x0B

def LINE_STATUS_TX_EMPTY : UInt8 := 1 <<< (5 : UInt8)

/-- The writes of `init`. -/
def initWrites : List (Port × UInt8) :=
  [(.interruptEnable, 0x00), (.lineControl, LINE_CONTROL_DLAB),
    (.data, UInt8.ofNat (BAUD_DIVISOR % 256)),
    (.interruptEnable, UInt8.ofNat (BAUD_DIVISOR / 256 % 256)),
    (.lineControl, LINE_CONTROL_8N1), (.fifoControl, FIFO_ENABLE_CLEAR_14),
    (.modemControl, MODEM_DTR_RTS_OUT2)]

/-- `'\r'` and `'\n'`. -/
def CR : UInt8 := 13

def LF : UInt8 := 10

/-- The calls of `write_char` for a byte of `console_sink`. -/
def writeChars (byte : UInt8) : List UInt8 := if byte = LF then [CR, byte] else [byte]

/-- Where the processor is. -/
inductive Control where
  /-- In `init`, with these writes to go. -/
  | init (writes : List (Port × UInt8)) (calls : List (List UInt8))
  /-- In `console_sink`, about to call `write_char` for the bytes `now`; then come the rest of the
  text and the further calls of `console_write`. -/
  | sink (now rest : List UInt8) (calls : List (List UInt8))
  /-- In `write_char`, after `can_write` returned true. -/
  | store (byte : UInt8) (now rest : List UInt8) (calls : List (List UInt8))

/-- The processor and the device. -/
structure System where
  uart : Uart
  control : Control

/-- `serial::init` and `attach_console`, and then the calls of `console_write`. -/
def start (u : Uart) (calls : List (List UInt8)) : System := ⟨u, .init initWrites calls⟩

/-- All calls have returned. -/
def System.returned (s : System) : Prop := s.control = .sink [] [] []

inductive Actor where
  | device
  | processor

/-- A turn of the processor or of the device. -/
inductive Step : Actor → System → System → Prop where
  /-- The device sends a byte. -/
  | transmit {u : Uart} {byte : UInt8} {queue : List UInt8} {p : Control}
      (hqueue : u.queue = byte :: queue) :
      Step .device ⟨u, p⟩
        ⟨{ u with
          queue := queue
          line := u.line ++ [u.sending byte] }, p⟩
  | idle {u : Uart} {p : Control} (hqueue : u.queue = []) : Step .device ⟨u, p⟩ ⟨u, p⟩
  | init {u : Uart} {port : Port} {value : UInt8} {writes : List (Port × UInt8)}
      {calls : List (List UInt8)} :
      Step .processor ⟨u, .init ((port, value) :: writes) calls⟩
        ⟨u.outb port value, .init writes calls⟩
  | attached {u : Uart} {calls : List (List UInt8)} :
      Step .processor ⟨u, .init [] calls⟩ ⟨u, .sink [] [] calls⟩
  /-- `console_write` with the next text. -/
  | call {u : Uart} {bytes : List UInt8} {calls : List (List UInt8)} :
      Step .processor ⟨u, .sink [] [] (bytes :: calls)⟩ ⟨u, .sink [] bytes calls⟩
  /-- The loop of `console_sink` goes on to the next byte. -/
  | next {u : Uart} {byte : UInt8} {rest : List UInt8} {calls : List (List UInt8)} :
      Step .processor ⟨u, .sink [] (byte :: rest) calls⟩ ⟨u, .sink (writeChars byte) rest calls⟩
  /-- `can_write` reads the line status. -/
  | poll {u : Uart} {status byte : UInt8} {now rest : List UInt8} {calls : List (List UInt8)}
      (hstatus : (status &&& LINE_STATUS_TX_EMPTY != 0) = u.queue.isEmpty) :
      Step .processor ⟨u, .sink (byte :: now) rest calls⟩
        ⟨u, if status &&& LINE_STATUS_TX_EMPTY != 0 then .store byte now rest calls
          else .sink (byte :: now) rest calls⟩
  | store {u : Uart} {byte : UInt8} {now rest : List UInt8} {calls : List (List UInt8)} :
      Step .processor ⟨u, .store byte now rest calls⟩ ⟨u.outb .data byte, .sink now rest calls⟩
  | returned {u : Uart} : Step .processor ⟨u, .sink [] [] []⟩ ⟨u, .sink [] [] []⟩

/-- What is reached from `s` when the two take turns in any order. -/
inductive Reach (s : System) : System → Prop where
  | refl : Reach s s
  | tail {s₁ s₂ : System} {a : Actor} : Reach s s₁ → Step a s₁ s₂ → Reach s s₂

/-! ## What a run sends -/

/-- A text with its line ends. -/
def crlf (text : List UInt8) : List UInt8 := text.flatMap writeChars

/-- The bytes that the processor has still to write. -/
def Control.todo : Control → List UInt8
  | .init _ calls => crlf calls.flatten
  | .sink now rest calls => now ++ crlf rest ++ crlf calls.flatten
  | .store byte now rest calls => byte :: now ++ crlf rest ++ crlf calls.flatten

/-- A byte as the settings of `init` send it. -/
def sent (byte : UInt8) : Sent := ⟨byte, BAUD_DIVISOR, LINE_CONTROL_8N1⟩

/-- The settings of `init`. -/
structure Configured (u : Uart) : Prop where
  divisorLow : u.divisorLow = 3
  divisorHigh : u.divisorHigh = 0
  lineControl : u.lineControl = LINE_CONTROL_8N1
  fifoControl : u.fifoControl = FIFO_ENABLE_CLEAR_14

theorem Configured.sending {u : Uart} (h : Configured u) (byte : UInt8) :
    u.sending byte = sent byte := by
  rw [Uart.sending, Uart.divisor, h.divisorLow, h.divisorHigh, h.lineControl]
  rfl

theorem Configured.outb {u : Uart} (h : Configured u) (hempty : u.queue = []) (byte : UInt8) :
    u.outb .data byte = { u with queue := [byte] } := by
  have hdlab : u.dlab = false := by
    rw [Uart.dlab, h.lineControl]
    rfl
  have hdepth : u.depth = 16 := by
    rw [Uart.depth, h.fifoControl]
    rfl
  simp [Uart.outb, hdlab, hdepth, hempty]

/-- The registers alone. -/
def Uart.registers (u : Uart) : Uart :=
  { u with
    queue := []
    line := [] }

/-- What a write does to the registers does not depend on what is queued or sent. -/
theorem registers_outb (u : Uart) (port : Port) (value : UInt8) :
    (u.outb port value).registers = (u.registers.outb port value).registers := by
  cases port with
  | data =>
    by_cases hdlab : u.dlab = true
    · have hdlab' : u.registers.dlab = true := hdlab
      simp only [Uart.outb, hdlab, hdlab', if_true]
      rfl
    · have hdlab' : ¬u.registers.dlab = true := hdlab
      simp only [Uart.outb, if_neg hdlab, if_neg hdlab']
      split <;> split <;> rfl
  | interruptEnable =>
    by_cases hdlab : u.dlab = true
    · have hdlab' : u.registers.dlab = true := hdlab
      simp only [Uart.outb, hdlab, hdlab', if_true]
      rfl
    · have hdlab' : ¬u.registers.dlab = true := hdlab
      simp only [Uart.outb, if_neg hdlab, if_neg hdlab']
      rfl
  | fifoControl => rfl
  | lineControl => rfl
  | modemControl => rfl
  | lineStatus => rfl

/-- The writes one after the other. -/
def outbs (u : Uart) (writes : List (Port × UInt8)) : Uart :=
  writes.foldl (fun u w => u.outb w.1 w.2) u

theorem outbs_concat (u : Uart) (writes : List (Port × UInt8)) (w : Port × UInt8) :
    outbs u (writes ++ [w]) = (outbs u writes).outb w.1 w.2 := by
  rw [outbs, List.foldl_append]
  rfl

/-- The latch is accessible from the second write of `init` on. -/
theorem dlab_latched (u : Uart) :
    (outbs u [(.interruptEnable, 0x00), (.lineControl, LINE_CONTROL_DLAB)]).dlab = true := by
  have hline : (outbs u [(.interruptEnable, 0x00), (.lineControl, LINE_CONTROL_DLAB)]).lineControl =
      LINE_CONTROL_DLAB := rfl
  rw [Uart.dlab, hline]
  decide

/-- The one write of `init` to the data port comes while the divisor latch is accessible. -/
theorem dlab_of_data (u : Uart) {done writes : List (Port × UInt8)} {value : UInt8}
    (h : done ++ (.data, value) :: writes = initWrites) : (outbs u done).dlab = true := by
  rcases done with _ | ⟨_, _ | ⟨_, _ | ⟨_, _ | ⟨_, _ | ⟨_, _ | ⟨_, _ | ⟨_, done⟩⟩⟩⟩⟩⟩⟩ <;>
    simp only [initWrites, List.nil_append, List.cons_append, List.cons.injEq, Prod.mk.injEq,
      reduceCtorEq, false_and, and_false, List.append_eq_nil_iff] at h
  obtain ⟨rfl, rfl, -⟩ := h
  exact dlab_latched u

theorem configured_outbs (u : Uart) : Configured (outbs u initWrites) := by
  -- Both halves of the divisor go to the latch.
  have hlow := dlab_latched u
  have hhigh : { outbs u [(.interruptEnable, 0x00), (.lineControl, LINE_CONTROL_DLAB)] with
      divisorLow := 3 }.dlab = true := hlow
  have houtbs : outbs u initWrites =
      { outbs u [(.interruptEnable, 0x00), (.lineControl, LINE_CONTROL_DLAB)] with
        divisorLow := 3
        divisorHigh := 0
        lineControl := LINE_CONTROL_8N1
        fifoControl := FIFO_ENABLE_CLEAR_14
        modemControl := MODEM_DTR_RTS_OUT2
        queue := [] } := by
    have hdata : outbs u initWrites =
        outbs ((outbs u [(.interruptEnable, 0x00), (.lineControl, LINE_CONTROL_DLAB)]).outb .data 3)
          (initWrites.drop 3) := rfl
    have hwrite : ∀ v : Uart, v.dlab = true → v.outb .data 3 = { v with divisorLow := 3 } :=
      fun v hv => if_pos hv
    have hrest : ∀ v : Uart, v.dlab = true → outbs v (initWrites.drop 3) =
        outbs { v with divisorHigh := 0 } (initWrites.drop 4) := by
      intro v hv
      have hv' : v.outb .interruptEnable 0 = { v with divisorHigh := 0 } := if_pos hv
      rw [← hv']
      rfl
    rw [hdata, hwrite _ hlow, hrest _ hhigh]
    rfl
  rw [houtbs]
  exact ⟨rfl, rfl, rfl, rfl⟩

/-- In `init` after the writes `done`, on a device that was `u₀`. -/
structure Opening (u₀ : Uart) (calls : List (List UInt8)) (done writes : List (Port × UInt8))
    (s : System) : Prop where
  control : s.control = .init writes calls
  parts : done ++ writes = initWrites
  registers : s.uart.registers = (outbs u₀ done).registers
  leftover : s.uart.line.map Sent.byte ++ s.uart.queue <+: u₀.line.map Sent.byte ++ u₀.queue
  cleared : Port.fifoControl ∈ done.map Prod.fst → s.uart.queue = []

/-- A write of `init` puts nothing on the line or into the queue. -/
theorem outb_of_init {u : Uart} {port : Port} (value : UInt8)
    (hdata : port = .data → u.dlab = true) :
    (u.outb port value).line = u.line ∧
      ((u.outb port value).queue = u.queue ∨ (u.outb port value).queue = []) := by
  cases port with
  | data =>
    rw [Uart.outb, if_pos (hdata rfl)]
    exact ⟨rfl, .inl rfl⟩
  | interruptEnable => rw [Uart.outb]; split <;> exact ⟨rfl, .inl rfl⟩
  | fifoControl =>
    refine ⟨rfl, ?_⟩
    by_cases hclear : (value &&& 0x04 != 0) = true
    · exact .inr (if_pos hclear)
    · exact .inl (if_neg hclear)
  | lineControl => exact ⟨rfl, .inl rfl⟩
  | modemControl => exact ⟨rfl, .inl rfl⟩
  | lineStatus => exact ⟨rfl, .inl rfl⟩

theorem Opening.dlab {u₀ : Uart} {calls : List (List UInt8)} {done writes : List (Port × UInt8)}
    {s : System} {port : Port} {value : UInt8}
    (h : Opening u₀ calls done ((port, value) :: writes) s) (hport : port = .data) :
    s.uart.dlab = true := by
  subst hport
  have hdone : (outbs u₀ done).registers.dlab = true := dlab_of_data u₀ h.parts
  rw [← h.registers] at hdone
  exact hdone

/-- The write to the FIFO control empties the queue. -/
theorem Opening.cleared_init {u₀ u : Uart} {calls : List (List UInt8)}
    {done writes : List (Port × UInt8)} {p : Control} {port : Port} {value : UInt8}
    (h : Opening u₀ calls done ((port, value) :: writes) ⟨u, p⟩)
    (hmem : Port.fifoControl ∈ (done ++ [(port, value)]).map Prod.fst) :
    (u.outb port value).queue = [] := by
  rw [List.map_append, List.mem_append] at hmem
  rcases hmem with hmem | hmem
  · rcases (outb_of_init value h.dlab).2 with hqueue | hqueue
    · exact hqueue.trans (h.cleared hmem)
    · exact hqueue
  · obtain rfl : Port.fifoControl = port := List.mem_singleton.mp hmem
    have hvalue : (Port.fifoControl, value) ∈ initWrites := by simp [← h.parts]
    obtain rfl : value = FIFO_ENABLE_CLEAR_14 := by simpa [initWrites] using hvalue
    rfl

/-- A turn while `init` runs. -/
theorem Opening.step {u₀ : Uart} {calls : List (List UInt8)} {done writes : List (Port × UInt8)}
    {a : Actor} {s s' : System} (h : Opening u₀ calls done writes s) (hstep : Step a s s') :
    (∃ done writes, Opening u₀ calls done writes s') ∨
      writes = [] ∧ s' = ⟨s.uart, .sink [] [] calls⟩ := by
  have hcontrol := h.control
  cases hstep with
  | @transmit u byte queue p hqueue =>
    refine .inl ⟨done, writes, hcontrol, h.parts, h.registers, ?_, ?_⟩
    · have hleft := h.leftover
      simp only [hqueue] at hleft
      simpa [Uart.sending] using hleft
    · intro hmem
      have hnil : u.queue = [] := h.cleared hmem
      rw [hqueue] at hnil
      cases hnil
  | idle => exact .inl ⟨done, writes, h⟩
  | @init u port value writes' calls' =>
    obtain ⟨rfl, rfl⟩ : (port, value) :: writes' = writes ∧ calls' = calls :=
      Control.init.inj hcontrol
    have hkept := outb_of_init value h.dlab
    refine .inl ⟨done ++ [(port, value)], writes', rfl, ?_, ?_, ?_, h.cleared_init⟩
    · rw [List.append_assoc]
      exact h.parts
    · rw [outbs_concat, registers_outb, registers_outb (outbs u₀ done)]
      exact congrArg (fun v : Uart => (v.outb port value).registers) h.registers
    · show (u.outb port value).line.map Sent.byte ++ (u.outb port value).queue <+: _
      rcases hkept with ⟨hline, hqueue | hqueue⟩
      · rw [hline, hqueue]
        exact h.leftover
      · rw [hline, hqueue, List.append_nil]
        exact (List.prefix_append _ _).trans h.leftover
  | attached =>
    obtain ⟨rfl, rfl⟩ := Control.init.inj hcontrol
    exact .inr ⟨rfl, rfl⟩
  | call => cases hcontrol
  | next => cases hcontrol
  | poll => cases hcontrol
  | store => cases hcontrol
  | returned => cases hcontrol

/-- After `init`: `before` was on the line already, and the texts of `calls` follow. -/
structure Wired (before : List Sent) (calls : List (List UInt8)) (s : System) : Prop where
  configured : Configured s.uart
  printed : s.uart.line ++ (s.uart.queue ++ s.control.todo).map sent =
    before ++ (crlf calls.flatten).map sent
  ready : ∀ byte now rest calls, s.control = .store byte now rest calls → s.uart.queue = []
  started : ∀ writes calls, s.control ≠ .init writes calls

/-- A byte sent leaves what is on the line, in the queue and still to be written the same. -/
theorem Wired.step {before : List Sent} {calls : List (List UInt8)} {a : Actor} {s s' : System}
    (h : Wired before calls s) (hstep : Step a s s') : Wired before calls s' := by
  obtain ⟨hconf, hprinted, hready, hstarted⟩ := h
  cases hstep with
  | transmit hqueue =>
    refine ⟨⟨hconf.divisorLow, hconf.divisorHigh, hconf.lineControl, hconf.fifoControl⟩, ?_, ?_,
      hstarted⟩
    · rw [← hprinted]
      simp only [hqueue, hconf.sending, List.cons_append, List.map_cons, List.append_assoc,
        List.nil_append]
    · intro byte now rest calls hcontrol
      have := hready byte now rest calls hcontrol
      rw [hqueue] at this
      cases this
  | idle => exact ⟨hconf, hprinted, hready, hstarted⟩
  | init => exact absurd rfl (hstarted _ _)
  | attached => exact absurd rfl (hstarted _ _)
  | call =>
    refine ⟨hconf, ?_, nofun, nofun⟩
    rw [← hprinted]
    simp [Control.todo, crlf]
  | next =>
    refine ⟨hconf, ?_, nofun, nofun⟩
    rw [← hprinted]
    simp [Control.todo, crlf]
  | @poll u status byte now rest calls' hstatus =>
    by_cases hempty : u.queue.isEmpty = true
    · rw [hstatus, if_pos hempty]
      refine ⟨hconf, hprinted, fun _ _ _ _ _ => List.isEmpty_iff.mp hempty, nofun⟩
    · rw [hstatus, if_neg hempty]
      exact ⟨hconf, hprinted, nofun, nofun⟩
  | @store u byte now rest calls' =>
    have hempty : u.queue = [] := hready byte now rest calls' rfl
    have houtb := hconf.outb hempty byte
    refine ⟨?_, ?_, nofun, nofun⟩
    · show Configured (u.outb .data byte)
      rw [houtb]
      exact ⟨hconf.divisorLow, hconf.divisorHigh, hconf.lineControl, hconf.fifoControl⟩
    · show (u.outb .data byte).line ++ ((u.outb .data byte).queue ++ _).map sent = _
      rw [houtb, ← hprinted, hempty]
      rfl
  | returned => exact ⟨hconf, hprinted, hready, hstarted⟩

theorem Opening.start (u : Uart) (calls : List (List UInt8)) :
    Opening u calls [] initWrites (start u calls) :=
  ⟨rfl, rfl, rfl, List.prefix_rfl, nofun⟩

/-- Once `init` is through, everything that is to be printed is still to be written. -/
theorem Opening.wired {u₀ : Uart} {calls : List (List UInt8)} {done : List (Port × UInt8)}
    {s : System} (h : Opening u₀ calls done [] s) :
    Wired s.uart.line calls ⟨s.uart, .sink [] [] calls⟩ := by
  have hdone : done = initWrites := by
    rw [← h.parts, List.append_nil]
  have hqueue : s.uart.queue = [] := h.cleared (by rw [hdone]; decide)
  have hregisters : s.uart.registers = (outbs u₀ initWrites).registers := hdone ▸ h.registers
  obtain ⟨hlow, hhigh, hline, hfifo⟩ := configured_outbs u₀
  refine ⟨⟨?_, ?_, ?_, ?_⟩, ?_, nofun, nofun⟩
  · exact (congrArg Uart.divisorLow hregisters).trans hlow
  · exact (congrArg Uart.divisorHigh hregisters).trans hhigh
  · exact (congrArg Uart.lineControl hregisters).trans hline
  · exact (congrArg Uart.fifoControl hregisters).trans hfifo
  · rw [hqueue]
    rfl

/-- A run is in `init`, with nothing on the line that was not queued before it; or `init` is
through. -/
theorem opening_or_wired {u : Uart} {calls : List (List UInt8)} {s : System}
    (h : Reach (start u calls) s) :
    (∃ done writes, Opening u calls done writes s) ∨
      ∃ before, before.map Sent.byte <+: u.line.map Sent.byte ++ u.queue ∧
        Wired before calls s := by
  induction h with
  | refl => exact .inl ⟨[], initWrites, Opening.start u calls⟩
  | @tail s₁ s₂ a _ hstep ih =>
    rcases ih with ⟨done, writes, hopening⟩ | ⟨before, hbefore, hwired⟩
    · rcases hopening.step hstep with hopening' | ⟨rfl, rfl⟩
      · exact .inl hopening'
      · exact .inr ⟨s₁.uart.line, (List.prefix_append _ _).trans hopening.leftover,
          hopening.wired⟩
    · exact .inr ⟨before, hbefore, hwired.step hstep⟩

/-- Whatever the device was doing before, and in whatever order the two take their turns: until
`init` is through, nothing is on the line that was not there or queued before it.  From then on,
what was sent, what is queued and what is still to be written are together what was on the line
at that time and after it every printed byte, in order and with its line ends, at 38400 baud with
eight data bits, no parity and one stop bit. -/
theorem serial_transmits {u : Uart} {calls : List (List UInt8)} {s : System}
    (h : Reach (start u calls) s) :
    ((∃ writes, s.control = .init writes calls) ∧
        s.uart.line.map Sent.byte <+: u.line.map Sent.byte ++ u.queue) ∨
      ∃ before, before.map Sent.byte <+: u.line.map Sent.byte ++ u.queue ∧
        s.uart.line ++ (s.uart.queue ++ s.control.todo).map sent =
          before ++ (crlf calls.flatten).map sent := by
  rcases opening_or_wired h with ⟨done, writes, hopening⟩ | ⟨before, hbefore, hwired⟩
  · exact .inl ⟨⟨writes, hopening.control⟩,
      (List.prefix_append _ _).trans hopening.leftover⟩
  · exact .inr ⟨before, hbefore, hwired.printed⟩

/-- A device that the firmware left with two bytes to send. -/
def firmware : Uart :=
  { interruptEnable := 1
    lineControl := 0x1B
    fifoControl := 1
    modemControl := 0
    divisorLow := 12
    divisorHigh := 0
    queue := [65, 66]
    line := [] }

/-- The first of the two is sent while `init` runs, the other is dropped; then comes the carriage
return of a line end. -/
theorem serial_transmits_newline :
    ∃ s, Reach (start firmware [[LF]]) s ∧ s.uart.line = [⟨65, 12, 0x1B⟩, sent CR] ∧
      (((∃ writes, s.control = .init writes [[LF]]) ∧
          s.uart.line.map Sent.byte <+: firmware.line.map Sent.byte ++ firmware.queue) ∨
        ∃ before, before.map Sent.byte <+: firmware.line.map Sent.byte ++ firmware.queue ∧
          s.uart.line ++ (s.uart.queue ++ s.control.todo).map sent =
            before ++ (crlf [[LF]].flatten).map sent) := by
  have hsent : Reach (start firmware [[LF]]) ⟨{ firmware with
      queue := [66]
      line := [⟨65, 12, 0x1B⟩] }, .init initWrites [[LF]]⟩ := Reach.refl.tail (.transmit rfl)
  have hinit := ((((((hsent.tail .init).tail .init).tail .init).tail .init).tail .init).tail
    .init).tail .init
  have hcall := ((hinit.tail .attached).tail .call).tail .next
  have hpoll := hcall.tail (@Step.poll _ LINE_STATUS_TX_EMPTY CR [LF] [] [] (by decide))
  rw [if_pos (by decide)] at hpoll
  have hstore := (hpoll.tail .store).tail (.transmit rfl)
  exact ⟨_, hstore, by decide, serial_transmits hstore⟩

/-! ## All of it -/

/-- All calls have returned, and all is sent. -/
def System.finished (s : System) : Prop := s.returned ∧ s.uart.queue = []

/-- A `console_write` takes a turn besides those for its text. -/
def callsWeight : List (List UInt8) → ℕ
  | [] => 0
  | bytes :: calls => 7 * bytes.length + 1 + callsWeight calls

/-- A bound on the turns that it still takes: one of `console_sink` for each byte of a text, and a
`can_write`, a write and a turn of the device for the byte and for its carriage return. -/
def Control.weight : Control → ℕ
  | .init writes calls => 1 + 2 * writes.length + callsWeight calls
  | .sink now rest calls => 3 * now.length + 7 * rest.length + callsWeight calls
  | .store _ now rest calls => 2 + 3 * now.length + 7 * rest.length + callsWeight calls

def System.weight (s : System) : ℕ := s.uart.queue.length + s.control.weight

theorem outb_queue_length (u : Uart) (port : Port) (value : UInt8) :
    (u.outb port value).queue.length ≤ u.queue.length + 1 := by
  cases port with
  | data => rw [Uart.outb]; split_ifs <;> simp
  | interruptEnable => rw [Uart.outb]; split_ifs <;> exact Nat.le_succ _
  | fifoControl => rw [Uart.outb]; split_ifs <;> simp
  | lineControl => exact Nat.le_succ _
  | modemControl => exact Nat.le_succ _
  | lineStatus => exact Nat.le_succ _

theorem writeChars_length (byte : UInt8) : (writeChars byte).length ≤ 2 := by
  rw [writeChars]
  split_ifs <;> simp

/-- Only a `can_write` that has to wait, a device with nothing to send and a processor that is
through leave the state as it is. -/
theorem Step.weight {a : Actor} {s s' : System} (h : Step a s s') :
    s' = s ∨ s'.weight < s.weight := by
  cases h with
  | transmit hqueue =>
    refine .inr ?_
    simp only [System.weight, hqueue, List.length_cons]
    omega
  | idle => exact .inl rfl
  | @init u port value writes calls =>
    have := outb_queue_length u port value
    refine .inr ?_
    simp only [System.weight, Control.weight, List.length_cons]
    omega
  | attached =>
    refine .inr ?_
    simp only [System.weight, Control.weight, List.length_nil]
    omega
  | call =>
    refine .inr ?_
    simp only [System.weight, Control.weight, callsWeight, List.length_nil]
    omega
  | @next u byte rest calls =>
    have := writeChars_length byte
    refine .inr ?_
    simp only [System.weight, Control.weight, List.length_nil, List.length_cons]
    omega
  | @poll u status byte now rest calls hstatus =>
    split
    · refine .inr ?_
      simp only [System.weight, Control.weight, List.length_cons]
      omega
    · exact .inl rfl
  | @store u byte now rest calls =>
    have := outb_queue_length u .data byte
    refine .inr ?_
    simp only [System.weight, Control.weight]
    omega
  | returned => exact .inl rfl

theorem cons_ne_of_length {b : UInt8} {l : List UInt8} : l ≠ b :: l := by
  intro h
  have := congrArg List.length h
  simp at this

/-- While something is queued, a turn of the device changes the state; else one of the processor
does, until all is sent. -/
theorem helps (s : System) (h : ¬ s.finished) : ∃ a, ∀ s', Step a s s' → s' ≠ s := by
  obtain ⟨u, p⟩ := s
  by_cases hqueue : u.queue = []
  · refine ⟨.processor, fun s' hstep hsame => ?_⟩
    cases hstep with
    | init => cases congrArg System.control hsame
    | attached => cases congrArg System.control hsame
    | call => cases congrArg System.control hsame
    | next => exact cons_ne_of_length (Control.sink.inj (congrArg System.control hsame)).2.1
    | @poll _ status byte now rest calls hstatus =>
      rw [hqueue] at hstatus
      have hready : (status &&& LINE_STATUS_TX_EMPTY != 0) = true := hstatus
      rw [if_pos hready] at hsame
      cases congrArg System.control hsame
    | store => cases congrArg System.control hsame
    | returned => exact h ⟨rfl, hqueue⟩
  · refine ⟨.device, fun s' hstep hsame => ?_⟩
    cases hstep with
    | transmit hbyte =>
      have := congrArg (fun s : System => s.uart.queue) hsame
      exact cons_ne_of_length (this.trans hbyte)
    | idle hempty => exact hqueue hempty

/-- No turn changes the final state. -/
theorem System.finished.stays {s s' : System} (h : s.finished) {a : Actor} (hstep : Step a s s') :
    s' = s := by
  obtain ⟨hreturned, hqueue⟩ := h
  obtain ⟨u, p⟩ := s
  obtain rfl : p = .sink [] [] [] := hreturned
  cases hstep with
  | transmit hbyte =>
    rw [show u.queue = [] from hqueue] at hbyte
    cases hbyte
  | idle => rfl
  | returned => rfl

/-- Neither is ever stuck. -/
theorem Step.total (a : Actor) (s : System) : ∃ s', Step a s s' := by
  obtain ⟨u, p⟩ := s
  cases a with
  | device =>
    obtain ⟨queue, hqueue⟩ : ∃ queue, u.queue = queue := ⟨_, rfl⟩
    cases queue with
    | nil => exact ⟨_, .idle hqueue⟩
    | cons byte queue => exact ⟨_, .transmit hqueue⟩
  | processor =>
    rcases p with ⟨_ | ⟨⟨port, value⟩, writes⟩, calls⟩ | ⟨_ | ⟨byte, now⟩, rest, calls⟩ | _
    · exact ⟨_, .attached⟩
    · exact ⟨_, .init⟩
    · rcases rest with _ | ⟨byte, rest⟩
      · rcases calls with _ | ⟨bytes, calls⟩
        · exact ⟨_, .returned⟩
        · exact ⟨_, .call⟩
      · exact ⟨_, .next⟩
    · -- The device sets the bit just when the queue is empty.
      refine ⟨_, @Step.poll u (if u.queue.isEmpty then LINE_STATUS_TX_EMPTY else 0) byte now rest
        calls ?_⟩
      by_cases hempty : u.queue.isEmpty = true
      · rw [if_pos hempty, hempty]
        decide
      · rw [if_neg hempty, Bool.not_eq_true _ |>.mp hempty]
        decide
    · exact ⟨_, .store⟩

theorem reach_run {s : System} (run : FairRun Step) (h0 : run.state 0 = s) (n : ℕ) :
    Reach s (run.state n) := by
  induction n with
  | zero => exact h0 ▸ .refl
  | succ n ih => exact ih.tail (run.step_turn n)

/-- In every run in which the device and the processor get their turns again and again, there is a
time from which on the line carries what it had carried before, and after it every byte of every
printed text with its line ends. -/
theorem serial_finishes {u : Uart} {calls : List (List UInt8)} (run : FairRun Step)
    (h0 : run.state 0 = start u calls) :
    ∃ m before, before.map Sent.byte <+: u.line.map Sent.byte ++ u.queue ∧
      ∀ n, m ≤ n → (run.state n).returned ∧
        (run.state n).uart.line = before ++ (crlf calls.flatten).map sent := by
  obtain ⟨m, -, hm⟩ := run.reaches Step.weight helps 0
  have hstays : ∀ n, m ≤ n → run.state n = run.state m := by
    intro n hn
    obtain ⟨k, rfl⟩ := Nat.exists_eq_add_of_le hn
    induction k with
    | zero => rfl
    | succ k ih =>
      have hsame := ih (Nat.le_add_right m k)
      exact ((hsame ▸ hm).stays (run.step_turn (m + k))).trans hsame
  rcases opening_or_wired (reach_run run h0 m) with ⟨done, writes, hopening⟩ |
    ⟨before, hbefore, hwired⟩
  · cases hm.1.symm.trans hopening.control
  · refine ⟨m, before, hbefore, fun n hn => ?_⟩
    rw [hstays n hn]
    refine ⟨hm.1, ?_⟩
    have hprinted := hwired.printed
    rw [hm.2, show (run.state m).control = .sink [] [] [] from hm.1] at hprinted
    exact (List.append_nil _).symm.trans hprinted

/-- The device and the processor may take their turns one after the other. -/
theorem serial_finishes_newline :
    ∃ run : FairRun Step, run.state 0 = start firmware [[LF]] ∧
      ∃ m before, before.map Sent.byte <+: firmware.line.map Sent.byte ++ firmware.queue ∧
        ∀ n, m ≤ n → (run.state n).returned ∧
          (run.state n).uart.line = before ++ (crlf [[LF]].flatten).map sent := by
  have hfair : ∀ (a : Actor) (n : ℕ),
      ∃ m, n ≤ m ∧ (if m % 2 = 0 then Actor.device else Actor.processor) = a := by
    intro a n
    cases a with
    | device => exact ⟨2 * n, by omega, if_pos (by omega)⟩
    | processor => exact ⟨2 * n + 1, by omega, if_neg (by omega)⟩
  obtain ⟨run, h0⟩ := FairRun.exists_of_total Step.total
    (fun n => if n % 2 = 0 then Actor.device else Actor.processor) hfair (start firmware [[LF]])
  exact ⟨run, h0, serial_finishes run h0⟩

end Serial

end DoomOs
