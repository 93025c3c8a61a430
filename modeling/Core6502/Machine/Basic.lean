import Core6502.Bus
import Core6502.Event
import Core6502.Status

/-!
# The machine

A machine is a processor on a bus (`cpu::CPU`): the registers a program sees, the latches that carry
one instruction from decoding to execution, the cycles still owed for the instruction in flight, the
clocks so far, the options it was built with, the bus, and the journal of events.

A machine that owes nothing is at an instruction boundary (`CPU::complete`). The functions of the
stack are those of `CPU`, and so are `fetchByte` and `fetchWord` (`CPU::fetch_operand_byte`,
`CPU::fetch_operand_word`).
-/

universe u

namespace Core6502

/-! ## Fixed addresses -/

/-- Where the stack page begins. -/
def stackBase : Word := 0x0100

/-- Where the program counter is loaded from on reset. -/
def resetVector : Word := 0xFFFC

/-- Where interrupt requests and BRK find their handler. -/
def irqVector : Word := 0xFFFE

/-- Where NMOS processors find the handler of a non-maskable interrupt. -/
def nmosNmiVector : Word := 0xFFFA

/-! ## The state -/

/-- The registers. The stack pointer is an offset into the stack page. -/
structure Registers where
  a : Byte
  x : Byte
  y : Byte
  sp : Byte
  pc : Word
  status : Status
  deriving DecidableEq

/-- What decoding leaves for execution. Each addressing mode sets the latch its operations use and
leaves the others as they were. -/
structure Latches where
  /-- The operand byte (`fetched`): the accumulator in implied mode, else the byte last read as an
  operand. -/
  operand : Byte
  /-- The effective address (`addr_abs`). -/
  address : Word
  /-- The branch offset, sign-extended (`addr_rel`). -/
  offset : Word
  /-- The opcode. -/
  opcode : Byte
  deriving DecidableEq

/-- The latches after a reset. -/
def Latches.clear : Latches := ⟨0, 0, 0, 0⟩

/-- How a machine is built (`CpuOptions`). -/
structure Options where
  /-- Where a non-maskable interrupt finds its handler. -/
  nmiVector : Word := irqVector
  /-- Whether an indirect jump through a pointer at the end of a page takes its high byte from the
  start of that page, as NMOS processors do. -/
  indirectPageWrap : Bool := true
  deriving DecidableEq

/-- The options of an NMOS processor (`CpuOptions::nmos`): a vector of its own for the non-maskable
interrupt. -/
def Options.nmos : Options := { nmiVector := nmosNmiVector, indirectPageWrap := true }

/-- A processor on a bus. -/
structure Machine (β : Type u) where
  registers : Registers
  latches : Latches
  /-- The cycles still owed for what is in flight (`cycles`); zero at an instruction boundary. -/
  owed : Nat
  /-- The clock cycles since construction (`clock_count`). -/
  clocks : Nat
  options : Options
  bus : β
  /-- The events so far, the latest first. -/
  journal : List Event

namespace Machine

variable {β : Type u}

/-- Whether the machine is at an instruction boundary. -/
def complete (m : Machine β) : Bool := m.owed == 0

/-- The events so far, in order. -/
def events (m : Machine β) : List Event := m.journal.reverse

/-- Note an event. -/
def record (m : Machine β) (event : Event) : Machine β :=
  { m with journal := event :: m.journal }

/-- Replace the registers by a function of them. -/
def modifyRegisters (m : Machine β) (f : Registers → Registers) : Machine β :=
  { m with registers := f m.registers }

/-- Set the program counter. -/
def jumpTo (m : Machine β) (target : Word) : Machine β := { m with registers.pc := target }

/-- Set or clear the flags of a mask (`CPU::set_flag`). -/
def setFlags (m : Machine β) (mask : Status) (on : Bool) : Machine β :=
  { m with registers.status := m.registers.status.set mask on }

/-- Owe `n` more cycles. -/
def charge (m : Machine β) (n : Nat) : Machine β := { m with owed := m.owed + n }

/-! ## Bus cycles -/

variable [Bus β]

/-- Read a byte. -/
def read (m : Machine β) (address : Word) : Byte × Machine β :=
  let r := Bus.read m.bus address
  (r.1, { m with bus := r.2 })

/-- Read a word whose bytes lie at two given addresses, low byte first. -/
def readPair (m : Machine β) (lowAt highAt : Word) : Word × Machine β :=
  let lo := m.read lowAt
  let hi := lo.2.read highAt
  (Word.ofBytes lo.1 hi.1, hi.2)

/-- Read the word at an address; the second address wraps. -/
def readWord (m : Machine β) (address : Word) : Word × Machine β :=
  m.readPair address (address + 1)

/-- Write a byte. -/
def write (m : Machine β) (address : Word) (value : Byte) : Machine β :=
  { m with bus := Bus.write m.bus address value }

/-- Read the byte at the program counter and step over it. -/
def fetchByte (m : Machine β) : Byte × Machine β :=
  let r := m.read m.registers.pc
  (r.1, r.2.jumpTo (m.registers.pc + 1))

/-- Read the word at the program counter and step over it. -/
def fetchWord (m : Machine β) : Word × Machine β :=
  let lo := m.fetchByte
  let hi := lo.2.fetchByte
  (Word.ofBytes lo.1 hi.1, hi.2)

/-! ## The stack -/

/-- Write a byte where the stack pointer points, then move the pointer down. -/
def push (m : Machine β) (value : Byte) : Machine β :=
  let m := m.write (stackBase + m.registers.sp.toUInt16) value
  { m with registers.sp := m.registers.sp - 1 }

/-- Move the stack pointer up, then read where it points. -/
def pull (m : Machine β) : Byte × Machine β :=
  let sp := m.registers.sp + 1
  let m := { m with registers.sp := sp }
  m.read (stackBase + sp.toUInt16)

/-- Push a word, high byte first. -/
def pushWord (m : Machine β) (value : Word) : Machine β :=
  (m.push (Word.high value)).push (Word.low value)

/-- Pull a word, low byte first. -/
def pullWord (m : Machine β) : Word × Machine β :=
  let lo := m.pull
  let hi := lo.2.pull
  (Word.ofBytes lo.1 hi.1, hi.2)

end Machine

end Core6502
