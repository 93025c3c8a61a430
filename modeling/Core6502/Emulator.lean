import Core6502.Machine.Command
import Core6502.Memory

/-!
# The emulator

An emulator is a machine with default options over memory of its own (`Emulator6502`), with a
surface fit for a host program: it loads programs, refuses interrupts in the middle of an
instruction, and counts in 32 bits. A program that does not fit changes nothing.

The calls are also given as data (`Emulator.Call`), so that a history of calls is a list.
-/

namespace Core6502

/-- A machine over memory of its own. -/
structure Emulator where
  machine : Machine Memory

namespace Emulator

/-- Why a call failed, in words (`JsError`). -/
structure Failure where
  message : String
  deriving DecidableEq

/-- An emulator over zeroed memory. -/
def new : Emulator := ⟨Machine.powerOn Memory.zero {}⟩

instance : Inhabited Emulator := ⟨new⟩

/-- Replace the memory by a function of it. -/
def modifyMemory (e : Emulator) (f : Memory → Memory) : Emulator :=
  ⟨{ e.machine with bus := f e.machine.bus }⟩

/-- Reset the machine. -/
def reset (e : Emulator) : Emulator := ⟨e.machine.reset⟩

/-- Load a program, point the reset vector at its start and reset
(`Emulator6502::load_program`). -/
def loadProgram (e : Emulator) (start : Word) (program : List Byte) :
    Except Failure Unit × Emulator :=
  let loaded := e.machine.bus.load start program
  let e := e.modifyMemory fun _ => loaded.2
  match loaded.1 with
  | .error overflow => (.error ⟨overflow.message⟩, e)
  | .ok () => (.ok (), (e.modifyMemory fun memory => memory.setVector resetVector start).reset)

/-- Point the vector of interrupt requests and BRK at an address. -/
def setIrqVector (e : Emulator) (target : Word) : Emulator :=
  e.modifyMemory fun memory => memory.setVector irqVector target

/-- Advance by one clock cycle. -/
def clock (e : Emulator) : Emulator := ⟨e.machine.clock⟩

/-- Run one instruction and return its cycles. -/
def step (e : Emulator) : UInt32 × Emulator :=
  let r := e.machine.step
  (UInt32.ofNat r.1, ⟨r.2⟩)

/-- Make a number of clocks and return how many of them ended at an instruction boundary
(`Emulator6502::run_for_cycles`). -/
def run (e : Emulator) (cycles : UInt32) : UInt32 × Emulator :=
  let r := e.machine.run cycles.toNat
  (UInt32.ofNat r.1, ⟨r.2⟩)

/-- Request an interrupt. Refused, with no effect, in the middle of an instruction. -/
def irq (e : Emulator) : Bool × Emulator :=
  if e.machine.complete then (true, ⟨e.machine.irq⟩) else (false, e)

/-- Interrupt without asking. Refused, with no effect, in the middle of an instruction. -/
def nmi (e : Emulator) : Bool × Emulator :=
  if e.machine.complete then (true, ⟨e.machine.nmi⟩) else (false, e)

/-- The byte at an address. -/
def readMemory (e : Emulator) (address : Word) : Byte := (Bus.peek e.machine.bus address).1

/-- Write a byte to memory. -/
def writeMemory (e : Emulator) (address : Word) (value : Byte) : Emulator :=
  ⟨e.machine.write address value⟩

/-- The 256 bytes of a page (`Emulator6502::get_memory_page`). -/
def memoryPage (e : Emulator) (number : Byte) : List Byte := e.machine.bus.page number

/-! ## Calls as data -/

/-- A call that may change the emulator. -/
inductive Call where
  | loadProgram (start : Word) (program : List Byte)
  | setIrqVector (target : Word)
  | clock
  | step
  | run (cycles : UInt32)
  | reset
  | irq
  | nmi
  | writeMemory (address : Word) (value : Byte)
  deriving DecidableEq

/-- What a call returns. -/
inductive Reply where
  | done
  | count (n : UInt32)
  | accepted (yes : Bool)
  | failed (failure : Failure)
  deriving DecidableEq

/-- The reply of a call that may fail. -/
def Reply.ofResult : Except Failure Unit → Reply
  | .ok () => .done
  | .error failure => .failed failure

/-- Make a call. -/
def call (e : Emulator) : Call → Reply × Emulator
  | .loadProgram start program =>
    let r := e.loadProgram start program
    (.ofResult r.1, r.2)
  | .setIrqVector target => (.done, e.setIrqVector target)
  | .clock => (.done, e.clock)
  | .step =>
    let r := e.step
    (.count r.1, r.2)
  | .run cycles =>
    let r := e.run cycles
    (.count r.1, r.2)
  | .reset => (.done, e.reset)
  | .irq =>
    let r := e.irq
    (.accepted r.1, r.2)
  | .nmi =>
    let r := e.nmi
    (.accepted r.1, r.2)
  | .writeMemory address value => (.done, e.writeMemory address value)

end Emulator

end Core6502
