import Core6502.Hex
import Core6502.Opcode

/-!
# Events

What a machine reports about its own run: one event for every instruction it starts, one more when
the opcode is unassigned, one for every reset and one for every interrupt request, taken or masked.
These are the log messages of `CPU::clock`, `control::placeholder`, `CPU::reset`, `CPU::irq` and
`CPU::nmi`, with their levels and their texts. `Event.line` is the event as a line of a log.
-/

namespace Core6502

/-- How much a log line matters. -/
inductive Event.Level where
  | debug
  | trace
  deriving DecidableEq

/-- The name of a level as a log shows it. -/
def Event.Level.name : Event.Level → String
  | debug => "DEBUG"
  | trace => "TRACE"

/-- Something that happened to a machine. -/
inductive Event where
  /-- A reset that set the program counter to `pc`. -/
  | reset (pc : Word)
  /-- An interrupt request that the interrupt-disable flag held back at `pc`. -/
  | irqMasked (pc : Word)
  /-- An interrupt request taken at `pc`. -/
  | irqTaken (pc : Word)
  /-- A non-maskable interrupt taken at `pc`. -/
  | nmiTaken (pc : Word)
  /-- An instruction started at `address`. -/
  | started (address : Word) (opcode : Byte) (entry : Opcode)
  /-- The opcode at `address` is unassigned. -/
  | unassigned (opcode : Byte) (address : Word)
  deriving DecidableEq

namespace Event

/-- Resets and interrupts are rare and logged as debug lines; instructions are traced. -/
def level : Event → Level
  | reset _ | irqMasked _ | irqTaken _ | nmiTaken _ => .debug
  | started .. | unassigned .. => .trace

/-- The event in words. -/
def text : Event → String
  | reset pc => "reset: PC=$" ++ Hex.word pc
  | irqMasked pc => "irq masked at PC=$" ++ Hex.word pc
  | irqTaken pc => "irq taken at PC=$" ++ Hex.word pc
  | nmiTaken pc => "nmi taken at PC=$" ++ Hex.word pc
  | started address opcode entry =>
    "$" ++ Hex.word address ++ ": " ++ Hex.byte opcode ++ " " ++ entry.mnemonic
      ++ " \x7b" ++ entry.mode.tag ++ "\x7d " ++ toString entry.baseCycles ++ "cy"
  | unassigned opcode address =>
    "unassigned opcode $" ++ Hex.byte opcode ++ " at $" ++ Hex.word address

/-- The event as a log line: its level, then the event in words. -/
def line (event : Event) : String := event.level.name ++ " " ++ event.text

end Event

end Core6502
