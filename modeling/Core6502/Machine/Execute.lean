import Core6502.Arithmetic
import Core6502.Machine.Addressing

/-!
# Execution

`Machine.execute` (`instructions::execute`) performs an operation whose operand has been resolved.
The operations come in a few families, each with a function of its own: those that combine an
operand with the registers (`withOperand`, for `alu` and the loads of `load_store`), the shifts and
rotates (`shift`), the memory counters (`modify`), the stores, the branches, and the changes of
control that go through the stack. What `instructions::execute` returns is
`Operation.paysPageCross`.

An operation is not told the mode of its instruction: where it depends on it, `Machine.mode` looks
it up under the latched opcode. In implied mode the operand is the accumulator and a shifted result
goes back there; in every other mode both are at the effective address.
-/

universe u

namespace Core6502.Machine

variable {β : Type u}

/-- The addressing mode of the latched opcode. -/
def mode (m : Machine β) : AddressingMode := (Opcode.lookup m.latches.opcode).mode

/-- Branch by the latched offset if the condition holds (`branches::branch`): one cycle for the jump
and one more when it leaves the page of the next instruction. -/
def branch (m : Machine β) (condition : Bool) : Machine β :=
  if condition then
    let target := m.registers.pc + m.latches.offset
    let cycles := if Word.crossesPage m.registers.pc target then 2 else 1
    ((m.charge cycles).locate target).jumpTo target
  else m

variable [Bus β]

/-- Resolving leaves the opcode latched, so what is executed finds the mode that was resolved. -/
theorem mode_resolve (m : Machine β) (mode : AddressingMode) :
    (m.resolve mode).2.mode = m.mode :=
  congrArg (fun opcode => (Opcode.lookup opcode).mode) (m.opcode_resolve mode)

/-- The operand byte, latched (`CPU::fetch`). -/
def operand (m : Machine β) : Byte × Machine β :=
  if m.mode = .implied then (m.latches.operand, m)
  else
    let r := m.read m.latches.address
    (r.1, { r.2 with latches.operand := r.1 })

theorem mode_operand (m : Machine β) : m.operand.2.mode = m.mode := by
  unfold operand
  split <;> rfl

theorem address_operand (m : Machine β) :
    m.operand.2.latches.address = m.latches.address := by
  unfold operand
  split <;> rfl

/-- Put a result where the operand came from, and set zero and negative from it
(`shifts::write_back`). -/
def writeBack (m : Machine β) (result : Byte) : Machine β :=
  let m := if m.mode = .implied then { m with registers.a := result }
    else m.write m.latches.address result
  { m with registers.status := m.registers.status.withResult result }

/-- Combine the operand with the registers. -/
def withOperand (m : Machine β) (f : Registers → Byte → Registers) : Machine β :=
  let v := m.operand
  v.2.modifyRegisters fun r => f r v.1

/-- Shift the operand in place; the bit shifted out becomes the carry. -/
def shift (m : Machine β) (f : Byte → Bool → Byte × Bool) : Machine β :=
  let v := m.operand
  let s := f v.1 m.registers.status.carry
  { v.2 with registers.status.carry := s.2 }.writeBack s.1

/-- Write a byte at the effective address. -/
def store (m : Machine β) (value : Byte) : Machine β := m.write m.latches.address value

/-- Add `delta` to the operand, write the sum at the effective address, whatever the mode, and set
zero and negative from it (`inc_dec::modify_memory`). -/
def modify (m : Machine β) (delta : Byte) : Machine β :=
  let v := m.operand
  let result := v.1 + delta
  (v.2.store result).modifyRegisters fun r => { r with status := r.status.withResult result }

/-- Call the subroutine at the effective address (`control::jsr`). The address pushed is that of the
last byte of the calling instruction. -/
def callSubroutine (m : Machine β) : Machine β :=
  (m.pushWord (m.registers.pc - 1)).jumpTo m.latches.address

/-- Return past the address a call pushed (`control::rts`). -/
def returnFromSubroutine (m : Machine β) : Machine β :=
  let target := m.pullWord
  target.2.jumpTo (target.1 + 1)

/-- Pull the status, without its break flag, then the address to continue at (`control::rti`). -/
def returnFromInterrupt (m : Machine β) : Machine β :=
  let p := m.pull
  let m := { p.2 with registers.status := { Status.ofPulled p.1 with brk := false } }
  let target := m.pullWord
  target.2.jumpTo target.1

/-- Interrupt by software (`control::brk`): skip the byte after the opcode, disable interrupts, push
the address and the status with its break flag, and continue at the interrupt handler. -/
def forceInterrupt (m : Machine β) : Machine β :=
  let m := m.jumpTo (m.registers.pc + 1)
  let m := { m with registers.status.interruptDisable := true }
  let m := m.pushWord m.registers.pc
  let m := m.push m.registers.status.pushedByBreak
  let m := { m with registers.status.brk := false }
  let handler := m.readWord irqVector
  handler.2.jumpTo handler.1

/-- Pull the accumulator (`stack::pla`). -/
def pullAccumulator (m : Machine β) : Machine β :=
  let v := m.pull
  v.2.modifyRegisters fun r => r.loadA v.1

/-- Pull the status (`stack::plp`). -/
def pullStatus (m : Machine β) : Machine β :=
  let v := m.pull
  { v.2 with registers.status := Status.ofPulled v.1 }

/-- Perform an operation whose operand has been resolved. -/
def execute (m : Machine β) : Operation → Machine β
  -- Arithmetic, logic and loads
  | .adc => m.withOperand Registers.add
  | .sbc => m.withOperand Registers.subtract
  | .and => m.withOperand fun r v => r.loadA (r.a &&& v)
  | .ora => m.withOperand fun r v => r.loadA (r.a ||| v)
  | .eor => m.withOperand fun r v => r.loadA (r.a ^^^ v)
  | .cmp => m.withOperand fun r v => r.compare r.a v
  | .cpx => m.withOperand fun r v => r.compare r.x v
  | .cpy => m.withOperand fun r v => r.compare r.y v
  | .bit => m.withOperand Registers.testBits
  | .lda => m.withOperand Registers.loadA
  | .ldx => m.withOperand Registers.loadX
  | .ldy => m.withOperand Registers.loadY
  -- Stores
  | .sta => m.store m.registers.a
  | .stx => m.store m.registers.x
  | .sty => m.store m.registers.y
  -- Shifts and counters
  | .asl => m.shift fun v _ => shiftLeft v false
  | .lsr => m.shift fun v _ => shiftRight v false
  | .rol => m.shift shiftLeft
  | .ror => m.shift shiftRight
  | .inc => m.modify 1
  | .dec => m.modify 255
  | .inx => m.modifyRegisters fun r => r.loadX (r.x + 1)
  | .iny => m.modifyRegisters fun r => r.loadY (r.y + 1)
  | .dex => m.modifyRegisters fun r => r.loadX (r.x - 1)
  | .dey => m.modifyRegisters fun r => r.loadY (r.y - 1)
  -- Transfers
  | .tax => m.modifyRegisters fun r => r.loadX r.a
  | .tay => m.modifyRegisters fun r => r.loadY r.a
  | .txa => m.modifyRegisters fun r => r.loadA r.x
  | .tya => m.modifyRegisters fun r => r.loadA r.y
  | .tsx => m.modifyRegisters fun r => r.loadX r.sp
  | .txs => m.modifyRegisters fun r => { r with sp := r.x }
  -- Branches
  | .bcc => m.branch !m.registers.status.carry
  | .bcs => m.branch m.registers.status.carry
  | .bne => m.branch !m.registers.status.zero
  | .beq => m.branch m.registers.status.zero
  | .bpl => m.branch !m.registers.status.negative
  | .bmi => m.branch m.registers.status.negative
  | .bvc => m.branch !m.registers.status.overflow
  | .bvs => m.branch m.registers.status.overflow
  -- Jumps and returns
  | .jmp => m.jumpTo m.latches.address
  | .jsr => m.callSubroutine
  | .rts => m.returnFromSubroutine
  | .rti => m.returnFromInterrupt
  | .brk => m.forceInterrupt
  -- Stack
  | .pha => m.push m.registers.a
  | .php => m.push m.registers.status.pushedByBreak
  | .pla => m.pullAccumulator
  | .plp => m.pullStatus
  -- Flags
  | .clc => { m with registers.status.carry := false }
  | .sec => { m with registers.status.carry := true }
  | .cli => { m with registers.status.interruptDisable := false }
  | .sei => { m with registers.status.interruptDisable := true }
  | .cld => { m with registers.status.decimalMode := false }
  | .sed => { m with registers.status.decimalMode := true }
  | .clv => { m with registers.status.overflow := false }
  -- Nothing
  | .nop => m
  | .idle => m.record (.unassigned m.latches.opcode (m.registers.pc - 1))

end Core6502.Machine
