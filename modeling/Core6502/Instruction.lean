import Core6502.Bus
import Core6502.Hex
import Core6502.Opcode

/-!
# Decoded instructions

An `Instruction` is one instruction as a listing shows it (`disassembler::Instruction`).
`Instruction.decode` (`decoder::decode_instruction`) reads it from a bus by peeks alone: every byte
decodes, and operand bytes past the top address are taken from the bottom. `Instruction.text`
(`formatter::format_instruction`) writes it as a line:

    $8000: LDA #$42 {IMM}

that is the address, the mnemonic, the operand if the mode has one, and the tag of the mode. A
relative operand is shown as its byte and the address it leads to.
-/

universe u

namespace Core6502

/-- One instruction as a listing shows it. -/
structure Instruction where
  address : Word
  opcode : Byte
  mnemonic : String
  mode : AddressingMode
  /-- The bytes after the opcode. -/
  operand : List Byte
  /-- The length in bytes, opcode included. -/
  size : Nat
  baseCycles : Nat
  deriving DecidableEq

namespace Instruction

/-! ## Decoding -/

section Decode

variable {β : Type u} [Bus β]

/-- Peek at `count` bytes from `address` upwards, wrapping past the top. -/
def peekBytes (bus : β) (address : Word) : Nat → List Byte × β
  | 0 => ([], bus)
  | count + 1 =>
    let first := Bus.peek bus address
    let rest := peekBytes first.2 (address + 1) count
    (first.1 :: rest.1, rest.2)

/-- Decode the instruction at an address. -/
def decode (bus : β) (address : Word) : Instruction × β :=
  let opcode := Bus.peek bus address
  let entry := Opcode.lookup opcode.1
  let operand := peekBytes opcode.2 (address + 1) entry.mode.operandLength
  ({ address
     opcode := opcode.1
     mnemonic := entry.mnemonic
     mode := entry.mode
     operand := operand.1
     size := entry.size
     baseCycles := entry.baseCycles }, operand.2)

/-- An instruction has at least its opcode. -/
theorem size_decode_pos (bus : β) (address : Word) : 0 < (decode bus address).1.size :=
  Nat.lt_of_lt_of_le Nat.zero_lt_one (Nat.le_add_right 1 _)

end Decode

/-! ## Writing -/

/-- The operand as a byte: its first byte, or zero. -/
def operandByte (i : Instruction) : Byte := i.operand.headD 0

/-- The operand as a word: its first two bytes, low byte first, or the one byte there is. -/
def operandWord (i : Instruction) : Word :=
  match i.operand with
  | lo :: hi :: _ => Word.ofBytes lo hi
  | _ => i.operandByte.toUInt16

/-- Where the operand leads as a branch offset, counted from the next instruction. -/
def branchTarget (i : Instruction) : Word :=
  i.address + UInt16.ofNat i.size + Byte.signExtend i.operandByte

/-- The operand in assembly notation, nothing in implied mode (`formatter::format_operand`). -/
def operandText (i : Instruction) : String :=
  match i.mode with
  | .implied => ""
  | .immediate => "#$" ++ Hex.byte i.operandByte
  | .zeroPage => "$" ++ Hex.byte i.operandByte
  | .zeroPageX => "$" ++ Hex.byte i.operandByte ++ ", X"
  | .zeroPageY => "$" ++ Hex.byte i.operandByte ++ ", Y"
  | .relative => "$" ++ Hex.byte i.operandByte ++ " [$" ++ Hex.word i.branchTarget ++ "]"
  | .absolute => "$" ++ Hex.word i.operandWord
  | .absoluteX => "$" ++ Hex.word i.operandWord ++ ", X"
  | .absoluteY => "$" ++ Hex.word i.operandWord ++ ", Y"
  | .indirect => "($" ++ Hex.word i.operandWord ++ ")"
  | .indirectX => "($" ++ Hex.byte i.operandByte ++ ", X)"
  | .indirectY => "($" ++ Hex.byte i.operandByte ++ "), Y"

/-- The instruction as a line of a listing. -/
def text (i : Instruction) : String :=
  let operand := if i.mode = .implied then "" else " " ++ i.operandText
  "$" ++ Hex.word i.address ++ ": " ++ i.mnemonic ++ operand ++ " \x7b" ++ i.mode.tag ++ "\x7d"

end Instruction

end Core6502
