/-!
# Addressing modes

The twelve ways in which an instruction names its operand (`addressing::AddressingMode`), with the
number of operand bytes that follow the opcode (`AddressingMode::operand_len`) and the tag by which
a listing shows the mode (`AddressingMode::tag`).
-/

namespace Core6502

/-- How an instruction names its operand. The accumulator forms of the shifts are `implied`. -/
inductive AddressingMode where
  | implied
  | immediate
  | zeroPage
  | zeroPageX
  | zeroPageY
  | relative
  | absolute
  | absoluteX
  | absoluteY
  | indirect
  | indirectX
  | indirectY
  deriving DecidableEq

namespace AddressingMode

/-- The number of operand bytes after the opcode. -/
def operandLength : AddressingMode → Nat
  | implied => 0
  | immediate | zeroPage | zeroPageX | zeroPageY | relative | indirectX | indirectY => 1
  | absolute | absoluteX | absoluteY | indirect => 2

/-- The three-character tag of the mode. -/
def tag : AddressingMode → String
  | implied => "IMP"
  | immediate => "IMM"
  | zeroPage => "ZP0"
  | zeroPageX => "ZPX"
  | zeroPageY => "ZPY"
  | relative => "REL"
  | absolute => "ABS"
  | absoluteX => "ABX"
  | absoluteY => "ABY"
  | indirect => "IND"
  | indirectX => "IZX"
  | indirectY => "IZY"

end AddressingMode

end Core6502
