import Core6502.Machine.Basic

/-!
# Arithmetic and logic on registers

The effect of the arithmetic operations (`alu`) on the registers, given the operand byte. None of
them looks at the decimal-mode flag. Addition and subtraction share one set of flag formulas
(`alu::add_with_carry`): to subtract is to add the complement, so the carry is the absence of a
borrow.

The shifts (`shifts`) are functions of a byte and the bit shifted in; they return the byte and the
bit shifted out.
-/

namespace Core6502

/-- The sum of two bytes and a carry. Sixteen bits hold it exactly. -/
def wideSum (a b : Byte) (carry : Bool) : Word :=
  a.toUInt16 + b.toUInt16 + (if carry then 1 else 0)

/-- Shift left: bit 7 goes out and `carry` comes in at bit 0. -/
def shiftLeft (b : Byte) (carry : Bool) : Byte × Bool :=
  (2 * b + (if carry then 1 else 0), Byte.bit b 7)

/-- Shift right: bit 0 goes out and `carry` comes in at bit 7. -/
def shiftRight (b : Byte) (carry : Bool) : Byte × Bool :=
  (b / 2 + (if carry then 128 else 0), Byte.bit b 0)

namespace Registers

/-- Put a result into the accumulator. -/
def loadA (r : Registers) (v : Byte) : Registers :=
  { r with a := v, status := r.status.withResult v }

/-- Put a result into X. -/
def loadX (r : Registers) (v : Byte) : Registers :=
  { r with x := v, status := r.status.withResult v }

/-- Put a result into Y. -/
def loadY (r : Registers) (v : Byte) : Registers :=
  { r with y := v, status := r.status.withResult v }

/-- Add an operand and the carry to the accumulator (`alu::add_with_carry`). The carry is set when
the sum exceeds a byte, overflow when both summands have the sign that the result lacks. -/
def add (r : Registers) (v : Byte) : Registers :=
  let sum := wideSum r.a v r.status.carry
  let overflow := Byte.bit (~~~(r.a ^^^ v) &&& (r.a ^^^ Word.low sum)) 7
  loadA { r with status := { r.status with carry := 255 < sum, overflow } } (Word.low sum)

/-- Subtract an operand and the borrow from the accumulator (`alu::sbc`). -/
def subtract (r : Registers) (v : Byte) : Registers := r.add (~~~v)

/-- Compare a register's value with an operand (`alu::compare`): carry when it is not less, zero and
negative from the difference. -/
def compare (r : Registers) (value v : Byte) : Registers :=
  { r with status := { r.status with carry := v ≤ value }.withResult (value - v) }

/-- Test an operand (`alu::bit`): zero from its conjunction with the accumulator, negative and
overflow from its bits 7 and 6. -/
def testBits (r : Registers) (v : Byte) : Registers :=
  { r with
    status := { r.status with
      zero := r.a &&& v == 0
      negative := Byte.bit v 7
      overflow := Byte.bit v 6 } }

end Registers

end Core6502
