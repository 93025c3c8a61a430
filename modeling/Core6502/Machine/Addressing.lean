import Core6502.Machine.Basic

/-!
# Effective addresses

`Machine.resolve` (`CPU::resolve`) reads the operand bytes of an instruction, steps over them, and
leaves in the latches what the operation will need: the accumulator as operand in implied mode, the
sign-extended offset in relative mode, the effective address in every other mode. It returns whether
indexing carried the address into another page, which may cost a cycle.

Pointers in the zero page wrap within it.
-/

universe u

namespace Core6502.Machine

variable {β : Type u}

/-- Latch an effective address. -/
def locate (m : Machine β) (address : Word) : Machine β := { m with latches.address := address }

/-- Latch a base address plus an index, and say whether the sum is in another page. -/
def locateIndexed (m : Machine β) (base : Word) (index : Byte) : Bool × Machine β :=
  let address := base + index.toUInt16
  (Word.crossesPage base address, m.locate address)

/-- Where the high byte of an indirect jump's pointer lies. -/
def pointerHigh (options : Options) (pointer : Word) : Word :=
  if options.indirectPageWrap && Word.low pointer == 0xFF then
    Word.ofBytes 0 (Word.high pointer)
  else pointer + 1

variable [Bus β]

/-- Read the pointer at `pointer` in the zero page (`CPU::read_zero_page_word`). -/
def readZeroPageWord (m : Machine β) (pointer : Byte) : Word × Machine β :=
  m.readPair pointer.toUInt16 (pointer + 1).toUInt16

/-- Read the operand bytes and latch the operand, the offset or the address they name. Returns
whether indexing crossed a page. -/
def resolve (m : Machine β) : AddressingMode → Bool × Machine β
  | .implied => (false, { m with latches.operand := m.registers.a })
  | .immediate => (false, (m.locate m.registers.pc).jumpTo (m.registers.pc + 1))
  | .zeroPage =>
    let b := m.fetchByte
    (false, b.2.locate b.1.toUInt16)
  | .zeroPageX =>
    let b := m.fetchByte
    (false, b.2.locate (b.1 + m.registers.x).toUInt16)
  | .zeroPageY =>
    let b := m.fetchByte
    (false, b.2.locate (b.1 + m.registers.y).toUInt16)
  | .relative =>
    let b := m.fetchByte
    (false, { b.2 with latches.offset := Byte.signExtend b.1 })
  | .absolute =>
    let w := m.fetchWord
    (false, w.2.locate w.1)
  | .absoluteX =>
    let w := m.fetchWord
    w.2.locateIndexed w.1 m.registers.x
  | .absoluteY =>
    let w := m.fetchWord
    w.2.locateIndexed w.1 m.registers.y
  | .indirect =>
    let pointer := m.fetchWord
    let target := pointer.2.readPair pointer.1 (pointerHigh m.options pointer.1)
    (false, target.2.locate target.1)
  | .indirectX =>
    let b := m.fetchByte
    let address := b.2.readZeroPageWord (b.1 + m.registers.x)
    (false, address.2.locate address.1)
  | .indirectY =>
    let b := m.fetchByte
    let base := b.2.readZeroPageWord b.1
    base.2.locateIndexed base.1 m.registers.y

theorem opcode_resolve (m : Machine β) (mode : AddressingMode) :
    (m.resolve mode).2.latches.opcode = m.latches.opcode := by
  cases mode <;> rfl

end Core6502.Machine
