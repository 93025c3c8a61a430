import Core6502.Word

/-!
# Operations

What an instruction does, apart from how it names its operand (`opcodes::Operation`).
`Operation.idle` is `Operation::Xxx`, which stands for every unassigned opcode: it does nothing and
takes its cycles.

`Operation.paysPageCross` is what `instructions::execute` returns, the request of an operation for
a further cycle. Of all operations only the no-operation looks at the opcode for that.
-/

namespace Core6502

/-- The operations, each named by its assembly mnemonic. -/
inductive Operation where
  | adc | and | asl | bcc | bcs | beq | bit | bmi | bne | bpl | brk | bvc | bvs | clc | cld | cli
  | clv | cmp | cpx | cpy | dec | dex | dey | eor | inc | inx | iny | jmp | jsr | lda | ldx | ldy
  | lsr | nop | ora | pha | php | pla | plp | rol | ror | rti | rts | sbc | sec | sed | sei | sta
  | stx | sty | tax | tay | tsx | txa | txs | tya
  /-- An unassigned opcode: no effect beyond its cycles. -/
  | idle
  deriving DecidableEq

namespace Operation

/-- The opcodes under which the no-operation pays for a page cross as a read does
(`control::nop`). -/
def payingNops : List Byte := [0x1C, 0x3C, 0x5C, 0x7C, 0xDC, 0xFC]

/-- Whether the operation, latched under `opcode`, pays a cycle when its addressing mode crosses a
page. Those that combine the operand with the registers always do, except for the three that never
come with an index. Stores and read-modify-write operations have that cycle in their base cost. -/
def paysPageCross (opcode : Byte) : Operation → Bool
  | adc | sbc | and | ora | eor | cmp | lda | ldx | ldy => true
  | nop => payingNops.contains opcode
  | _ => false

end Operation

end Core6502
