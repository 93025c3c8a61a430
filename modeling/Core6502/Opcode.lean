import Core6502.AddressingMode
import Core6502.Operation
import Core6502.Word

/-!
# The opcode table

Every byte is an opcode: its table entry says how a listing calls it, what it does, how it names its
operand and how many cycles it takes at least. Both the processor and the listing decode through
`Opcode.lookup`, so they cannot disagree about an entry. The entries are those of
`opcodes::OPCODE_TABLE`, row for row.

The table holds the documented instructions, the undocumented no-operations with the operand bytes
they skip, the second immediate SBC at $EB, and an idle entry with the cycles it burns for every
other byte.
-/

namespace Core6502

/-- What one opcode byte stands for (`OpcodeMetadata`). -/
structure Opcode where
  /-- The assembly mnemonic, three question marks if the byte is unassigned. -/
  mnemonic : String
  /-- What the instruction does. -/
  operation : Operation
  /-- How it names its operand. -/
  mode : AddressingMode
  /-- Its cycles before any page-cross or branch cycle. -/
  baseCycles : Nat
  deriving DecidableEq

namespace Opcode

/-- The length of the instruction in bytes, opcode included (`OpcodeMetadata::size_bytes`). -/
def size (entry : Opcode) : Nat := 1 + entry.mode.operandLength

/-- Whether the byte is unassigned (`OpcodeMetadata::is_placeholder`). -/
def isPlaceholder (entry : Opcode) : Bool := entry.operation == .idle

/-- An assigned entry. -/
def op (mnemonic : String) (operation : Operation) (mode : AddressingMode) (baseCycles : Nat) :
    Opcode :=
  ⟨mnemonic, operation, mode, baseCycles⟩

/-- An unassigned entry (`opcodes::xxx`), a single byte. -/
def idle (baseCycles : Nat) : Opcode := op "???" .idle .implied baseCycles

/-! ## The sixteen rows, by high digit; the columns go by low digit -/

/-- Opcodes $00 to $0F. -/
def row0 : Vector Opcode 16 :=
  #v[op "BRK" .brk .implied 7, op "ORA" .ora .indirectX 6, idle 2, idle 8,
     op "NOP" .nop .zeroPage 3, op "ORA" .ora .zeroPage 3, op "ASL" .asl .zeroPage 5, idle 5,
     op "PHP" .php .implied 3, op "ORA" .ora .immediate 2, op "ASL" .asl .implied 2, idle 2,
     op "NOP" .nop .absolute 4, op "ORA" .ora .absolute 4, op "ASL" .asl .absolute 6, idle 6]

/-- Opcodes $10 to $1F. -/
def row1 : Vector Opcode 16 :=
  #v[op "BPL" .bpl .relative 2, op "ORA" .ora .indirectY 5, idle 2, idle 8,
     op "NOP" .nop .zeroPageX 4, op "ORA" .ora .zeroPageX 4, op "ASL" .asl .zeroPageX 6, idle 6,
     op "CLC" .clc .implied 2, op "ORA" .ora .absoluteY 4, op "NOP" .nop .implied 2, idle 7,
     op "NOP" .nop .absoluteX 4, op "ORA" .ora .absoluteX 4, op "ASL" .asl .absoluteX 7, idle 7]

/-- Opcodes $20 to $2F. -/
def row2 : Vector Opcode 16 :=
  #v[op "JSR" .jsr .absolute 6, op "AND" .and .indirectX 6, idle 2, idle 8,
     op "BIT" .bit .zeroPage 3, op "AND" .and .zeroPage 3, op "ROL" .rol .zeroPage 5, idle 5,
     op "PLP" .plp .implied 4, op "AND" .and .immediate 2, op "ROL" .rol .implied 2, idle 2,
     op "BIT" .bit .absolute 4, op "AND" .and .absolute 4, op "ROL" .rol .absolute 6, idle 6]

/-- Opcodes $30 to $3F. -/
def row3 : Vector Opcode 16 :=
  #v[op "BMI" .bmi .relative 2, op "AND" .and .indirectY 5, idle 2, idle 8,
     op "NOP" .nop .zeroPageX 4, op "AND" .and .zeroPageX 4, op "ROL" .rol .zeroPageX 6, idle 6,
     op "SEC" .sec .implied 2, op "AND" .and .absoluteY 4, op "NOP" .nop .implied 2, idle 7,
     op "NOP" .nop .absoluteX 4, op "AND" .and .absoluteX 4, op "ROL" .rol .absoluteX 7, idle 7]

/-- Opcodes $40 to $4F. -/
def row4 : Vector Opcode 16 :=
  #v[op "RTI" .rti .implied 6, op "EOR" .eor .indirectX 6, idle 2, idle 8,
     op "NOP" .nop .zeroPage 3, op "EOR" .eor .zeroPage 3, op "LSR" .lsr .zeroPage 5, idle 5,
     op "PHA" .pha .implied 3, op "EOR" .eor .immediate 2, op "LSR" .lsr .implied 2, idle 2,
     op "JMP" .jmp .absolute 3, op "EOR" .eor .absolute 4, op "LSR" .lsr .absolute 6, idle 6]

/-- Opcodes $50 to $5F. -/
def row5 : Vector Opcode 16 :=
  #v[op "BVC" .bvc .relative 2, op "EOR" .eor .indirectY 5, idle 2, idle 8,
     op "NOP" .nop .zeroPageX 4, op "EOR" .eor .zeroPageX 4, op "LSR" .lsr .zeroPageX 6, idle 6,
     op "CLI" .cli .implied 2, op "EOR" .eor .absoluteY 4, op "NOP" .nop .implied 2, idle 7,
     op "NOP" .nop .absoluteX 4, op "EOR" .eor .absoluteX 4, op "LSR" .lsr .absoluteX 7, idle 7]

/-- Opcodes $60 to $6F. -/
def row6 : Vector Opcode 16 :=
  #v[op "RTS" .rts .implied 6, op "ADC" .adc .indirectX 6, idle 2, idle 8,
     op "NOP" .nop .zeroPage 3, op "ADC" .adc .zeroPage 3, op "ROR" .ror .zeroPage 5, idle 5,
     op "PLA" .pla .implied 4, op "ADC" .adc .immediate 2, op "ROR" .ror .implied 2, idle 2,
     op "JMP" .jmp .indirect 5, op "ADC" .adc .absolute 4, op "ROR" .ror .absolute 6, idle 6]

/-- Opcodes $70 to $7F. -/
def row7 : Vector Opcode 16 :=
  #v[op "BVS" .bvs .relative 2, op "ADC" .adc .indirectY 5, idle 2, idle 8,
     op "NOP" .nop .zeroPageX 4, op "ADC" .adc .zeroPageX 4, op "ROR" .ror .zeroPageX 6, idle 6,
     op "SEI" .sei .implied 2, op "ADC" .adc .absoluteY 4, op "NOP" .nop .implied 2, idle 7,
     op "NOP" .nop .absoluteX 4, op "ADC" .adc .absoluteX 4, op "ROR" .ror .absoluteX 7, idle 7]

/-- Opcodes $80 to $8F. -/
def row8 : Vector Opcode 16 :=
  #v[op "NOP" .nop .immediate 2, op "STA" .sta .indirectX 6, op "NOP" .nop .immediate 2, idle 6,
     op "STY" .sty .zeroPage 3, op "STA" .sta .zeroPage 3, op "STX" .stx .zeroPage 3, idle 3,
     op "DEY" .dey .implied 2, op "NOP" .nop .immediate 2, op "TXA" .txa .implied 2, idle 2,
     op "STY" .sty .absolute 4, op "STA" .sta .absolute 4, op "STX" .stx .absolute 4, idle 4]

/-- Opcodes $90 to $9F. -/
def row9 : Vector Opcode 16 :=
  #v[op "BCC" .bcc .relative 2, op "STA" .sta .indirectY 6, idle 2, idle 6,
     op "STY" .sty .zeroPageX 4, op "STA" .sta .zeroPageX 4, op "STX" .stx .zeroPageY 4, idle 4,
     op "TYA" .tya .implied 2, op "STA" .sta .absoluteY 5, op "TXS" .txs .implied 2, idle 5, idle 5,
     op "STA" .sta .absoluteX 5, idle 5, idle 5]

/-- Opcodes $A0 to $AF. -/
def rowA : Vector Opcode 16 :=
  #v[op "LDY" .ldy .immediate 2, op "LDA" .lda .indirectX 6, op "LDX" .ldx .immediate 2, idle 6,
     op "LDY" .ldy .zeroPage 3, op "LDA" .lda .zeroPage 3, op "LDX" .ldx .zeroPage 3, idle 3,
     op "TAY" .tay .implied 2, op "LDA" .lda .immediate 2, op "TAX" .tax .implied 2, idle 2,
     op "LDY" .ldy .absolute 4, op "LDA" .lda .absolute 4, op "LDX" .ldx .absolute 4, idle 4]

/-- Opcodes $B0 to $BF. -/
def rowB : Vector Opcode 16 :=
  #v[op "BCS" .bcs .relative 2, op "LDA" .lda .indirectY 5, idle 2, idle 5,
     op "LDY" .ldy .zeroPageX 4, op "LDA" .lda .zeroPageX 4, op "LDX" .ldx .zeroPageY 4, idle 4,
     op "CLV" .clv .implied 2, op "LDA" .lda .absoluteY 4, op "TSX" .tsx .implied 2, idle 4,
     op "LDY" .ldy .absoluteX 4, op "LDA" .lda .absoluteX 4, op "LDX" .ldx .absoluteY 4, idle 4]

/-- Opcodes $C0 to $CF. -/
def rowC : Vector Opcode 16 :=
  #v[op "CPY" .cpy .immediate 2, op "CMP" .cmp .indirectX 6, op "NOP" .nop .immediate 2, idle 8,
     op "CPY" .cpy .zeroPage 3, op "CMP" .cmp .zeroPage 3, op "DEC" .dec .zeroPage 5, idle 5,
     op "INY" .iny .implied 2, op "CMP" .cmp .immediate 2, op "DEX" .dex .implied 2, idle 2,
     op "CPY" .cpy .absolute 4, op "CMP" .cmp .absolute 4, op "DEC" .dec .absolute 6, idle 6]

/-- Opcodes $D0 to $DF. -/
def rowD : Vector Opcode 16 :=
  #v[op "BNE" .bne .relative 2, op "CMP" .cmp .indirectY 5, idle 2, idle 8,
     op "NOP" .nop .zeroPageX 4, op "CMP" .cmp .zeroPageX 4, op "DEC" .dec .zeroPageX 6, idle 6,
     op "CLD" .cld .implied 2, op "CMP" .cmp .absoluteY 4, op "NOP" .nop .implied 2, idle 7,
     op "NOP" .nop .absoluteX 4, op "CMP" .cmp .absoluteX 4, op "DEC" .dec .absoluteX 7, idle 7]

/-- Opcodes $E0 to $EF. -/
def rowE : Vector Opcode 16 :=
  #v[op "CPX" .cpx .immediate 2, op "SBC" .sbc .indirectX 6, op "NOP" .nop .immediate 2, idle 8,
     op "CPX" .cpx .zeroPage 3, op "SBC" .sbc .zeroPage 3, op "INC" .inc .zeroPage 5, idle 5,
     op "INX" .inx .implied 2, op "SBC" .sbc .immediate 2, op "NOP" .nop .implied 2,
     op "SBC" .sbc .immediate 2, op "CPX" .cpx .absolute 4, op "SBC" .sbc .absolute 4,
     op "INC" .inc .absolute 6, idle 6]

/-- Opcodes $F0 to $FF. -/
def rowF : Vector Opcode 16 :=
  #v[op "BEQ" .beq .relative 2, op "SBC" .sbc .indirectY 5, idle 2, idle 8,
     op "NOP" .nop .zeroPageX 4, op "SBC" .sbc .zeroPageX 4, op "INC" .inc .zeroPageX 6, idle 6,
     op "SED" .sed .implied 2, op "SBC" .sbc .absoluteY 4, op "NOP" .nop .implied 2, idle 7,
     op "NOP" .nop .absoluteX 4, op "SBC" .sbc .absoluteX 4, op "INC" .inc .absoluteX 7, idle 7]

/-- The whole table, row by row. -/
def table : Vector (Vector Opcode 16) 16 :=
  #v[row0, row1, row2, row3, row4, row5, row6, row7, row8, row9, rowA, rowB, rowC, rowD, rowE, rowF]

/-- The table entry of an opcode byte (`opcodes::lookup`). -/
def lookup (opcode : Byte) : Opcode :=
  have h := opcode.toNat_lt
  table[opcode.toNat / 16][opcode.toNat % 16]

end Opcode

end Core6502
