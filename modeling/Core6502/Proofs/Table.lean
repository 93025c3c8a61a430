import Core6502.Opcode

/-!
# What the opcode table promises

The table is data, so each statement about it is checked entry by entry.

* `two_le_baseCycles`, `baseCycles_le_eight`: every opcode takes between two and eight base cycles,
  and `baseCycles_of_isBranch`, `baseCycles_le_seven`: those that may take more have room for it.
* `admits_lookup`: every opcode pairs its operation with a mode that leaves what the operation
  uses: a branch comes with an offset, a store or a jump with an address, an operation on an
  operand with an address or the accumulator, and an operation without operand in implied mode.
* `ne_relative_of_admits`, `eq_relative_of_admits`, `ne_implied_of_admits`: what that says about
  the mode of an operation.
* `mnemonic_lookup`: the table has each operation under one mnemonic.
* `isBranch_of_paysPageCross`: no branch pays for the page cross of an index.
* `mem_payingNops_iff`: the opcodes that `control::nop` lists are the no-operations whose mode adds
  an index to a word.
* `eq_of_mode_indirect`: only $6C is an indirect jump.
-/

namespace Core6502

/-- A property of all bytes can be checked by counting. -/
theorem Byte.forall_of_fin {P : Byte → Prop} (h : ∀ n : Fin 256, P (UInt8.ofNat n.val)) (b : Byte) :
    P b := by
  have hb := h ⟨b.toNat, b.toNat_lt⟩
  rwa [UInt8.ofNat_toNat] at hb

namespace Operation

/-- The mnemonic under which the table has the operation. -/
def mnemonic : Operation → String
  | adc => "ADC"
  | and => "AND"
  | asl => "ASL"
  | bcc => "BCC"
  | bcs => "BCS"
  | beq => "BEQ"
  | bit => "BIT"
  | bmi => "BMI"
  | bne => "BNE"
  | bpl => "BPL"
  | brk => "BRK"
  | bvc => "BVC"
  | bvs => "BVS"
  | clc => "CLC"
  | cld => "CLD"
  | cli => "CLI"
  | clv => "CLV"
  | cmp => "CMP"
  | cpx => "CPX"
  | cpy => "CPY"
  | dec => "DEC"
  | dex => "DEX"
  | dey => "DEY"
  | eor => "EOR"
  | inc => "INC"
  | inx => "INX"
  | iny => "INY"
  | jmp => "JMP"
  | jsr => "JSR"
  | lda => "LDA"
  | ldx => "LDX"
  | ldy => "LDY"
  | lsr => "LSR"
  | nop => "NOP"
  | ora => "ORA"
  | pha => "PHA"
  | php => "PHP"
  | pla => "PLA"
  | plp => "PLP"
  | rol => "ROL"
  | ror => "ROR"
  | rti => "RTI"
  | rts => "RTS"
  | sbc => "SBC"
  | sec => "SEC"
  | sed => "SED"
  | sei => "SEI"
  | sta => "STA"
  | stx => "STX"
  | sty => "STY"
  | tax => "TAX"
  | tay => "TAY"
  | tsx => "TSX"
  | txa => "TXA"
  | txs => "TXS"
  | tya => "TYA"
  | idle => "???"

/-- The operations that branch by an offset. -/
def isBranch : Operation → Bool
  | bcc | bcs | beq | bmi | bne | bpl | bvc | bvs => true
  | _ => false

/-- The operations that combine an operand byte with the registers. -/
def readsOperand : Operation → Bool
  | adc | and | bit | cmp | cpx | cpy | eor | lda | ldx | ldy | ora | sbc => true
  | _ => false

/-- The operations that replace their operand byte: those on memory only, and the shifts, which
also come in an accumulator form. -/
def modifiesOperand : Operation → Bool
  | asl | dec | inc | lsr | rol | ror => true
  | _ => false

/-- The shifts and rotates. -/
def isShift : Operation → Bool
  | asl | lsr | rol | ror => true
  | _ => false

/-- The operations that store a register. -/
def isStore : Operation → Bool
  | sta | stx | sty => true
  | _ => false

/-- The operations that use an effective address in each of their modes. -/
def needsAddress (o : Operation) : Bool :=
  o.readsOperand || o.isStore || match o with
    | dec | inc | jmp | jsr => true
    | _ => false

/-- Whether the operation finds what it uses when its operand comes in the given mode. -/
def admits (o : Operation) (mode : AddressingMode) : Bool :=
  if o.isBranch then mode = .relative
  else if o.readsOperand then mode ≠ .implied ∧ mode ≠ .relative ∧ mode ≠ .indirect
  else if o.isShift then mode ≠ .immediate ∧ mode ≠ .relative ∧ mode ≠ .indirect
  else if o.modifiesOperand || o.isStore then
    mode ≠ .implied ∧ mode ≠ .immediate ∧ mode ≠ .relative ∧ mode ≠ .indirect
  else match o with
    | jmp => mode = .absolute ∨ mode = .indirect
    | jsr => mode = .absolute
    | nop => mode ≠ .relative ∧ mode ≠ .indirect
    | _ => mode = .implied

/-- Only branches come with an offset. -/
theorem ne_relative_of_admits {o : Operation} {mode : AddressingMode}
    (h : o.admits mode = true) (hb : o.isBranch = false) : mode ≠ .relative := by
  rintro rfl
  cases o <;> first | exact absurd h (by decide) | exact absurd hb (by decide)

theorem eq_relative_of_admits {o : Operation} {mode : AddressingMode}
    (h : o.admits mode = true) (hb : o.isBranch = true) : mode = .relative := by
  unfold admits at h
  rw [if_pos hb] at h
  exact of_decide_eq_true h

theorem isBranch_of_readsOperand {o : Operation} (h : o.readsOperand = true) :
    o.isBranch = false := by
  cases o <;> first | rfl | exact absurd h Bool.noConfusion

/-- What needs an address comes with one. -/
theorem ne_implied_of_admits {o : Operation} {mode : AddressingMode}
    (h : o.admits mode = true) (ho : o.needsAddress = true) : mode ≠ .implied := by
  rintro rfl
  cases o <;> first | exact absurd h (by decide) | exact absurd ho (by decide)

/-- A branch counts its page cross itself. -/
theorem isBranch_of_paysPageCross {o : Operation} {opcode : Byte}
    (h : o.paysPageCross opcode = true) : o.isBranch = false := by
  cases o <;> first | rfl | exact absurd h Bool.noConfusion

end Operation

namespace Opcode

theorem mnemonic_lookup (opcode : Byte) :
    (lookup opcode).mnemonic = (lookup opcode).operation.mnemonic :=
  Byte.forall_of_fin (P := fun b => (lookup b).mnemonic = (lookup b).operation.mnemonic)
    (by decide +kernel) opcode

theorem two_le_baseCycles (opcode : Byte) : 2 ≤ (lookup opcode).baseCycles :=
  Byte.forall_of_fin (P := fun b => 2 ≤ (lookup b).baseCycles) (by decide +kernel) opcode

theorem baseCycles_le_eight (opcode : Byte) : (lookup opcode).baseCycles ≤ 8 :=
  Byte.forall_of_fin (P := fun b => (lookup b).baseCycles ≤ 8) (by decide +kernel) opcode

/-- A branch takes two cycles before those it adds when it is taken. -/
theorem baseCycles_of_isBranch (opcode : Byte) :
    (lookup opcode).operation.isBranch = true → (lookup opcode).baseCycles = 2 :=
  Byte.forall_of_fin
    (P := fun b => (lookup b).operation.isBranch = true → (lookup b).baseCycles = 2)
    (by decide +kernel) opcode

/-- An operation that pays for a page cross leaves room for that cycle. -/
theorem baseCycles_le_seven (opcode : Byte) :
    (lookup opcode).operation.paysPageCross opcode = true → (lookup opcode).baseCycles ≤ 7 :=
  Byte.forall_of_fin
    (P := fun b => (lookup b).operation.paysPageCross b = true → (lookup b).baseCycles ≤ 7)
    (by decide +kernel) opcode

/-- **The list of the no-operation is complete.** It holds the opcodes of the no-operations whose
mode adds an index to a word, and no others. -/
theorem mem_payingNops_iff (opcode : Byte) :
    opcode ∈ Operation.payingNops ↔ (lookup opcode).operation = .nop ∧
      (lookup opcode).mode ∈ [.absoluteX, .absoluteY, .indirectY] :=
  Byte.forall_of_fin
    (P := fun b => b ∈ Operation.payingNops ↔ (lookup b).operation = .nop ∧
      (lookup b).mode ∈ [.absoluteX, .absoluteY, .indirectY])
    (by decide +kernel) opcode

/-- Only one opcode goes through a pointer of two bytes. -/
theorem eq_of_mode_indirect (opcode : Byte) : (lookup opcode).mode = .indirect → opcode = 0x6C :=
  Byte.forall_of_fin (P := fun b => (lookup b).mode = .indirect → b = 0x6C) (by decide +kernel)
    opcode

/-- An instruction has at most two operand bytes. -/
theorem size_le_three (entry : Opcode) : entry.size ≤ 3 := by
  unfold size
  cases entry.mode <;> decide

/-- **Every entry pairs its operation with a mode that suits it.** -/
theorem admits_lookup (opcode : Byte) :
    (lookup opcode).operation.admits (lookup opcode).mode = true :=
  Byte.forall_of_fin
    (P := fun b => (lookup b).operation.admits (lookup b).mode = true) (by decide +kernel) opcode

end Opcode

end Core6502
