import Core6502.Proofs.Reference.Basic
import Core6502.Proofs.Table

/-!
# What the reference leaves alone

For each operation the registers, the flags and the cells of memory that it may change are listed
here, apart from what it does to them: `Operation.targets`, `Operation.flags` and
`Reference.State.written`. `Preserves` says that everything else is as before, and
`transfer_preserves` that the reference keeps to the lists.

The program counter stays past the instruction unless the operation `leaves` for elsewhere;
`pc_transfer_of_branches` says where a taken branch goes.
-/

namespace Core6502

/-- The registers of eight bits. -/
inductive Register where
  | a
  | x
  | y
  | sp
  deriving DecidableEq

/-- The byte in a register. -/
def Registers.byte (r : Registers) : Register → Byte
  | .a => r.a
  | .x => r.x
  | .y => r.y
  | .sp => r.sp

namespace Operation

/-- Whether the operation continues elsewhere than at the next instruction. -/
def leaves (p : Status) : Operation → Bool
  | jmp | jsr | rts | rti | brk => true
  | o => o.branches p

theorem isBranch_of_branches {p : Status} {o : Operation} (h : o.branches p = true) :
    o.isBranch = true := by
  cases o <;> first | rfl | exact absurd h Bool.noConfusion

/-- The registers that the operation may change. -/
def targets (mode : AddressingMode) : Operation → List Register
  | lda | and | ora | eor | adc | sbc | txa | tya => [.a]
  | asl | lsr | rol | ror | inc | dec => if mode = .implied then [.a] else []
  | ldx | inx | dex | tax | tsx => [.x]
  | ldy | iny | dey | tay => [.y]
  | txs | pha | php | plp | jsr | rts | rti | brk => [.sp]
  | pla => [.a, .sp]
  | _ => []

/-- The flags that the operation may change. -/
def flags : Operation → Status
  | adc | sbc =>
    { Status.empty with negative := true, overflow := true, zero := true, carry := true }
  | cmp | cpx | cpy | asl | lsr | rol | ror =>
    { Status.empty with negative := true, zero := true, carry := true }
  | bit => { Status.empty with negative := true, overflow := true, zero := true }
  | lda | ldx | ldy | and | ora | eor | inc | dec | inx | iny | dex | dey | pla | tax | tay | txa
  | tya | tsx => { Status.empty with negative := true, zero := true }
  | clc | sec => { Status.empty with carry := true }
  | cli | sei => { Status.empty with interruptDisable := true }
  | cld | sed => { Status.empty with decimalMode := true }
  | clv => { Status.empty with overflow := true }
  | brk => { Status.empty with interruptDisable := true, brk := true }
  | plp | rti => Status.full
  | _ => Status.empty

end Operation

namespace Reference.State

/-- The addresses that the operation may write. -/
def written (s : State) (mode : AddressingMode) (ea : Word) : Operation → List Word
  | .sta | .stx | .sty => [ea]
  | .asl | .lsr | .rol | .ror | .inc | .dec => if mode = .implied then [] else [ea]
  | .pha | .php => [s.cell 0]
  | .jsr => [s.cell 0, s.cell (-1)]
  | .brk => [s.cell 0, s.cell (-1), s.cell (-2)]
  | _ => []

/-- From `s` to `t` nothing has changed that the operation must leave alone. -/
structure Preserves (mode : AddressingMode) (ea : Word) (o : Operation) (s t : State) : Prop where
  register : ∀ r ∉ o.targets mode, t.registers.byte r = s.registers.byte r
  pc : o.leaves s.registers.status = false → t.registers.pc = s.registers.pc
  status : t.registers.status.diff o.flags = s.registers.status.diff o.flags
  memory : ∀ address ∉ s.written mode ea o, t.memory address = s.memory address

variable (s : State) (mode : AddressingMode) (ea : Word) (v : Byte) (o : Operation)

/-! ## Results put back, and branches -/

theorem registers_putBack (r : Byte) :
    (s.putBack mode ea r).registers = { s.registers with
      a := if mode = .implied then r else s.registers.a
      status := { s.registers.status with zero := r.toNat = 0, negative := 128 ≤ r.toNat } } := by
  unfold putBack
  split <;> rfl

theorem memory_putBack (r : Byte) :
    (s.putBack mode ea r).memory =
      if mode = .implied then s.memory else Function.update s.memory ea r := by
  unfold putBack
  split <;> rfl

/-- A branch moves the program counter or does nothing. -/
theorem ite_goto (c : Bool) :
    (if c then s.goto ea else s) = s.goto (if c then ea else s.registers.pc) := by
  split <;> rfl

/-! ## The operations -/

variable {s mode ea o}

theorem register_transfer {r : Register} (h : r ∉ o.targets mode) :
    (s.transfer mode ea v o).registers.byte r = s.registers.byte r := by
  cases o
  case asl | lsr | rol | ror | inc | dec =>
    simp only [transfer, registers_putBack]
    cases r
    case a =>
      have hi : mode ≠ .implied := fun hi => h (by rw [hi]; exact List.mem_singleton_self _)
      exact if_neg hi
    all_goals rfl
  case bcc | bcs | bne | beq | bpl | bmi | bvc | bvs =>
    simp only [transfer, ite_goto]
    rfl
  all_goals
    cases r <;> first
      | rfl
      | exact absurd List.mem_cons_self h
      | exact absurd (List.mem_cons_of_mem _ List.mem_cons_self) h

theorem pc_transfer_of_not_leaves (h : o.leaves s.registers.status = false) :
    (s.transfer mode ea v o).registers.pc = s.registers.pc := by
  cases o
  case asl | lsr | rol | ror | inc | dec => simp only [transfer, registers_putBack, setCarry]
  case bcc | bcs | bne | beq | bpl | bmi | bvc | bvs =>
    exact congrArg (fun t : State => t.registers.pc) (if_neg (ne_true_of_eq_false h))
  all_goals first | rfl | exact absurd h Bool.noConfusion

theorem pc_transfer_of_branches (h : o.branches s.registers.status = true) :
    (s.transfer mode ea v o).registers.pc = ea := by
  cases o
  case bcc | bcs | bne | beq | bpl | bmi | bvc | bvs =>
    exact congrArg (fun t : State => t.registers.pc) (if_pos h)
  all_goals exact absurd h Bool.noConfusion

theorem status_transfer :
    (s.transfer mode ea v o).registers.status.diff o.flags =
      s.registers.status.diff o.flags := by
  cases o
  case asl | lsr | rol | ror | inc | dec =>
    simp [transfer, registers_putBack, setCarry, Status.diff, Status.zipWith, Operation.flags,
      Status.empty]
  case bcc | bcs | bne | beq | bpl | bmi | bvc | bvs =>
    simp only [transfer, ite_goto]
    rfl
  all_goals first
    | rfl
    | simp [transfer, total, compare, setCarry, test, toA, toX, toY, judge, lift, goto, Status.diff,
        Status.zipWith, Operation.flags, Status.empty, Status.full]

theorem memory_transfer {address : Word} (h : address ∉ s.written mode ea o) :
    (s.transfer mode ea v o).memory address = s.memory address := by
  cases o
  case asl | lsr | rol | ror | inc | dec =>
    simp only [transfer, memory_putBack]
    split
    case isTrue => rfl
    case isFalse hi =>
      simp only [written, if_neg hi] at h
      exact Function.update_of_ne (List.ne_of_not_mem_cons h) _ _
  case bcc | bcs | bne | beq | bpl | bmi | bvc | bvs =>
    simp only [transfer, ite_goto]
    rfl
  case sta | stx | sty | pha | php =>
    exact Function.update_of_ne (List.ne_of_not_mem_cons h) _ _
  case jsr =>
    have h' := List.not_mem_of_not_mem_cons h
    show (s.pushWord _).memory address = _
    rw [memory_pushWord, Function.update_of_ne (List.ne_of_not_mem_cons h'),
      Function.update_of_ne (List.ne_of_not_mem_cons h)]
  case brk =>
    have h' := List.not_mem_of_not_mem_cons h
    have h'' := List.not_mem_of_not_mem_cons h'
    show ((s.pushWord _).push _).memory address = _
    rw [memory_push, cell_pushWord, memory_pushWord, Int.add_zero,
      Function.update_of_ne (List.ne_of_not_mem_cons h''),
      Function.update_of_ne (List.ne_of_not_mem_cons h'),
      Function.update_of_ne (List.ne_of_not_mem_cons h)]
  all_goals rfl

theorem transfer_preserves : Preserves mode ea o s (s.transfer mode ea v o) where
  register := fun _ h => register_transfer v h
  pc := pc_transfer_of_not_leaves v
  status := status_transfer v
  memory := fun _ h => memory_transfer v h

end Reference.State

end Core6502
