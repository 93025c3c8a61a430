import Core6502.Machine.Clock
import Core6502.Machine.Interrupt
import Core6502.Proofs.Reference.Frame

/-!
# Flags that an operation leaves alone

`Operation.flags` lists the flags that an operation may change. On memory the reference keeps to
it; here the same is shown of the machine on any bus, also one that reacts to being read.

* `registers_resolve`, `registers_operand`: finding the operand changes no flag.
* `status_shift`, `status_modify`, `status_forceInterrupt`: what the operations with a body of
  their own make of the status.
* `Status.flag_of_diff`, `Status.flag_set`: what leaves a single flag as it is.
* **`status_execute`**: no operation changes a flag outside its list.
-/

universe u

namespace Core6502

namespace Status

section Flag

variable {flag : Status → Bool} (hf : ∀ f p q, flag (zipWith f p q) = f (flag p) (flag q))
  {p q mask : Status}
include hf

/-- Registers that are the same outside a mask have the same flags there. -/
theorem flag_of_diff (hm : flag mask = false) (h : p.diff mask = q.diff mask) :
    flag p = flag q := by
  have hdiff : ∀ r : Status, flag (r.diff mask) = flag r := fun r => by
    unfold diff
    rw [hf, hm, Bool.not_false, Bool.and_true]
  rw [← hdiff p, h, hdiff q]

/-- A setter that does not clear a flag keeps it set. -/
theorem flag_set {on : Bool} (hm : on = false → flag mask = false) (h : flag p = true) :
    flag (p.set mask on) = true := by
  cases on with
  | false =>
    show flag (zipWith (fun a b => a && !b) p mask) = true
    rw [hf, h, hm rfl]
    rfl
  | true =>
    show flag (zipWith (fun a b => a || b) p mask) = true
    rw [hf, h]
    rfl

end Flag

end Status

namespace Machine

variable {β : Type u}

theorem status_branch (m : Machine β) (condition : Bool) :
    (m.branch condition).registers.status = m.registers.status := by
  cases condition <;> rfl

variable [Bus β] (m : Machine β)

/-! ## Finding the operand -/

/-- Finding the operand moves the program counter and no other register. -/
theorem registers_resolve (mode : AddressingMode) :
    (m.resolve mode).2.registers =
      { m.registers with pc := (m.resolve mode).2.registers.pc } := by
  cases mode <;> rfl

theorem status_resolve (mode : AddressingMode) :
    (m.resolve mode).2.registers.status = m.registers.status := by
  cases mode <;> rfl

theorem registers_operand : m.operand.2.registers = m.registers := by
  unfold operand
  split <;> rfl

/-! ## The families of operations -/

theorem registers_withOperand (f : Registers → Byte → Registers) :
    (m.withOperand f).registers = f m.registers m.operand.1 := by
  show f m.operand.2.registers m.operand.1 = _
  rw [registers_operand]

theorem status_writeBack (result : Byte) :
    (m.writeBack result).registers.status = m.registers.status.withResult result := by
  unfold writeBack
  split <;> rfl

theorem status_shift (f : Byte → Bool → Byte × Bool) :
    ∃ s : Byte × Bool, (m.shift f).registers.status =
      { m.registers.status with carry := s.2 }.withResult s.1 := by
  refine ⟨f m.operand.1 m.registers.status.carry, ?_⟩
  unfold shift
  simp only [status_writeBack, registers_operand]

theorem status_modify (delta : Byte) :
    (m.modify delta).registers.status =
      m.registers.status.withResult (m.operand.1 + delta) := by
  show m.operand.2.registers.status.withResult _ = _
  rw [registers_operand]

theorem status_forceInterrupt :
    m.forceInterrupt.registers.status =
      { m.registers.status with interruptDisable := true, brk := false } := by
  simp only [forceInterrupt, pushWord, push, write, readWord, readPair, read, jumpTo]

/-! ## Operations -/

/-- **No operation changes a flag outside its list.** -/
theorem status_execute (o : Operation) :
    (m.execute o).registers.status.diff o.flags = m.registers.status.diff o.flags := by
  cases o
  case lda | ldx | ldy | and | ora | eor | adc | sbc | cmp | cpx | cpy | bit =>
    simp [execute, registers_withOperand, Registers.loadA, Registers.loadX, Registers.loadY,
      Registers.add, Registers.subtract, Registers.compare, Registers.testBits, Status.withResult,
      Status.diff, Status.zipWith, Operation.flags, Status.empty]
  case asl | lsr | rol | ror =>
    simp only [execute]
    obtain ⟨s, hs⟩ := m.status_shift _
    rw [hs]
    simp [Status.withResult, Status.diff, Status.zipWith, Operation.flags, Status.empty]
  case inc | dec =>
    simp [execute, status_modify, Status.withResult, Status.diff, Status.zipWith,
      Operation.flags, Status.empty]
  case bcc | bcs | bne | beq | bpl | bmi | bvc | bvs =>
    simp only [execute, status_branch]
  case brk =>
    simp [execute, status_forceInterrupt, Status.diff, Status.zipWith, Operation.flags,
      Status.empty]
  case plp | rti => simp [Status.diff, Status.zipWith, Operation.flags, Status.full]
  case inx | iny | dex | dey | tax | tay | txa | tya | tsx | pla | clc | sec | cli | sei | cld | sed
      | clv =>
    simp [execute, pullAccumulator, pull, read, modifyRegisters, Registers.loadA, Registers.loadX,
      Registers.loadY, Status.withResult, Status.diff, Status.zipWith, Operation.flags,
      Status.empty]
  all_goals rfl

end Machine

end Core6502
