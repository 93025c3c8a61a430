import Core6502.Machine.Clock
import Core6502.Recorder

/-!
# A recorder changes nothing

A machine on a recorded bus does what it would do on the bus itself. `Machine.unrecorded` is the
machine without the recorder, and every function an instruction is made of commutes with it.

* `unrecorded_resolve`, `unrecorded_execute`: addressing and execution.
* `unrecorded_instruction`, `unrecorded_clock`: whole instructions and clocks.
-/

universe u

namespace Core6502.Machine

variable {β : Type u}

/-- The machine without the recorder on its bus. -/
def unrecorded (m : Machine (Recorder β)) : Machine β where
  registers := m.registers
  latches := m.latches
  owed := m.owed
  clocks := m.clocks
  options := m.options
  bus := m.bus.inner
  journal := m.journal

/-- The machine with a recorder put on its bus. -/
def recorded (m : Machine β) : Machine (Recorder β) where
  registers := m.registers
  latches := m.latches
  owed := m.owed
  clocks := m.clocks
  options := m.options
  bus := Recorder.start m.bus
  journal := m.journal

@[simp] theorem registers_unrecorded (m : Machine (Recorder β)) :
    m.unrecorded.registers = m.registers := rfl

@[simp] theorem latches_unrecorded (m : Machine (Recorder β)) :
    m.unrecorded.latches = m.latches := rfl

@[simp] theorem options_unrecorded (m : Machine (Recorder β)) :
    m.unrecorded.options = m.options := rfl

variable [Bus β] (m : Machine (Recorder β))

theorem unrecorded_begin : m.begin.unrecorded = m.unrecorded.begin := rfl

theorem unrecorded_resolve (mode : AddressingMode) :
    (m.resolve mode).1 = (m.unrecorded.resolve mode).1 ∧
      (m.resolve mode).2.unrecorded = (m.unrecorded.resolve mode).2 := by
  cases mode <;> exact ⟨rfl, rfl⟩

omit [Bus β] in
theorem unrecorded_branch (condition : Bool) :
    (m.branch condition).unrecorded = m.unrecorded.branch condition := by
  cases condition <;> rfl

theorem unrecorded_operand :
    m.operand.1 = m.unrecorded.operand.1 ∧ m.operand.2.unrecorded = m.unrecorded.operand.2 := by
  have hm : m.unrecorded.mode = m.mode := rfl
  unfold operand
  rw [hm]
  split <;> exact ⟨rfl, rfl⟩

theorem unrecorded_writeBack (result : Byte) :
    (m.writeBack result).unrecorded = m.unrecorded.writeBack result := by
  have hm : m.unrecorded.mode = m.mode := rfl
  unfold writeBack
  rw [hm]
  split <;> rfl

theorem unrecorded_withOperand (f : Registers → Byte → Registers) :
    (m.withOperand f).unrecorded = m.unrecorded.withOperand f := by
  obtain ⟨h₁, h₂⟩ := m.unrecorded_operand
  unfold withOperand
  simp only
  rw [← h₂, ← h₁]
  rfl

theorem unrecorded_shift (f : Byte → Bool → Byte × Bool) :
    (m.shift f).unrecorded = m.unrecorded.shift f := by
  obtain ⟨h₁, h₂⟩ := m.unrecorded_operand
  unfold shift
  simp only
  rw [unrecorded_writeBack, ← h₂, ← h₁]
  rfl

theorem unrecorded_modify (delta : Byte) :
    (m.modify delta).unrecorded = m.unrecorded.modify delta := by
  obtain ⟨h₁, h₂⟩ := m.unrecorded_operand
  unfold modify
  simp only
  rw [← h₂, ← h₁]
  rfl

theorem unrecorded_execute (o : Operation) :
    (m.execute o).unrecorded = m.unrecorded.execute o := by
  cases o <;>
    simp only [execute, unrecorded_withOperand, unrecorded_shift, unrecorded_modify,
      unrecorded_branch, registers_unrecorded] <;>
    rfl

theorem unrecorded_instruction : m.instruction.unrecorded = m.unrecorded.instruction := by
  obtain ⟨h₁, h₂⟩ := m.begin.unrecorded_resolve (Opcode.lookup m.begin.latches.opcode).mode
  unfold instruction
  simp only
  rw [← unrecorded_begin, latches_unrecorded, ← h₁, ← h₂, ← unrecorded_execute]
  split <;> rfl

/-- **A clock of a recorded machine is a clock of the machine.** -/
theorem unrecorded_clock : m.clock.unrecorded = m.unrecorded.clock := by
  by_cases h : m.owed = 0
  · rw [clock_of_boundary h, clock_of_boundary (m := m.unrecorded) h, ← unrecorded_instruction]
    rfl
  · rw [clock_of_owed h, clock_of_owed (m := m.unrecorded) h]
    rfl

end Core6502.Machine
