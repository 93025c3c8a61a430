import Core6502.Listing
import Core6502.Proofs.Clock.Refinement
import Core6502.Proofs.Listing.Text
import Core6502.Proofs.Reference.Conformance

/-!
# Listings and execution agree

The length of an instruction, its operand and the target of a branch are worked out twice: by the
listing from the bytes it peeks at, and by the machine while it executes. Here the two are compared
at one instruction boundary, where `listed` is the instruction that a listing shows.

* `operandByte_decode`, `operandWord_decode`: what the listing peeks at.
* `opcode_clock`, `baseCycles_le_owed_clock`: the opcode and the cycles agree.
* `pc_clock_of_next`, `pc_clock_of_branches`, `pc_clock_of_jump`: where the machine goes on, with
  `effective_relative`, `effective_absolute` and `low_effective_indirect` for where that is.
-/

universe u

namespace Core6502

/-! ## Decoding from memory -/

namespace Instruction

variable (bus : Memory) (address : Word)

theorem peekBytes_snd (count : Nat) : (peekBytes bus address count).2 = bus := by
  induction count generalizing address with
  | zero => rfl
  | succ count ih => exact ih (address + 1)

theorem decode_snd : (decode bus address).2 = bus := peekBytes_snd bus (address + 1) _

theorem operandByte_decode (h : (decode bus address).1.mode.operandLength ≠ 0) :
    (decode bus address).1.operandByte = bus.get (address + 1) := by
  obtain ⟨count, hc⟩ := Nat.exists_eq_succ_of_ne_zero h
  show (peekBytes bus (address + 1) (decode bus address).1.mode.operandLength).1.headD 0 = _
  rw [hc]
  rfl

theorem operandWord_decode (h : (decode bus address).1.mode.operandLength = 2) :
    (decode bus address).1.operandWord =
      Word.ofBytes (bus.get (address + 1)) (bus.get (address + 1 + 1)) := by
  have ho : (decode bus address).1.operand =
      [bus.get (address + 1), bus.get (address + 1 + 1)] := by
    show (peekBytes bus (address + 1) (decode bus address).1.mode.operandLength).1 = _
    rw [h]
    rfl
  unfold operandWord
  rw [ho]

end Instruction

namespace Machine

open Reference

/-! ## The opcode latch -/

section Latch

variable {β : Type u} [Bus β] (m : Machine β)

omit [Bus β] in
theorem opcode_branch (condition : Bool) :
    (m.branch condition).latches.opcode = m.latches.opcode := by
  cases condition <;> rfl

/-- An operation leaves the opcode latched. -/
theorem opcode_execute (o : Operation) : (m.execute o).latches.opcode = m.latches.opcode := by
  cases hb : o.isBranch
  case false =>
    exact execute_frame (f := fun k => k.latches.opcode) (fun _ _ _ _ _ => rfl) m hb
  case true =>
    obtain ⟨condition, hc⟩ := exists_branch hb m
    rw [hc]
    exact opcode_branch m condition

theorem opcode_instruction : m.instruction.latches.opcode = m.begin.latches.opcode :=
  calc m.instruction.latches.opcode
      = m.executed.latches.opcode :=
        instruction_frame (f := fun k => k.latches.opcode) (fun _ _ => rfl) m
    _ = m.resolved.latches.opcode := opcode_execute _ _
    _ = m.begin.latches.opcode := opcode_resolve _ _

end Latch

/-! ## One instruction -/

variable (m : Machine Memory)

/-- The instruction that a listing shows at the program counter. -/
def listed : Instruction := (Instruction.decode m.bus m.registers.pc).1

/-- Whether the next instruction continues elsewhere than at the one after it: a jump, a call, a
return, a software interrupt or a branch that is taken. -/
def transfersControl : Bool := m.view.entry.operation.leaves m.registers.status

/-- A relative operand leads where its line shows. -/
theorem effective_relative (wrap : Bool) (h : m.listed.mode = .relative) :
    m.view.effective wrap .relative = m.listed.branchTarget := by
  have ha : m.listed.address = m.registers.pc := rfl
  have hs : m.listed.size = 2 := congrArg (fun mode => 1 + AddressingMode.operandLength mode) h
  have hl : m.listed.mode.operandLength ≠ 0 := by rw [h]; decide
  have hb : m.listed.operandByte = m.bus.get (m.registers.pc + 1) :=
    Instruction.operandByte_decode _ _ hl
  unfold Instruction.branchTarget
  rw [ha, hs, hb, Word.add_signExtend, ← Word.exact_add_ofNat, ← Word.exact_add_one,
    Word.exact_exact_add]
  rfl

/-- The operand word that a line shows is the one the machine fetches. -/
theorem pairAt_listed (h : m.listed.mode.operandLength = 2) :
    m.view.pairAt (m.registers.pc.toNat + 1) (m.registers.pc.toNat + 2) =
      m.listed.operandWord.toNat := by
  have hw : m.listed.operandWord = _ := Instruction.operandWord_decode _ _ h
  rw [hw, pairAt_view, Word.exact_add_one, Word.exact_add_two]

theorem effective_absolute (wrap : Bool) (h : m.listed.mode = .absolute) :
    m.view.effective wrap .absolute = m.listed.operandWord := by
  have hl : m.listed.mode.operandLength = 2 := by rw [h]; rfl
  unfold State.effective
  simp only [view_registers]
  rw [pairAt_listed m hl, Word.exact_toNat]

/-- The low byte of an indirect target lies at the pointer that the line shows. -/
theorem low_effective_indirect (wrap : Bool) (h : m.listed.mode = .indirect) :
    Word.low (m.view.effective wrap .indirect) = m.bus.get m.listed.operandWord := by
  have hl : m.listed.mode.operandLength = 2 := by rw [h]; rfl
  unfold State.effective
  simp only
  rw [pairAt_view, Word.exact_toNat, Word.low_ofBytes, view_registers, pairAt_listed m hl,
    Word.exact_toNat]

variable {m} (h : m.owed = 0)
include h

theorem opcode_clock : m.clock.latches.opcode = m.listed.opcode := by
  rw [clock_of_boundary h]
  exact opcode_instruction m

/-- The cycles charged are paid from the first clock on. -/
theorem cost_eq_owed_clock : m.cost = m.clock.owed + 1 := by
  have hc : m.clock.owed = m.cost - 1 := by
    rw [clock_of_boundary h]
    rfl
  have := two_le_cost m
  omega

theorem baseCycles_le_owed_clock : m.listed.baseCycles ≤ m.clock.owed + 1 := by
  rw [← cost_eq_owed_clock h]
  exact baseCycles_le_cost m

theorem pc_clock : m.clock.registers.pc =
    (m.view.past.transfer m.listed.mode
      (m.view.effective m.options.indirectPageWrap m.listed.mode)
      (m.view.operand m.options.indirectPageWrap m.listed.mode)
      m.view.entry.operation).registers.pc :=
  congrArg (fun s : State => s.registers.pc) (view_clock m h)

/-- Without a transfer of control the machine goes on behind the listed instruction. -/
theorem pc_clock_of_next (ht : m.transfersControl = false) :
    m.clock.registers.pc = m.registers.pc + UInt16.ofNat m.listed.size := by
  rw [pc_clock h, State.pc_transfer_of_not_leaves (s := m.view.past) _ ht,
    ← Word.exact_add_ofNat]
  rfl

/-- A taken branch lands on the target that its line shows. -/
theorem pc_clock_of_branches (hm : m.listed.mode = .relative)
    (hb : m.view.entry.operation.branches m.registers.status = true) :
    m.clock.registers.pc = m.listed.branchTarget := by
  rw [pc_clock h, State.pc_transfer_of_branches (s := m.view.past) _ hb, hm,
    effective_relative m _ hm]

/-- A jump or call lands on its effective address. -/
theorem pc_clock_of_jump (ho : m.view.entry.operation = .jmp ∨ m.view.entry.operation = .jsr) :
    m.clock.registers.pc = m.view.effective m.options.indirectPageWrap m.listed.mode := by
  rw [pc_clock h]
  rcases ho with ho | ho <;> rw [ho] <;> rfl

end Machine

end Core6502
