import Core6502.Machine.Clock
import Core6502.Proofs.Table

/-!
# What an instruction does not look at

An instruction neither reads the number of clocks so far nor the journal, and it overwrites the
cycles owed without looking at them. Of the options it consults one, and only for an indirect jump
through a pointer that lies at the end of a page. So the same instruction runs against any
`Background`: other options, another time and other events before.

* `entry`, `resolved`, `executed`: an instruction in parts.
* `instruction_frame`: what an instruction adds to its operation is a charge.
* **`execute_frame`**: what an operation leaves alone.
* `resolve_against`, `execute_against`: addressing and execution against another background.
* **`instruction_against`**: an instruction commutes with setting the background.
* `instruction_atTime`, `options_instruction`: in particular with setting the clock, and it changes
  no option.
* `two_le_cost`: an instruction charges at least two cycles.
-/

universe u v

namespace Core6502

/-- What a machine is set against. -/
structure Background where
  options : Options
  /-- The clocks so far, from those that the machine has counted. -/
  time : Nat → Nat
  /-- The events before those in the machine's journal, the latest first. -/
  past : List Event

namespace Machine

variable {β : Type u}

/-- The machine with another number of clocks so far. -/
def atTime (m : Machine β) (t : Nat) : Machine β := { m with clocks := t }

/-- The machine against another background. -/
def against (m : Machine β) (b : Background) : Machine β :=
  { m with options := b.options, clocks := b.time m.clocks, journal := m.journal ++ b.past }

theorem against_atTime (m : Machine β) (t : Nat) :
    m.against ⟨m.options, fun _ => t, []⟩ = m.atTime t := by
  unfold against atTime
  rw [List.append_nil]

variable [Bus β]

/-- The cycles that the next instruction charges. -/
def cost (m : Machine β) : Nat := m.instruction.owed

/-- Whether the next instruction is an indirect jump whose pointer lies at the last byte of a page,
so that the option for this case decides where its high byte is read. -/
def straddles (m : Machine β) : Bool :=
  m.begin.latches.opcode == 0x6C && Word.low m.begin.fetchWord.1 == 0xFF

/-! ## An instruction in parts -/

/-- The opcode table's entry for the next instruction. -/
def entry (m : Machine β) : Opcode := Opcode.lookup m.begin.latches.opcode

/-- The machine that the operation of the next instruction meets. -/
def resolved (m : Machine β) : Machine β := (m.begin.resolve m.entry.mode).2

/-- The machine that the operation of the next instruction leaves. -/
def executed (m : Machine β) : Machine β := m.resolved.execute m.entry.operation

/-- Whether the next instruction pays for a page cross. -/
def crosses (m : Machine β) : Bool :=
  (m.begin.resolve m.entry.mode).1 && m.entry.operation.paysPageCross m.begin.latches.opcode

theorem mode_resolved (m : Machine β) : m.resolved.mode = m.entry.mode :=
  m.begin.mode_resolve m.entry.mode

theorem instruction_eq (m : Machine β) :
    m.instruction = if m.crosses then m.executed.charge 1 else m.executed := rfl

/-- What does not depend on the debt is after an instruction as its operation left it. -/
theorem instruction_frame {α : Sort v} {f : Machine β → α}
    (hf : ∀ (m : Machine β) (owed : Nat), f { m with owed } = f m) (m : Machine β) :
    f m.instruction = f m.executed := by
  rw [instruction_eq]
  split
  case isTrue => exact hf _ _
  case isFalse => rfl

theorem registers_clock {m : Machine β} (h : m.owed = 0) :
    m.clock.registers = m.executed.registers := by
  rw [clock_of_boundary h]
  exact instruction_frame (f := registers) (fun _ _ => rfl) m

/-- A branch operation branches on some condition. -/
theorem exists_branch {o : Operation} (h : o.isBranch = true) (m : Machine β) :
    ∃ condition, m.execute o = m.branch condition := by
  cases o
  case bcc | bcs | bne | beq | bpl | bmi | bvc | bvs => exact ⟨_, rfl⟩
  all_goals exact absurd h (by decide)

/-! ## What an operation leaves alone -/

section Frame

variable {α : Type} {f : Machine β → α}
  (hf : ∀ (m : Machine β) (registers : Registers) (operand : Byte) (bus : β) (journal : List Event),
    f { m with registers, latches.operand := operand, bus, journal } = f m)
include hf

theorem operand_frame (m : Machine β) : f m.operand.2 = f m := by
  unfold operand
  split
  case isTrue => rfl
  case isFalse => exact hf m _ _ _ _

theorem writeBack_frame (m : Machine β) (result : Byte) : f (m.writeBack result) = f m := by
  unfold writeBack
  split <;> exact hf m _ _ _ _

/-- **The frame of an operation.** But for branches, an operation changes nothing that does not
depend on the registers, the operand latch, the bus and the journal. -/
theorem execute_frame (m : Machine β) {o : Operation} (h : o.isBranch = false) :
    f (m.execute o) = f m := by
  cases o
  case bcc | bcs | bne | beq | bpl | bmi | bvc | bvs => exact absurd h (by decide)
  case lda | ldx | ldy | and | ora | eor | adc | sbc | cmp | cpx | cpy | bit | inc | dec =>
    exact (hf m.operand.2 _ _ _ _).trans (operand_frame hf m)
  case asl | lsr | rol | ror =>
    exact (writeBack_frame hf _ _).trans
      ((hf m.operand.2 _ _ _ _).trans (operand_frame hf m))
  case brk =>
    simp only [execute, forceInterrupt, pushWord, push, write, readWord, readPair, read, jumpTo]
    exact hf m _ _ _ _
  case nop => rfl
  all_goals exact hf m _ _ _ _

end Frame

/-! ## The background is not looked at -/

section Background

variable (m : Machine β) (b : Background)

/-- A pointer that does not end a page has its high byte behind its low byte, whatever the
options. -/
theorem pointerHigh_congr {o o' : Options} {pointer : Word}
    (h : o.indirectPageWrap = o'.indirectPageWrap ∨ Word.low pointer ≠ 0xFF) :
    pointerHigh o pointer = pointerHigh o' pointer := by
  unfold pointerHigh
  rcases h with h | h
  · rw [h]
  · have hl : (Word.low pointer == 0xFF) = false := beq_eq_false_iff_ne.mpr h
    rw [hl, Bool.and_false, Bool.and_false]

theorem resolve_against (mode : AddressingMode)
    (h : mode = .indirect → m.options.indirectPageWrap = b.options.indirectPageWrap ∨
      Word.low m.fetchWord.1 ≠ 0xFF) :
    (m.against b).resolve mode = ((m.resolve mode).1, (m.resolve mode).2.against b) := by
  cases mode
  case indirect =>
    have hf : (m.against b).fetchWord = (m.fetchWord.1, m.fetchWord.2.against b) := rfl
    have hp : pointerHigh (m.against b).options m.fetchWord.1 =
        pointerHigh m.options m.fetchWord.1 := (pointerHigh_congr (h rfl)).symm
    simp only [resolve, hf, hp]
    rfl
  all_goals rfl

omit [Bus β] in
theorem branch_against (condition : Bool) :
    (m.against b).branch condition = (m.branch condition).against b := by
  cases condition <;> rfl

theorem operand_against : (m.against b).operand = (m.operand.1, m.operand.2.against b) := by
  have hm : (m.against b).mode = m.mode := rfl
  unfold operand
  rw [hm]
  split <;> rfl

theorem writeBack_against (result : Byte) :
    (m.against b).writeBack result = (m.writeBack result).against b := by
  have hm : (m.against b).mode = m.mode := rfl
  unfold writeBack
  rw [hm]
  split <;> rfl

theorem withOperand_against (f : Registers → Byte → Registers) :
    (m.against b).withOperand f = (m.withOperand f).against b := by
  unfold withOperand
  rw [operand_against]
  rfl

theorem shift_against (f : Byte → Bool → Byte × Bool) :
    (m.against b).shift f = (m.shift f).against b := by
  unfold shift
  rw [operand_against]
  exact writeBack_against { m.operand.2 with registers.status.carry := _ } b _

theorem modify_against (delta : Byte) :
    (m.against b).modify delta = (m.modify delta).against b := by
  unfold modify
  rw [operand_against]
  rfl

theorem forceInterrupt_against :
    (m.against b).forceInterrupt = m.forceInterrupt.against b := by
  simp only [forceInterrupt, pushWord, push, write, readWord, readPair, read, jumpTo, against]

theorem execute_against (o : Operation) :
    (m.against b).execute o = (m.execute o).against b := by
  cases o <;>
    simp only [execute, withOperand_against, shift_against, modify_against, branch_against,
      forceInterrupt_against] <;>
    rfl

/-- **An instruction does not look at the background**, except for where an indirect jump through
a pointer at the end of a page reads the pointer's high byte. -/
theorem instruction_against
    (h : m.options.indirectPageWrap = b.options.indirectPageWrap ∨ m.straddles = false) :
    (m.against b).instruction = m.instruction.against b := by
  have hb : (m.against b).begin = m.begin.against b := rfl
  have ho : (m.begin.against b).latches.opcode = m.begin.latches.opcode := rfl
  have hr := m.begin.resolve_against b (Opcode.lookup m.begin.latches.opcode).mode <| by
    intro hm
    refine h.imp_right fun hs hl => ?_
    rw [straddles, Opcode.eq_of_mode_indirect _ hm, hl] at hs
    exact absurd hs (by decide)
  simp only [instruction, hb, ho, hr, execute_against]
  split <;> rfl

end Background

/-- **An instruction changes no option.** -/
theorem options_instruction (m : Machine β) : m.instruction.options = m.options := by
  have h := m.instruction_against ⟨m.options, fun _ => m.clocks, []⟩ (.inl rfl)
  have hm : m.against ⟨m.options, fun _ => m.clocks, []⟩ = m := m.against_atTime m.clocks
  rw [hm] at h
  rw [h]
  rfl

theorem instruction_atTime (m : Machine β) (t : Nat) :
    (m.atTime t).instruction = m.instruction.atTime t := by
  have h := m.instruction_against ⟨m.options, fun _ => t, []⟩ (.inl rfl)
  rw [against_atTime] at h
  rw [h, ← against_atTime, options_instruction]

/-! ## An instruction takes time -/

theorem owed_resolve (m : Machine β) (mode : AddressingMode) :
    (m.resolve mode).2.owed = m.owed := by
  cases mode <;> rfl

omit [Bus β] in
theorem owed_le_branch (m : Machine β) (condition : Bool) :
    m.owed ≤ (m.branch condition).owed := by
  cases condition with
  | false => exact Nat.le_refl _
  | true => exact Nat.le_add_right _ _

/-- Only branches add to what their opcode charged. -/
theorem owed_execute (m : Machine β) {o : Operation} (h : o.isBranch = false) :
    (m.execute o).owed = m.owed :=
  execute_frame (fun _ _ _ _ _ => rfl) m h

/-- An operation never takes back what its opcode charged. -/
theorem owed_le_execute (m : Machine β) (o : Operation) : m.owed ≤ (m.execute o).owed := by
  cases hb : o.isBranch
  case false => exact Nat.le_of_eq (owed_execute m hb).symm
  case true =>
    obtain ⟨condition, hc⟩ := exists_branch hb m
    rw [hc]
    exact owed_le_branch m condition

/-- An instruction charges at least the base cycles of its opcode. -/
theorem baseCycles_le_cost (m : Machine β) :
    (Opcode.lookup m.begin.latches.opcode).baseCycles ≤ m.cost := by
  have hb : m.begin.owed = (Opcode.lookup m.begin.latches.opcode).baseCycles := rfl
  rw [← hb, ← owed_resolve m.begin (Opcode.lookup m.begin.latches.opcode).mode]
  unfold cost instruction
  simp only
  split
  · exact Nat.le_trans (owed_le_execute _ _) (Nat.le_add_right _ 1)
  · exact owed_le_execute _ _

/-- **An instruction charges at least two cycles.** -/
theorem two_le_cost (m : Machine β) : 2 ≤ m.cost :=
  Nat.le_trans (Opcode.two_le_baseCycles _) (baseCycles_le_cost m)

end Machine

end Core6502
