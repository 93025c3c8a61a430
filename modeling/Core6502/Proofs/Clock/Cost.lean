import Core6502.Proofs.Bus.Traffic
import Core6502.Proofs.Clock.Checked

/-!
# What an instruction costs

The machine charges the base cycles of the opcode table, lets addressing and operation agree on one
more for a page cross, and lets a branch add its own. `Reference.State.cycles` says in whole numbers
what that comes to: one cycle when an index carries out of the low byte of its base, unless the
instruction writes memory; and for a taken branch one cycle, or two when it leaves the page of the
next instruction.

* `paysPageCross_eq`: which operations ask for the cycle of an index; `resolve_fst`: what addressing
  reports; `writes_eq_nil_iff`: which instructions write nothing.
* `cost_eq`: an instruction charges the cycles of the reference.
* **`step_costs`**: so a step returns them, between two and eight.
-/

universe u

namespace Core6502

/-! ## The cycles of the reference -/

namespace Reference.State

variable (s : State)

/-- Whether the mode adds an index that carries out of the low byte of its base address. -/
def carries (mode : AddressingMode) : Bool :=
  let pc : Int := s.registers.pc.toNat
  let x : Int := s.registers.x.toNat
  let y : Int := s.registers.y.toNat
  let b := s.byteAt (pc + 1)
  let w := s.pairAt (pc + 1) (pc + 2)
  match mode with
  | .absoluteX => 256 ≤ w % 256 + x
  | .absoluteY => 256 ≤ w % 256 + y
  | .indirectY => 256 ≤ s.pairAt b ((b + 1) % 256) % 256 + y
  | _ => false

/-- The cycle for such a carry, which only an instruction that writes no memory pays. -/
def pageCycle (wrap : Bool) : Nat :=
  if s.carries s.entry.mode = true ∧ s.writes wrap = [] then 1 else 0

/-- The cycles that a branch adds when its condition holds: two when it leaves the page of the next
instruction. -/
def branchCycles : Nat :=
  let next := Word.exact (s.registers.pc.toNat + 2)
  let target : Int := next.toNat % 256 + (s.memory (Word.exact (s.registers.pc.toNat + 1))).signed
  if s.entry.operation.branches s.registers.status = true then
    if 0 ≤ target ∧ target ≤ 255 then 1 else 2
  else 0

/-- **The cycles of one instruction.** -/
def cycles (wrap : Bool) : Nat := s.entry.baseCycles + s.pageCycle wrap + s.branchCycles

end Reference.State

/-! ## Page crosses -/

namespace Opcode

/-- Apart from the no-operation, an operation that comes with an index that may carry pays for it
unless it writes. -/
theorem paysPageCross_of_ne_nop (opcode : Byte) : (lookup opcode).operation ≠ .nop →
    (lookup opcode).mode ∈ [.absoluteX, .absoluteY, .indirectY] →
      (lookup opcode).operation.paysPageCross opcode =
        !((lookup opcode).operation.isStore || (lookup opcode).operation.modifiesOperand) :=
  Byte.forall_of_fin
    (P := fun b => (lookup b).operation ≠ .nop →
      (lookup b).mode ∈ [.absoluteX, .absoluteY, .indirectY] →
        (lookup b).operation.paysPageCross b =
          !((lookup b).operation.isStore || (lookup b).operation.modifiesOperand))
    (by decide +kernel) opcode

/-- **The instructions with an index that may carry pay for it unless they write.** The
no-operation never writes, and its list of opcodes has those with such an index. -/
theorem paysPageCross_eq {opcode : Byte}
    (h : (lookup opcode).mode ∈ [.absoluteX, .absoluteY, .indirectY]) :
    (lookup opcode).operation.paysPageCross opcode =
      !((lookup opcode).operation.isStore || (lookup opcode).operation.modifiesOperand) := by
  by_cases hn : (lookup opcode).operation = .nop
  · have hl : opcode ∈ Operation.payingNops := (mem_payingNops_iff opcode).mpr ⟨hn, h⟩
    rw [hn]
    exact List.contains_iff_mem.mpr hl
  · exact paysPageCross_of_ne_nop opcode hn h

end Opcode

namespace Reference.State

variable (s : State)

theorem mem_of_carries {mode : AddressingMode} (h : s.carries mode = true) :
    mode ∈ [.absoluteX, .absoluteY, .indirectY] := by
  cases mode <;> first | decide | exact absurd h Bool.noConfusion

/-- With an index that may carry, only stores and the operations that replace their operand
write. -/
theorem written_eq_nil_iff {o : Operation} {mode : AddressingMode} (ea : Word)
    (ha : o.admits mode = true) (hm : mode ∈ [.absoluteX, .absoluteY, .indirectY]) :
    s.written mode ea o = [] ↔ (o.isStore || o.modifiesOperand) = false := by
  have hi : mode ≠ .implied := by
    rintro rfl
    exact absurd hm (by decide)
  cases o
  case pha | php | jsr | brk =>
    exfalso
    rcases List.mem_cons.mp hm with rfl | hm
    · exact absurd ha (by decide)
    · rcases List.mem_cons.mp hm with rfl | hm
      · exact absurd ha (by decide)
      · rcases List.mem_singleton.mp hm with rfl
        exact absurd ha (by decide)
  case asl | lsr | rol | ror | inc | dec =>
    simp [written, hi, Operation.isStore, Operation.modifiesOperand]
  all_goals simp [written, Operation.isStore, Operation.modifiesOperand]

end Reference.State

namespace Machine

open Reference

variable (m : Machine Memory)

/-- **Addressing reports the carry of the index.** -/
theorem resolve_fst (mode : AddressingMode) :
    (m.begin.resolve mode).1 = m.view.carries mode := by
  have hregisters : m.begin.registers = { m.registers with pc := m.registers.pc + 1 } := rfl
  have hbytes : m.begin.bus.get = m.bus.get := rfl
  rw [Bool.eq_iff_iff, resolve_fst_iff]
  cases mode
  case absoluteX | absoluteY | indirectY =>
    simp only [State.carries, State.base, State.index, byteAt_view, pairAt_view, view_registers,
      hregisters, hbytes, Word.exact_toNat, Word.exact_add_one, Word.exact_add_two, List.mem_cons,
      true_or, or_true, true_and, decide_eq_true_iff]
  all_goals exact iff_of_false (fun h => absurd h.1 (by decide)) Bool.false_ne_true

/-- **An instruction pays for a page cross** when its index carries and it writes nothing. -/
theorem crosses_iff :
    m.crosses = true ↔ m.view.carries m.view.entry.mode = true ∧
      m.view.writes m.options.indirectPageWrap = [] := by
  have ha : m.view.entry.operation.admits m.view.entry.mode = true := Opcode.admits_lookup _
  let pays := m.view.entry.operation.paysPageCross m.begin.latches.opcode
  have hc : m.crosses = (m.view.carries m.view.entry.mode && pays) :=
    congrArg (· && pays) (m.resolve_fst m.view.entry.mode)
  rw [hc, Bool.and_eq_true]
  refine and_congr_right fun hcarry => ?_
  have hm := m.view.mem_of_carries hcarry
  have hp : pays = _ := Opcode.paysPageCross_eq hm
  unfold State.writes
  rw [hp, Bool.not_eq_true', m.view.written_eq_nil_iff _ ha hm]
  exact Iff.rfl

/-! ## Branches -/

section Branch

variable {β : Type u} [Bus β]

/-- A branch operation branches on its own condition. -/
theorem execute_of_isBranch {o : Operation} (h : o.isBranch = true) (m : Machine β) :
    m.execute o = m.branch (o.branches m.registers.status) := by
  cases o
  case bcc | bcs | bne | beq | bpl | bmi | bvc | bvs => rfl
  all_goals exact absurd h Bool.noConfusion

omit [Bus β] in
theorem owed_branch (m : Machine β) (condition : Bool) :
    (m.branch condition).owed = m.owed + if condition = true then
      if Word.crossesPage m.registers.pc (m.registers.pc + m.latches.offset) then 2 else 1
    else 0 := by
  cases condition <;> rfl

/-- What a branch counts from and its offset, once they are resolved. -/
theorem resolved_of_relative (m : Machine β) (h : m.entry.mode = .relative) :
    m.resolved.registers = { m.registers with pc := Word.exact (m.registers.pc.toNat + 2) } ∧
      m.resolved.latches.offset = Byte.signExtend m.begin.fetchByte.1 := by
  have hr : m.resolved = (m.begin.resolve .relative).2 :=
    congrArg (fun mode => (m.begin.resolve mode).2) h
  rw [hr, Word.exact_add_two]
  exact ⟨rfl, rfl⟩

end Branch

/-- **An operation adds the cycles of a taken branch** to its base cycles. -/
theorem owed_executed : m.executed.owed = m.view.entry.baseCycles + m.view.branchCycles := by
  have ho : m.resolved.owed = m.view.entry.baseCycles := m.owed_resolved
  have ha : m.view.entry.operation.admits m.view.entry.mode = true := Opcode.admits_lookup _
  cases hb : m.view.entry.operation.isBranch with
  | false =>
    have hn : m.view.entry.operation.branches m.registers.status ≠ true := fun h => by
      rw [Operation.isBranch_of_branches h] at hb
      exact Bool.noConfusion hb
    have hx : m.executed.owed = m.resolved.owed := owed_execute m.resolved hb
    unfold State.branchCycles
    rw [hx, ho, view_registers, if_neg hn, Nat.add_zero]
  | true =>
    have hm : m.view.entry.mode = .relative := Operation.eq_relative_of_admits ha hb
    have hx : m.executed = m.resolved.branch
        (m.view.entry.operation.branches m.resolved.registers.status) :=
      execute_of_isBranch hb m.resolved
    have hf : m.begin.fetchByte.1 = m.view.memory (Word.exact (m.registers.pc.toNat + 1)) := by
      rw [Word.exact_add_one]
      rfl
    obtain ⟨hr, ho'⟩ := m.resolved_of_relative hm
    unfold State.branchCycles
    rw [hx, owed_branch, ho, hr, ho', hf, Word.crossesPage_signExtend]
    simp only [view_registers, Bool.not_eq_true', decide_eq_false_iff_not, ite_not]
    rfl

/-! ## The whole cost -/

/-- **An instruction charges the cycles of the reference.** -/
theorem cost_eq : m.cost = m.view.cycles m.options.indirectPageWrap := by
  have hx := m.owed_executed
  unfold cost State.cycles State.pageCycle
  rw [instruction_eq]
  by_cases h : m.crosses = true
  · rw [if_pos h, if_pos (m.crosses_iff.mp h), Nat.add_right_comm, ← hx]
    rfl
  · rw [if_neg h, if_neg (mt m.crosses_iff.mpr h), Nat.add_zero, ← hx]

/-- A branch has no index, and what has an index does not branch. -/
theorem pageCycle_or_branchCycles (wrap : Bool) :
    m.view.pageCycle wrap = 0 ∨ m.view.branchCycles = 0 := by
  by_cases h : m.view.entry.operation.branches m.view.registers.status = true
  · have ha : m.view.entry.operation.admits m.view.entry.mode = true := Opcode.admits_lookup _
    have hm : m.view.entry.mode = .relative :=
      Operation.eq_relative_of_admits ha (Operation.isBranch_of_branches h)
    refine .inl (if_neg fun hc => ?_)
    rw [hm] at hc
    exact Bool.noConfusion hc.1
  · exact .inr (if_neg h)

/-! ## Steps -/

/-- The writes that the reference lists are those that a recorder on the bus sees. -/
theorem writes_eq_nil_iff :
    m.view.writes m.options.indirectPageWrap = [] ↔
      ∀ access ∈ m.recorded.step.2.bus.accesses, access.kind ≠ .write := by
  have hs : m.recorded.step.2.bus.accesses = m.recorded.instruction.bus.accesses := by
    rw [step_snd]
  have hstart : m.recorded.bus.accesses = [] := rfl
  rw [hs, m.recorded.exchanges_instruction.accesses, hstart, List.nil_append]
  simp only [List.forall_mem_append, List.forall_mem_map, Access.readOf, Access.writeOf]
  constructor
  · intro h
    rw [show m.recorded.unrecorded.view.writes m.recorded.options.indirectPageWrap = [] from h]
    simp
  · rintro ⟨⟨-, h⟩, -⟩
    exact List.eq_nil_iff_forall_not_mem.mpr fun address ha => h address ha rfl

/-- **The cost of a step.** A step returns what its instruction charges: the base cycles, one more
when an index carries out of the low byte of its base and the instruction writes no memory, and for
a branch whose condition holds one more, or two when its offset leads out of the low byte of the
next instruction's address. It is never both, and between two and eight in all. -/
theorem step_costs (m : Machine Memory) :
    let s := m.view
    let wrap := m.options.indirectPageWrap
    m.step.1 = m.cost ∧
      m.cost = s.entry.baseCycles + s.pageCycle wrap + s.branchCycles ∧
      (s.writes wrap = [] ↔
        ∀ access ∈ m.recorded.step.2.bus.accesses, access.kind ≠ .write) ∧
      (s.pageCycle wrap = 0 ∨ s.branchCycles = 0) ∧ 2 ≤ m.cost ∧ m.cost ≤ 8 := by
  intro s wrap
  exact ⟨congrArg Prod.fst m.step_eq, m.cost_eq, m.writes_eq_nil_iff,
    m.pageCycle_or_branchCycles wrap, m.two_le_cost, m.cost_le_eight⟩

end Machine

end Core6502
