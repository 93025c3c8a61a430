import Core6502.Proofs.Reference.Addressing

/-!
# What each operation of the machine does to the view

A machine over memory is watched through `Machine.view`. Each function an instruction is made of
has one equation here that says what it does to the view, in the words of the reference; nothing
after this module unfolds those functions.

* `view_resolve`, `target_resolve`, `operandByte_resolve`: addressing moves the program counter
  past the operand and leaves the effective address and the operand of the reference.
* `view_push`, `view_pull`, `view_pushWord`, `view_pullWord`: the stack.
* `view_withOperand`, `view_shift`, `view_modify`, `view_branch`: the families of operations.
* `view_callSubroutine`, `view_returnFromSubroutine`, `view_forceInterrupt`,
  `view_returnFromInterrupt`: the changes of control through the stack.
-/

namespace Core6502

/-! ## Arithmetic on registers -/

/-- Zero and negative from a result, as the reference judges it. -/
theorem Status.withResult_eq (p : Status) (r : Byte) :
    p.withResult r =
      { p with zero := decide (r.toNat = 0), negative := decide (128 ≤ r.toNat) } := by
  have hz : (r == 0) = decide (r.toNat = 0) := by
    rw [beq_eq_decide, decide_eq_decide, ← UInt8.toNat_inj]
    rfl
  unfold Status.withResult
  rw [hz, Byte.bit_seven]

namespace Reference.State

variable (r : Registers) (memory : Word → Byte)

theorem mk_loadA (v : Byte) : (⟨r.loadA v, memory⟩ : State) = toA ⟨r, memory⟩ v := by
  unfold Registers.loadA
  rw [Status.withResult_eq]
  rfl

theorem mk_loadX (v : Byte) : (⟨r.loadX v, memory⟩ : State) = toX ⟨r, memory⟩ v := by
  unfold Registers.loadX
  rw [Status.withResult_eq]
  rfl

theorem mk_loadY (v : Byte) : (⟨r.loadY v, memory⟩ : State) = toY ⟨r, memory⟩ v := by
  unfold Registers.loadY
  rw [Status.withResult_eq]
  rfl

/-- Addition, with the flags that the exact totals give. -/
theorem mk_add (v : Byte) :
    (⟨r.add v, memory⟩ : State) =
      total ⟨r, memory⟩ (r.a.toNat + v.toNat + r.status.carry.toNat)
        (r.a.signed + v.signed + r.status.carry.toNat) 256 := by
  have hc : decide (255 < wideSum r.a v r.status.carry) =
      decide ((256 : Int) ≤ r.a.toNat + v.toNat + r.status.carry.toNat) := by
    rw [carry_wideSum, decide_eq_decide]
    omega
  unfold Registers.add
  rw [mk_loadA, overflow_wideSum, hc, low_wideSum]
  rfl

/-- Subtraction: adding the complement gives the flags of the exact difference. -/
theorem mk_subtract (v : Byte) :
    (⟨r.subtract v, memory⟩ : State) =
      total ⟨r, memory⟩ (r.a.toNat - v.toNat - (1 - r.status.carry.toNat))
        (r.a.signed - v.signed - (1 - r.status.carry.toNat)) 0 := by
  have hv := v.toNat_lt
  have hn : ((~~~v).toNat : Int) = 255 - v.toNat := by
    rw [Byte.toNat_not]
    omega
  have hs : r.a.signed + (-1 - v.signed) + r.status.carry.toNat =
      r.a.signed - v.signed - (1 - r.status.carry.toNat) := by omega
  have hr : Byte.exact (r.a.toNat + (255 - v.toNat) + r.status.carry.toNat) =
      Byte.exact (r.a.toNat - v.toNat - (1 - r.status.carry.toNat)) :=
    Byte.exact_congr (by omega)
  have hc : decide ((256 : Int) ≤ r.a.toNat + (255 - v.toNat) + r.status.carry.toNat) =
      decide ((0 : Int) ≤ r.a.toNat - v.toNat - (1 - r.status.carry.toNat)) := by
    rw [decide_eq_decide]
    omega
  unfold Registers.subtract
  rw [mk_add, hn, Byte.signed_not, hs]
  unfold total
  rw [hr, hc]

theorem mk_compare (value v : Byte) :
    (⟨r.compare value v, memory⟩ : State) = compare ⟨r, memory⟩ value v := by
  unfold Registers.compare
  rw [Status.withResult_eq, Byte.sub_eq_exact]
  rfl

theorem mk_testBits (v : Byte) : (⟨r.testBits v, memory⟩ : State) = test ⟨r, memory⟩ v := by
  have hz : (r.a &&& v == 0) = decide ((r.a &&& v).toNat = 0) := by
    rw [beq_eq_decide, decide_eq_decide, ← UInt8.toNat_inj]
    rfl
  unfold Registers.testBits
  rw [hz, Byte.bit_seven, Byte.bit_six]
  rfl

end Reference.State

/-! ## The state around an instruction -/

namespace Machine

open Reference

variable (m : Machine Memory)

theorem view_pay : m.pay.view = m.view := rfl

theorem view_jumpTo (target : Word) : (m.jumpTo target).view = m.view.goto target := rfl

theorem read_eq (address : Word) : m.read address = (m.view.memory address, m) := rfl

theorem view_write (address : Word) (value : Byte) :
    (m.write address value).view = m.view.store address value := by
  unfold view write State.store
  simp only [Memory.write_eq, Memory.get_set]

theorem view_begin : m.begin.view = m.view.goto (m.registers.pc + 1) := rfl

/-! ## Addressing -/

/-- The effective address as the latches hold it: a branch adds its offset when it is taken. -/
def target (mode : AddressingMode) : Word :=
  if mode = .relative then m.registers.pc + m.latches.offset else m.latches.address

/-- The operand as the latches lead to it. -/
def operandByte (mode : AddressingMode) : Byte :=
  if mode = .implied then m.latches.operand else m.view.memory m.latches.address

/-- Resolving steps over the operand bytes and shows a program nothing else. -/
theorem view_resolve (mode : AddressingMode) :
    (m.resolve mode).2.view =
      m.view.goto (m.registers.pc + UInt16.ofNat mode.operandLength) := by
  rw [resolve_eq, Word.exact_add_ofNat]
  rfl

/-- **Resolving leaves the effective address of the reference.** -/
theorem target_resolve {mode : AddressingMode} (h : mode ≠ .implied) :
    (m.begin.resolve mode).2.target mode =
      m.view.effective m.options.indirectPageWrap mode := by
  have hregisters : m.begin.registers = { m.registers with pc := m.registers.pc + 1 } := rfl
  have hoptions : m.begin.options = m.options := rfl
  have hbytes : m.begin.bus.get = m.bus.get := rfl
  rw [resolve_eq]
  cases mode
  case implied => exact absurd rfl h
  case relative =>
    show Word.exact (m.begin.registers.pc.toNat + 1) +
      Word.exact (m.begin.bus.get m.begin.registers.pc).signed = _
    rw [hregisters, hbytes, Word.exact_add_one, ← Word.signExtend_eq_exact, Word.add_signExtend,
      ← Word.exact_add_two, Word.exact_exact_add, ← Word.exact_add_one]
    rfl
  all_goals
    show Word.exact (State.base _ _ _ + State.index _ _) = _
    simp only [State.base, State.index, State.effective, byteAt_view, pairAt_view, view_registers,
      hregisters, hoptions, hbytes, Word.exact_toNat, Word.exact_add_one, Word.exact_add_two,
      Int.add_zero]

/-- **Resolving leaves the operand of the reference.** -/
theorem operandByte_resolve {mode : AddressingMode} (h : mode ≠ .relative) :
    (m.begin.resolve mode).2.operandByte mode =
      m.view.operand m.options.indirectPageWrap mode := by
  by_cases hi : mode = .implied
  · subst hi
    rfl
  · have ht := m.target_resolve hi
    have hb : (m.begin.resolve mode).2.view.memory = m.view.memory := by
      rw [view_resolve]
      rfl
    unfold target at ht
    unfold operandByte State.operand
    rw [if_neg hi, if_neg hi, ← ht, if_neg h, hb]

/-! ## The stack -/

theorem cell_view (n : Byte) (k : Int) (h : (n.toNat : Int) = (m.registers.sp.toNat + k) % 256) :
    m.view.cell k = stackBase + n.toUInt16 := by
  have hn := n.toNat_lt
  unfold State.cell
  rw [Word.add_eq_exact, UInt8.toNat_toUInt16, show stackBase.toNat = 256 from rfl, view_registers,
    ← h]
  rfl

theorem view_push (v : Byte) : (m.push v).view = m.view.push v := by
  have hc : m.view.cell 0 = stackBase + m.registers.sp.toUInt16 :=
    m.cell_view m.registers.sp 0 (by have := m.registers.sp.toNat_lt; omega)
  have hs : Byte.exact (m.registers.sp.toNat + -1) = m.registers.sp - 1 := by
    rw [Byte.sub_eq_exact]
    rfl
  unfold State.push push
  rw [hc, ← view_write]
  simp only [State.lift, view, write, hs]

theorem pull_eq :
    m.pull = (m.view.memory (m.view.cell 1),
      { m with registers.sp := Byte.exact (m.registers.sp.toNat + 1) }) := by
  have hs : m.registers.sp + 1 = Byte.exact (m.registers.sp.toNat + 1) := Byte.add_eq_exact _ 1
  have hc : m.view.cell 1 = stackBase + (m.registers.sp + 1).toUInt16 :=
    m.cell_view _ 1 (by rw [hs, Byte.toNat_exact])
  unfold pull
  rw [hc, ← hs]
  rfl

theorem view_pull : m.pull.2.view = m.view.lift 1 := by
  rw [pull_eq]
  rfl

theorem view_pushWord (w : Word) : (m.pushWord w).view = m.view.pushWord w.toNat := by
  unfold pushWord State.pushWord
  rw [view_push, view_push, Word.high_eq_exact, Word.low_eq_exact]

theorem view_pullWord : m.pullWord.2.view = m.view.lift 2 := by
  unfold pullWord
  simp only
  rw [view_pull, view_pull, State.lift_lift]
  rfl

theorem pullWord_fst : m.pullWord.1 = Word.exact (m.view.topWord 0) := by
  have hv : m.pull.2.view = m.view.lift 1 := m.view_pull
  unfold pullWord
  simp only
  rw [pull_eq m.pull.2, hv, State.cell_lift, State.memory_lift, m.pull_eq, Word.ofBytes_eq_exact]
  rfl

/-! ## The families of operations -/

theorem view_modifyRegisters (f : Registers → Registers) :
    (m.modifyRegisters f).view = ⟨f m.registers, m.view.memory⟩ := rfl

theorem operand_eq : m.operand.1 = m.operandByte m.mode ∧ m.operand.2.view = m.view := by
  unfold operand operandByte
  split <;> exact ⟨rfl, rfl⟩

theorem view_withOperand (f : Registers → Byte → Registers) :
    (m.withOperand f).view = ⟨f m.registers (m.operandByte m.mode), m.view.memory⟩ := by
  obtain ⟨hb, hv⟩ := m.operand_eq
  unfold withOperand
  simp only
  rw [view_modifyRegisters, hb, hv, ← view_registers, hv]
  rfl

theorem view_writeBack (result : Byte) :
    (m.writeBack result).view = m.view.putBack m.mode m.latches.address result := by
  unfold writeBack State.putBack
  rw [← view_write]
  simp only [Status.withResult_eq]
  split <;> rfl

theorem view_shift (f : Byte → Bool → Byte × Bool) :
    (m.shift f).view =
      (m.view.setCarry (f (m.operandByte m.mode) m.registers.status.carry).2).putBack m.mode
        m.latches.address (f (m.operandByte m.mode) m.registers.status.carry).1 := by
  obtain ⟨hb, hv⟩ := m.operand_eq
  have hm : ∀ c, { m.operand.2 with registers.status.carry := c }.mode = m.mode := fun _ =>
    m.mode_operand
  unfold shift
  simp only
  rw [view_writeBack, hm, hb, address_operand, ← hv]
  rfl

/-- The memory counters put their result back as the shifts do, in the modes that they have. -/
theorem view_modify (h : m.mode ≠ .implied) (delta : Byte) :
    (m.modify delta).view =
      m.view.putBack m.mode m.latches.address (m.operandByte m.mode + delta) := by
  obtain ⟨hb, hv⟩ := m.operand_eq
  unfold modify State.putBack
  simp only
  rw [if_neg h, view_modifyRegisters, ← hb, ← hv, ← address_operand, ← view_write,
    Status.withResult_eq]
  rfl

theorem view_store (value : Byte) :
    (m.store value).view = m.view.store m.latches.address value :=
  m.view_write m.latches.address value

theorem view_branch (condition : Bool) :
    (m.branch condition).view =
      if condition = true then m.view.goto (m.registers.pc + m.latches.offset) else m.view := by
  cases condition <;> rfl

/-! ## The operations on the stack -/

theorem view_callSubroutine :
    m.callSubroutine.view =
      (m.view.pushWord (m.registers.pc.toNat - 1)).goto m.latches.address := by
  have hp := m.registers.pc.toNat_lt
  unfold callSubroutine
  rw [view_jumpTo, view_pushWord]
  refine congrArg (State.goto · m.latches.address) (State.pushWord_congr _ ?_)
  rw [← Word.exact_sub_one, Word.toNat_exact]
  omega

theorem view_returnFromSubroutine :
    m.returnFromSubroutine.view =
      (m.view.lift 2).goto (Word.exact (m.view.topWord 0 + 1)) := by
  unfold returnFromSubroutine
  simp only
  rw [view_jumpTo, view_pullWord, pullWord_fst, ← Word.exact_add_one, Word.exact_exact_add]

theorem view_returnFromInterrupt :
    m.returnFromInterrupt.view = { (m.view.lift 3).goto (Word.exact (m.view.topWord 1)) with
      registers.status :=
        State.withoutBreak (Status.ofBits (m.view.memory (m.view.cell 1))) } := by
  have hs : Status.ofPulled m.pull.1 =
      { Status.ofBits (m.view.memory (m.view.cell 1)) with unused := true } := by
    rw [m.pull_eq]
    rfl
  have hl : (m.view.lift 1).lift 2 = m.view.lift 3 := m.view.lift_lift 1 2
  have ht : (m.view.lift 1).topWord 0 = m.view.topWord 1 := m.view.topWord_lift 1 0
  unfold returnFromInterrupt
  simp only
  rw [view_jumpTo, view_pullWord, pullWord_fst, hs, ← hl, ← ht, ← m.view_pull]
  rfl

/-- Turning to the handler of an interrupt. -/
theorem view_vector :
    ((m.readWord irqVector).2.jumpTo (m.readWord irqVector).1).view =
      m.view.goto (Word.exact (m.view.pairAt 0xFFFE 0xFFFF)) := by
  rw [pairAt_view, Word.exact_toNat]
  rfl

theorem view_forceInterrupt {p : Status} {t : State}
    (hp : p = { m.registers.status with interruptDisable := true })
    (ht : t = (m.view.pushWord (m.registers.pc.toNat + 1)).push (State.withBreak p).bits) :
    m.forceInterrupt.view = { t.goto (Word.exact (t.pairAt 0xFFFE 0xFFFF)) with
      registers.status := { p with brk := false } } := by
  -- The machine before its pushes
  let n : Machine Memory := { m.jumpTo (m.registers.pc + 1) with registers.status := p }
  have hw : n.view.pushWord n.registers.pc.toNat =
      n.view.pushWord (m.registers.pc.toNat + 1) := by
    refine State.pushWord_congr _ ?_
    show ((m.registers.pc + 1).toNat : Int) % 65536 = _
    rw [← Word.exact_add_one, Word.toNat_exact]
    omega
  have hv : ((n.pushWord n.registers.pc).push (State.withBreak p).bits).view =
      { t with registers := { t.registers with pc := m.registers.pc + 1, status := p } } := by
    rw [view_push, view_pushWord, hw, ht]
    rfl
  unfold forceInterrupt
  simp only
  rw [view_vector]
  subst hp
  exact congrArg (fun s : State => State.goto { s with registers.status.brk := false }
    (Word.exact (s.pairAt 0xFFFE 0xFFFF))) hv

theorem view_pullAccumulator :
    m.pullAccumulator.view = (m.view.lift 1).toA (m.view.memory (m.view.cell 1)) := by
  unfold pullAccumulator
  simp only
  rw [view_modifyRegisters, view_pull, State.mk_loadA, m.pull_eq]
  rfl

theorem view_pullStatus :
    m.pullStatus.view = { m.view.lift 1 with
      registers.status :=
        { Status.ofBits (m.view.memory (m.view.cell 1)) with unused := true } } := by
  unfold pullStatus
  simp only
  rw [m.pull_eq]
  rfl

end Machine

end Core6502
