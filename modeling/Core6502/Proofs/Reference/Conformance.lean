import Core6502.Proofs.Clock.Frame
import Core6502.Proofs.Reference.Frame
import Core6502.Proofs.Reference.View

/-!
# The machine conforms to the reference

The machine resolves an operand, executes and charges; the reference has one equation for all of
it. They meet in the view.

* `view_execute`: an operation whose operand has been resolved does what the reference says.
* `view_instruction`, `view_clock`: so does an instruction, and the clock that performs it.
* **`clock_conforms`** adds that nothing else changes.
-/

namespace Core6502.Machine

open Reference

variable (m : Machine Memory)

/-! ## Operations -/

/-- The place of a result is the accumulator in implied mode, whatever the address. -/
theorem putBack_congr (s : State) {mode : AddressingMode} {i j : Word} (r : Byte)
    (h : mode ≠ .implied → i = j) : s.putBack mode i r = s.putBack mode j r := by
  by_cases hi : mode = .implied
  · unfold State.putBack
    rw [if_pos hi, if_pos hi]
  · rw [h hi]

/-- **An operation does what the reference says**, whichever mode its operand came in. -/
theorem view_execute {o : Operation} {mode : AddressingMode} {ea : Word} {v : Byte}
    (hm : m.mode = mode) (h : o.admits mode = true) (he : mode ≠ .implied → m.target mode = ea)
    (hv : mode ≠ .relative → m.operandByte mode = v) :
    (m.execute o).view = m.view.transfer mode ea v o := by
  have hoperand : o.isBranch = false → m.operandByte mode = v := fun hb =>
    hv (Operation.ne_relative_of_admits h hb)
  have haddress : o.isBranch = false → mode ≠ .implied → m.latches.address = ea := fun hb hi => by
    rw [← he hi]
    unfold target
    rw [if_neg (Operation.ne_relative_of_admits h hb)]
  have hoffset : o.isBranch = true → m.registers.pc + m.latches.offset = ea := fun hb => by
    obtain rfl := Operation.eq_relative_of_admits h hb
    rw [← he (by decide)]
    rfl
  cases o
  case lda | ldx | ldy | and | ora | eor | adc | sbc | cmp | cpx | cpy | bit =>
    rw [execute, view_withOperand, hm, hoperand rfl]
    first
      | exact State.mk_loadA _ _ _
      | exact State.mk_loadX _ _ _
      | exact State.mk_loadY _ _ _
      | exact State.mk_add _ _ _
      | exact State.mk_subtract _ _ _
      | exact State.mk_compare _ _ _ _
      | exact State.mk_testBits _ _ _
  case sta | stx | sty =>
    rw [execute, view_store, haddress rfl (Operation.ne_implied_of_admits h rfl)]
    rfl
  case asl | rol =>
    rw [execute, view_shift, hm, hoperand rfl, putBack_congr _ _ (haddress rfl), shiftLeft_eq]
    rfl
  case lsr | ror =>
    rw [execute, view_shift, hm, hoperand rfl, putBack_congr _ _ (haddress rfl), shiftRight_eq]
    rfl
  case inc =>
    rw [execute, m.view_modify (hm ▸ Operation.ne_implied_of_admits h rfl), hm, hoperand rfl,
      putBack_congr _ _ (haddress rfl), Byte.add_eq_exact]
    rfl
  case dec =>
    have hd : v + 255 = Byte.exact (v.toNat - 1) := Byte.eq_exact (by
      rw [UInt8.toNat_add, show (255 : Byte).toNat = 255 from rfl]
      omega)
    rw [execute, m.view_modify (hm ▸ Operation.ne_implied_of_admits h rfl), hm, hoperand rfl,
      putBack_congr _ _ (haddress rfl), hd]
    rfl
  case inx | iny =>
    rw [execute, view_modifyRegisters, Byte.add_eq_exact]
    first
      | exact State.mk_loadX _ _ _
      | exact State.mk_loadY _ _ _
  case dex | dey =>
    rw [execute, view_modifyRegisters, Byte.sub_eq_exact]
    first
      | exact State.mk_loadX _ _ _
      | exact State.mk_loadY _ _ _
  case tax | tay | tsx | txa | tya =>
    rw [execute, view_modifyRegisters]
    first
      | exact State.mk_loadA _ _ _
      | exact State.mk_loadX _ _ _
      | exact State.mk_loadY _ _ _
  case bcc | bcs | bne | beq | bpl | bmi | bvc | bvs =>
    rw [execute, view_branch, hoffset rfl]
    rfl
  case jmp =>
    rw [execute, view_jumpTo, haddress rfl (Operation.ne_implied_of_admits h rfl)]
    rfl
  case jsr =>
    rw [execute, view_callSubroutine, haddress rfl (Operation.ne_implied_of_admits h rfl)]
    rfl
  case rts => exact m.view_returnFromSubroutine
  case rti => exact m.view_returnFromInterrupt
  case brk => exact m.view_forceInterrupt rfl rfl
  case pha | php => exact m.view_push _
  case pla => exact m.view_pullAccumulator
  case plp => exact m.view_pullStatus
  -- Flags, and what does nothing
  all_goals rfl

/-! ## One instruction -/

/-- An instruction begins by stepping over its bytes. -/
theorem view_resolve_begin (mode : AddressingMode) :
    (m.begin.resolve mode).2.view =
      m.view.goto (Word.exact (m.registers.pc.toNat + (1 + mode.operandLength))) := by
  have h : m.registers.pc + 1 + UInt16.ofNat mode.operandLength =
      Word.exact (m.registers.pc.toNat + (1 + mode.operandLength)) := by
    rw [← Word.exact_add_ofNat, ← Word.exact_add_one, Word.exact_exact_add, Int.add_assoc]
  rw [view_resolve, view_begin, ← h]
  rfl

/-- **An instruction does what the reference says.** -/
theorem view_instruction :
    m.instruction.view = m.view.step m.options.indirectPageWrap := by
  have hi : m.instruction.view =
      ((m.begin.resolve m.view.entry.mode).2.execute m.view.entry.operation).view :=
    instruction_frame (f := view) (fun _ _ => rfl) m
  have ha : m.view.entry.operation.admits m.view.entry.mode = true := Opcode.admits_lookup _
  have hm : (m.begin.resolve m.view.entry.mode).2.mode = m.view.entry.mode :=
    m.begin.mode_resolve _
  rw [hi, view_execute _ hm ha m.target_resolve m.operandByte_resolve, view_resolve_begin]
  rfl

/-- A clock at a boundary does what the reference says of one instruction. -/
theorem view_clock (h : m.owed = 0) :
    m.clock.view = m.view.step m.options.indirectPageWrap := by
  rw [clock_of_boundary h, view_pay, view_instruction]

/-- **Conformance.** At every instruction boundary one clock does to the registers and the bytes
of memory what the reference says of the instruction at the program counter, and changes no
register, no flag and no cell but those its operation may change. -/
theorem clock_conforms (h : m.owed = 0) :
    m.clock.view = m.view.step m.options.indirectPageWrap ∧
      State.Preserves m.view.entry.mode
        (m.view.effective m.options.indirectPageWrap m.view.entry.mode) m.view.entry.operation
        m.view.past m.clock.view := by
  have hv := view_clock m h
  refine ⟨hv, ?_⟩
  rw [hv]
  exact State.transfer_preserves _

/-- Adding 80 and 80 with the decimal flag set: the sum is binary, and too large for a signed
byte. -/
theorem clock_conforms_add :
    (atRest ⟨80, 0, 0, 0xFD, 0x8000, { Status.initial with decimalMode := true }⟩
      ((Memory.zero.set 0x8000 0x69).set 0x8001 80)).clock.registers =
      ⟨160, 0, 0, 0xFD, 0x8002,
        { Status.initial with decimalMode := true, negative := true, overflow := true }⟩ := by
  rw [← view_registers, (clock_conforms (atRest _ _) rfl).1]
  decide +kernel

end Core6502.Machine
