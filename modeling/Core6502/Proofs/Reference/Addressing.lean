import Core6502.Proofs.Memory
import Core6502.Proofs.Reference.Basic

/-!
# Effective addresses in whole numbers

Before an operation its operand bytes are read and stepped over, and what the operation needs is
latched. In whole numbers an address is a `base`, found modulo 256 in the zero page and modulo 65536
elsewhere, and an `index`; indexing leaves the page of the base when the index carries out of its
low byte. This holds of any machine over memory, wherever its program counter points.

* `pairAt_view`, `pointerHigh_eq`: pointers, and where their high byte lies.
* **`resolve_eq`**: all that addressing does to a machine.
* `resolve_fst_iff`: what it reports.
* **`resolve_computes`** puts these together.
-/

namespace Core6502

namespace Reference.State

variable (s : State)

/-- The address that the operand bytes at the program counter name, before an index is added to it:
from the operand byte `b` or the operand word `w`. The indices of the zero page are part of it, for
there they wrap. In implied and relative mode no address is named. -/
def base (wrap : Bool) (mode : AddressingMode) : Int :=
  let pc : Int := s.registers.pc.toNat
  let x : Int := s.registers.x.toNat
  let y : Int := s.registers.y.toNat
  let b := s.byteAt pc
  let w := s.pairAt pc (pc + 1)
  match mode with
  | .implied | .relative => 0
  | .immediate => pc
  | .zeroPage => b
  | .zeroPageX => (b + x) % 256
  | .zeroPageY => (b + y) % 256
  | .absolute | .absoluteX | .absoluteY => w
  | .indirect => s.pairAt w (if wrap = true ∧ w % 256 = 255 then w - 255 else w + 1)
  | .indirectX => s.pairAt ((b + x) % 256) ((b + x + 1) % 256)
  | .indirectY => s.pairAt b ((b + 1) % 256)

/-- The index that is added to the base address. -/
def index : AddressingMode → Int
  | .absoluteX => s.registers.x.toNat
  | .absoluteY | .indirectY => s.registers.y.toNat
  | _ => 0

/-- What addressing leaves in the latches: the accumulator, the offset of a branch or an
address. -/
def latched (wrap : Bool) (latches : Latches) : AddressingMode → Latches
  | .implied => { latches with operand := s.registers.a }
  | .relative => { latches with offset := Word.exact (s.memory s.registers.pc).signed }
  | mode => { latches with address := Word.exact (s.base wrap mode + s.index mode) }

end Reference.State

namespace Machine

open Reference

variable (m : Machine Memory)

@[simp] theorem view_registers : m.view.registers = m.registers := rfl

@[simp] theorem view_memory : m.view.memory = m.bus.get := rfl

/-! ## Pointers -/

theorem byteAt_view (address : Int) :
    m.view.byteAt address = (m.bus.get (Word.exact address)).toNat := rfl

theorem pairAt_view (lowAt highAt : Int) :
    m.view.pairAt lowAt highAt =
      (Word.ofBytes (m.bus.get (Word.exact lowAt)) (m.bus.get (Word.exact highAt))).toNat := by
  rw [Word.toNat_ofBytes]
  unfold State.pairAt
  rw [byteAt_view, byteAt_view]
  omega

/-- Where the high byte of a pointer lies, in whole numbers. -/
theorem pointerHigh_eq (options : Options) (p : Word) :
    pointerHigh options p =
      Word.exact (if options.indirectPageWrap = true ∧ (p.toNat : Int) % 256 = 255
        then p.toNat - 255 else p.toNat + 1) := by
  have hp := p.toNat_lt
  have hl : Word.low p = 0xFF ↔ (p.toNat : Int) % 256 = 255 := by
    rw [← UInt8.toNat_inj, Word.toNat_low, show (0xFF : Byte).toNat = 255 from rfl]
    omega
  unfold pointerHigh
  simp only [Bool.and_eq_true, beq_iff_eq, hl]
  split
  · apply Word.eq_exact
    rw [Word.toNat_ofBytes, Word.toNat_high, show (0 : Byte).toNat = 0 from rfl]
    omega
  · exact (Word.exact_add_one p).symm

/-! ## Addresses -/

/-- **What addressing does**: it steps over the operand bytes and leaves in the latches what the
operation needs. Everything else stays as it was. -/
theorem resolve_eq (mode : AddressingMode) :
    (m.resolve mode).2 = { m with
      registers.pc := Word.exact (m.registers.pc.toNat + mode.operandLength)
      latches := m.view.latched m.options.indirectPageWrap m.latches mode } := by
  have h2 : m.registers.pc + UInt16.ofNat 2 = m.registers.pc + 1 + 1 := by
    show m.registers.pc + 2 = m.registers.pc + 1 + 1
    grind
  rw [Word.exact_add_ofNat]
  cases mode
  all_goals
    unfold State.latched
    simp only [AddressingMode.operandLength, State.base, State.index, byteAt_view, pairAt_view,
      view_registers, view_memory, Word.exact_toNat, Word.exact_add_one, Int.add_zero]
  case implied =>
    rw [show m.registers.pc + UInt16.ofNat 0 = m.registers.pc from UInt16.add_zero _]
    rfl
  case immediate => rfl
  case zeroPage =>
    rw [← Byte.toUInt16_eq_exact]
    rfl
  case zeroPageX | zeroPageY =>
    rw [Word.exact_add_mod]
    rfl
  case relative =>
    rw [← Word.signExtend_eq_exact]
    rfl
  case absolute =>
    rw [h2]
    rfl
  case absoluteX | absoluteY =>
    rw [Word.exact_add_byte, h2]
    rfl
  case indirect =>
    rw [← pointerHigh_eq, h2]
    rfl
  case indirectX =>
    rw [Word.exact_add_mod, Word.exact_add_succ_mod]
    rfl
  case indirectY =>
    rw [← Byte.toUInt16_eq_exact, Word.exact_succ_mod, Word.exact_add_byte]
    rfl

/-- **What addressing reports**: that the index carries out of the low byte of the base address. -/
theorem resolve_fst_iff (mode : AddressingMode) :
    (m.resolve mode).1 = true ↔ mode ∈ [.absoluteX, .absoluteY, .indirectY] ∧
      256 ≤ m.view.base m.options.indirectPageWrap mode % 256 + m.view.index mode := by
  cases mode
  case absoluteX | absoluteY =>
    simp only [State.base, State.index, pairAt_view, view_registers, Word.exact_toNat,
      Word.exact_add_one, List.mem_cons, true_or, or_true, true_and]
    show Word.crossesPage _ (_ + _) = true ↔ _
    rw [Word.crossesPage_add, decide_eq_true_iff]
    exact Iff.rfl
  case indirectY =>
    simp only [State.base, State.index, byteAt_view, pairAt_view, view_registers, Word.exact_toNat,
      Word.exact_succ_mod, ← Byte.toUInt16_eq_exact, List.mem_cons, true_or, or_true, true_and]
    show Word.crossesPage _ (_ + _) = true ↔ _
    rw [Word.crossesPage_add, decide_eq_true_iff]
    exact Iff.rfl
  all_goals
    refine iff_of_false Bool.false_ne_true fun h => ?_
    exact absurd h.1 (by decide)

/-- **Addressing computes in whole numbers.** In every mode and from every state it steps over the
operand bytes and latches what the operation needs, and nothing else changes: the accumulator in
implied mode, the signed operand byte in relative mode, and else the address, which is the base with
the index added, modulo 65536. A branch therefore counts from the address after its operand. An
extra cycle is reported when one of the three indexed modes of sixteen bits carries out of the low
byte of its base, also where the address wraps. -/
theorem resolve_computes (m : Machine Memory) :
    let s := m.view
    let wrap := m.options.indirectPageWrap
    (∀ mode : AddressingMode,
      (m.resolve mode).2 = { m with
        registers.pc := Word.exact (m.registers.pc.toNat + mode.operandLength)
        latches := s.latched wrap m.latches mode } ∧
      ((m.resolve mode).1 = true ↔ mode ∈ [.absoluteX, .absoluteY, .indirectY] ∧
        256 ≤ s.base wrap mode % 256 + s.index mode)) ∧
    let branch := (m.resolve .relative).2
    branch.registers.pc + branch.latches.offset =
      Word.exact (branch.registers.pc.toNat + (m.bus.get m.registers.pc).signed) := by
  refine ⟨fun mode => ⟨m.resolve_eq mode, m.resolve_fst_iff mode⟩, ?_⟩
  rw [resolve_eq]
  show _ + Word.exact (m.bus.get m.registers.pc).signed = _
  rw [← Word.signExtend_eq_exact, Word.add_signExtend]

end Machine

end Core6502
