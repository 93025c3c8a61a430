import Core6502.Proofs.Bus.Recording
import Core6502.Proofs.History.Simulation
import Core6502.Proofs.Reference.Basic

/-!
# Nothing is left over in the latches

The latches carry one instruction from decoding to execution, and each addressing mode sets only
one of them. What an instruction finds in the others is left over from earlier instructions, and no
operation looks at it: the opcode table pairs every operation with a mode that sets the latch it
uses.

`Alike` machines have the same registers, debt, options and bus, and any latches.

* `Alike.resolve`: addressing sets the latch that `Latches.AgreeOn` its mode speaks of.
* `Ready.execute`: an operation that admits the mode of its opcode looks at that latch and the
  opcode alone.
* `Alike.instruction`, `Alike.simulation`: alike machines stay alike.
* **`latches_inert`**: through any history alike machines return the same, make the same accesses
  to the bus and stay alike.
-/

universe u

namespace Core6502

/-- Two sets of latches hold the same in the one that an addressing mode sets. -/
def Latches.AgreeOn (mode : AddressingMode) (l l' : Latches) : Prop :=
  match mode with
  | .implied => l.operand = l'.operand
  | .relative => l.offset = l'.offset
  | _ => l.address = l'.address

theorem Latches.agreeOn_iff {mode : AddressingMode} {l l' : Latches} (hi : mode ≠ .implied)
    (hr : mode ≠ .relative) : AgreeOn mode l l' ↔ l.address = l'.address := by
  cases mode
  case implied => exact absurd rfl hi
  case relative => exact absurd rfl hr
  all_goals exact Iff.rfl

namespace Machine

variable {β : Type u}

/-- **Alike machines** differ at most in their latches, their clocks so far and their journals. -/
structure Alike (m n : Machine β) : Prop where
  registers : m.registers = n.registers
  owed : m.owed = n.owed
  options : m.options = n.options
  bus : m.bus = n.bus

namespace Alike

variable {m n : Machine β}

theorem exists_eq (h : Alike m n) :
    ∃ l t j, n = { m with latches := l, clocks := t, journal := j } := by
  obtain ⟨hr, ho, hp, hb⟩ := h
  refine ⟨n.latches, n.clocks, n.journal, ?_⟩
  rw [hr, ho, hp, hb]

theorem modifyRegisters (h : Alike m n) (f : Registers → Registers) :
    Alike (m.modifyRegisters f) (n.modifyRegisters f) :=
  ⟨congrArg f h.registers, h.owed, h.options, h.bus⟩

theorem jumpTo (h : Alike m n) {v w : Word} (hv : v = w) : Alike (m.jumpTo v) (n.jumpTo w) :=
  hv ▸ h.modifyRegisters fun r => { r with pc := v }

theorem branch (h : Alike m n) (hl : m.latches.offset = n.latches.offset) (condition : Bool) :
    Alike (m.branch condition) (n.branch condition) := by
  obtain ⟨l, t, j, rfl⟩ := h.exists_eq
  have hl' : m.latches.offset = l.offset := hl
  unfold Machine.branch
  rw [hl']
  split <;> exact ⟨rfl, rfl, rfl, rfl⟩

variable [Bus β]

theorem write (h : Alike m n) {v w : Word} (hv : v = w) {b c : Byte} (hb : b = c) :
    Alike (m.write v b) (n.write w c) := by
  subst hv hb
  exact ⟨h.registers, h.owed, h.options, by simp only [Machine.write, h.bus]⟩

/-- **Resolving sets the latch of its mode**, whatever the latches held before. -/
theorem resolve (h : Alike m n) (mode : AddressingMode) :
    (m.resolve mode).1 = (n.resolve mode).1 ∧ Alike (m.resolve mode).2 (n.resolve mode).2 ∧
      (m.resolve mode).2.latches.AgreeOn mode (n.resolve mode).2.latches := by
  obtain ⟨l, t, j, rfl⟩ := h.exists_eq
  cases mode <;> exact ⟨rfl, ⟨rfl, rfl, rfl, rfl⟩, rfl⟩

end Alike

/-- **Machines that are ready for the same operation**: alike ones that agree on the opcode and on
the latch that its mode sets. -/
structure Ready (m n : Machine β) : Prop extends Alike m n where
  opcode : m.latches.opcode = n.latches.opcode
  latch : m.latches.AgreeOn m.mode n.latches

namespace Ready

variable {m n : Machine β}

theorem mode_eq (h : Ready m n) : m.mode = n.mode :=
  congrArg (fun opcode => (Opcode.lookup opcode).mode) h.opcode

theorem modifyRegisters (h : Ready m n) (f : Registers → Registers) :
    Ready (m.modifyRegisters f) (n.modifyRegisters f) :=
  ⟨h.toAlike.modifyRegisters f, h.opcode, h.latch⟩

variable [Bus β]

/-- The operand comes from the latch that the mode sets. -/
theorem operand (h : Ready m n) (hm : m.mode ≠ .relative) :
    m.operand.1 = n.operand.1 ∧ Ready m.operand.2 n.operand.2 := by
  have hl := h.latch
  unfold Machine.operand read
  rw [← h.mode_eq]
  by_cases hi : m.mode = .implied
  · rw [hi] at hl
    rw [if_pos hi, if_pos hi]
    exact ⟨hl, h⟩
  · have ha := (Latches.agreeOn_iff hi hm).mp hl
    rw [if_neg hi, if_neg hi, ha, h.bus]
    exact ⟨rfl, ⟨h.registers, h.owed, h.options, rfl⟩, h.opcode,
      (Latches.agreeOn_iff hi hm).mpr ha⟩

theorem writeBack (h : Ready m n) (hm : m.mode ≠ .relative) (result : Byte) :
    Alike (m.writeBack result) (n.writeBack result) := by
  unfold Machine.writeBack
  rw [← h.mode_eq]
  by_cases hi : m.mode = .implied
  · rw [if_pos hi, if_pos hi]
    exact h.toAlike.modifyRegisters fun r =>
      { r with a := result, status := r.status.withResult result }
  · rw [if_neg hi, if_neg hi]
    exact (h.toAlike.write ((Latches.agreeOn_iff hi hm).mp h.latch) rfl).modifyRegisters fun r =>
      { r with status := r.status.withResult result }

theorem withOperand (h : Ready m n) (hm : m.mode ≠ .relative) (f : Registers → Byte → Registers) :
    Alike (m.withOperand f) (n.withOperand f) := by
  obtain ⟨hv, hr⟩ := h.operand hm
  unfold Machine.withOperand
  simp only [hv]
  exact hr.toAlike.modifyRegisters _

theorem shift (h : Ready m n) (hm : m.mode ≠ .relative) (f : Byte → Bool → Byte × Bool) :
    Alike (m.shift f) (n.shift f) := by
  obtain ⟨hv, hr⟩ := h.operand hm
  let s := f n.operand.1 n.registers.status.carry
  have hs := hr.modifyRegisters fun r => { r with status := { r.status with carry := s.2 } }
  unfold Machine.shift
  simp only [hv, h.registers]
  exact hs.writeBack (m.mode_operand.trans_ne hm) s.1

theorem modify (h : Ready m n) (hm : m.mode ≠ .relative) (hi : m.mode ≠ .implied) (delta : Byte) :
    Alike (m.modify delta) (n.modify delta) := by
  obtain ⟨hv, hr⟩ := h.operand hm
  have hmode := m.mode_operand
  have ha := (Latches.agreeOn_iff (hmode.trans_ne hi) (hmode.trans_ne hm)).mp hr.latch
  unfold Machine.modify
  simp only [hv]
  exact (hr.toAlike.write ha rfl).modifyRegisters _

/-- **An operation looks at the opcode and the latch that its mode sets**, and at no other. -/
theorem execute {o : Operation} (h : Ready m n) (ho : o.admits m.mode = true) :
    Alike (m.execute o) (n.execute o) := by
  have hm : o.isBranch = false → m.mode ≠ .relative := Operation.ne_relative_of_admits ho
  have hoffset : o.isBranch = true → m.latches.offset = n.latches.offset := fun hb => by
    have hl := h.latch
    rw [Operation.eq_relative_of_admits ho hb] at hl
    exact hl
  have hi : o.needsAddress = true → m.mode ≠ .implied := Operation.ne_implied_of_admits ho
  have haddress : o.isBranch = false → o.needsAddress = true →
      m.latches.address = n.latches.address :=
    fun hb hn => (Latches.agreeOn_iff (hi hn) (hm hb)).mp h.latch
  have ha := h.toAlike
  cases o
  case lda | ldx | ldy | and | ora | eor | adc | sbc | cmp | cpx | cpy | bit =>
    simp only [Machine.execute]
    exact h.withOperand (hm rfl) _
  case asl | lsr | rol | ror =>
    simp only [Machine.execute]
    exact h.shift (hm rfl) _
  case inc | dec => exact h.modify (hm rfl) (hi rfl) _
  case bcc | bcs | bne | beq | bpl | bmi | bvc | bvs =>
    simp only [Machine.execute, h.registers]
    exact ha.branch (hoffset rfl) _
  case sta | stx | sty =>
    simp only [Machine.execute, store, h.registers]
    exact ha.write (haddress rfl rfl) rfl
  case jmp => exact ha.jumpTo (haddress rfl rfl)
  case jsr =>
    have hp : Alike (m.pushWord (m.registers.pc - 1)) (n.pushWord (n.registers.pc - 1)) := by
      obtain ⟨l, t, j, rfl⟩ := ha.exists_eq
      exact ⟨rfl, rfl, rfl, rfl⟩
    exact hp.jumpTo (haddress rfl rfl)
  all_goals
    obtain ⟨l, t, j, rfl⟩ := ha.exists_eq
    exact ⟨rfl, rfl, rfl, rfl⟩

end Ready

namespace Alike

variable {m n : Machine β} [Bus β]

/-- **Alike machines perform the same instruction.** -/
theorem instruction (h : Alike m n) : Alike m.instruction n.instruction := by
  have hb : Alike m.begin n.begin := by
    obtain ⟨l, t, j, rfl⟩ := h.exists_eq
    exact ⟨rfl, rfl, rfl, rfl⟩
  have ho : m.begin.latches.opcode = n.begin.latches.opcode := by
    obtain ⟨l, t, j, rfl⟩ := h.exists_eq
    rfl
  obtain ⟨hx, hr, hl⟩ := hb.resolve m.begin.mode
  have hmode := m.begin.mode_resolve m.begin.mode
  have ready : Ready (m.begin.resolve m.begin.mode).2 (n.begin.resolve m.begin.mode).2 :=
    ⟨hr, by rw [opcode_resolve, opcode_resolve, ho], hmode.symm ▸ hl⟩
  have hadmits : (Opcode.lookup m.begin.latches.opcode).operation.admits
      (m.begin.resolve m.begin.mode).2.mode = true := by
    rw [hmode]
    exact Opcode.admits_lookup _
  have he := ready.execute hadmits
  unfold mode at hx he
  unfold Machine.instruction
  simp only [← ho]
  rw [← hx]
  split
  · exact ⟨he.registers, congrArg (· + 1) he.owed, he.options, he.bus⟩
  · exact he

theorem clock (h : Alike m n) : Alike m.clock n.clock := by
  have hi := h.instruction
  unfold Machine.clock
  rw [h.owed]
  split
  · exact ⟨hi.registers, congrArg (· - 1) hi.owed, hi.options, hi.bus⟩
  · exact ⟨h.registers, congrArg (· - 1) h.owed, h.options, h.bus⟩

theorem irq (h : Alike m n) : Alike m.irq n.irq := by
  obtain ⟨l, t, j, rfl⟩ := h.exists_eq
  unfold Machine.irq
  split <;> exact ⟨rfl, rfl, rfl, rfl⟩

/-- Every atomic command keeps machines alike. -/
theorem simulation : Simulation (β := β) (fun _ _ => True) Alike where
  owed := Alike.owed
  act {m n c} hc _ h := by
    cases c
    case step | run => exact absurd hc Bool.noConfusion
    case clock => exact h.clock
    case irq => exact h.irq
    all_goals
      obtain ⟨l, t, j, rfl⟩ := h.exists_eq
      exact ⟨rfl, rfl, rfl, rfl⟩

end Alike

/-- **Nothing is left over in the latches.** Two machines on recorded buses with the same
registers, debt, options and bus, whatever their latches hold, answer every history of commands
alike, make the same accesses in the same order, and end it with the same registers, debt, options
and memory. -/
theorem latches_inert [Bus β] {m n : Machine (Recorder β)} (h : Alike m n)
    (history : List Command) :
    (m.performAll history).1 = (n.performAll history).1 ∧
      (m.performAll history).2.bus.accesses = (n.performAll history).2.bus.accesses ∧
      Alike (m.performAll history).2 (n.performAll history).2 := by
  obtain ⟨hreplies, hm⟩ := Alike.simulation.performAll h history fun _ _ => trivial
  exact ⟨hreplies, by rw [hm.bus], hm⟩

/-- A machine on a recorded bus at ASL A, STA $20, BNE -2. -/
def shifting : Machine (Recorder Memory) :=
  (atRest ⟨0x81, 0, 0, 0xFD, 0x8000, Status.initial⟩
    (Memory.zero.overlay 0x8000 [0x0A, 0x85, 0x20, 0xD0, 0xFE])).recorded

/-- The same machine with every latch left over from elsewhere. -/
def shiftingStale : Machine (Recorder Memory) :=
  { shifting with latches := ⟨0xFF, 0x1234, 0xFF80, 0x6C⟩ }

theorem accesses_shiftingStale :
    Alike shiftingStale shifting ∧
      (shiftingStale.performAll [.step, .irq, .run 20]).2.bus.accesses =
        (shifting.performAll [.step, .irq, .run 20]).2.bus.accesses := by
  have h : Alike shiftingStale shifting := ⟨rfl, rfl, rfl, rfl⟩
  exact ⟨h, (latches_inert h [.step, .irq, .run 20]).2.1⟩

end Machine

end Core6502
