import Core6502.Proofs.History.Simulation
import Core6502.Proofs.Stack.Nesting

/-!
# Flags that no operation reads

Operations read the carry, zero, overflow and negative flags, and interrupt requests the
interrupt-disable flag. The other three are only carried about: the break and unused flags of the
live register are masked out of every copy on the stack, and decimal mode shows in such a copy
alone. So what these flags hold in the live register makes no difference.

`Machine.fade mask` clears the unread flags of a mask, and two machines are the same but for these
flags when it makes them equal.

* `fade_execute`, `fade_interrupt`: fading first leaves the outcome the same but for these flags.
* `simulation_fade`: so machines that are the same but for unread flags stay so, as long as no
  decimal flag among them is pushed.
* `top_of_pushesStatus`: the break flag of a pushed status tells an interrupt by software.
* **`unread_flags_inert`** puts these together.
-/

universe u

namespace Core6502

/-! ## Fading -/

namespace Status

/-- The break flag and the unused flag. -/
def breakUnused : Status := { empty with brk := true, unused := true }

/-- The decimal-mode flag. -/
def decimal : Status := { empty with decimalMode := true }

/-- The register with those of the three unread flags cleared that are in the mask. -/
def fade (mask p : Status) : Status :=
  { p with
    decimalMode := p.decimalMode && !mask.decimalMode
    brk := p.brk && !mask.brk
    unused := p.unused && !mask.unused }

variable {mask : Status}

theorem fade_fade (p : Status) : fade mask (fade mask p) = fade mask p := by
  simp only [fade, Bool.and_assoc, Bool.and_self]

theorem fade_set (p set : Status) (on : Bool) :
    fade mask ((fade mask p).set set on) = fade mask (p.set set on) := by
  have hb : ∀ a b c : Bool, ((a && !b || c) && !b) = ((a || c) && !b) := by decide
  have hd : ∀ a b c : Bool, (a && !b && !c && !b) = (a && !c && !b) := by decide
  cases on <;> simp [Status.set, union, diff, zipWith, fade, hb, hd]

theorem pushedByBreak_fade (hd : mask.decimalMode = false) (p : Status) :
    (fade mask p).pushedByBreak = p.pushedByBreak := by
  simp only [pushedByBreak, fade, hd, Bool.not_false, Bool.and_true]

end Status

namespace Registers

/-- The registers with unread flags cleared. -/
def fade (mask : Status) (r : Registers) : Registers :=
  { r with status := Status.fade mask r.status }

end Registers

/-- Whether an operation pushes the status. -/
def Operation.pushesStatus : Operation → Bool
  | php | brk => true
  | _ => false

namespace Machine

variable {β : Type u}

/-- The machine with unread flags cleared. -/
def fade (mask : Status) (m : Machine β) : Machine β := m.modifyRegisters (Registers.fade mask)

/-- The operation at the program counter. -/
def next [Bus β] (m : Machine β) : Operation :=
  (Opcode.lookup (Bus.read m.bus m.registers.pc).1).operation

/-- Whether a command pushes the status: when it is the clock that performs an operation which does,
or an interrupt that is taken. -/
def pushesStatus [Bus β] (m : Machine β) : Command → Bool
  | .clock => m.complete && m.next.pushesStatus
  | .irq => !m.registers.status.interruptDisable
  | .nmi => true
  | _ => false

/-! ## Commands on faded machines -/

variable {mask : Status} (m : Machine β)

theorem fade_fade : (m.fade mask).fade mask = m.fade mask := by
  unfold fade modifyRegisters Registers.fade
  simp only [Status.fade_fade]

theorem fade_of_eq {m n : Machine β} (h : n = m.fade mask) : n.fade mask = m.fade mask := by
  rw [h, fade_fade]

theorem fade_branch (condition : Bool) :
    (m.fade mask).branch condition = (m.branch condition).fade mask := by
  cases condition <;> rfl

variable [Bus β]

theorem fade_resolve (mode : AddressingMode) :
    (m.fade mask).resolve mode = ((m.resolve mode).1, (m.resolve mode).2.fade mask) := by
  cases mode <;> rfl

theorem fade_operand : (m.fade mask).operand = (m.operand.1, m.operand.2.fade mask) := by
  have hm : (m.fade mask).mode = m.mode := rfl
  unfold operand
  rw [hm]
  split <;> rfl

theorem fade_writeBack (result : Byte) :
    (m.fade mask).writeBack result = (m.writeBack result).fade mask := by
  have hm : (m.fade mask).mode = m.mode := rfl
  unfold writeBack
  rw [hm]
  split <;> rfl

theorem fade_withOperand {f : Registers → Byte → Registers}
    (hf : ∀ r v, f (Registers.fade mask r) v = Registers.fade mask (f r v)) :
    (m.fade mask).withOperand f = (m.withOperand f).fade mask := by
  unfold withOperand
  rw [fade_operand]
  simp only [modifyRegisters, fade, hf]

theorem fade_shift (f : Byte → Bool → Byte × Bool) :
    (m.fade mask).shift f = (m.shift f).fade mask := by
  unfold shift
  rw [fade_operand]
  exact fade_writeBack { m.operand.2 with registers.status.carry := _ } _

theorem fade_modify (delta : Byte) :
    (m.fade mask).modify delta = (m.modify delta).fade mask := by
  unfold modify
  rw [fade_operand]
  rfl

/-- An interrupt by software pushes the break and unused flags set. -/
theorem fade_forceInterrupt (hd : mask.decimalMode = false) :
    (m.fade mask).forceInterrupt.fade mask = m.forceInterrupt.fade mask := by
  have hb := Status.pushedByBreak_fade hd { m.registers.status with interruptDisable := true }
  unfold Status.fade at hb
  simp only [forceInterrupt, fade, modifyRegisters, Registers.fade, Status.fade, pushWord, push,
    write, readWord, readPair, read, jumpTo, hb, Bool.and_assoc, Bool.and_self, Bool.false_and]

/-- An interrupt pushes the break flag clear and the unused flag set. -/
theorem fade_interrupt (hd : mask.decimalMode = false) (vector : Word) :
    ((m.fade mask).interrupt vector).fade mask = (m.interrupt vector).fade mask := by
  simp only [interrupt, fade, modifyRegisters, Registers.fade, Status.fade, pushWord, push,
    write, readWord, readPair, read, jumpTo, hd, Bool.not_false, Bool.and_true, Bool.false_and]

/-- **An operation carries unread flags along**, or overwrites them; it pushes no decimal flag if
that is one of them. -/
theorem fade_execute {o : Operation} (hd : mask.decimalMode = false ∨ o.pushesStatus = false) :
    ((m.fade mask).execute o).fade mask = (m.execute o).fade mask := by
  cases o
  case lda | ldx | ldy | and | ora | eor | adc | sbc | cmp | cpx | cpy | bit =>
    refine fade_of_eq ?_
    simp only [execute]
    exact m.fade_withOperand fun _ _ => rfl
  case asl | lsr | rol | ror =>
    refine fade_of_eq ?_
    simp only [execute]
    exact m.fade_shift _
  case inc | dec => exact fade_of_eq (m.fade_modify _)
  case bcc | bcs | bne | beq | bpl | bmi | bvc | bvs => exact fade_of_eq (m.fade_branch _)
  case php =>
    refine fade_of_eq ?_
    have hb := Status.pushedByBreak_fade (hd.resolve_right Bool.noConfusion) m.registers.status
    show (m.fade mask).push (Status.fade mask m.registers.status).pushedByBreak = _
    rw [hb]
    rfl
  case brk => exact m.fade_forceInterrupt (hd.resolve_right Bool.noConfusion)
  case plp | rti => rfl
  case cld | sed =>
    simp only [execute, fade, modifyRegisters, Registers.fade, Status.fade, Bool.and_assoc,
      Bool.and_self]
  all_goals exact fade_of_eq rfl

theorem fade_instruction (hd : mask.decimalMode = false ∨ m.next.pushesStatus = false) :
    (m.fade mask).instruction.fade mask = m.instruction.fade mask := by
  have hb : (m.fade mask).begin = m.begin.fade mask := rfl
  have hl : (m.begin.fade mask).latches = m.begin.latches := rfl
  have ho : m.next = (Opcode.lookup m.begin.latches.opcode).operation := rfl
  unfold instruction
  simp only [hb, hl, fade_resolve]
  rw [ho] at hd
  generalize Opcode.lookup m.begin.latches.opcode = entry at hd ⊢
  have he := (m.begin.resolve entry.mode).2.fade_execute hd
  split
  · exact congrArg (fun k => k.charge 1) he
  · exact he

theorem fade_clock (hd : mask.decimalMode = false ∨ m.pushesStatus .clock = false) :
    (m.fade mask).clock.fade mask = m.clock.fade mask := by
  by_cases h : m.owed = 0
  · have hn : m.pushesStatus .clock = m.next.pushesStatus := by
      simp only [pushesStatus, complete, h, BEq.rfl, Bool.true_and]
    rw [hn] at hd
    rw [clock_of_boundary h, clock_of_boundary (m := m.fade mask) h]
    exact congrArg pay (m.fade_instruction hd)
  · rw [clock_of_owed h, clock_of_owed (m := m.fade mask) h]
    exact congrArg pay m.fade_fade

/-- **An atomic command carries unread flags along**, or overwrites them, unless it pushes a decimal
flag that is one of them. -/
theorem fade_act {c : Command} (hc : c.isAtomic = true)
    (hd : mask.decimalMode = false ∨ m.pushesStatus c = false) :
    ((m.fade mask).act c).fade mask = (m.act c).fade mask := by
  cases c
  case step | run => exact absurd hc Bool.noConfusion
  case clock => exact m.fade_clock hd
  case reset => rfl
  case irq =>
    show (m.fade mask).irq.fade mask = m.irq.fade mask
    unfold irq
    show Machine.fade mask (if m.registers.status.interruptDisable = true then _ else _) = _
    split
    case isTrue => exact (m.record (.irqMasked m.registers.pc)).fade_fade
    case isFalse h =>
      have hm := hd.resolve_right fun hp => h ((Bool.not_eq_false' _).mp hp)
      exact congrArg (fun k => { k with owed := 7 })
        ((m.record (.irqTaken m.registers.pc)).fade_interrupt hm irqVector)
  case nmi =>
    have hm := hd.resolve_right Bool.noConfusion
    exact congrArg (fun k => { k with owed := 8 })
      ((m.record (.nmiTaken m.registers.pc)).fade_interrupt hm m.options.nmiVector)
  case setFlags flags on =>
    show modifyRegisters _ _ = modifyRegisters _ _
    exact congrArg (fun p => { m with registers.status := p })
      (Status.fade_set m.registers.status flags on)
  all_goals exact fade_of_eq rfl

theorem pushesStatus_fade (c : Command) :
    (m.fade mask).pushesStatus c = m.pushesStatus c := by
  cases c <;> rfl

/-- Machines that are the same but for unread flags stay so, as long as no decimal flag among these
is pushed. -/
theorem simulation_fade (mask : Status) :
    Simulation (β := β) (fun m c => mask.decimalMode = false ∨ m.pushesStatus c = false)
      (fun m n => m.fade mask = n.fade mask) where
  owed {m n} h := by
    have ho : (m.fade mask).owed = (n.fade mask).owed := by rw [h]
    exact ho
  act {m n c} hc hm h := by
    have hn : mask.decimalMode = false ∨ n.pushesStatus c = false := by
      rwa [← n.pushesStatus_fade c, ← h, m.pushesStatus_fade]
    rw [← m.fade_act hc hm, ← n.fade_act hc hn, h]

/-! ## The pushed copy -/

open Reference in
/-- A status that an entry pushes last is on top of the stack after it. -/
theorem top_of_enters {e : Entry} {m m' : Machine Memory} (he : e.Enters m m') {p : Status}
    {xs : List Byte} (hp : e.pushed m.registers = p.bits :: xs) :
    Byte.bit m'.pull.1 5 = p.unused ∧ Byte.bit m'.pull.1 4 = p.brk := by
  have hs : e.size ≤ 256 := by cases e <;> decide
  have h := Entry.holds_of_enters he (Holds.nil m.view) ((Nat.zero_add _).trans_le hs)
  rw [hp] at h
  have ht : Status.ofBits m'.pull.1 = p := by
    rw [pull_eq]
    show Status.ofBits (m'.view.memory (m'.view.cell 1)) = p
    rw [h.head, Status.ofBits_bits]
  exact ⟨congrArg Status.unused ht, congrArg Status.brk ht⟩

/-- **A pushed status tells where it comes from**: its unused flag is set, and its break flag is set
by an operation and clear by an interrupt. -/
theorem top_of_pushesStatus {m : Machine Memory} {c : Command} (h : m.pushesStatus c = true) :
    Byte.bit (m.act c).pull.1 5 = true ∧ (Byte.bit (m.act c).pull.1 4 = true ↔ c = .clock) := by
  cases c
  case clock =>
    obtain ⟨ho, hn⟩ := Bool.and_eq_true_iff.mp h
    have hc : Byte.bit m.clock.pull.1 5 = true ∧ Byte.bit m.clock.pull.1 4 = true := by
      cases hq : m.next
      case php => exact top_of_enters (e := .php) ⟨eq_of_beq ho, hq, rfl⟩ rfl
      case brk => exact top_of_enters (e := .brk) ⟨eq_of_beq ho, hq, rfl⟩ rfl
      all_goals
        rw [hq] at hn
        exact absurd hn Bool.noConfusion
    exact ⟨hc.1, iff_of_true hc.2 rfl⟩
  case irq =>
    have hi : m.registers.status.interruptDisable = false := (Bool.not_eq_true' _).mp h
    obtain ⟨hu, hb⟩ := top_of_enters (e := .irq) ⟨hi, rfl⟩ rfl
    exact ⟨hu, iff_of_false (Bool.eq_false_iff.mp hb) Command.noConfusion⟩
  case nmi =>
    obtain ⟨hu, hb⟩ := top_of_enters (e := .nmi) rfl rfl
    exact ⟨hu, iff_of_false (Bool.eq_false_iff.mp hb) Command.noConfusion⟩
  all_goals exact absurd h Bool.noConfusion

/-! ## Histories -/

/-- **Flags that no operation reads.** Machines that are the same but for their break and unused
flags answer every history alike and end it the same but for these flags. Every status that a
machine pushes has bit 5 set, and has bit 4 set when an operation pushes it and clear when an
interrupt does. Machines that are the same but for their decimal flags answer a history alike and
end it the same but for these, if no status is pushed in it. -/
theorem unread_flags_inert :
    (∀ (m n : Machine β) (history : List Command),
      m.fade .breakUnused = n.fade .breakUnused →
        (m.performAll history).1 = (n.performAll history).1 ∧
          (m.performAll history).2.fade .breakUnused =
            (n.performAll history).2.fade .breakUnused) ∧
    (∀ (m : Machine Memory) (c : Command), m.pushesStatus c = true →
      Byte.bit (m.act c).pull.1 5 = true ∧ (Byte.bit (m.act c).pull.1 4 = true ↔ c = .clock)) ∧
    (∀ (m n : Machine β) (history : List Command),
      m.fade .decimal = n.fade .decimal → (∀ p ∈ m.moments history, p.1.pushesStatus p.2 = false) →
        (m.performAll history).1 = (n.performAll history).1 ∧
          (m.performAll history).2.fade .decimal = (n.performAll history).2.fade .decimal) := by
  refine ⟨fun m n history h => ?_, fun m c => top_of_pushesStatus, fun m n history h hp => ?_⟩
  · exact (simulation_fade .breakUnused).performAll h history fun _ _ => .inl rfl
  · exact (simulation_fade .decimal).performAll h history fun p hm => .inr (hp p hm)

/-- A machine with a given status at PHP, ADC #$19. -/
def adding (p : Status) : Machine Memory :=
  atRest ⟨0x19, 0, 0, 0xFD, 0x8000, p⟩ (Memory.zero.overlay 0x8000 [0x08, 0x69, 0x19])

/-- The break and unused flags leave no trace in what PHP and an interrupt push, and decimal mode
leaves none in a sum. -/
theorem bus_adding :
    ((adding .breakUnused).performAll [.step, .irq]).2.bus =
        ((adding .empty).performAll [.step, .irq]).2.bus ∧
      Byte.bit ((adding .empty).act .clock).pull.1 4 = true ∧
      ((adding .decimal).performAll [.setPc 0x8001, .step]).2.registers.a =
        ((adding .empty).performAll [.setPc 0x8001, .step]).2.registers.a := by
  obtain ⟨hb, hp, hd⟩ := unread_flags_inert (β := Memory)
  obtain ⟨-, marked⟩ := hb (adding .breakUnused) (adding .empty) [.step, .irq] rfl
  obtain ⟨-, top⟩ := hp (adding .empty) .clock (by decide +kernel)
  obtain ⟨-, sum⟩ := hd (adding .decimal) (adding .empty) [.setPc 0x8001, .step] rfl
    (by decide +kernel)
  exact ⟨congrArg (fun m => m.bus) marked, top.mpr rfl, congrArg (fun m => m.registers.a) sum⟩

end Machine

end Core6502
