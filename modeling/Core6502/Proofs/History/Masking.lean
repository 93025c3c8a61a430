import Core6502.Proofs.History.Flags
import Core6502.Proofs.History.Moments
import Core6502.Proofs.Status

/-!
# Interrupt requests stay masked

While the interrupt-disable flag is set, an interrupt request does nothing but leave a note in the
journal. Entering a handler sets the flag, and only CLI, PLP, RTI, a reset or a setter clears it.
So requests do not nest until the program, or the owner of the machine, lets them.

* `masked_execute`, `masked_act`: what keeps the flag set.
* `masked_of_entersHandler`: an interrupt by hardware or by software sets it.
* `heldBack_of_masked`: along a trail that starts with the flag set, requests are held back up to
  the first command that may clear it.
* **`requests_stay_masked`** says so of whole histories.
-/

universe u

namespace Core6502

/-- Whether an operation may clear the interrupt-disable flag. -/
def Operation.unmasks : Operation → Bool
  | cli | plp | rti => true
  | _ => false

namespace Machine

variable {β : Type u}

/-- Whether interrupt requests are held back. -/
def masked (m : Machine β) : Bool := m.registers.status.interruptDisable

variable [Bus β]

/-- Whether a command may let interrupt requests through: the clock that performs an operation which
may, a reset, or a setter that clears the flag. -/
def unmasks (m : Machine β) : Command → Bool
  | .clock => m.complete && m.next.unmasks
  | .reset => true
  | .setFlags mask on => !on && mask.interruptDisable
  | _ => false

/-- Whether a command enters an interrupt handler: the clock that performs BRK, a request that is
taken, or a non-maskable interrupt. -/
def entersHandler (m : Machine β) : Command → Bool
  | .clock => m.complete && m.next == .brk
  | .irq => !m.masked
  | .nmi => true
  | _ => false

/-- **Requests are held back** at every moment up to the first command that may let them through:
the flag is set there, and a request changes nothing but the journal. -/
def HeldBack (t : List (Machine β × Command)) : Prop :=
  ∀ s p r, t = s ++ p :: r → (∀ q ∈ s, q.1.unmasks q.2 = false) →
    p.1.masked = true ∧ (p.2 = .irq → p.1.irq = p.1.record (.irqMasked p.1.registers.pc))

/-! ## What keeps the flag set -/

/-- Of the operations that may change the flag, BRK and SEI set it. -/
theorem masked_execute (m : Machine β) {o : Operation} (ho : o.unmasks = false)
    (h : m.masked = true) : (m.execute o).masked = true := by
  cases hf : o.flags.interruptDisable with
  | false => exact (Status.flag_of_diff (fun _ _ _ => rfl) hf (m.status_execute o)).trans h
  | true =>
    cases o
    case brk => exact congrArg Status.interruptDisable m.status_forceInterrupt
    case sei => rfl
    case cli | plp | rti => exact absurd ho Bool.noConfusion
    all_goals exact absurd hf Bool.noConfusion

theorem masked_resolved (m : Machine β) : m.resolved.masked = m.masked :=
  congrArg Status.interruptDisable (status_resolve m.begin _)

theorem masked_instruction (m : Machine β) : m.instruction.masked = m.executed.masked :=
  instruction_frame (f := masked) (fun _ _ => rfl) m

/-- **A command that may not clear the flag keeps it set.** -/
theorem masked_act {m : Machine β} {c : Command} (hc : c.isAtomic = true)
    (hu : m.unmasks c = false) (h : m.masked = true) : (m.act c).masked = true := by
  cases c
  case step | run => exact absurd hc Bool.noConfusion
  case clock =>
    show (if m.owed = 0 then m.instruction else m).masked = true
    split
    case isTrue ho =>
      have hn : m.next.unmasks = false := by
        simpa only [unmasks, complete, ho, BEq.rfl, Bool.true_and] using hu
      rw [masked_instruction]
      exact masked_execute _ hn (m.masked_resolved.trans h)
    case isFalse => exact h
  case reset => exact absurd hu Bool.noConfusion
  case irq =>
    show m.irq.masked = true
    unfold irq
    split
    case isTrue => exact h
    case isFalse => rfl
  case nmi => rfl
  case setFlags mask on =>
    have hm : on = false → mask.interruptDisable = false := by
      rintro rfl
      exact hu
    exact Status.flag_set (fun _ _ _ => rfl) hm h
  all_goals exact h

/-- **Entering a handler sets the flag.** -/
theorem masked_of_entersHandler {m : Machine β} {c : Command} (h : m.entersHandler c = true) :
    (m.act c).masked = true := by
  cases c
  case clock =>
    obtain ⟨ho, hn⟩ := Bool.and_eq_true_iff.mp h
    have hb : m.entry.operation = .brk := eq_of_beq hn
    have hx : m.executed = m.resolved.forceInterrupt := by
      unfold executed
      rw [hb]
      rfl
    show (if m.owed = 0 then m.instruction else m).masked = true
    rw [if_pos (eq_of_beq ho), masked_instruction, hx]
    exact congrArg Status.interruptDisable m.resolved.status_forceInterrupt
  case irq =>
    have hm : ¬ m.registers.status.interruptDisable = true :=
      Bool.eq_false_iff.mp ((Bool.not_eq_true' _).mp h)
    show m.irq.masked = true
    unfold irq
    rw [if_neg hm]
    rfl
  case nmi => rfl
  all_goals exact absurd h Bool.noConfusion

/-! ## Along a trail -/

/-- A masked request only leaves a note. -/
theorem irq_of_masked {m : Machine β} (h : m.masked = true) :
    m.irq = m.record (.irqMasked m.registers.pc) := if_pos h

theorem masked_of_trail {m n : Machine β} {t : List (Machine β × Command)} (ht : Trail m t n)
    (hu : ∀ q ∈ t, q.1.unmasks q.2 = false) (h : m.masked = true) : n.masked = true := by
  refine (ht.always (P := fun k => k.masked = true) ?_ h).2
  intro k c hk hc
  exact masked_act hc (hu (k, c) hk)

/-- **From a machine that holds requests back, a trail holds them back.** -/
theorem heldBack_of_masked {m n : Machine β} {t : List (Machine β × Command)} (ht : Trail m t n)
    (h : m.masked = true) : HeldBack t := by
  rintro s p r rfl hu
  have hp : p.1.masked = true := masked_of_trail ht.split.1 hu h
  exact ⟨hp, fun _ => irq_of_masked hp⟩

/-! ## Histories -/

/-- **Interrupt requests do not nest.** From a machine with the interrupt-disable flag set, every
history holds requests back until a command may clear the flag, and leaves it set if none may. And
from any machine, once a moment of a history enters an interrupt handler, requests are held back
from there on until a command may clear the flag. -/
theorem requests_stay_masked (m : Machine β) (history : List Command) :
    (m.masked = true →
      HeldBack (m.moments history) ∧
        ((∀ p ∈ m.moments history, p.1.unmasks p.2 = false) →
          (m.performAll history).2.masked = true)) ∧
    ∀ s p r, m.moments history = s ++ p :: r → p.1.entersHandler p.2 = true → HeldBack r := by
  have trail := m.trail_moments history
  constructor
  · intro h
    exact ⟨heldBack_of_masked trail h, fun hu => masked_of_trail trail hu h⟩
  · intro s p r hs hp
    rw [hs] at trail
    exact heldBack_of_masked trail.split.2 (masked_of_entersHandler hp)

/-- A machine whose interrupt handler is LDA #$01, STA $20, RTI. -/
def handling : Machine Memory :=
  atRest ⟨0, 0, 0, 0xFD, 0x8000, Status.initial⟩
    ((Memory.zero.overlay 0x9000 [0xA9, 0x01, 0x85, 0x20, 0x40]).setVector irqVector 0x9000)

/-- A request in the handler does nothing, and the flag stays set up to its end. -/
theorem irq_handling :
    let inside := (handling.performAll [.irq, .step, .clock]).2
    handling.entersHandler .irq = true ∧ inside.irq = inside.record (.irqMasked 0x9004) ∧
      ((handling.act .irq).performAll [.step, .step]).2.masked = true := by
  intro inside
  have enters : handling.entersHandler .irq = true := rfl
  have hm : handling.moments [.irq, .step, .clock, .irq] =
      [] ++ (handling, .irq) :: ((handling.act .irq).moments [.step, .clock] ++ [(inside, .irq)]) :=
    congrArg _ ((handling.act .irq).moments_append [.step, .clock] [.irq])
  have held := (requests_stay_masked handling [.irq, .step, .clock, .irq]).2 [] _ _ hm enters
  have hu : ∀ q ∈ (handling.act .irq).moments [.step, .clock], q.1.unmasks q.2 = false := by
    decide +kernel
  have hpc : inside.registers.pc = 0x9004 := by decide +kernel
  have hi := (held _ (inside, .irq) [] rfl hu).2 rfl
  rw [hpc] at hi
  obtain ⟨-, stays⟩ := (requests_stay_masked (handling.act .irq) [.step, .step]).1 rfl
  exact ⟨enters, hi, stays (by decide +kernel)⟩

end Machine

end Core6502
