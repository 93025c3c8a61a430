import Core6502.Machine.Command
import Core6502.Proofs.History.Moments
import Core6502.Proofs.Listing.Agreement
import Core6502.Proofs.Status

/-!
# The checked clock

A machine counts its debt in a small counter and its clocks in a large one, adds bytes in sixteen
bits, and runs the idle operation for unassigned opcodes only. Nothing in the machine itself watches
over this. `checkedClock` is `clock` with the checks in place: it stops at the first `Fault`.

* `owed_clock_le`, `owed_act_le`: a machine that owes no more than eight cycles never comes to owe
  more, and owes less after a clock.
* `checkedClock_eq`: for such a machine the checks pass.
* `unused_act`: the unused flag stays set until it is cleared by hand.
* **`never_faults`**: so no machine faults on any history since power-on.
-/

universe u

namespace Core6502

/-- What the checks find. -/
inductive Fault where
  /-- The clocks do not fit in 64 bits. -/
  | clocks
  /-- A cycle is paid when none is owed, or charged when eight are owed. -/
  | debt
  /-- A sum does not fit in sixteen bits. -/
  | sum
  /-- The idle operation runs for an assigned opcode. -/
  | assigned
  deriving DecidableEq

/-- Go on if a condition holds, else stop at a fault. -/
def require {α : Type u} (condition : Prop) [Decidable condition] (fault : Fault)
    (next : Except Fault α) : Except Fault α :=
  if condition then next else .error fault

theorem require_of {α : Type u} {condition : Prop} [Decidable condition] {fault : Fault}
    {next : Except Fault α} (h : condition) : require condition fault next = next := if_pos h

namespace Machine

variable {β : Type u}

/-! ## The checks -/

/-- Pay a cycle that is owed. -/
def checkedPay (m : Machine β) : Except Fault (Machine β) :=
  require (m.clocks + 1 < UInt64.size) .clocks <| require (1 ≤ m.owed) .debt <| .ok m.pay

/-- Charge a cycle. -/
def checkedCharge (m : Machine β) : Except Fault (Machine β) :=
  require (m.owed + 1 ≤ 8) .debt <| .ok (m.charge 1)

/-- Branch, charging each cycle by itself. -/
def checkedBranch (m : Machine β) (condition : Bool) : Except Fault (Machine β) :=
  if condition then do
    let target := m.registers.pc + m.latches.offset
    let taken ← m.checkedCharge
    let located := taken.locate target
    let left ← if Word.crossesPage m.registers.pc target then located.checkedCharge else .ok located
    return left.jumpTo target
  else .ok m

/-- Go on if neither addition of a sum overflows. -/
def checkSum (a b : Byte) (carry : Bool) (next : Except Fault (Machine β)) :
    Except Fault (Machine β) :=
  require (a.toNat + b.toNat < UInt16.size) .sum <|
    require ((a.toUInt16 + b.toUInt16).toNat + carry.toNat < UInt16.size) .sum next

variable [Bus β]

/-- Perform an operation: add with sums that are checked, branch with charges that are checked, and
idle for an unassigned opcode only. -/
def checkedExecute (m : Machine β) : Operation → Except Fault (Machine β)
  | .adc => checkSum m.registers.a m.operand.1 m.registers.status.carry <| .ok (m.execute .adc)
  | .sbc =>
    checkSum m.registers.a (~~~m.operand.1) m.registers.status.carry <| .ok (m.execute .sbc)
  | .bcc => m.checkedBranch !m.registers.status.carry
  | .bcs => m.checkedBranch m.registers.status.carry
  | .bne => m.checkedBranch !m.registers.status.zero
  | .beq => m.checkedBranch m.registers.status.zero
  | .bpl => m.checkedBranch !m.registers.status.negative
  | .bmi => m.checkedBranch m.registers.status.negative
  | .bvc => m.checkedBranch !m.registers.status.overflow
  | .bvs => m.checkedBranch m.registers.status.overflow
  | .idle =>
    require ((Opcode.lookup m.latches.opcode).isPlaceholder = true) .assigned <|
      .ok (m.execute .idle)
  | o => .ok (m.execute o)

/-- Perform one whole instruction with the checks in place. -/
def checkedInstruction (m : Machine β) : Except Fault (Machine β) := do
  let m := m.begin
  let entry := Opcode.lookup m.latches.opcode
  let resolved := m.resolve entry.mode
  let done ← resolved.2.checkedExecute entry.operation
  if resolved.1 && entry.operation.paysPageCross m.latches.opcode then done.checkedCharge
  else .ok done

/-- Advance by one clock cycle with the checks in place. -/
def checkedClock (m : Machine β) : Except Fault (Machine β) := do
  let m ← if m.owed = 0 then m.checkedInstruction else .ok m
  m.checkedPay

/-! ## What an instruction charges -/

theorem owed_resolved (m : Machine β) : m.resolved.owed = m.entry.baseCycles :=
  owed_resolve m.begin _

theorem opcode_resolved (m : Machine β) : m.resolved.latches.opcode = m.begin.latches.opcode :=
  opcode_resolve m.begin _

omit [Bus β] in
theorem owed_branch_le (m : Machine β) (condition : Bool) :
    (m.branch condition).owed ≤ m.owed + 2 := by
  cases condition with
  | false => exact Nat.le_add_right _ _
  | true =>
    refine Nat.add_le_add_left ?_ m.owed
    split <;> decide

/-- A branch has room for both of its cycles. -/
theorem owed_resolved_of_isBranch {m : Machine β} (h : m.entry.operation.isBranch = true) :
    m.resolved.owed + 2 ≤ 8 := by
  rw [owed_resolved, entry, Opcode.baseCycles_of_isBranch _ h]
  decide

theorem owed_executed_le (m : Machine β) : m.executed.owed ≤ 8 := by
  -- Only a branch adds to the base cycles, and its two are few.
  cases hb : m.entry.operation.isBranch with
  | false =>
    rw [executed, owed_execute _ hb, owed_resolved]
    exact Opcode.baseCycles_le_eight _
  | true =>
    obtain ⟨condition, hc⟩ := exists_branch hb m.resolved
    rw [executed, hc]
    exact (owed_branch_le _ condition).trans (owed_resolved_of_isBranch hb)

/-- An instruction that pays for a page cross has room for that cycle. -/
theorem owed_executed_of_crosses {m : Machine β} (h : m.crosses = true) :
    m.executed.owed + 1 ≤ 8 := by
  have hp : m.entry.operation.paysPageCross m.begin.latches.opcode = true :=
    (Bool.and_eq_true_iff.mp h).2
  have hb : m.entry.operation.isBranch = false := Operation.isBranch_of_paysPageCross hp
  rw [executed, owed_execute _ hb, owed_resolved]
  exact Nat.succ_le_succ (Opcode.baseCycles_le_seven _ hp)

/-- **An instruction charges at most eight cycles.** -/
theorem cost_le_eight (m : Machine β) : m.cost ≤ 8 := by
  rw [cost, instruction_eq]
  split
  case isTrue h => exact owed_executed_of_crosses h
  case isFalse => exact m.owed_executed_le

/-- A clock leaves at most seven cycles owed. -/
theorem owed_clock_le {m : Machine β} (h : m.owed ≤ 8) : m.clock.owed ≤ 7 := by
  have hc : m.clock.owed = (if m.owed = 0 then m.cost else m.owed) - 1 :=
    m.owed_act (c := .clock) rfl
  have hd : (if m.owed = 0 then m.cost else m.owed) ≤ 8 := by
    split
    case isTrue => exact m.cost_le_eight
    case isFalse => exact h
  rw [hc]
  exact Nat.sub_le_sub_right hd 1

/-- **The debt stays bounded.** -/
theorem owed_act_le {m : Machine β} {c : Command} (hc : c.isAtomic = true) (h : m.owed ≤ 8) :
    (m.act c).owed ≤ 8 := by
  cases c
  case clock => exact (owed_clock_le h).trans (by decide)
  case irq =>
    have hi : (m.act .irq).owed = if m.registers.status.interruptDisable then m.owed else 7 :=
      m.owed_act hc
    rw [hi]
    split
    case isTrue => exact h
    case isFalse => exact Nat.le_succ 7
  case reset | nmi => exact Nat.le_refl 8
  case step | run => exact absurd hc Bool.noConfusion
  all_goals exact h

/-! ## The checks pass -/

omit [Bus β] in
theorem checkSum_eq (a b : Byte) (carry : Bool) (next : Except Fault (Machine β)) :
    checkSum a b carry next = next := by
  have ha := a.toNat_lt
  have hb := b.toNat_lt
  have hc := Bool.toNat_le carry
  have hs : (a.toUInt16 + b.toUInt16).toNat = a.toNat + b.toNat := by
    rw [UInt16.toNat_add, UInt8.toNat_toUInt16, UInt8.toNat_toUInt16]
    omega
  unfold checkSum UInt16.size
  rw [require_of (by omega), require_of (by omega)]

omit [Bus β] in
theorem checkedBranch_eq {m : Machine β} (h : m.owed + 2 ≤ 8) (condition : Bool) :
    m.checkedBranch condition = .ok (m.branch condition) := by
  have once : m.checkedCharge = .ok (m.charge 1) := require_of (by omega)
  have twice (target : Word) : ((m.charge 1).locate target).checkedCharge =
      .ok ((m.charge 2).locate target) := require_of h
  cases condition with
  | false => rfl
  | true =>
    unfold checkedBranch branch
    rw [once]
    generalize m.registers.pc + m.latches.offset = target
    by_cases hx : Word.crossesPage m.registers.pc target = true
    · simp only [if_true, if_pos hx]
      show (((m.charge 1).locate target).checkedCharge >>= fun left => .ok (left.jumpTo target)) = _
      rw [twice]
      rfl
    · simp only [if_true, if_neg hx]
      rfl

/-- An operation passes its checks if there is room for a branch, and if it idles for an unassigned
opcode only. -/
theorem checkedExecute_eq {m : Machine β} {o : Operation} (hb : o.isBranch = true → m.owed + 2 ≤ 8)
    (hi : o = .idle → (Opcode.lookup m.latches.opcode).isPlaceholder = true) :
    m.checkedExecute o = .ok (m.execute o) := by
  cases o
  case adc | sbc => exact checkSum_eq _ _ _ _
  case bcc | bcs | bne | beq | bpl | bmi | bvc | bvs => exact checkedBranch_eq (hb rfl) _
  case idle => exact require_of (hi rfl)
  all_goals rfl

/-- **An instruction passes its checks.** -/
theorem checkedInstruction_eq (m : Machine β) : m.checkedInstruction = .ok m.instruction := by
  have he : m.resolved.checkedExecute m.entry.operation = .ok m.executed :=
    checkedExecute_eq owed_resolved_of_isBranch fun hi => by
      rw [opcode_resolved]
      exact beq_iff_eq.mpr hi
  show (m.resolved.checkedExecute m.entry.operation >>= fun done =>
    if m.crosses then done.checkedCharge else .ok done) = _
  rw [he, instruction_eq]
  show (if m.crosses then m.executed.checkedCharge else .ok m.executed) = _
  split
  case isTrue h => exact require_of (owed_executed_of_crosses h)
  case isFalse => rfl

/-- **A clock passes its checks** as long as it can be counted. -/
theorem checkedClock_eq {m : Machine β} (h : m.clock.clocks < UInt64.size) :
    m.checkedClock = .ok m.clock := by
  unfold checkedClock
  by_cases ho : m.owed = 0
  · rw [if_pos ho, checkedInstruction_eq]
    rw [clock_of_boundary ho] at h ⊢
    have hp : 1 ≤ m.instruction.owed := Nat.le_of_succ_le (two_le_cost m)
    exact (require_of h).trans (require_of hp)
  · rw [if_neg ho]
    rw [clock_of_owed ho] at h ⊢
    exact (require_of h).trans (require_of (Nat.one_le_iff_ne_zero.mpr ho))

/-! ## The unused flag -/

/-- The unused flag of the live register. -/
def unused (m : Machine β) : Bool := m.registers.status.unused

/-- **No operation clears the unused flag.** What is pulled from the stack comes with the flag
set. -/
theorem unused_execute (m : Machine β) (o : Operation) (h : m.unused = true) :
    (m.execute o).unused = true := by
  cases hf : o.flags.unused with
  | false => exact (Status.flag_of_diff (fun _ _ _ => rfl) hf (m.status_execute o)).trans h
  | true =>
    cases o
    case plp | rti => rfl
    all_goals exact absurd hf Bool.noConfusion

theorem unused_instruction (m : Machine β) (h : m.unused = true) : m.instruction.unused = true := by
  have he : m.executed.unused = true :=
    unused_execute _ _ ((congrArg Status.unused (status_resolve m.begin _)).trans h)
  exact (instruction_frame (f := unused) (fun _ _ => rfl) m).trans he

/-- **Only a setter clears the unused flag.** -/
theorem unused_act {m : Machine β} {c : Command} (hc : c.isAtomic = true)
    (hs : ∀ mask, c = .setFlags mask false → mask.unused = false) (h : m.unused = true) :
    (m.act c).unused = true := by
  cases c
  case step | run => exact absurd hc Bool.noConfusion
  case clock =>
    show (if m.owed = 0 then m.instruction else m).unused = true
    split
    case isTrue => exact m.unused_instruction h
    case isFalse => exact h
  case irq =>
    show m.irq.unused = true
    unfold irq
    split
    case isTrue => exact h
    case isFalse => rfl
  case nmi | reset => rfl
  case setFlags mask on =>
    have hm : on = false → mask.unused = false := by
      rintro rfl
      exact hs mask rfl
    exact Status.flag_set (fun _ _ _ => rfl) hm h
  all_goals exact h

/-! ## Since power-on -/

/-- **No machine faults**, whatever is asked of it since power-on. At every moment of a history it
owes at most eight cycles, and at most seven after a clock. As long as the clocks can be counted,
every clock passes its checks. A step returns a number between two and eight. And the unused flag is
set unless a setter cleared it. -/
theorem never_faults (bus : β) (options : Options) (history : List Command) :
    let start := powerOn bus options
    let final := (start.performAll history).2
    (∀ p ∈ start.moments history, p.1.owed ≤ 8 ∧ (p.2 = .clock → p.1.clock.owed ≤ 7)) ∧
      final.owed ≤ 8 ∧
      (final.clocks < UInt64.size →
        ∀ p ∈ start.moments history, p.2 = .clock → p.1.checkedClock = .ok p.1.clock) ∧
      (2 ≤ final.step.1 ∧ final.step.1 ≤ 8) ∧
      ((∀ mask, .setFlags mask false ∈ history → mask.unused = false) →
        (∀ p ∈ start.moments history, p.1.unused = true) ∧ final.unused = true) := by
  intro start final
  have trail : Trail start (start.moments history) final := start.trail_moments history
  have owed : (∀ p ∈ start.moments history, p.1.owed ≤ 8) ∧ final.owed ≤ 8 :=
    trail.always (P := fun m => m.owed ≤ 8) (fun _ _ _ hc => owed_act_le hc) (Nat.le_refl 8)
  refine ⟨fun p hp => ⟨owed.1 p hp, fun _ => owed_clock_le (owed.1 p hp)⟩, owed.2, ?_, ?_, ?_⟩
  · rintro hclocks ⟨m, c⟩ hp rfl
    obtain ⟨rest, hrest⟩ := trail.rest hp
    exact checkedClock_eq (hrest.clocks_le.trans_lt hclocks)
  · rw [step_eq]
    exact ⟨two_le_cost final, cost_le_eight final⟩
  · intro hs
    refine trail.always (P := fun m => m.unused = true) (fun m c hp hc => ?_) rfl
    refine unused_act hc fun mask hm => hs mask ?_
    subst hm
    exact (mem_of_mem_moments hp).resolve_right fun hclock => Command.noConfusion hclock.1

/-- A machine that is interrupted while it starts, and then makes a step in zeroed memory. -/
theorem checkedClock_starting :
    (powerOn Memory.zero {}).checkedClock = .ok (powerOn Memory.zero {}).clock ∧
      ((powerOn Memory.zero {}).performAll [.clock, .nmi, .step]).2.unused = true := by
  obtain ⟨-, -, checked, -, flagged⟩ := never_faults Memory.zero {} [.clock, .nmi, .step]
  refine ⟨checked (by decide +kernel) (powerOn Memory.zero {}, .clock) List.mem_cons_self rfl, ?_⟩
  exact (flagged fun mask hs => absurd hs (by simp)).2

end Machine

end Core6502
