import Core6502.Emulator
import Core6502.Proofs.History.Simulation

/-!
# How many instructions a run completes

A run counts the clocks that end at an instruction boundary. A clock at a boundary fetches an
instruction, which is then in flight until it is paid, so what is completed is what was in flight
before and what is fetched, less what is still in flight afterwards. What a reset or an interrupt
owes is in flight like an instruction.

* `journal_instruction`, `started_clock`: a clock at a boundary notes that an instruction starts,
  and no other clock does.
* `run_balance`: fetched and completed instructions balance.
* `run_add`: a run may be cut in two anywhere.
* `two_mul_run_le`: an instruction takes two clocks or more, so a run completes at most half as many
  as it has clocks.
* **`run_counts_completions`** puts these together, also for the count of 32 bits that an emulator
  returns.
-/

universe u

namespace Core6502

/-- Whether the event is the start of an instruction. -/
def Event.isStart : Event → Bool
  | started .. => true
  | _ => false

namespace Machine

variable {β : Type u}

/-- The number of things in flight: one while cycles are owed, none at an instruction boundary. -/
def inFlight (m : Machine β) : Nat := if m.owed = 0 then 0 else 1

/-- How many instructions the machine has noted to start. -/
def started (m : Machine β) : Nat := m.journal.countP Event.isStart

variable [Bus β]

/-- The opcode fetches of the next `n` clocks: those of them that are made at an instruction
boundary. -/
def fetches (m : Machine β) (n : Nat) : Nat := (List.range n).countP fun k => (clock^[k] m).complete

variable (m : Machine β)

/-! ## What is noted -/

theorem journal_operand : m.operand.2.journal = m.journal := by
  unfold operand
  split <;> rfl

theorem journal_writeBack (result : Byte) : (m.writeBack result).journal = m.journal := by
  unfold writeBack
  split <;> rfl

theorem journal_resolve (mode : AddressingMode) : (m.resolve mode).2.journal = m.journal := by
  cases mode <;> rfl

/-- An operation notes only that it is unassigned. -/
theorem journal_execute (o : Operation) :
    (m.execute o).journal =
      if o = .idle then .unassigned m.latches.opcode (m.registers.pc - 1) :: m.journal
      else m.journal := by
  cases o
  case lda | ldx | ldy | and | ora | eor | adc | sbc | cmp | cpx | cpy | bit | inc | dec =>
    exact m.journal_operand
  case asl | lsr | rol | ror =>
    exact (journal_writeBack _ _).trans m.journal_operand
  case bcc | bcs | bne | beq | bpl | bmi | bvc | bvs =>
    simp only [execute, branch]
    split <;> rfl
  case brk =>
    simp only [execute, forceInterrupt, pushWord, push, write, readWord, readPair, read, jumpTo]
    rfl
  all_goals rfl

/-- An unassigned opcode has no operand bytes, so its operation meets the machine one byte behind
the opcode. -/
theorem resolved_of_idle (h : m.entry.operation = .idle) :
    m.resolved = { m.begin with latches.operand := m.registers.a } := by
  have hm : m.entry.mode = .implied := by
    have ha : m.entry.operation.admits m.entry.mode = true := Opcode.admits_lookup _
    rw [h] at ha
    exact of_decide_eq_true ha
  unfold resolved
  rw [hm]
  rfl

/-- **An instruction notes that it starts**, and then that its opcode is unassigned if it is, both
with the address of the opcode. -/
theorem journal_instruction : m.instruction.journal =
    (if m.entry.operation = .idle then
      [.unassigned m.begin.latches.opcode m.registers.pc] else []) ++
      .started m.registers.pc m.begin.latches.opcode m.entry :: m.journal := by
  have hx : m.instruction.journal = m.executed.journal :=
    instruction_frame (f := journal) (fun _ _ => rfl) m
  have hpc : m.registers.pc + 1 - 1 = m.registers.pc := by grind
  have hr : m.resolved.journal =
      .started m.registers.pc m.begin.latches.opcode m.entry :: m.journal := by
    rw [← hpc]
    exact m.begin.journal_resolve m.entry.mode
  rw [hx]
  unfold executed
  rw [journal_execute, hr]
  split
  case isTrue h =>
    have hb : m.begin.registers.pc - 1 = m.registers.pc := hpc
    rw [resolved_of_idle m h, hb]
    rfl
  case isFalse => rfl

/-- An instruction notes its start once. -/
theorem started_instruction : m.instruction.started = m.started + 1 := by
  unfold started
  rw [journal_instruction]
  split
  · exact (List.countP_cons_of_neg Bool.false_ne_true).trans (List.countP_cons_of_pos rfl)
  · exact List.countP_cons_of_pos rfl

/-- A clock notes the start of an instruction when it is made at a boundary. -/
theorem started_clock : m.clock.started = m.started + if m.owed = 0 then 1 else 0 := by
  by_cases h : m.owed = 0
  · rw [clock_of_boundary h, if_pos h]
    exact m.started_instruction
  · rw [clock_of_owed h, if_neg h]
    rfl

/-! ## One clock more -/

omit [Bus β] in
theorem inFlight_le_one : m.inFlight ≤ 1 := by
  unfold inFlight
  split <;> omega

theorem fetches_succ (n : Nat) :
    m.fetches (n + 1) = m.fetches n + if (clock^[n] m).owed = 0 then 1 else 0 := by
  unfold fetches
  rw [List.range_succ, List.countP_append, List.countP_singleton]
  simp only [complete, beq_iff_eq]

theorem run_succ_fst (n : Nat) :
    (m.run (n + 1)).1 = (m.run n).1 + if (clock^[n + 1] m).owed = 0 then 1 else 0 := by
  have hc : (m.run n).2.clock = clock^[n + 1] m := by
    rw [run_snd, Function.iterate_succ_apply']
  rw [run_succ]
  unfold tally
  simp only [hc]
  split <;> rfl

/-- What a clock at a boundary fetches is not paid by that clock. -/
theorem owed_clock_ne_zero (h : m.owed = 0) : m.clock.owed ≠ 0 := by
  have hcost := two_le_cost m
  have ho : m.clock.owed = m.cost - 1 := by
    rw [clock_of_boundary h]
    rfl
  omega

/-! ## Runs -/

/-- As many instructions are noted to start as are fetched. -/
theorem started_iterate (n : Nat) : (clock^[n] m).started = m.started + m.fetches n := by
  induction n with
  | zero => rfl
  | succ n ih => rw [Function.iterate_succ_apply', started_clock, ih, fetches_succ, Nat.add_assoc]

/-- **The balance of a run**: what was in flight and what is fetched is completed or still in
flight. -/
theorem run_balance (n : Nat) :
    (m.run n).1 + (clock^[n] m).inFlight = m.inFlight + m.fetches n := by
  induction n with
  | zero => exact Nat.zero_add _
  | succ n ih =>
    rw [run_succ_fst, fetches_succ, ← Nat.add_assoc, ← ih, Function.iterate_succ_apply']
    unfold inFlight
    by_cases h : (clock^[n] m).owed = 0
    · have hc := owed_clock_ne_zero (clock^[n] m) h
      rw [if_pos h, if_pos h, if_neg hc, if_neg hc]
    · rw [if_neg h, if_neg h]
      split <;> rfl

/-- A run cut in two. -/
theorem run_add (j k : Nat) :
    m.run (j + k) = ((m.run j).1 + ((m.run j).2.run k).1, ((m.run j).2.run k).2) := by
  induction k with
  | zero => rfl
  | succ k ih =>
    rw [← Nat.add_assoc, run_succ, ih, run_succ]
    simp only [tally]
    split <;> rfl

/-- **A run completes at most half as many as it has clocks**, and one that was in flight. -/
theorem two_mul_run_le (n : Nat) : 2 * (m.run n).1 + (clock^[n] m).inFlight ≤ n + 1 := by
  induction n with
  | zero =>
    have := m.inFlight_le_one
    show 2 * 0 + m.inFlight ≤ 0 + 1
    omega
  | succ n ih =>
    have hf := inFlight_le_one (clock^[n + 1] m)
    rw [run_succ_fst]
    by_cases hend : (clock^[n + 1] m).owed = 0
    · -- The clock before the boundary was not at one
      have hn : (clock^[n] m).owed ≠ 0 := fun h => by
        rw [Function.iterate_succ_apply'] at hend
        exact owed_clock_ne_zero _ h hend
      unfold inFlight at ih ⊢
      rw [if_neg hn] at ih
      rw [if_pos hend, if_pos hend]
      omega
    · rw [if_neg hend]
      omega

theorem run_le (n : Nat) : (m.run n).1 ≤ (n + 1) / 2 := by
  have := m.two_mul_run_le n
  omega

end Machine

/-- A count of completed instructions fits in 32 bits when the count of clocks does. -/
theorem Emulator.run_toNat (e : Emulator) (cycles : UInt32) :
    (e.run cycles).1.toNat = (e.machine.run cycles.toNat).1 := by
  have hlt := cycles.toNat_lt
  have hle := e.machine.run_le cycles.toNat
  have hsize : UInt32.size = 2 ^ 32 := rfl
  exact UInt32.toNat_ofNat_of_lt' (by omega)

namespace Machine

/-- **What a run counts.** A run of `n` clocks leaves the machine after `n` clocks and returns the
number of opcode fetches, which the machine notes one by one, with one more if something was in
flight before and one less if something is in flight afterwards. A run cut in two comes to the same
machine, and its two counts add up. A run counts at most half of its clocks, rounded up, so the
emulator's count of 32 bits is exact. -/
theorem run_counts_completions {β : Type u} [Bus β] :
    (∀ (m : Machine β) (n : Nat),
      (m.run n).2 = clock^[n] m ∧
        ((m.run n).1 : Int) = m.fetches n + m.inFlight - (m.run n).2.inFlight ∧
        (m.run n).2.started = m.started + m.fetches n ∧
        (m.run n).1 ≤ (n + 1) / 2) ∧
    (∀ (m : Machine β) (j k : Nat),
      m.run (j + k) = ((m.run j).1 + ((m.run j).2.run k).1, ((m.run j).2.run k).2)) ∧
    ∀ (e : Emulator) (cycles : UInt32),
      (e.run cycles).1.toNat = (e.machine.run cycles.toNat).1 ∧
        (e.run cycles).2.machine = (e.machine.run cycles.toNat).2 := by
  refine ⟨fun m n => ?_, run_add, fun e cycles => ⟨e.run_toNat cycles, rfl⟩⟩
  have hb := m.run_balance n
  rw [run_snd]
  exact ⟨rfl, by omega, m.started_iterate n, m.run_le n⟩

end Machine

end Core6502
