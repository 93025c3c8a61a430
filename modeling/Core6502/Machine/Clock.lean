import Core6502.Machine.Execute

/-!
# The clock

A machine at an instruction boundary performs the whole next instruction on one clock and then owes
its cycles; every clock pays one. So `clock` (`CPU::clock`) is `instruction` if nothing is owed,
then `pay`.

* `step` (`CPU::step`) pays what is owed, then runs one instruction to its end and returns its
  cycles.
* `run` (`CPU::run_for_cycles`) makes a given number of clocks and returns how many of them ended at
  a boundary.
-/

universe u

namespace Core6502.Machine

variable {β : Type u}

/-- Pay one owed cycle and count the clock. -/
def pay (m : Machine β) : Machine β := { m with clocks := m.clocks + 1, owed := m.owed - 1 }

variable [Bus β]

/-- Fetch and latch the opcode, note that its instruction starts, and owe its base cycles. -/
def begin (m : Machine β) : Machine β :=
  let opcode := m.fetchByte
  let m := { opcode.2 with latches.opcode := opcode.1 }
  let entry := Opcode.lookup opcode.1
  { m.record (.started (m.registers.pc - 1) opcode.1 entry) with owed := entry.baseCycles }

/-- Perform one whole instruction and owe its cycles: the base cost, what a taken branch adds, and
one more when indexing crossed a page and the operation pays for that. -/
def instruction (m : Machine β) : Machine β :=
  let m := m.begin
  let entry := Opcode.lookup m.latches.opcode
  let resolved := m.resolve entry.mode
  let done := resolved.2.execute entry.operation
  if resolved.1 && entry.operation.paysPageCross m.latches.opcode then done.charge 1 else done

/-- Advance by one clock cycle. -/
def clock (m : Machine β) : Machine β := (if m.owed = 0 then m.instruction else m).pay

theorem clock_of_owed {m : Machine β} (h : m.owed ≠ 0) : m.clock = m.pay := by
  rw [clock, if_neg h]

theorem clock_of_boundary {m : Machine β} (h : m.owed = 0) : m.clock = m.instruction.pay := by
  rw [clock, if_pos h]

theorem owed_clock_lt {m : Machine β} (h : m.owed ≠ 0) : m.clock.owed < m.owed := by
  rw [clock_of_owed h]
  show m.owed - 1 < m.owed
  omega

/-- Clock until nothing is owed, and count the clocks. -/
def finish (m : Machine β) : Nat × Machine β :=
  if h : m.owed = 0 then (0, m)
  else
    have := owed_clock_lt h
    let r := m.clock.finish
    (r.1 + 1, r.2)
termination_by m.owed

/-- Run one whole instruction and return its cycles. Cycles owed from before are paid first and
not counted. -/
def step (m : Machine β) : Nat × Machine β :=
  let r := m.finish.2.clock.finish
  (r.1 + 1, r.2)

/-- One clock that counts itself when it ends at a boundary. -/
def tally (s : Nat × Machine β) : Nat × Machine β :=
  let m := s.2.clock
  (if m.owed = 0 then s.1 + 1 else s.1, m)

/-- Make `n` clocks and return how many of them ended at an instruction boundary. -/
def run (m : Machine β) (n : Nat) : Nat × Machine β := Nat.repeat tally n (0, m)

end Core6502.Machine
