import Core6502.Proofs.Clock.Frame
import Mathlib.Logic.Function.Iterate
import Mathlib.Order.Bounds.Basic

/-!
# Clock cycles refine instructions

A machine is driven by its clock, but what it does is a chain of whole instructions: each is
performed on its first cycle and then paid for. `spent k` is the price of the first `k` of them.

* `clock_iterate`: after `n` clocks the machine has performed the fewest instructions that, with
  what was owed before, cover `n` cycles, and it owes the rest.
* `finish_eq`, `step_eq`: the two loops of `step` end, and what they leave is one instruction.
* `complete_iterate_iff`: on the way through a step the machine is at a boundary once, after
  paying what it owed.
* **`clock_refines_instruction`** is all of it together.
-/

universe u

namespace Core6502.Machine

variable {β : Type u} [Bus β]

/-- The cycles that the next `k` instructions charge together. -/
def spent (m : Machine β) : Nat → Nat
  | 0 => 0
  | k + 1 => m.spent k + (instruction^[k] m).cost

/-- The machine after its next `k` instructions, `n` clocks later, owing what is not yet paid. -/
def settled (m : Machine β) (k n : Nat) : Machine β :=
  { instruction^[k] m with owed := m.owed + m.spent k - n, clocks := m.clocks + n }

@[simp] theorem owed_settled (m : Machine β) (k n : Nat) :
    (m.settled k n).owed = m.owed + m.spent k - n := rfl

theorem spent_one (m : Machine β) : m.spent 1 = m.cost := Nat.zero_add _

theorem spent_lt_succ (m : Machine β) (k : Nat) : m.spent k < m.spent (k + 1) :=
  Nat.lt_add_of_pos_right (Nat.lt_of_lt_of_le Nat.zero_lt_two (two_le_cost _))

theorem spent_mono (m : Machine β) {j k : Nat} (h : j ≤ k) : m.spent j ≤ m.spent k := by
  induction h with
  | refl => exact le_refl _
  | step _ ih => exact ih.trans (spent_lt_succ m _).le

/-! ## One clock -/

/-- A clock while cycles are owed only pays. -/
theorem clock_settled_of_lt (m : Machine β) {k n : Nat} (h : n < m.owed + m.spent k) :
    (m.settled k n).clock = m.settled k (n + 1) := by
  have ho : (m.settled k n).owed ≠ 0 := by
    rw [owed_settled]
    omega
  rw [clock_of_owed ho]
  rfl

/-- A clock with everything paid performs the next instruction. -/
theorem clock_settled_of_eq (m : Machine β) {k n : Nat} (h : n = m.owed + m.spent k) :
    (m.settled k n).clock = m.settled (k + 1) (n + 1) := by
  have ho : (m.settled k n).owed = 0 := by
    rw [owed_settled]
    omega
  have hi : (m.settled k n).instruction = (instruction^[k + 1] m).atTime (m.clocks + n) := by
    rw [Function.iterate_succ_apply']
    exact instruction_atTime (instruction^[k] m) (m.clocks + n)
  rw [clock_of_boundary ho, hi]
  have hc : (instruction^[k + 1] m).owed = (instruction^[k] m).cost := by
    rw [Function.iterate_succ_apply']
    rfl
  have hp : (instruction^[k + 1] m).owed - 1 = m.owed + m.spent (k + 1) - (n + 1) := by
    rw [hc, h, spent]
    omega
  unfold pay settled atTime
  simp only [hp, Nat.add_assoc]

/-! ## Any number of clocks -/

/-- **The simulation.** `n` clocks perform the `k` instructions whose cost, with what was owed,
just covers `n`; the rest of that cost is what is owed then. -/
theorem clock_iterate (m : Machine β) (n : Nat) :
    ∃ k, n ≤ m.owed + m.spent k ∧ (∀ j < k, m.owed + m.spent j < n) ∧
      clock^[n] m = m.settled k n := by
  induction n with
  | zero => exact ⟨0, Nat.zero_le _, fun j hj => absurd hj (Nat.not_lt_zero j), rfl⟩
  | succ n ih =>
    obtain ⟨k, hle, hlt, heq⟩ := ih
    rw [Function.iterate_succ_apply', heq]
    rcases Nat.lt_or_eq_of_le hle with h | h
    · exact ⟨k, h, fun j hj => Nat.lt_succ_of_lt (hlt j hj), clock_settled_of_lt m h⟩
    · refine ⟨k + 1, ?_, fun j hj => ?_, clock_settled_of_eq m h⟩
      · have := spent_lt_succ m k
        omega
      · have := spent_mono m (Nat.le_of_lt_succ hj)
        omega

/-- What is left to pay is paid without any other effect. -/
theorem clock_iterate_of_le (m : Machine β) {n : Nat} (h : n ≤ m.owed) :
    clock^[n] m = m.settled 0 n := by
  induction n with
  | zero => rfl
  | succ n ih =>
    rw [Function.iterate_succ_apply', ih (by omega)]
    exact clock_settled_of_lt m (Nat.lt_of_lt_of_le h (Nat.le_add_right _ _))

/-- The first instruction is in flight until it is paid. -/
theorem clock_iterate_of_lt (m : Machine β) {n : Nat} (h : m.owed < n)
    (hn : n ≤ m.owed + m.cost) : clock^[n] m = m.settled 1 n := by
  induction n with
  | zero => exact absurd h (Nat.not_lt_zero _)
  | succ n ih =>
    rw [Function.iterate_succ_apply']
    rcases Nat.lt_or_eq_of_le (Nat.le_of_lt_succ h) with h' | h'
    · rw [ih h' (by omega)]
      exact clock_settled_of_lt m (by rw [spent_one]; omega)
    · rw [clock_iterate_of_le m h'.ge]
      exact clock_settled_of_eq m h'.symm

/-- **Until its first instruction is paid, a machine is at a boundary exactly once**: when it has
paid what it owed. -/
theorem complete_iterate_iff (m : Machine β) {n : Nat} (h : n < m.owed + m.cost) :
    (clock^[n] m).complete = true ↔ n = m.owed := by
  unfold complete
  rw [beq_iff_eq]
  rcases Nat.lt_or_ge m.owed n with hn | hn
  · rw [clock_iterate_of_lt m hn h.le, owed_settled, spent_one]
    omega
  · rw [clock_iterate_of_le m hn, owed_settled, spent]
    omega

/-! ## A step -/

/-- Finishing makes the clocks that are owed. -/
theorem finish_eq (m : Machine β) : m.finish = (m.owed, clock^[m.owed] m) := by
  fun_induction finish m with
  | case1 m h => rw [h, Function.iterate_zero_apply]
  | case2 m h _ r ih =>
    have ho : m.owed = m.clock.owed + 1 := by
      rw [clock_of_owed h]
      exact (Nat.sub_add_cancel (Nat.one_le_iff_ne_zero.mpr h)).symm
    simp only [r, ih]
    rw [ho, Function.iterate_succ_apply]

/-- **A step makes the clocks that pay what is owed and one instruction**, and returns the cost of
the instruction. -/
theorem step_eq (m : Machine β) : m.step = (m.cost, clock^[m.owed + m.cost] m) := by
  have hpos := two_le_cost m
  have ho : (clock^[m.owed + 1] m).owed = m.cost - 1 := by
    rw [clock_iterate_of_lt m (Nat.lt_succ_self _) (by omega)]
    show m.owed + m.spent 1 - (m.owed + 1) = m.cost - 1
    rw [spent_one]
    omega
  have hc : m.cost - 1 + 1 = m.cost := by omega
  have hn : m.cost - 1 + (m.owed + 1) = m.owed + m.cost := by omega
  unfold step
  simp only [finish_eq, ← Function.iterate_succ_apply' clock, Nat.succ_eq_add_one, ho, hc,
    ← Function.iterate_add_apply, hn]

/-- Paid in full, one instruction has been performed. -/
theorem step_snd (m : Machine β) :
    m.step.2 = { m.instruction with owed := 0, clocks := m.clocks + (m.owed + m.cost) } := by
  have hpos := two_le_cost m
  rw [step_eq, clock_iterate_of_lt m (by omega) (le_refl _)]
  unfold settled
  simp [spent]

/-- **The clock refines the instruction.** After any number `n` of clocks a machine is where the
fewest whole instructions take it whose cost, with what was owed before, covers `n` cycles; it
owes the rest, and `n` clocks have passed. A step is therefore one instruction: it makes the
clocks that pay what was owed and that instruction, passes a boundary only in between, ends at
one, and returns the cost of the instruction alone. -/
theorem clock_refines_instruction (m : Machine β) :
    (∀ n, ∃ k, IsLeast {k | n ≤ m.owed + m.spent k} k ∧
      clock^[n] m = { instruction^[k] m with
        owed := m.owed + m.spent k - n
        clocks := m.clocks + n }) ∧
    m.step = (m.cost, clock^[m.owed + m.cost] m) ∧
    m.step.2 = { m.instruction with owed := 0, clocks := m.clocks + (m.owed + m.cost) } ∧
    m.step.2.complete = true ∧
    ∀ n < m.owed + m.cost, (clock^[n] m).complete = true ↔ n = m.owed := by
  refine ⟨fun n => ?_, step_eq m, step_snd m, ?_, fun n hn => complete_iterate_iff m hn⟩
  · obtain ⟨k, hle, hlt, heq⟩ := clock_iterate m n
    refine ⟨k, ⟨hle, fun j hj => ?_⟩, heq⟩
    by_contra hk
    exact absurd (hlt j (not_le.mp hk)) (not_lt.mpr hj)
  · rw [step_snd]
    rfl

end Core6502.Machine
