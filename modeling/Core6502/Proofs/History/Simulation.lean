import Mathlib.Data.List.Forall2
import Core6502.Machine.Command
import Core6502.Proofs.Clock.Refinement

/-!
# Histories of commands

Steps and runs are made of clocks, so a history of commands comes down to atomic commands: clocks,
resets, interrupts, setters and writes. `Machine.moments` lists them, each with the machine that it
meets, and is what a condition on a whole history speaks of.

A `Simulation` is a relation between two machines that every atomic command keeps, as long as some
condition holds of the command and the first machine.

* `run_snd`: a run is its clocks.
* `Simulation.step`, `Simulation.run`: a step and a run of related machines return the same.
* **`Simulation.performAll`**: so does a whole history, and it leaves related machines.
* **`Simulation.moments`**: they are related all along, not only in the end.
-/

universe u v

namespace Core6502

/-- Whether a command is not made of others. -/
def Command.isAtomic : Command → Bool
  | step | run _ => false
  | _ => true

namespace Machine

variable {β : Type u} {γ : Type v} [Bus β] [Bus γ]

/-- The machine after a command. -/
def act (m : Machine β) (c : Command) : Machine β := (m.perform c).2

/-- The atomic commands of a command, each with the machine before it. -/
def during (m : Machine β) : Command → List (Machine β × Command)
  | .step => (List.range (m.owed + m.cost)).map fun k => (clock^[k] m, .clock)
  | .run n => (List.range n).map fun k => (clock^[k] m, .clock)
  | c => [(m, c)]

/-- The atomic commands of a history, each with the machine before it. -/
def moments (m : Machine β) : List Command → List (Machine β × Command)
  | [] => []
  | c :: rest => m.during c ++ (m.act c).moments rest

/-! ## Runs -/

theorem run_succ (m : Machine β) (n : Nat) : m.run (n + 1) = tally (m.run n) := rfl

theorem run_snd (m : Machine β) (n : Nat) : (m.run n).2 = clock^[n] m := by
  induction n with
  | zero => rfl
  | succ n ih =>
    rw [Function.iterate_succ_apply', ← ih]
    rfl

/-- The first clock after everything is paid leaves the rest of an instruction's cost. -/
theorem owed_iterate_succ (m : Machine β) : (clock^[m.owed + 1] m).owed = m.cost - 1 := by
  have := two_le_cost m
  rw [clock_iterate_of_lt m (Nat.lt_succ_self _) (by omega), owed_settled, spent_one]
  omega

/-! ## Simulations -/

/-- **A simulation.** Related machines owe the same, and an atomic command on which the condition
holds leaves them related. -/
structure Simulation (C : Machine β → Command → Prop) (R : Machine β → Machine γ → Prop) :
    Prop where
  owed : ∀ {m n}, R m n → m.owed = n.owed
  act : ∀ {m n} {c : Command}, c.isAtomic = true → C m c → R m n → R (m.act c) (n.act c)

namespace Simulation

variable {C : Machine β → Command → Prop} {R : Machine β → Machine γ → Prop}
  {m : Machine β} {n : Machine γ}

/-- Any number of clocks. -/
theorem iterate (h : Simulation C R) (hr : R m n) {k : Nat}
    (hc : ∀ j < k, C (clock^[j] m) .clock) : R (clock^[k] m) (clock^[k] n) := by
  induction k with
  | zero => exact hr
  | succ k ih =>
    rw [Function.iterate_succ_apply', Function.iterate_succ_apply']
    exact h.act rfl (hc k (Nat.lt_succ_self k)) (ih fun j hj => hc j (Nat.lt_succ_of_lt hj))

/-- The next instruction costs related machines the same: they owe the same after its first
clock. -/
theorem cost (h : Simulation C R) (hr : R m n)
    (hc : ∀ j < m.owed + m.cost, C (clock^[j] m) .clock) : m.cost = n.cost := by
  have hm := two_le_cost m
  have hn := two_le_cost n
  have := h.owed (h.iterate hr (k := m.owed + 1) fun j hj => hc j (by omega))
  rw [owed_iterate_succ, h.owed hr, owed_iterate_succ] at this
  omega

theorem step (h : Simulation C R) (hr : R m n)
    (hc : ∀ j < m.owed + m.cost, C (clock^[j] m) .clock) :
    m.step.1 = n.step.1 ∧ R m.step.2 n.step.2 := by
  rw [step_eq, step_eq, ← h.owed hr, ← h.cost hr hc]
  exact ⟨rfl, h.iterate hr hc⟩

theorem run (h : Simulation C R) (hr : R m n) {k : Nat}
    (hc : ∀ j < k, C (clock^[j] m) .clock) :
    (m.run k).1 = (n.run k).1 ∧ R (m.run k).2 (n.run k).2 := by
  induction k with
  | zero => exact ⟨rfl, hr⟩
  | succ k ih =>
    obtain ⟨hcount, hk⟩ := ih fun j hj => hc j (Nat.lt_succ_of_lt hj)
    have hck : C (m.run k).2 .clock := by
      rw [run_snd]
      exact hc k (Nat.lt_succ_self k)
    have hnext : R (m.run k).2.clock (n.run k).2.clock := h.act (c := .clock) rfl hck hk
    refine ⟨?_, hnext⟩
    rw [run_succ, run_succ]
    unfold tally
    simp only [h.owed hnext, hcount]

/-- One command. -/
theorem perform (h : Simulation C R) (hr : R m n) {c : Command}
    (hc : ∀ p ∈ m.during c, C p.1 p.2) :
    (m.perform c).1 = (n.perform c).1 ∧ R (m.act c) (n.act c) := by
  cases c
  case step =>
    obtain ⟨hreply, hs⟩ := h.step hr fun j hj =>
      hc _ (List.mem_map_of_mem (List.mem_range.mpr hj))
    exact ⟨congrArg some hreply, hs⟩
  case run k =>
    obtain ⟨hreply, hs⟩ := h.run hr (k := k) fun j hj =>
      hc _ (List.mem_map_of_mem (List.mem_range.mpr hj))
    exact ⟨congrArg some hreply, hs⟩
  all_goals exact ⟨rfl, h.act rfl (hc _ (List.mem_singleton_self _)) hr⟩

/-- **Related machines stay related through a whole history**, and return the same to every
command. -/
theorem performAll (h : Simulation C R) (hr : R m n) (history : List Command)
    (hc : ∀ p ∈ m.moments history, C p.1 p.2) :
    (m.performAll history).1 = (n.performAll history).1 ∧
      R (m.performAll history).2 (n.performAll history).2 := by
  induction history generalizing m n with
  | nil => exact ⟨rfl, hr⟩
  | cons c rest ih =>
    obtain ⟨hreply, hs⟩ := h.perform hr fun p hp => hc p (List.mem_append_left _ hp)
    obtain ⟨hreplies, hrest⟩ := ih hs fun p hp => hc p (List.mem_append_right _ hp)
    refine ⟨?_, hrest⟩
    show (m.perform c).1 :: ((m.act c).performAll rest).1 =
      (n.perform c).1 :: ((n.act c).performAll rest).1
    rw [hreply, hreplies]

/-! ### All along -/

theorem clocks (h : Simulation C R) (hr : R m n) {k : Nat}
    (hc : ∀ j < k, C (clock^[j] m) .clock) :
    List.Forall₂ (fun p q => R p.1 q.1 ∧ p.2 = q.2)
      ((List.range k).map fun j => (clock^[j] m, .clock))
      ((List.range k).map fun j => (clock^[j] n, Command.clock)) := by
  rw [List.forall₂_map_left_iff, List.forall₂_map_right_iff, List.forall₂_same]
  intro j hj
  exact ⟨h.iterate hr fun i hi => hc i (hi.trans (List.mem_range.mp hj)), rfl⟩

theorem during (h : Simulation C R) (hr : R m n) {c : Command}
    (hc : ∀ p ∈ m.during c, C p.1 p.2) :
    List.Forall₂ (fun p q => R p.1 q.1 ∧ p.2 = q.2) (m.during c) (n.during c) := by
  cases c
  case step =>
    have hk : ∀ j < m.owed + m.cost, C (clock^[j] m) .clock := fun j hj =>
      hc _ (List.mem_map_of_mem (List.mem_range.mpr hj))
    have hn : n.owed + n.cost = m.owed + m.cost := by rw [h.owed hr, h.cost hr hk]
    unfold Machine.during
    rw [hn]
    exact h.clocks hr hk
  case run k => exact h.clocks hr fun j hj => hc _ (List.mem_map_of_mem (List.mem_range.mpr hj))
  all_goals exact .cons ⟨hr, rfl⟩ .nil

/-- **The moments of related machines are related**, one by one and at the same commands. -/
theorem moments (h : Simulation C R) (hr : R m n) (history : List Command)
    (hc : ∀ p ∈ m.moments history, C p.1 p.2) :
    List.Forall₂ (fun p q => R p.1 q.1 ∧ p.2 = q.2) (m.moments history)
      (n.moments history) := by
  induction history generalizing m n with
  | nil => exact .nil
  | cons c rest ih =>
    have hfirst : ∀ p ∈ m.during c, C p.1 p.2 := fun p hp => hc p (List.mem_append_left _ hp)
    have hrest := ih (h.perform hr hfirst).2 fun p hp => hc p (List.mem_append_right _ hp)
    exact List.rel_append (h.during hr hfirst) hrest

end Simulation

end Machine

end Core6502
