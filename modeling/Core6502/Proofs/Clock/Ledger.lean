import Core6502.Proofs.History.Calls
import Mathlib.Algebra.BigOperators.Group.List.Basic
import Mathlib.Algebra.GroupWithZero.Nat

/-!
# The ledger of cycles

A machine comes to owe cycles in three ways: an instruction is fetched and charges its cost, the
machine is reset, or an interrupt is taken. Every clock pays a cycle, so what was charged is either
paid or still owed, except for what a reset or an interrupt overwrites.

The accounts are kept over the moments of a history: `resets`, `irqs` and `nmis` count what set the
debt anew, `fetched` adds up the costs of instructions, and `forgone` what was still owed when the
debt was set anew.

* `ledger_act`, `Trail.ledger`: the accounts balance over one command, and over any history.
* `forgone_history`: calls to an emulator forgo cycles only when it is reset or loads a program.
* `owed_of_interrupt`: an emulator passes interrupts on at instruction boundaries only.
* **`cycles_balance`** puts these together.
-/

universe u

namespace Core6502

/-- Whether a command may set what is owed anew. -/
def Command.setsDebt : Command → Bool
  | reset | irq | nmi => true
  | _ => false

theorem Command.isAtomic_of_setsDebt {c : Command} (h : c.setsDebt = true) : c.isAtomic = true := by
  cases c <;> first | rfl | exact absurd h Bool.noConfusion

theorem Command.notMem_writes {c : Command} (h : c.setsDebt = true) {cells : List (Word × Byte)} :
    c ∉ writes cells := by
  intro hw
  obtain ⟨p, -, rfl⟩ := List.mem_map.mp hw
  exact absurd h Bool.noConfusion

namespace Machine

variable {β : Type u}

/-! ## The accounts -/

/-- Whether a command sets what is owed anew: a reset or an interrupt that is taken. -/
def preempts (m : Machine β) : Command → Bool
  | .reset | .nmi => true
  | .irq => !m.registers.status.interruptDisable
  | _ => false

/-- How many resets there are. -/
def resets (t : List (Machine β × Command)) : Nat := t.countP fun p => p.2 = .reset

/-- How many interrupt requests are taken. -/
def irqs (t : List (Machine β × Command)) : Nat :=
  t.countP fun p => p.2 = .irq && p.1.preempts .irq

/-- How many non-maskable interrupts there are. -/
def nmis (t : List (Machine β × Command)) : Nat := t.countP fun p => p.2 = .nmi

/-- What was still owed whenever the debt was set anew, all together. -/
def forgone (t : List (Machine β × Command)) : Nat :=
  (t.map fun p => if p.1.preempts p.2 then p.1.owed else 0).sum

theorem setsDebt_of_preempts {m : Machine β} {c : Command} (h : m.preempts c = true) :
    c.setsDebt = true := by
  cases c <;> first | rfl | exact absurd h Bool.noConfusion

theorem forgone_append (s t : List (Machine β × Command)) :
    forgone (s ++ t) = forgone s + forgone t := by
  unfold forgone
  rw [List.map_append, List.sum_append]

theorem forgone_eq_zero {t : List (Machine β × Command)}
    (h : ∀ p ∈ t, p.1.preempts p.2 = true → p.1.owed = 0) : forgone t = 0 := by
  unfold forgone
  refine List.sum_eq_zero fun n hn => ?_
  obtain ⟨p, hp, rfl⟩ := List.mem_map.mp hn
  split
  case isTrue ht => exact h p hp ht
  case isFalse => rfl

variable [Bus β]

/-- What sets the debt anew in a history is a command of the history itself. -/
theorem mem_of_setsDebt {m : Machine β} {history : List Command} {p : Machine β × Command}
    (hp : p ∈ m.moments history) (hs : p.2.setsDebt = true) : p.2 ∈ history := by
  refine (mem_of_mem_moments hp).resolve_right fun hclock => ?_
  rw [hclock.1] at hs
  exact absurd hs Bool.noConfusion

/-- What the instructions that are fetched charge, all together. -/
def fetched (t : List (Machine β × Command)) : Nat :=
  (t.map fun p => if p.2 = .clock ∧ p.1.owed = 0 then p.1.cost else 0).sum

/-! ## The balance -/

/-- **One atomic command balances.** -/
theorem ledger_act (m : Machine β) {c : Command} (hc : c.isAtomic = true) :
    (m.act c).clocks + (m.act c).owed + forgone [(m, c)] =
      m.clocks + m.owed +
        (8 * resets [(m, c)] + 7 * irqs [(m, c)] + 8 * nmis [(m, c)] + fetched [(m, c)]) := by
  rw [clocks_act m hc, owed_act m hc]
  cases c
  case step | run => exact absurd hc Bool.noConfusion
  case clock =>
    have := two_le_cost m
    by_cases ho : m.owed = 0
    · simp [owing, forgone, resets, irqs, nmis, fetched, preempts, ho]
      omega
    · simp [owing, forgone, resets, irqs, nmis, fetched, preempts, ho]
      omega
  case irq =>
    cases hi : m.registers.status.interruptDisable
    · simp [owing, forgone, resets, irqs, nmis, fetched, preempts, hi]
      omega
    · simp [owing, forgone, resets, irqs, nmis, fetched, preempts, hi]
  all_goals simp [owing, forgone, resets, irqs, nmis, fetched, preempts] <;> omega

/-- **Every history balances.** -/
theorem Trail.ledger {m n : Machine β} {t : List (Machine β × Command)} (h : Trail m t n) :
    n.clocks + n.owed + forgone t =
      m.clocks + m.owed + (8 * resets t + 7 * irqs t + 8 * nmis t + fetched t) := by
  induction h with
  | nil => rfl
  | @cons m n c l hc _ ih =>
    have hs := m.ledger_act hc
    simp only [resets, irqs, nmis, fetched, forgone, List.countP_cons, List.countP_nil,
      List.map_cons, List.map_nil, List.sum_cons, List.sum_nil] at hs ih ⊢
    omega

end Machine

/-! ## The accounts of an emulator -/

namespace Emulator

open Command Machine

/-- Whether a call resets the machine: a reset, or a program that fits. -/
def restarts (e : Emulator) : Call → Bool
  | .reset => true
  | .loadProgram start program => (e.loadProgram start program).1.isOk
  | _ => false

/-- A call that resets the machine may write to memory before. -/
theorem commands_of_restarts {e : Emulator} {c : Call} (h : e.restarts c = true) :
    ∃ cells, e.commands c = writes cells ++ [.reset] := by
  cases c
  case reset => exact ⟨[], rfl⟩
  case loadProgram start program =>
    cases hl : (e.loadProgram start program).1 with
    | ok =>
      refine ⟨cells start program ++ vectorCells resetVector start, ?_⟩
      simp only [commands, hl]
    | error =>
      rw [restarts, hl] at h
      exact absurd h Bool.noConfusion
  all_goals exact absurd h Bool.noConfusion

/-- A call sets the debt anew to restart the machine, or else by itself at an instruction
boundary. -/
theorem mem_commands {e : Emulator} {c : Call} {d : Command} (h : d ∈ e.commands c)
    (hd : d.setsDebt = true) :
    d = .reset ∧ e.restarts c = true ∨ e.commands c = [d] ∧ e.machine.owed = 0 := by
  cases c
  case loadProgram start program =>
    cases hl : (e.loadProgram start program).1 with
    | ok =>
      simp only [commands, hl] at h
      have hr := (List.mem_append.mp h).resolve_left (notMem_writes hd)
      exact .inl ⟨List.mem_singleton.mp hr, by rw [restarts, hl]; rfl⟩
    | error =>
      simp only [commands, hl] at h
      exact absurd h List.not_mem_nil
  case setIrqVector => exact absurd h (notMem_writes hd)
  case reset => exact .inl ⟨List.mem_singleton.mp h, rfl⟩
  case irq | nmi =>
    by_cases hc : e.machine.complete = true
    · simp only [commands, if_pos hc] at h ⊢
      rw [List.mem_singleton.mp h]
      exact .inr ⟨rfl, eq_of_beq hc⟩
    · simp only [commands, if_neg hc] at h
      exact absurd h List.not_mem_nil
  all_goals
    rw [List.mem_singleton.mp h] at hd
    exact absurd hd Bool.noConfusion

/-- **No interrupt cuts an instruction short**: whatever sets the debt anew either finds it paid or
restarts the machine. -/
theorem owed_of_setsDebt {e : Emulator} {c : Call} {p : Machine Memory × Command}
    (hp : p ∈ e.machine.moments (e.commands c)) (hs : p.2.setsDebt = true) :
    p.2 = .reset ∧ e.restarts c = true ∨ p.1.owed = 0 := by
  refine (mem_commands (mem_of_setsDebt hp hs) hs).imp_right ?_
  rintro ⟨hc, ho⟩
  rw [hc, moments_single _ (isAtomic_of_setsDebt hs)] at hp
  rw [List.mem_singleton.mp hp]
  exact ho

/-- **A call forgoes cycles only if it restarts the machine.** -/
theorem forgone_commands (e : Emulator) (c : Call) :
    forgone (e.machine.moments (e.commands c)) = if e.restarts c then e.machine.owed else 0 := by
  split
  case isTrue h =>
    obtain ⟨cells, hc⟩ := commands_of_restarts h
    have hw : forgone (e.machine.moments (writes cells)) = 0 := by
      refine forgone_eq_zero fun p hp hpre => ?_
      have hs := setsDebt_of_preempts hpre
      exact absurd (mem_of_setsDebt hp hs) (notMem_writes hs)
    rw [hc, moments_append, forgone_append, hw, performAll_writes, moments_single _ rfl]
    exact Nat.zero_add _
  case isFalse h =>
    refine forgone_eq_zero fun p hp hs => ?_
    exact (owed_of_setsDebt hp (setsDebt_of_preempts hs)).resolve_left fun hr => h hr.2

/-- The cycles that a list of calls forgoes. -/
theorem forgone_history (e : Emulator) (calls : List Call) :
    forgone (e.machine.moments (e.history calls)) =
      ((e.occasions calls).map fun q => if q.1.restarts q.2 then q.1.machine.owed else 0).sum := by
  induction calls generalizing e with
  | nil => rfl
  | cons c rest ih =>
    show forgone (e.machine.moments (e.commands c ++ (e.call c).2.history rest)) = _
    rw [moments_append, forgone_append, forgone_commands, ← machine_call, ih]
    rfl

/-- Interrupts meet the machine of an emulator at instruction boundaries. -/
theorem owed_of_interrupt (e : Emulator) (calls : List Call) {p : Machine Memory × Command}
    (hp : p ∈ e.machine.moments (e.history calls)) (hi : p.2 = .irq ∨ p.2 = .nmi) :
    p.1.owed = 0 := by
  induction calls generalizing e with
  | nil => exact absurd hp List.not_mem_nil
  | cons c rest ih =>
    have hp : p ∈ e.machine.moments (e.commands c ++ (e.call c).2.history rest) := hp
    rw [moments_append, ← machine_call] at hp
    rcases List.mem_append.mp hp with hp | hp
    · refine (owed_of_setsDebt hp ?_).resolve_left fun hr => ?_
      · rcases hi with h | h <;> rw [h] <;> rfl
      · rw [hr.1] at hi
        exact hi.elim Command.noConfusion Command.noConfusion
    · exact ih _ hp

/-- While cycles are owed, interrupts are refused. -/
theorem call_of_owed {e : Emulator} (h : e.machine.owed ≠ 0) :
    e.call .irq = (.accepted false, e) ∧ e.call .nmi = (.accepted false, e) := by
  have hc : ¬ e.machine.complete = true := fun hc => h (eq_of_beq hc)
  simp only [call, Emulator.irq, Emulator.nmi, if_neg hc, and_self]

/-- At an instruction boundary, interrupts are accepted. -/
theorem call_of_boundary {e : Emulator} (h : e.machine.owed = 0) :
    (e.call .irq).1 = .accepted true ∧ (e.call .nmi).1 = .accepted true := by
  have hc : e.machine.complete = true := beq_iff_eq.mpr h
  simp only [call, Emulator.irq, Emulator.nmi, if_pos hc, and_self]

end Emulator

/-! ## Both together -/

open Machine Emulator

/-- **The ledger of cycles.** Since power-on, the clocks and what is owed, with what was still owed
at every later reset and at every interrupt taken, come to eight cycles for every reset, the one at
power-on included, seven for every interrupt request taken, eight for every non-maskable interrupt,
and the cost of every instruction fetched. An emulator refuses interrupts while cycles are owed,
which changes nothing, and accepts them at an instruction boundary; so the cycles forgone are those
still owed when it is reset or loads a program. -/
theorem cycles_balance {β : Type u} [Bus β] :
    (∀ (bus : β) (options : Options) (history : List Command),
      let start := powerOn bus options
      let final := (start.performAll history).2
      let t := start.moments history
      final.clocks + final.owed + forgone t =
        8 * (1 + resets t) + 7 * irqs t + 8 * nmis t + fetched t) ∧
    ∀ calls : List Call,
      let e := (new.callAll calls).2
      let t := new.machine.moments (new.history calls)
      e.machine = (new.machine.performAll (new.history calls)).2 ∧
        (e.machine.owed ≠ 0 →
          e.call .irq = (.accepted false, e) ∧ e.call .nmi = (.accepted false, e)) ∧
        (e.machine.owed = 0 →
          (e.call .irq).1 = .accepted true ∧ (e.call .nmi).1 = .accepted true) ∧
        (∀ p ∈ t, p.2 = .irq ∨ p.2 = .nmi → p.1.owed = 0) ∧
        forgone t = ((new.occasions calls).map fun q =>
          if q.1.restarts q.2 then q.1.machine.owed else 0).sum := by
  refine ⟨fun bus options history => ?_, fun calls => ⟨machine_callAll new calls, call_of_owed,
    call_of_boundary, fun p => owed_of_interrupt new calls, forgone_history new calls⟩⟩
  intro start final t
  have balance : final.clocks + final.owed + forgone t =
      0 + 8 + (8 * resets t + 7 * irqs t + 8 * nmis t + fetched t) :=
    (start.trail_moments history).ledger
  omega

/-- Interrupts are refused while an emulator starts, and accepted when it has started. -/
theorem call_starting :
    ((new.callAll [.clock]).2.call .irq).1 = .accepted false ∧
      ((new.callAll [.run 8]).2.call .nmi).1 = .accepted true := by
  obtain ⟨-, ledger⟩ := cycles_balance (β := Memory)
  obtain ⟨-, refused, -⟩ := ledger [.clock]
  obtain ⟨-, -, accepted, -⟩ := ledger [.run 8]
  exact ⟨congrArg Prod.fst (refused (by decide +kernel)).1, (accepted (by decide +kernel)).2⟩

end Core6502
