import Core6502.Proofs.History.Simulation

/-!
# The moments of a history as a trail

The moments of a history follow each other: the first meets the machine that the history starts
from, every other the machine that the command before it leaves. `Machine.Trail` says so of any list
of moments, and what holds of trails by induction holds of histories.

* `trail_moments`: the moments of a history are a trail from the machine before it to the machine
  after it.
* **`Trail.always`**: what every atomic command keeps holds at every moment.
* `mem_of_mem_moments`: their commands are those of the history, or clocks of a step or a run.
* `Trail.split`, `Trail.rest`: a trail cut at one of its moments.
* `clocks_act`, `owed_act`: what an atomic command does to the two counters, and
  `Trail.clocks_le`: the count of clocks never falls.
* `performAll_append`, `moments_append`: histories put after each other.
-/

universe u

namespace Core6502.Machine

variable {β : Type u} [Bus β]

/-- **A trail**: atomic commands, each with the machine before it, that lead from one machine to
another. -/
inductive Trail : Machine β → List (Machine β × Command) → Machine β → Prop where
  | nil (m : Machine β) : Trail m [] m
  | cons {m n : Machine β} {c : Command} {l : List (Machine β × Command)} :
    c.isAtomic = true → Trail (m.act c) l n → Trail m ((m, c) :: l) n

namespace Trail

variable {m k n : Machine β} {s t : List (Machine β × Command)}

theorem single (m : Machine β) {c : Command} (hc : c.isAtomic = true) :
    Trail m [(m, c)] (m.act c) := .cons hc (.nil _)

theorem append (hs : Trail m s k) (ht : Trail k t n) : Trail m (s ++ t) n := by
  induction hs with
  | nil => exact ht
  | cons hc _ ih => exact .cons hc (ih ht)

/-- **What every command keeps holds all along.** -/
theorem always {P : Machine β → Prop} (h : Trail m t n)
    (keep : ∀ k c, (k, c) ∈ t → c.isAtomic = true → P k → P (k.act c)) (hm : P m) :
    (∀ p ∈ t, P p.1) ∧ P n := by
  induction h with
  | nil => exact ⟨fun _ hp => absurd hp List.not_mem_nil, hm⟩
  | cons hc _ ih =>
    obtain ⟨hrest, hn⟩ := ih (fun k c hp => keep k c (List.mem_cons_of_mem _ hp))
      (keep _ _ List.mem_cons_self hc hm)
    exact ⟨List.forall_mem_cons.mpr ⟨hm, hrest⟩, hn⟩

/-- A moment cuts a trail in two: one part leads to it and the other goes on after it. -/
theorem split {p : Machine β × Command} (h : Trail m (s ++ p :: t) n) :
    Trail m s p.1 ∧ Trail (p.1.act p.2) t n := by
  induction s generalizing m with
  | nil =>
    cases h with
    | cons _ hr => exact ⟨.nil m, hr⟩
  | cons q s ih =>
    cases h with
    | cons hc hr => exact ⟨.cons hc (ih hr).1, (ih hr).2⟩

/-- From every moment on, a trail leads to its end. -/
theorem rest {p : Machine β × Command} (h : Trail m t n) (hp : p ∈ t) :
    ∃ s, Trail (p.1.act p.2) s n := by
  obtain ⟨s, r, rfl⟩ := List.append_of_mem hp
  exact ⟨r, h.split.2⟩

end Trail

/-! ## Histories are trails -/

theorem trail_clocks (m : Machine β) (n : Nat) :
    Trail m ((List.range n).map fun k => (clock^[k] m, .clock)) (clock^[n] m) := by
  induction n with
  | zero => exact .nil m
  | succ n ih =>
    rw [List.range_succ, List.map_append, Function.iterate_succ_apply']
    exact ih.append (.single (clock^[n] m) rfl)

theorem trail_during (m : Machine β) (c : Command) : Trail m (m.during c) (m.act c) := by
  cases c
  case step =>
    have h : m.act .step = clock^[m.owed + m.cost] m := congrArg Prod.snd (step_eq m)
    rw [h]
    exact m.trail_clocks _
  case run n =>
    have h : m.act (.run n) = clock^[n] m := run_snd m n
    rw [h]
    exact m.trail_clocks n
  all_goals exact .single m rfl

theorem moments_single (m : Machine β) {c : Command} (hc : c.isAtomic = true) :
    m.moments [c] = [(m, c)] := by
  cases c
  case step | run => exact absurd hc Bool.noConfusion
  all_goals rfl

/-- **The moments of a history lead through it.** -/
theorem trail_moments (m : Machine β) (history : List Command) :
    Trail m (m.moments history) (m.performAll history).2 := by
  induction history generalizing m with
  | nil => exact .nil m
  | cons c rest ih => exact (m.trail_during c).append (ih (m.act c))

/-- Every moment has a command of the history itself, or one of the clocks that a step or a run
makes. -/
theorem mem_of_mem_moments {m : Machine β} {history : List Command} {p : Machine β × Command}
    (hp : p ∈ m.moments history) :
    p.2 ∈ history ∨ p.2 = .clock ∧ ∃ c ∈ history, c.isAtomic = false := by
  induction history generalizing m with
  | nil => exact absurd hp List.not_mem_nil
  | cons c rest ih =>
    rcases List.mem_append.mp hp with hp | hp
    · cases c
      case step | run =>
        obtain ⟨k, -, rfl⟩ := List.mem_map.mp hp
        exact .inr ⟨rfl, _, List.mem_cons_self, rfl⟩
      all_goals
        rw [List.mem_singleton.mp hp]
        exact .inl List.mem_cons_self
    · refine (ih hp).imp (List.mem_cons_of_mem c) (And.imp_right ?_)
      rintro ⟨d, hd, ha⟩
      exact ⟨d, List.mem_cons_of_mem c hd, ha⟩

/-! ## The counters -/

theorem clocks_instruction (m : Machine β) : m.instruction.clocks = m.clocks :=
  congrArg (fun k => k.clocks) (instruction_atTime m m.clocks)

/-- Of the atomic commands only the clock counts. -/
theorem clocks_act (m : Machine β) {c : Command} (hc : c.isAtomic = true) :
    (m.act c).clocks = if c = .clock then m.clocks + 1 else m.clocks := by
  cases c
  case step | run => exact absurd hc Bool.noConfusion
  case clock =>
    show (if m.owed = 0 then m.instruction else m).clocks + 1 = m.clocks + 1
    split
    case isTrue => rw [clocks_instruction]
    case isFalse => rfl
  case irq =>
    show m.irq.clocks = m.clocks
    unfold irq
    split <;> rfl
  all_goals rfl

/-- What a machine owes after an atomic command. -/
def owing (m : Machine β) : Command → Nat
  | .clock => (if m.owed = 0 then m.cost else m.owed) - 1
  | .irq => if m.registers.status.interruptDisable then m.owed else 7
  | .reset | .nmi => 8
  | _ => m.owed

theorem owed_act (m : Machine β) {c : Command} (hc : c.isAtomic = true) :
    (m.act c).owed = m.owing c := by
  cases c
  case step | run => exact absurd hc Bool.noConfusion
  case clock =>
    show (if m.owed = 0 then m.instruction else m).owed - 1 =
      (if m.owed = 0 then m.cost else m.owed) - 1
    split <;> rfl
  case irq =>
    show m.irq.owed = if m.registers.status.interruptDisable then m.owed else 7
    unfold irq
    split <;> rfl
  all_goals rfl

theorem clocks_le_act (m : Machine β) {c : Command} (hc : c.isAtomic = true) :
    m.clocks ≤ (m.act c).clocks := by
  rw [clocks_act m hc]
  split
  case isTrue => exact Nat.le_succ _
  case isFalse => exact Nat.le_refl _

theorem Trail.clocks_le {m n : Machine β} {t : List (Machine β × Command)} (h : Trail m t n) :
    m.clocks ≤ n.clocks := by
  induction h with
  | nil => exact Nat.le_refl _
  | cons hc _ ih => exact (clocks_le_act _ hc).trans ih

/-! ## Histories after each other -/

theorem performAll_append (m : Machine β) (s t : List Command) :
    (m.performAll (s ++ t)).2 = ((m.performAll s).2.performAll t).2 := by
  induction s generalizing m with
  | nil => rfl
  | cons c s ih => exact ih (m.act c)

theorem moments_append (m : Machine β) (s t : List Command) :
    m.moments (s ++ t) = m.moments s ++ (m.performAll s).2.moments t := by
  induction s generalizing m with
  | nil => rfl
  | cons c s ih =>
    show m.during c ++ (m.act c).moments (s ++ t) = _
    rw [ih, ← List.append_assoc]
    rfl

end Core6502.Machine
