import Core6502.Proofs.History.Background
import Core6502.Proofs.History.Calls
import Core6502.Proofs.Memory

/-!
# Loading a program is a new start

Loading a program resets the machine, and a reset leaves nothing of the history but the count of
clocks, the journal and the options. Nothing ever looks at the first two, and calls do not change
the options. So an emulator that has just loaded a program goes on as a new one would over the same
memory, with more clocks on its count.

* `perform_later`, **`callAll_later`**: commands and calls do the same at a later time.
* `reset_eq_later`: a reset is a power-on at a later time; `options_callAll`: under the same
  options, as calls do not change them.
* `get_stored`: what memory holds with a program in it.
* **`load_program_restarts`** puts these together.
-/

universe u

namespace Core6502

namespace Machine

variable {β : Type u}

/-- The machine with clocks and events before its own. -/
def later (clocks : Nat) (past : List Event) (m : Machine β) : Machine β :=
  { m with clocks := m.clocks + clocks, journal := m.journal ++ past }

variable [Bus β]

theorem consults_self (o : Options) (m : Machine β) (c : Command) :
    m.consults o o c = false := by
  cases c <;> simp [consults]

/-- **A command does the same at a later time.** -/
theorem perform_later (clocks : Nat) (past : List Event) (m : Machine β) (c : Command) :
    (m.later clocks past).perform c = ((m.perform c).1, (m.act c).later clocks past) := by
  have h := perform_against (m := m) (b := ⟨m.options, (· + clocks), past⟩) (c := c)
    (fun t => Nat.succ_add_eq_add_succ t clocks) fun p _ => consults_self _ p.1 p.2
  have ho : (m.act c).options = m.options := (m.trail_during c).options_eq
  have hlater : (m.act c).later clocks past =
      (m.act c).against ⟨m.options, (· + clocks), past⟩ := by
    unfold later against
    rw [ho]
  rw [hlater]
  exact h

/-- **A reset is a power-on at a later time.** -/
theorem reset_eq_later (m : Machine β) :
    m.reset = (powerOn m.bus m.options).later m.clocks m.journal := by
  simp only [powerOn, reset, later, record, readWord, readPair, read, Nat.zero_add,
    List.cons_append, List.nil_append]

end Machine

namespace Emulator

/-- A new emulator over given memory. -/
def powerOn (memory : Memory) : Emulator := ⟨Machine.powerOn memory {}⟩

/-- The emulator with clocks and events before its own. -/
def later (clocks : Nat) (past : List Event) (e : Emulator) : Emulator :=
  ⟨e.machine.later clocks past⟩

theorem reset_later (clocks : Nat) (past : List Event) (e : Emulator) :
    (e.later clocks past).reset = e.reset.later clocks past :=
  congrArg (fun r => mk r.2) (e.machine.perform_later clocks past .reset)

theorem stored_later (clocks : Nat) (past : List Event) (e : Emulator) (start : Word)
    (program : List Byte) :
    (e.later clocks past).stored start program = (e.stored start program).later clocks past := rfl

theorem call_later (clocks : Nat) (past : List Event) (e : Emulator) (c : Call) :
    (e.later clocks past).call c = ((e.call c).1, (e.call c).2.later clocks past) := by
  have perform := e.machine.perform_later clocks past
  cases c
  case loadProgram start program =>
    by_cases h : start.toNat + program.length ≤ 65536
    · simp only [call, loadProgram_of_fits h, stored_later, reset_later]
    · simp only [call, loadProgram_of_overflow (Nat.lt_of_not_le h)]
  case step =>
    exact congrArg (fun r => (Reply.count (UInt32.ofNat (r.1.getD 0)), mk r.2)) (perform .step)
  case run cycles =>
    exact congrArg (fun r => (Reply.count (UInt32.ofNat (r.1.getD 0)), mk r.2))
      (perform (.run cycles.toNat))
  case irq =>
    have hirq : (e.machine.later clocks past).irq = e.machine.irq.later clocks past :=
      congrArg Prod.snd (perform .irq)
    have ho : (e.later clocks past).machine.complete = e.machine.complete := rfl
    simp only [call, irq, ho]
    split
    case isTrue => exact congrArg (fun m => (Reply.accepted true, mk m)) hirq
    case isFalse => rfl
  case nmi =>
    have hnmi : (e.machine.later clocks past).nmi = e.machine.nmi.later clocks past :=
      congrArg Prod.snd (perform .nmi)
    have ho : (e.later clocks past).machine.complete = e.machine.complete := rfl
    simp only [call, nmi, ho]
    split
    case isTrue => exact congrArg (fun m => (Reply.accepted true, mk m)) hnmi
    case isFalse => rfl
  case clock => exact congrArg (fun r => (Reply.done, mk r.2)) (perform .clock)
  case reset => exact congrArg (Reply.done, ·) (e.reset_later clocks past)
  case setIrqVector | writeMemory => rfl

/-- **Calls do the same at a later time.** -/
theorem callAll_later (clocks : Nat) (past : List Event) (e : Emulator) (calls : List Call) :
    (e.later clocks past).callAll calls =
        ((e.callAll calls).1, (e.callAll calls).2.later clocks past) ∧
      (e.later clocks past).occasions calls =
        (e.occasions calls).map fun p => (p.1.later clocks past, p.2) := by
  induction calls generalizing e with
  | nil => exact ⟨rfl, rfl⟩
  | cons c rest ih =>
    obtain ⟨hall, hoccasions⟩ := ih (e.call c).2
    have hc := e.call_later clocks past c
    constructor
    · simp only [callAll, hc, hall]
    · simp only [occasions, hc, hoccasions, List.map_cons]

theorem options_callAll (e : Emulator) (calls : List Call) :
    (e.callAll calls).2.machine.options = e.machine.options := by
  rw [machine_callAll]
  exact (e.machine.trail_moments _).options_eq

/-! ## Loading a program -/

/-- **A reset is a new start** for an emulator with default options. -/
theorem reset_eq_later {e : Emulator} (h : e.machine.options = {}) :
    e.reset = (powerOn e.machine.bus).later e.machine.clocks e.machine.journal := by
  have hr := e.machine.reset_eq_later
  rw [h] at hr
  exact congrArg mk hr

/-- What memory holds with a program in it: the vector, then the program, then what was there. -/
theorem get_stored (e : Emulator) {start : Word} {program : List Byte}
    (h : start.toNat + program.length ≤ 65536) (address : Word) :
    (e.stored start program).machine.bus.get address =
      if address = resetVector + 1 then Word.high start
      else if address = resetVector then Word.low start
      else (Memory.imageAt start program address).getD (e.machine.bus.get address) := by
  rw [← Memory.get_overlay _ h]
  exact Memory.get_setVector _ resetVector start address

/-- **Loading a program is whole or nothing, and a new start.** After any calls, loading an image
that runs past the top address fails with a message that says so, and changes nothing. Any other
image is loaded: memory then holds the start of the image in the reset vector, the image in the
rest of its addresses and what it held before elsewhere, and to all calls that follow the emulator
is a new one over this memory that has counted more clocks and noted more events. -/
theorem load_program_restarts (calls : List Call) (start : Word) (program : List Byte) :
    let e := (new.callAll calls).2
    let loaded := e.call (.loadProgram start program)
    let fresh := powerOn loaded.2.machine.bus
    (65536 < start.toNat + program.length →
      loaded = (.failed ⟨ImageOverflow.message ⟨start, program.length⟩⟩, e)) ∧
    (start.toNat + program.length ≤ 65536 →
      loaded.1 = .done ∧
      (∀ address, loaded.2.machine.bus.get address =
        if address = resetVector + 1 then Word.high start
        else if address = resetVector then Word.low start
        else (Memory.imageAt start program address).getD (e.machine.bus.get address)) ∧
      ∀ rest,
        loaded.2.callAll rest = ((fresh.callAll rest).1,
          (fresh.callAll rest).2.later e.machine.clocks e.machine.journal) ∧
        loaded.2.occasions rest = (fresh.occasions rest).map fun p =>
          (p.1.later e.machine.clocks e.machine.journal, p.2)) := by
  intro e loaded fresh
  constructor
  · intro h
    simp only [loaded, call, loadProgram_of_overflow h, Reply.ofResult]
  · intro h
    have hl : loaded = (.done, (e.stored start program).reset) := by
      simp only [loaded, call, loadProgram_of_fits h, Reply.ofResult]
    have hbus : loaded.2.machine.bus = (e.stored start program).machine.bus := by
      rw [hl]
      rfl
    have ho : (e.stored start program).machine.options = {} := new.options_callAll calls
    have hfresh : loaded.2 = fresh.later e.machine.clocks e.machine.journal := by
      simp only [fresh, hbus]
      rw [hl]
      exact reset_eq_later ho
    refine ⟨by rw [hl], fun address => ?_, fun rest => ?_⟩
    · rw [hbus]
      exact e.get_stored h address
    · rw [hfresh]
      exact fresh.callAll_later _ _ rest

/-- Calls that leave an emulator in the middle of INX, with a byte in the accumulator. -/
def interrupted : List Call := [.loadProgram 0x8000 [0xA9, 0x42, 0xE8], .run 11]

/-- An image over the reset vector is loaded but for these two bytes, and one more byte does not
fit. -/
theorem load_interrupted :
    let e := (new.callAll interrupted).2
    let loaded := e.call (.loadProgram 0xFFF8 (List.replicate 8 0xE8))
    (e.call (.loadProgram 0xFFF8 (List.replicate 9 0xE8))).1 =
        .failed ⟨"9 byte image at $FFF8 does not fit below $10000"⟩ ∧
      loaded.2.readMemory 0xFFFB = 0xE8 ∧ loaded.2.readMemory 0xFFFC = 0xF8 ∧
      (loaded.2.callAll [.run 12]).2.machine.clocks =
        ((powerOn loaded.2.machine.bus).callAll [.run 12]).2.machine.clocks + 11 := by
  intro e loaded
  obtain ⟨overflows, -⟩ := load_program_restarts interrupted 0xFFF8 (List.replicate 9 0xE8)
  obtain ⟨-, loads⟩ := load_program_restarts interrupted 0xFFF8 (List.replicate 8 0xE8)
  obtain ⟨-, bytes, restarts⟩ := loads (by decide)
  have hclocks : e.machine.clocks = 11 := by decide +kernel
  refine ⟨(congrArg Prod.fst (overflows (by decide))).trans (by decide +kernel),
    (bytes 0xFFFB).trans (by decide +kernel), (bytes 0xFFFC).trans (by decide +kernel), ?_⟩
  rw [← hclocks]
  exact congrArg (fun r => r.2.machine.clocks) (restarts [.run 12]).1

end Emulator

end Core6502
