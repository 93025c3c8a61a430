import Core6502.Emulator
import Core6502.Proofs.History.Moments
import Core6502.Proofs.Memory

/-!
# Calls as commands

What a call does to an emulator, commands do to its machine: loading a program is a row of writes
and a reset, an interrupt in the middle of an instruction is no command at all. `Emulator.commands`
gives them, and `Emulator.history` those of a whole list of calls.

* `loadProgram_of_fits`, `loadProgram_of_overflow`: a program is loaded whole or not at all, and
  then nothing is changed.
* `machine_call`, **`machine_callAll`**: the machine of the emulator does what the commands say.
-/

namespace Core6502

/-! ## Writes -/

namespace Command

/-- The cells of an image, each with its byte. -/
def cells (start : Word) : List Byte → List (Word × Byte)
  | [] => []
  | b :: rest => (start, b) :: cells (start + 1) rest

/-- The two cells of a vector. -/
def vectorCells (vector target : Word) : List (Word × Byte) :=
  [(vector, Word.low target), (vector + 1, Word.high target)]

/-- Write bytes to cells. -/
def writes (cells : List (Word × Byte)) : List Command := cells.map fun p => .write p.1 p.2

end Command

open Command

/-- The memory with bytes written to cells, one after the other. -/
def Memory.store (memory : Memory) (cells : List (Word × Byte)) : Memory :=
  cells.foldl (fun memory p => memory.set p.1 p.2) memory

theorem Memory.store_append (memory : Memory) (s t : List (Word × Byte)) :
    memory.store (s ++ t) = (memory.store s).store t := List.foldl_append

theorem Memory.overlay_eq_store (memory : Memory) (start : Word) (image : List Byte) :
    memory.overlay start image = memory.store (cells start image) := by
  induction image generalizing memory start with
  | nil => rfl
  | cons b rest ih => exact ih (memory.set start b) (start + 1)

namespace Machine

theorem performAll_writes (m : Machine Memory) (cells : List (Word × Byte)) :
    (m.performAll (writes cells)).2 = { m with bus := m.bus.store cells } := by
  induction cells generalizing m with
  | nil => rfl
  | cons p rest ih => exact ih (m.write p.1 p.2)

end Machine

/-! ## Calls -/

namespace Emulator

/-- Make calls one after the other and collect their replies. -/
def callAll (e : Emulator) : List Call → List Reply × Emulator
  | [] => ([], e)
  | c :: rest =>
    let first := e.call c
    let others := first.2.callAll rest
    (first.1 :: others.1, others.2)

/-- The calls of a list, each with the emulator before it. -/
def occasions (e : Emulator) : List Call → List (Emulator × Call)
  | [] => []
  | c :: rest => (e, c) :: (e.call c).2.occasions rest

/-- What a call comes to. -/
def commands (e : Emulator) : Call → List Command
  | .loadProgram start program =>
    match (e.loadProgram start program).1 with
    | .ok () => writes (cells start program ++ vectorCells resetVector start) ++ [.reset]
    | .error _ => []
  | .setIrqVector target => writes (vectorCells irqVector target)
  | .clock => [.clock]
  | .step => [.step]
  | .run cycles => [.run cycles.toNat]
  | .reset => [.reset]
  | .irq => if e.machine.complete then [.irq] else []
  | .nmi => if e.machine.complete then [.nmi] else []
  | .writeMemory address value => [.write address value]

/-- What calls come to, one after the other. -/
def history (e : Emulator) : List Call → List Command
  | [] => []
  | c :: rest => e.commands c ++ (e.call c).2.history rest

/-- The emulator with a program in memory and the reset vector at its start. -/
def stored (e : Emulator) (start : Word) (program : List Byte) : Emulator :=
  e.modifyMemory fun memory => (memory.overlay start program).setVector resetVector start

/-- Loading a program that fits stores it, and resets. -/
theorem loadProgram_of_fits {e : Emulator} {start : Word} {program : List Byte}
    (h : start.toNat + program.length ≤ 65536) :
    e.loadProgram start program = (.ok (), (e.stored start program).reset) := by
  unfold loadProgram
  rw [Memory.load_of_fits _ h]
  rfl

/-- A program that does not fit changes nothing. -/
theorem loadProgram_of_overflow {e : Emulator} {start : Word} {program : List Byte}
    (h : 65536 < start.toNat + program.length) :
    e.loadProgram start program =
      (.error ⟨ImageOverflow.message ⟨start, program.length⟩⟩, e) := by
  unfold loadProgram
  rw [Memory.load_of_overflow _ h]
  rfl

/-- **A program that is stored is written** with the reset vector. -/
theorem machine_stored (e : Emulator) (start : Word) (program : List Byte) :
    (e.stored start program).machine = (e.machine.performAll
      (writes (cells start program ++ vectorCells resetVector start))).2 := by
  rw [Machine.performAll_writes, Memory.store_append, ← Memory.overlay_eq_store]
  rfl

/-- **A call does what its commands say.** -/
theorem machine_call (e : Emulator) (c : Call) :
    (e.call c).2.machine = (e.machine.performAll (e.commands c)).2 := by
  cases c
  case loadProgram start program =>
    by_cases h : start.toNat + program.length ≤ 65536
    · simp only [call, commands, loadProgram_of_fits h]
      rw [Machine.performAll_append, ← machine_stored]
      rfl
    · simp only [call, commands, loadProgram_of_overflow (Nat.lt_of_not_le h), Machine.performAll]
  case irq =>
    show e.irq.2.machine = _
    unfold irq commands
    split <;> rfl
  case nmi =>
    show e.nmi.2.machine = _
    unfold nmi commands
    split <;> rfl
  all_goals rfl

/-- **Calls do what their commands say.** -/
theorem machine_callAll (e : Emulator) (calls : List Call) :
    (e.callAll calls).2.machine = (e.machine.performAll (e.history calls)).2 := by
  induction calls generalizing e with
  | nil => rfl
  | cons c rest ih =>
    show ((e.call c).2.callAll rest).2.machine = _
    rw [ih, machine_call, ← Machine.performAll_append]
    rfl

end Emulator

end Core6502
