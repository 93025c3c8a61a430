import Core6502.Machine.Clock
import Core6502.Machine.Interrupt

/-!
# Commands

Everything the owner of a machine can do to it, as data: the methods of `CPU` that change it
(`CPU::clock` to `CPU::nmi`, `CPU::set_a` and the other setters, `CPU::set_flag`) and a write to the
bus that `CPU::bus_mut` lends. `Machine.perform` carries out one command and `Machine.performAll` a
whole history.
-/

universe u

namespace Core6502

/-- One thing the owner of a machine asks of it. -/
inductive Command where
  | clock
  | step
  | run (cycles : Nat)
  | reset
  | irq
  | nmi
  | setA (value : Byte)
  | setX (value : Byte)
  | setY (value : Byte)
  | setSp (value : Byte)
  | setPc (value : Word)
  /-- Set or clear every flag of a mask. -/
  | setFlags (mask : Status) (on : Bool)
  /-- Write to the bus. -/
  | write (address : Word) (value : Byte)
  deriving DecidableEq

namespace Machine

variable {β : Type u} [Bus β]

/-- Carry out a command. The number is what `step` and `run` return. -/
def perform (m : Machine β) : Command → Option Nat × Machine β
  | .clock => (none, m.clock)
  | .step =>
    let r := m.step
    (some r.1, r.2)
  | .run cycles =>
    let r := m.run cycles
    (some r.1, r.2)
  | .reset => (none, m.reset)
  | .irq => (none, m.irq)
  | .nmi => (none, m.nmi)
  | .setA value => (none, { m with registers.a := value })
  | .setX value => (none, { m with registers.x := value })
  | .setY value => (none, { m with registers.y := value })
  | .setSp value => (none, { m with registers.sp := value })
  | .setPc value => (none, m.jumpTo value)
  | .setFlags mask on => (none, m.setFlags mask on)
  | .write address value => (none, m.write address value)

/-- Carry out a history and collect what its commands return. -/
def performAll (m : Machine β) : List Command → List (Option Nat) × Machine β
  | [] => ([], m)
  | c :: rest =>
    let first := m.perform c
    let others := first.2.performAll rest
    (first.1 :: others.1, others.2)

end Machine

end Core6502
