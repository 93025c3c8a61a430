import Core6502.Machine.Basic

/-!
# Power-on, reset and interrupts

These may happen between any two clocks, also in the middle of an instruction; what was still owed
for it is then forgotten. An interrupt request is ignored while interrupts are disabled. They are
`CPU::with_options`, `CPU::reset`, `CPU::irq` and `CPU::nmi`.
-/

universe u

namespace Core6502.Machine

variable {β : Type u} [Bus β]

/-- Clear the registers and latches, continue at the reset vector and owe eight cycles. The clock
count goes on. -/
def reset (m : Machine β) : Machine β :=
  let target := m.readWord resetVector
  let registers : Registers :=
    { a := 0, x := 0, y := 0, sp := 0xFD, pc := target.1, status := Status.initial }
  { target.2 with registers, latches := Latches.clear, owed := 8 }.record (.reset target.1)

/-- Build a machine on a bus and reset it. -/
def powerOn (bus : β) (options : Options) : Machine β :=
  reset
    { registers := ⟨0, 0, 0, 0, 0, Status.initial⟩
      latches := Latches.clear
      owed := 0
      clocks := 0
      options
      bus
      journal := [] }

/-- Push the program counter and the status without its break flag, disable interrupts and continue
at the handler (`CPU::interrupt`). -/
def interrupt (m : Machine β) (vector : Word) : Machine β :=
  let m := m.pushWord m.registers.pc
  let m := { m with
    registers.status := { m.registers.status with brk := false, unused := true } }
  let m := m.push m.registers.status.pushedByInterrupt
  let m := { m with registers.status.interruptDisable := true }
  let handler := m.readWord vector
  handler.2.jumpTo handler.1

/-- Request an interrupt: taken, at seven cycles, unless interrupts are disabled. -/
def irq (m : Machine β) : Machine β :=
  if m.registers.status.interruptDisable then m.record (.irqMasked m.registers.pc)
  else { (m.record (.irqTaken m.registers.pc)).interrupt irqVector with owed := 7 }

/-- Interrupt without asking, at eight cycles. -/
def nmi (m : Machine β) : Machine β :=
  { (m.record (.nmiTaken m.registers.pc)).interrupt m.options.nmiVector with owed := 8 }

end Core6502.Machine
