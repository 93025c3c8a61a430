import Core6502.Word

/-!
# The bus

A processor sees everything outside itself through a bus of 65536 addresses (`bus::Bus`). Every
access succeeds. A bus is a value: an access returns the bus as the access leaves it, so a device
may react to being read.

A `read` or a `write` is a bus cycle of the processor. A `peek` is an inspection, made by a
listing or a debugger; devices should not react to it. The two are one method `Bus::read`, which is
told by a flag which of them it is.
-/

universe u

namespace Core6502

/-- What a processor can be attached to. -/
class Bus (β : Type u) where
  /-- Read a byte as a bus cycle. -/
  read : β → Word → Byte × β
  /-- Look at a byte without making a bus cycle. -/
  peek : β → Word → Byte × β
  /-- Write a byte. -/
  write : β → Word → Byte → β

namespace Bus

variable {β : Type u} [Bus β]

/-- Read the word at `address` (`Bus::read_word`), low byte first; the second address wraps. -/
def readWord (bus : β) (address : Word) : Word × β :=
  let lo := read bus address
  let hi := read lo.2 (address + 1)
  (Word.ofBytes lo.1 hi.1, hi.2)

/-- Look at the word at `address` (`Bus::peek_word`), low byte first; the second address wraps. -/
def peekWord (bus : β) (address : Word) : Word × β :=
  let lo := peek bus address
  let hi := peek lo.2 (address + 1)
  (Word.ofBytes lo.1 hi.1, hi.2)

end Bus

end Core6502
