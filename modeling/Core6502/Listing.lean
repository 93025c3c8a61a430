import Core6502.Instruction
import Std.Data.TreeMap

/-!
# Listings

A range of addresses is decoded one instruction after another (`disassembler::decode_range`): each
begins where the last one ended, and the walk stops at the first beginning past the end of the
range. Addresses are counted without wrapping, so a range up to the top address ends too. The last
instruction may have operand bytes past the end.

A listing (`disassembler::disassemble`) maps the address of each of these instructions to its line.
-/

universe u

namespace Core6502.Listing

variable {β : Type u} [Bus β]

/-- Decode from `cursor` on, up to the last instruction that begins at `stop` or before. -/
def walk (bus : β) (cursor stop : Nat) : List Instruction × β :=
  if _h : cursor ≤ stop then
    let first := Instruction.decode bus (UInt16.ofNat cursor)
    have := Instruction.size_decode_pos bus (UInt16.ofNat cursor)
    let rest := walk first.2 (cursor + first.1.size) stop
    (first.1 :: rest.1, rest.2)
  else ([], bus)
termination_by stop + 1 - cursor

/-- The instructions that begin from `start` to `stop`. -/
def range (bus : β) (start stop : Word) : List Instruction × β :=
  walk bus start.toNat stop.toNat

/-- The lines of the instructions that begin from `start` to `stop`, by address. -/
def lines (bus : β) (start stop : Word) : Std.TreeMap Word String × β :=
  let instructions := range bus start stop
  (Std.TreeMap.ofList (instructions.1.map fun i => (i.address, i.text)), instructions.2)

end Core6502.Listing
