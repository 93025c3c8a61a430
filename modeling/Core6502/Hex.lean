import Core6502.Word

/-!
# Hexadecimal text

Bytes and words are written in upper-case hexadecimal of fixed width: two digits for a byte, four
for a word.
-/

namespace Core6502.Hex

/-- The upper-case digit for `n` below sixteen. -/
def digit (n : Nat) : Char :=
  if n < 10 then Char.ofNat (n + 48) else Char.ofNat (n + 55)

/-- The two digits of a byte, high digit first. -/
def digits (b : Byte) : List Char := [digit (b.toNat / 16), digit (b.toNat % 16)]

/-- A byte as two digits. -/
def byte (b : Byte) : String := String.ofList (digits b)

/-- A word as four digits. -/
def word (w : Word) : String := String.ofList (digits (Word.high w) ++ digits (Word.low w))

end Core6502.Hex
