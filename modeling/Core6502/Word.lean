/-!
# Bytes and words

A byte is `UInt8` and an address or any other sixteen-bit word is `UInt16`; both wrap. Words are
kept in memory low byte first.

* `Word.ofBytes` joins a low and a high byte, and `Word.low`, `Word.high` take a word apart:
  `low_ofBytes`, `high_ofBytes` and `ofBytes_low_high` say that they are inverse.
* `Byte.signExtend` reads a byte as a two's complement offset.
* `Word.crossesPage` compares the 256-byte pages of two addresses (`addressing::crosses_page`).
-/

namespace Core6502

/-- Eight bits of data. -/
abbrev Byte := UInt8

/-- Sixteen bits: an address, or the word stored at one. -/
abbrev Word := UInt16

namespace Word

/-- The word with the given low and high byte. -/
def ofBytes (lo hi : Byte) : Word := lo.toUInt16 + 256 * hi.toUInt16

/-- The low byte of a word. -/
def low (w : Word) : Byte := w.toUInt8

/-- The high byte of a word: the page number of an address. -/
def high (w : Word) : Byte := (w / 256).toUInt8

/-- Whether two addresses lie in different 256-byte pages. -/
def crossesPage (base effective : Word) : Bool := high base != high effective

theorem toNat_ofBytes (lo hi : Byte) :
    (ofBytes lo hi).toNat = lo.toNat + 256 * hi.toNat := by
  have h₁ := lo.toNat_lt
  have h₂ := hi.toNat_lt
  simp only [ofBytes, UInt16.toNat_add, UInt16.toNat_mul, UInt8.toNat_toUInt16]
  simp only [UInt16.reduceToNat]
  omega

theorem toNat_low (w : Word) : (low w).toNat = w.toNat % 256 := rfl

theorem toNat_high (w : Word) : (high w).toNat = w.toNat / 256 := by
  have h := w.toNat_lt
  have hd : w.toNat / 256 < 256 := by omega
  simp only [high, UInt16.toNat_toUInt8, UInt16.toNat_div, UInt16.reduceToNat]
  omega

@[simp] theorem low_ofBytes (lo hi : Byte) : low (ofBytes lo hi) = lo := by
  have h := lo.toNat_lt
  apply UInt8.toNat_inj.mp
  rw [toNat_low, toNat_ofBytes]
  omega

@[simp] theorem high_ofBytes (lo hi : Byte) : high (ofBytes lo hi) = hi := by
  have h := lo.toNat_lt
  apply UInt8.toNat_inj.mp
  rw [toNat_high, toNat_ofBytes]
  omega

@[simp] theorem ofBytes_low_high (w : Word) : ofBytes (low w) (high w) = w := by
  apply UInt16.toNat_inj.mp
  rw [toNat_ofBytes, toNat_low, toNat_high]
  omega

end Word

namespace Byte

/-- The byte read as a two's complement number and widened to a word. -/
def signExtend (b : Byte) : Word := if b < 128 then b.toUInt16 else b.toUInt16 + 0xFF00

/-- Whether bit `i` of the byte is set. -/
def bit (b : Byte) (i : Nat) : Bool := b.toNat.testBit i

end Byte

end Core6502
