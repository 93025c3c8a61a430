import Core6502.Arithmetic
import Mathlib.Logic.Basic

/-!
# Machine arithmetic in whole numbers

Bytes and words wrap; the rules of the processor are easier to say about whole numbers that do
not. `Byte.exact` and `Word.exact` bring a whole number back, modulo 256 and modulo 65536, and
`Byte.signed` is a byte read in two's complement.

* `bit_seven`, `bit_six`, `bit_zero`: what a bit says about the number.
* `add_signExtend`: adding a sign-extended byte is adding its signed value.
* `crossesPage_exact`: crossing a page is leaving the range of the low byte, also where addresses
  wrap.
* `low_wideSum`, `carry_wideSum`, `overflow_wideSum`: the result, the carry and the overflow of an
  addition; `signed_not` turns them into those of a subtraction.
* `shiftLeft_eq`, `shiftRight_eq`: the shifts as multiplication and division.
-/

namespace Core6502

/-- The byte that a whole number leaves modulo 256. -/
def Byte.exact (n : Int) : Byte := UInt8.ofInt n

/-- The word that a whole number leaves modulo 65536. -/
def Word.exact (n : Int) : Word := UInt16.ofInt n

/-- A byte read in two's complement. -/
def Byte.signed (b : Byte) : Int := if b.toNat < 128 then b.toNat else b.toNat - 256

/-! ## Back from whole numbers -/

theorem Byte.toNat_exact (n : Int) : ((Byte.exact n).toNat : Int) = n % 256 := by
  have h : (n % 256).toNat < 256 := by omega
  show ((UInt8.ofNat (n % 256).toNat).toNat : Int) = n % 256
  rw [UInt8.toNat_ofNat_of_lt' h]
  omega

theorem Word.toNat_exact (n : Int) : ((Word.exact n).toNat : Int) = n % 65536 := by
  have h : (n % 65536).toNat < 65536 := by omega
  show ((UInt16.ofNat (n % 65536).toNat).toNat : Int) = n % 65536
  rw [UInt16.toNat_ofNat_of_lt' h]
  omega

/-- A byte is the one that a whole number leaves when they agree modulo 256. -/
theorem Byte.eq_exact {b : Byte} {n : Int} (h : (b.toNat : Int) = n % 256) : b = Byte.exact n := by
  apply UInt8.toNat_inj.mp
  have := Byte.toNat_exact n
  omega

/-- A word is the one that a whole number leaves when they agree modulo 65536. -/
theorem Word.eq_exact {w : Word} {n : Int} (h : (w.toNat : Int) = n % 65536) :
    w = Word.exact n := by
  apply UInt16.toNat_inj.mp
  have := Word.toNat_exact n
  omega

@[simp] theorem Word.exact_toNat (w : Word) : Word.exact w.toNat = w :=
  (Word.eq_exact (by have := w.toNat_lt; omega)).symm

@[simp] theorem Byte.exact_toNat (b : Byte) : Byte.exact b.toNat = b :=
  (Byte.eq_exact (by have := b.toNat_lt; omega)).symm

theorem Word.exact_congr {m n : Int} (h : m % 65536 = n % 65536) : Word.exact m = Word.exact n :=
  Word.eq_exact (by rw [Word.toNat_exact, h])

theorem Byte.exact_congr {m n : Int} (h : m % 256 = n % 256) : Byte.exact m = Byte.exact n :=
  Byte.eq_exact (by rw [Byte.toNat_exact, h])

/-- What wrapped on the way is lost in the end anyway. -/
theorem Word.exact_exact_add (m n : Int) :
    Word.exact ((Word.exact m).toNat + n) = Word.exact (m + n) :=
  Word.exact_congr (by rw [Word.toNat_exact]; omega)

theorem Byte.exact_exact_add (m n : Int) :
    Byte.exact ((Byte.exact m).toNat + n) = Byte.exact (m + n) :=
  Byte.exact_congr (by rw [Byte.toNat_exact]; omega)

theorem Byte.add_eq_exact (a b : Byte) : a + b = Byte.exact (a.toNat + b.toNat) :=
  Byte.eq_exact (by rw [UInt8.toNat_add]; omega)

theorem Byte.sub_eq_exact (a b : Byte) : a - b = Byte.exact (a.toNat - b.toNat) := by
  have ha := a.toNat_lt
  have hb := b.toNat_lt
  exact Byte.eq_exact (by rw [UInt8.toNat_sub]; omega)

theorem Word.add_eq_exact (v w : Word) : v + w = Word.exact (v.toNat + w.toNat) :=
  Word.eq_exact (by rw [UInt16.toNat_add]; omega)

theorem Word.sub_eq_exact (v w : Word) : v - w = Word.exact (v.toNat - w.toNat) := by
  have hv := v.toNat_lt
  have hw := w.toNat_lt
  exact Word.eq_exact (by rw [UInt16.toNat_sub]; omega)

theorem Word.exact_add_ofNat (w : Word) (n : Nat) :
    Word.exact (w.toNat + n) = w + UInt16.ofNat n := by
  rw [Word.add_eq_exact, UInt16.toNat_ofNat']
  exact Word.exact_congr (by omega)

theorem Word.exact_add_one (w : Word) : Word.exact (w.toNat + 1) = w + 1 :=
  Word.exact_add_ofNat w 1

theorem Word.exact_add_two (w : Word) : Word.exact (w.toNat + 2) = w + 1 + 1 := by
  rw [show w + 1 + 1 = w + 2 by grind]
  exact Word.exact_add_ofNat w 2

theorem Word.exact_sub_one (w : Word) : Word.exact (w.toNat - 1) = w - 1 := by
  rw [Word.sub_eq_exact]
  rfl

theorem Word.exact_add_byte (w : Word) (b : Byte) :
    Word.exact (w.toNat + b.toNat) = w + b.toUInt16 := by
  rw [Word.add_eq_exact, UInt8.toNat_toUInt16]

theorem Word.ofBytes_eq_exact (lo hi : Byte) :
    Word.ofBytes lo hi = Word.exact (lo.toNat + 256 * hi.toNat) := by
  have hl := lo.toNat_lt
  have hh := hi.toNat_lt
  exact Word.eq_exact (by rw [Word.toNat_ofBytes]; omega)

theorem Byte.toUInt16_eq_exact (b : Byte) : b.toUInt16 = Word.exact b.toNat := by
  have hb := b.toNat_lt
  exact Word.eq_exact (by rw [UInt8.toNat_toUInt16]; omega)

/-- A number modulo 256 names a cell of the zero page. -/
theorem Word.exact_mod_byte {n : Int} (b : Byte) (h : (b.toNat : Int) = n % 256) :
    Word.exact (n % 256) = b.toUInt16 := by
  rw [← h, ← Byte.toUInt16_eq_exact]

theorem Word.exact_add_mod (a b : Byte) :
    Word.exact ((a.toNat + b.toNat) % 256) = (a + b).toUInt16 :=
  Word.exact_mod_byte (a + b) (by rw [UInt8.toNat_add]; omega)

/-- The cell of the zero page after a cell. -/
theorem Word.exact_succ_mod (b : Byte) :
    Word.exact ((b.toNat + 1) % 256) = (b + 1).toUInt16 := Word.exact_add_mod b 1

/-- The cell of the zero page after an indexed cell. -/
theorem Word.exact_add_succ_mod (a b : Byte) :
    Word.exact ((a.toNat + b.toNat + 1) % 256) = (a + b + 1).toUInt16 :=
  Word.exact_mod_byte (a + b + 1)
    (by rw [UInt8.toNat_add, UInt8.toNat_add, show (1 : Byte).toNat = 1 from rfl]; omega)

theorem Word.low_eq_exact (w : Word) : Word.low w = Byte.exact w.toNat :=
  Byte.eq_exact (by rw [Word.toNat_low]; omega)

theorem Word.high_eq_exact (w : Word) : Word.high w = Byte.exact (w.toNat / 256) := by
  have hw := w.toNat_lt
  exact Byte.eq_exact (by rw [Word.toNat_high]; omega)

/-! ## Bits -/

theorem Byte.bit_seven (b : Byte) : Byte.bit b 7 = decide (128 ≤ b.toNat) := by
  have hb := b.toNat_lt
  unfold Byte.bit
  rw [Nat.testBit_eq_decide_div_mod_eq]
  simp only [decide_eq_decide]
  omega

theorem Byte.bit_six (b : Byte) : Byte.bit b 6 = decide (64 ≤ b.toNat % 128) := by
  unfold Byte.bit
  rw [Nat.testBit_eq_decide_div_mod_eq]
  simp only [decide_eq_decide]
  omega

theorem Byte.bit_zero (b : Byte) : Byte.bit b 0 = decide (b.toNat % 2 = 1) := by
  unfold Byte.bit
  rw [Nat.testBit_eq_decide_div_mod_eq]
  simp only [decide_eq_decide]
  omega

theorem Byte.bit_and (a b : Byte) (i : Nat) :
    Byte.bit (a &&& b) i = (Byte.bit a i && Byte.bit b i) := by
  unfold Byte.bit
  rw [UInt8.toNat_and, Nat.testBit_and]

theorem Byte.bit_xor (a b : Byte) (i : Nat) :
    Byte.bit (a ^^^ b) i = (Byte.bit a i ^^ Byte.bit b i) := by
  unfold Byte.bit
  rw [UInt8.toNat_xor, Nat.testBit_xor]

theorem Byte.toNat_not (b : Byte) : (~~~b).toNat = 255 - b.toNat := by
  rw [UInt8.toNat_not]
  rfl

theorem Byte.bit_not_seven (b : Byte) : Byte.bit (~~~b) 7 = !Byte.bit b 7 := by
  have hb := b.toNat_lt
  rw [Byte.bit_seven, Byte.bit_seven, Byte.toNat_not, ← decide_not, decide_eq_decide]
  omega

/-! ## Offsets -/

/-- **A sign-extended byte is its signed value**, whatever it is added to. -/
theorem Word.add_signExtend (w : Word) (b : Byte) :
    w + Byte.signExtend b = Word.exact (w.toNat + b.signed) := by
  have hb := b.toNat_lt
  have hlt : b < 128 ↔ b.toNat < 128 := UInt8.lt_iff_toNat_lt
  apply Word.eq_exact
  unfold Byte.signExtend Byte.signed
  by_cases h : b.toNat < 128
  · rw [if_pos (hlt.mpr h), if_pos h, UInt16.toNat_add, UInt8.toNat_toUInt16]
    omega
  · rw [if_neg (mt hlt.mp h), if_neg h, UInt16.toNat_add, UInt16.toNat_add, UInt8.toNat_toUInt16,
      show (0xFF00 : UInt16).toNat = 65280 from rfl]
    omega

/-- A sign-extended byte is its signed value modulo 65536. -/
theorem Word.signExtend_eq_exact (b : Byte) : Byte.signExtend b = Word.exact b.signed := by
  have h := Word.add_signExtend 0 b
  rwa [UInt16.zero_add, show (0 : Word).toNat = 0 from rfl, Int.natCast_zero, Int.zero_add] at h

/-! ## Pages -/

namespace Word

/-- **A page is left when the low byte leaves its range**, up or down, also at either end of
memory. -/
theorem crossesPage_exact (w : Word) {n : Int} (hlo : -256 ≤ n) (hhi : n ≤ 256) :
    crossesPage w (exact (w.toNat + n)) =
      !decide (0 ≤ (w.toNat : Int) % 256 + n ∧ (w.toNat : Int) % 256 + n ≤ 255) := by
  have hw := w.toNat_lt
  have he := toNat_exact (w.toNat + n)
  unfold crossesPage
  rw [bne, beq_eq_decide, ← decide_not, ← decide_not, decide_eq_decide, ← UInt8.toNat_inj,
    toNat_high, toNat_high]
  omega

/-- An index crosses a page when it carries out of the low byte. -/
theorem crossesPage_add (w : Word) (b : Byte) :
    crossesPage w (w + b.toUInt16) = decide (256 ≤ (w.toNat : Int) % 256 + b.toNat) := by
  have hb := b.toNat_lt
  rw [← exact_add_byte, crossesPage_exact w (by omega) (by omega), ← decide_not,
    decide_eq_decide]
  omega

/-- A branch crosses a page when its offset leads out of the low byte of where it counts from. -/
theorem crossesPage_signExtend (w : Word) (b : Byte) :
    crossesPage w (w + Byte.signExtend b) =
      !decide (0 ≤ (w.toNat : Int) % 256 + b.signed ∧ (w.toNat : Int) % 256 + b.signed ≤ 255) := by
  have hb := b.toNat_lt
  have hs : b.signed = if b.toNat < 128 then (b.toNat : Int) else b.toNat - 256 := rfl
  rw [add_signExtend]
  exact crossesPage_exact w (by omega) (by omega)

end Word

/-! ## Sums -/

theorem toNat_wideSum (a b : Byte) (carry : Bool) :
    (wideSum a b carry).toNat = a.toNat + b.toNat + carry.toNat := by
  have ha := a.toNat_lt
  have hb := b.toNat_lt
  cases carry <;>
    simp only [wideSum, UInt16.toNat_add, UInt8.toNat_toUInt16, Bool.toNat_false, Bool.toNat_true,
      if_true, Bool.false_eq_true, if_false, UInt16.reduceToNat] <;>
    omega

/-- The low byte of a sum. -/
theorem low_wideSum (a b : Byte) (carry : Bool) :
    Word.low (wideSum a b carry) = Byte.exact (a.toNat + b.toNat + carry.toNat) :=
  Byte.eq_exact (by rw [Word.toNat_low, toNat_wideSum]; omega)

/-- The carry out of a sum. -/
theorem carry_wideSum (a b : Byte) (carry : Bool) :
    decide (255 < wideSum a b carry) = decide (256 ≤ a.toNat + b.toNat + carry.toNat) := by
  rw [decide_eq_decide, UInt16.lt_iff_toNat_lt, toNat_wideSum,
    show (255 : UInt16).toNat = 255 from rfl]
  omega

/-- **The overflow rule**: both summands have the sign that the sum lacks exactly when the signed
sum is out of range. -/
theorem overflow_wideSum (a b : Byte) (carry : Bool) :
    Byte.bit (~~~(a ^^^ b) &&& (a ^^^ Word.low (wideSum a b carry))) 7 =
      decide (a.signed + b.signed + carry.toNat < -128 ∨
        127 < a.signed + b.signed + carry.toNat) := by
  have ha := a.toNat_lt
  have hb := b.toNat_lt
  have hc : carry.toNat ≤ 1 := Bool.toNat_le carry
  rw [Byte.bit_and, Byte.bit_not_seven, Byte.bit_xor, Byte.bit_xor]
  simp only [Byte.bit_seven, Word.toNat_low, toNat_wideSum]
  unfold Byte.signed
  by_cases h₁ : 128 ≤ a.toNat <;> by_cases h₂ : 128 ≤ b.toNat <;>
    by_cases h₃ : 128 ≤ (a.toNat + b.toNat + carry.toNat) % 256 <;>
    simp only [h₁, h₂, h₃, decide_true, decide_false, Bool.xor_self, Bool.xor_true, Bool.xor_false,
      Bool.not_true, Bool.not_false, Bool.and_true, Bool.and_false] <;>
    symm <;> simp only [decide_eq_true_eq, decide_eq_false_iff_not] <;> omega

theorem Byte.signed_not (b : Byte) : (~~~b).signed = -1 - b.signed := by
  have hb := b.toNat_lt
  unfold Byte.signed
  rw [Byte.toNat_not]
  by_cases h : b.toNat < 128
  · rw [if_neg (by omega), if_pos h]
    omega
  · rw [if_pos (by omega), if_neg h]
    omega

/-! ## Shifts -/

theorem shiftLeft_eq (b : Byte) (carry : Bool) :
    shiftLeft b carry = (Byte.exact (2 * b.toNat + carry.toNat), decide (128 ≤ b.toNat)) := by
  have h : (shiftLeft b carry).1 = Byte.exact (2 * b.toNat + carry.toNat) := by
    apply Byte.eq_exact
    cases carry <;>
      simp only [shiftLeft, UInt8.toNat_add, UInt8.toNat_mul, Bool.toNat_false, Bool.toNat_true,
        if_true, Bool.false_eq_true, if_false, UInt8.reduceToNat] <;>
      omega
  exact Prod.ext h (Byte.bit_seven b)

theorem shiftRight_eq (b : Byte) (carry : Bool) :
    shiftRight b carry =
      (Byte.exact (b.toNat / 2 + 128 * carry.toNat), decide (b.toNat % 2 = 1)) := by
  have hb := b.toNat_lt
  have h : (shiftRight b carry).1 = Byte.exact (b.toNat / 2 + 128 * carry.toNat) := by
    apply Byte.eq_exact
    cases carry <;>
      simp only [shiftRight, UInt8.toNat_add, UInt8.toNat_div, Bool.toNat_false, Bool.toNat_true,
        if_true, Bool.false_eq_true, if_false, UInt8.reduceToNat] <;>
      omega
  exact Prod.ext h (Byte.bit_zero b)

end Core6502
