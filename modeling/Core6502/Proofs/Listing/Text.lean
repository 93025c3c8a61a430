import Core6502.Instruction
import Mathlib.Logic.Function.Defs

/-!
# What a line of a listing says

Hexadecimal text of fixed width can be read back, so a line of a listing names one address.

* `Hex.byte_injective`, `Hex.word_injective`: no two bytes and no two words are written alike.
* `line_inj`: two lines for one instruction differ when their operands do.
* `text_relative`, `text_absolute`, `text_indirect`: which word the line of a branch, of an
  absolute operand and of an indirect jump shows.
-/

namespace Core6502

/-! ## Hexadecimal text -/

namespace Hex

theorem digit_inj {i j : Nat} (hi : i < 16) (hj : j < 16) (h : digit i = digit j) : i = j := by
  have all : ∀ i j : Fin 16, digit i = digit j → i.val = j.val := by decide
  exact all ⟨i, hi⟩ ⟨j, hj⟩ h

theorem digits_injective : Function.Injective digits := by
  intro b c h
  have hb := b.toNat_lt
  have hc := c.toNat_lt
  obtain ⟨hhi, hlo⟩ := List.cons.inj h
  have hhi' := digit_inj (by omega) (by omega) hhi
  have hlo' := digit_inj (by omega) (by omega) (List.cons.inj hlo).1
  exact UInt8.toNat_inj.mp (by omega)

theorem byte_injective : Function.Injective byte :=
  fun _ _ h => digits_injective (String.ofList_injective h)

theorem word_injective : Function.Injective word := by
  intro v w h
  obtain ⟨hhi, hlo⟩ := List.append_inj (String.ofList_injective h) rfl
  rw [← Word.ofBytes_low_high v, ← Word.ofBytes_low_high w, digits_injective hhi,
    digits_injective hlo]

end Hex

namespace Instruction

variable (i : Instruction)

/-! ## Lines -/

/-- The line of an instruction with a given operand text. -/
def line (operand : String) : String :=
  "$" ++ Hex.word i.address ++ ": " ++ i.mnemonic ++ " " ++ operand ++ " \x7b" ++ i.mode.tag
    ++ "\x7d"

theorem line_inj {s t : String} : i.line s = i.line t ↔ s = t := by
  unfold line
  rw [String.append_left_inj, String.append_left_inj, String.append_left_inj,
    String.append_right_inj]

/-- In every mode but implied the line shows the operand. -/
theorem text_eq_line (h : i.mode ≠ .implied) : i.text = i.line i.operandText := by
  unfold text line
  simp only [if_neg h, String.append_assoc]

/-- **The line of a branch shows one target.** -/
theorem text_relative (h : i.mode = .relative) (target : Word) :
    i.text = i.line ("$" ++ Hex.byte i.operandByte ++ " [$" ++ Hex.word target ++ "]") ↔
      target = i.branchTarget := by
  rw [text_eq_line i (by rw [h]; decide), line_inj, operandText, h]
  simp only
  rw [String.append_left_inj, String.append_right_inj, Hex.word_injective.eq_iff, eq_comm]

/-- **The line of an absolute operand shows one word.** -/
theorem text_absolute (h : i.mode = .absolute) (target : Word) :
    i.text = i.line ("$" ++ Hex.word target) ↔ target = i.operandWord := by
  rw [text_eq_line i (by rw [h]; decide), line_inj, operandText, h]
  simp only
  rw [String.append_right_inj, Hex.word_injective.eq_iff, eq_comm]

/-- **The line of an indirect jump shows one pointer.** -/
theorem text_indirect (h : i.mode = .indirect) (pointer : Word) :
    i.text = i.line ("($" ++ Hex.word pointer ++ ")") ↔ pointer = i.operandWord := by
  rw [text_eq_line i (by rw [h]; decide), line_inj, operandText, h]
  simp only
  rw [String.append_left_inj, String.append_right_inj, Hex.word_injective.eq_iff, eq_comm]

end Instruction

end Core6502
