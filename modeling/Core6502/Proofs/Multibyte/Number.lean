import Core6502.Proofs.Exact
import Mathlib.Data.Int.ModEq
import Mathlib.Data.Nat.Digits.Defs

/-!
# Numbers of several bytes

A list of bytes is a number, least significant byte first, either unsigned (`value`) or in two's
complement (`signed`).

* `value_lt`, `fits_signed`: the ranges of the two readings; `signed_modEq`: where they agree.
* `value_not`, `signed_not`: both readings of the complement.
* `top_cons`, **`signed_cons`**, `fits_cons`: the top bit, the signed reading and its range do not
  depend on a further low byte.
* `top_iff_fits`: what the top bit says of a number that may have wrapped.
-/

namespace Core6502.Multibyte

/-- The number whose bytes are given. -/
def value (bytes : List Byte) : Nat := Nat.ofDigits 256 (bytes.map UInt8.toNat)

/-- The top bit of a number whose bytes are given. -/
def top (bytes : List Byte) : Bool := (value bytes).testBit (8 * bytes.length - 1)

/-- The number whose bytes are given in two's complement. -/
def signed (bytes : List Byte) : Int :=
  if top bytes then value bytes - (256 ^ bytes.length : Nat) else value bytes

/-- Whether a number has a reading in two's complement of `n` bytes. -/
def Fits (n : Nat) (t : Int) : Prop := -(256 ^ n : Nat) ≤ 2 * t ∧ 2 * t < (256 ^ n : Nat)

instance (n : Nat) (t : Int) : Decidable (Fits n t) := inferInstanceAs (Decidable (_ ∧ _))

variable {b : Byte} {bytes : List Byte}

/-! ## Unsigned -/

theorem value_cons (b : Byte) (bytes : List Byte) :
    value (b :: bytes) = b.toNat + 256 * value bytes := rfl

theorem value_singleton (b : Byte) : value [b] = b.toNat := rfl

theorem value_append (bytes rest : List Byte) :
    value (bytes ++ rest) = value bytes + 256 ^ bytes.length * value rest := by
  unfold value
  rw [List.map_append, Nat.ofDigits_append, List.length_map]

theorem value_lt (bytes : List Byte) : value bytes < 256 ^ bytes.length := by
  induction bytes with
  | nil => exact Nat.one_pos
  | cons b rest ih =>
    have hb := b.toNat_lt
    rw [value_cons, List.length_cons, Nat.pow_succ]
    omega

/-- Bytes and their complements add up to the largest number of that many bytes. -/
theorem value_not (bytes : List Byte) :
    value (bytes.map (~~~·)) + value bytes + 1 = 256 ^ bytes.length := by
  induction bytes with
  | nil => rfl
  | cons b rest ih =>
    have hb := b.toNat_lt
    rw [List.map_cons, value_cons, value_cons, Byte.toNat_not, List.length_cons, Nat.pow_succ]
    omega

/-- A number has one row of bytes of each length. -/
theorem eq_of_value_eq {s t : List Byte} (hl : s.length = t.length) (h : value s = value t) :
    s = t := by
  induction s generalizing t with
  | nil => exact (List.length_eq_zero_iff.mp hl.symm).symm
  | cons a s ih =>
    cases t with
    | nil => exact absurd hl (Nat.succ_ne_zero _)
    | cons b t =>
      have ha := a.toNat_lt
      have hb := b.toNat_lt
      rw [value_cons, value_cons] at h
      have hhead : a = b := UInt8.toNat_inj.mp (by omega)
      have htail : s = t := ih (Nat.succ.inj hl) (by omega)
      rw [hhead, htail]

/-! ## The top bit -/

/-- The numbers of one byte or more have a lower and an upper half. -/
theorem pow_eq_two_mul {n : Nat} (hn : n ≠ 0) : 256 ^ n = 2 * 2 ^ (8 * n - 1) := by
  obtain ⟨n, rfl⟩ := Nat.exists_eq_succ_of_ne_zero hn
  rw [show 256 = 2 ^ 8 from rfl, ← Nat.pow_mul, ← Nat.pow_succ']
  rfl

theorem exists_half (h : bytes ≠ []) : ∃ k, 256 ^ bytes.length = 2 * k :=
  ⟨_, pow_eq_two_mul (mt List.length_eq_zero_iff.mp h)⟩

/-- The top bit tells the upper half of the numbers. -/
theorem top_eq (bytes : List Byte) :
    top bytes = decide (256 ^ bytes.length ≤ 2 * value bytes) := by
  cases bytes with
  | nil => rfl
  | cons b rest =>
    have hv := value_lt (b :: rest)
    have hw : 256 ^ (b :: rest).length = 2 * 2 ^ (8 * (b :: rest).length - 1) :=
      pow_eq_two_mul (Nat.succ_ne_zero rest.length)
    unfold top
    rw [Nat.testBit_eq_decide_div_mod_eq, decide_eq_decide, hw]
    rw [hw] at hv
    generalize 2 ^ (8 * (b :: rest).length - 1) = half at hv
    by_cases h : half ≤ value (b :: rest)
    · have hd : value (b :: rest) / half = 1 := Nat.div_eq_of_lt_le (by omega) (by omega)
      rw [hd]
      omega
    · rw [Nat.div_eq_of_lt (Nat.lt_of_not_le h)]
      omega

/-- The top bit does not depend on the low byte. -/
theorem top_cons (h : bytes ≠ []) : top (b :: bytes) = top bytes := by
  obtain ⟨k, hk⟩ := exists_half h
  have hb := b.toNat_lt
  rw [top_eq, top_eq, decide_eq_decide, value_cons, List.length_cons, Nat.pow_succ, hk]
  omega

theorem top_singleton (b : Byte) : top [b] = Byte.bit b 7 := rfl

/-! ## Two's complement -/

theorem signed_singleton (b : Byte) : signed [b] = b.signed := by
  unfold signed Byte.signed
  rw [top_singleton, Byte.bit_seven, value_singleton, List.length_singleton]
  simp only [decide_eq_true_eq]
  split <;> split <;> omega

/-- **A low byte under a signed number** counts as it is. -/
theorem signed_cons (h : bytes ≠ []) : signed (b :: bytes) = b.toNat + 256 * signed bytes := by
  unfold signed
  rw [top_cons h, value_cons, List.length_cons, Nat.pow_succ]
  split <;> push_cast <;> omega

/-- Both readings leave the same remainder. -/
theorem signed_modEq (bytes : List Byte) :
    Int.ModEq (256 ^ bytes.length : Nat) (signed bytes) (value bytes) := by
  unfold signed
  split
  case isTrue => exact Int.sub_emod_right _ _
  case isFalse => exact Int.ModEq.rfl

theorem signed_not (h : bytes ≠ []) : signed (bytes.map (~~~·)) = -1 - signed bytes := by
  obtain ⟨k, hk⟩ := exists_half h
  have hn := value_not bytes
  have hl : (bytes.map (~~~·)).length = bytes.length := List.length_map _
  unfold signed
  simp only [top_eq, hl, decide_eq_true_eq]
  split <;> split <;> omega

/-! ## The signed range -/

theorem fits_signed (bytes : List Byte) : Fits bytes.length (signed bytes) := by
  have hv := value_lt bytes
  unfold Fits signed
  simp only [top_eq, decide_eq_true_eq]
  split <;> omega

/-- A low byte does not take a number out of range. -/
theorem fits_cons {n : Nat} (hn : n ≠ 0) (b : Byte) (t : Int) :
    Fits (n + 1) (b.toNat + 256 * t) ↔ Fits n t := by
  obtain ⟨n, rfl⟩ := Nat.exists_eq_succ_of_ne_zero hn
  have hb := b.toNat_lt
  unfold Fits
  rw [Nat.pow_succ 256 (n + 1), Nat.pow_succ 256 n]
  push_cast
  omega

/-- **The top bit of a wrapped number** is its sign exactly when the number is in range. -/
theorem top_iff_fits {t : Int} (hr : t % (256 ^ bytes.length : Nat) = value bytes)
    (hlo : -(256 ^ bytes.length : Nat) ≤ t) (hhi : t < (256 ^ bytes.length : Nat)) :
    (top bytes = true ↔ Fits bytes.length t) ↔ t < 0 := by
  unfold Fits
  rw [top_eq, decide_eq_true_eq]
  generalize 256 ^ bytes.length = w at *
  by_cases h : t < 0
  · have hv : (value bytes : Int) = t + w := by
      rw [← hr, ← Int.add_emod_right]
      exact Int.emod_eq_of_lt (by omega) (by omega)
    omega
  · have hv : (value bytes : Int) = t := by
      rw [← hr]
      exact Int.emod_eq_of_lt (by omega) hhi
    omega

end Core6502.Multibyte
