import Core6502.Memory
import Mathlib.Logic.Function.Basic

/-!
# What memory holds after a load

An image that fits lies in memory byte by byte from its start, and the rest of memory is as it was.
A vector is two bytes, the second of which may lie at address zero.

* `get_set`, `get_setVector`: memory after a write and after setting a vector.
* `imageAt_cons`: an image that fits, byte by byte.
* **`get_overlay`**: memory with an image copied in.
* `load_of_fits`, `load_of_overflow`: an image is copied in whole, or refused and nothing changed.
-/

namespace Core6502.Memory

/-! ## Single bytes -/

theorem get_set (m : Memory) (address : Word) (value : Byte) :
    (m.set address value).get = Function.update m.get address value := by
  funext other
  by_cases h : other = address
  · rw [h, get_set_self, Function.update_self]
  · rw [get_set_of_ne m value h, Function.update_of_ne h]

theorem get_setVector (m : Memory) (vector target address : Word) :
    (m.setVector vector target).get address =
      if address = vector + 1 then Word.high target
      else if address = vector then Word.low target
      else m.get address := by
  unfold setVector
  rw [get_set, get_set, Function.update_apply, Function.update_apply]

/-! ## Images -/

/-- The byte that an image from `start` upwards has for an address, if it covers it. -/
def imageAt (start : Word) (image : List Byte) (address : Word) : Option Byte :=
  if start ≤ address then image[address.toNat - start.toNat]? else none

variable {start address : Word} {b c : Byte} {rest : List Byte}

theorem imageAt_nil : imageAt start [] address = none := by
  unfold imageAt
  split <;> rfl

/-- An image of more than one byte that fits does not wrap after the first. -/
theorem toNat_succ_of_fits (h : start.toNat + (b :: c :: rest).length ≤ 65536) :
    (start + 1).toNat = start.toNat + 1 := by
  rw [List.length_cons, List.length_cons] at h
  rw [UInt16.toNat_add, show (1 : Word).toNat = 1 from rfl]
  omega

/-- What follows the first byte of an image that fits does not cover its address. -/
theorem imageAt_rest_self (h : start.toNat + (b :: rest).length ≤ 65536) :
    imageAt (start + 1) rest start = none := by
  cases rest with
  | nil => exact imageAt_nil
  | cons c rest =>
    have hs := toNat_succ_of_fits h
    have hle : ¬ start + 1 ≤ start := by
      rw [UInt16.le_iff_toNat_le]
      omega
    exact if_neg hle

theorem imageAt_cons (h : start.toNat + (b :: rest).length ≤ 65536) :
    imageAt start (b :: rest) address =
      if address = start then some b else imageAt (start + 1) rest address := by
  by_cases ha : address = start
  · subst ha
    unfold imageAt
    rw [if_pos (UInt16.le_refl address), if_pos rfl, Nat.sub_self]
    rfl
  · have hne : address.toNat ≠ start.toNat := fun he => ha (UInt16.toNat_inj.mp he)
    rw [if_neg ha]
    cases rest with
    | nil =>
      rw [imageAt_nil]
      unfold imageAt
      split
      case isTrue hle =>
        rw [UInt16.le_iff_toNat_le] at hle
        exact List.getElem?_eq_none (by rw [List.length_singleton]; omega)
      case isFalse => rfl
    | cons c rest =>
      have hs := toNat_succ_of_fits h
      have hiff : start ≤ address ↔ start + 1 ≤ address := by
        rw [UInt16.le_iff_toNat_le, UInt16.le_iff_toNat_le]
        omega
      unfold imageAt
      simp only [hiff]
      split
      case isTrue hle =>
        rw [UInt16.le_iff_toNat_le] at hle
        have hi : address.toNat - start.toNat = address.toNat - (start + 1).toNat + 1 := by omega
        rw [hi, List.getElem?_cons_succ]
      case isFalse => rfl

/-- **Memory with an image copied in**: the image where it lies, the bytes from before elsewhere. -/
theorem get_overlay (m : Memory) {image : List Byte} (h : start.toNat + image.length ≤ 65536) :
    (m.overlay start image).get address = (imageAt start image address).getD (m.get address) := by
  induction image generalizing m start with
  | nil =>
    rw [imageAt_nil]
    rfl
  | cons b rest ih =>
    have hrest : (start + 1).toNat + rest.length ≤ 65536 := by
      rw [List.length_cons] at h
      rw [UInt16.toNat_add, show (1 : Word).toNat = 1 from rfl]
      omega
    have hi : ((m.set start b).overlay (start + 1) rest).get address = _ :=
      ih (m.set start b) hrest
    rw [overlay, hi, imageAt_cons h]
    by_cases ha : address = start
    · rw [if_pos ha, ha, imageAt_rest_self h]
      exact get_set_self m start b
    · rw [if_neg ha, get_set_of_ne m b ha]

/-! ## Loads -/

section Load

variable (m : Memory) {image : List Byte}

theorem load_of_fits (h : start.toNat + image.length ≤ 65536) :
    m.load start image = (.ok (), m.overlay start image) := if_pos h

/-- A refused image changes nothing. -/
theorem load_of_overflow (h : 65536 < start.toNat + image.length) :
    m.load start image = (.error ⟨start, image.length⟩, m) := if_neg (Nat.not_le.mpr h)

end Load

end Core6502.Memory
