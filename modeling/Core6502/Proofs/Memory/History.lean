import Core6502.Proofs.Memory

/-!
# The history of a memory

Memory is changed by writes, by images and by vectors. An image that runs past the top address is
refused and puts nothing anywhere; a vector at the top address puts its second byte at address zero.
`Memory.Change` is such a call as data, and `Change.put?` the byte that it puts at an address, if it
covers it.

* `load_isOk_iff`: which images are loaded.
* `get_change`: one call puts its bytes and leaves the others.
* `get_changeAll`: so after a history every address holds what the last call covering it put there.
* `readWord_setVector`: a vector reads back whole, also at the top address.
* **`last_put_stays`** puts these together for a new memory.
-/

namespace Core6502.Memory

/-- A call that may change a memory. -/
inductive Change where
  | write (address : Word) (value : Byte)
  | load (start : Word) (image : List Byte)
  | setVector (vector target : Word)
  deriving DecidableEq

namespace Change

/-- The byte that a call puts at an address, if it covers it. An image that does not fit covers no
address. -/
def put? (c : Change) (address : Word) : Option Byte :=
  match c with
  | write place value => if address = place then some value else none
  | load start image =>
    if start.toNat + image.length ≤ 65536 then imageAt start image address else none
  | setVector vector target =>
    if address = vector then some (Word.low target)
    else if address = vector + 1 then some (Word.high target)
    else none

end Change

/-- Make a call, whether it fails or not. -/
def change (m : Memory) : Change → Memory
  | .write address value => Bus.write m address value
  | .load start image => (m.load start image).2
  | .setVector vector target => m.setVector vector target

/-- Make calls one after the other. -/
def changeAll (m : Memory) (history : List Change) : Memory := history.foldl change m

variable (m : Memory)

/-! ## Images -/

/-- An image is loaded when it ends at the top address or below. -/
theorem load_isOk_iff (start : Word) (image : List Byte) :
    (m.load start image).1.isOk = true ↔ start.toNat + image.length ≤ 65536 := by
  unfold load
  split
  case isTrue h => exact iff_of_true rfl h
  case isFalse h => exact iff_of_false Bool.false_ne_true h

/-- A refused image changes nothing. -/
theorem change_load_of_overflow {start : Word} {image : List Byte}
    (h : 65536 < start.toNat + image.length) : m.change (.load start image) = m :=
  congrArg Prod.snd (m.load_of_overflow h)

/-! ## Histories -/

/-- **One call** puts its bytes where it covers, and leaves the other addresses. -/
theorem get_change (c : Change) (address : Word) :
    (m.change c).get address = (c.put? address).getD (m.get address) := by
  cases c with
  | write place value =>
    show (m.set place value).get address = (if address = place then some value else none).getD _
    by_cases h : address = place
    · rw [if_pos h, h, get_set_self]
      rfl
    · rw [if_neg h, get_set_of_ne m value h]
      rfl
  | load start image =>
    show _ = (if _ then imageAt start image address else none).getD _
    by_cases h : start.toNat + image.length ≤ 65536
    · have hload : m.change (.load start image) = m.overlay start image :=
        congrArg Prod.snd (m.load_of_fits h)
      rw [if_pos h, hload, get_overlay m h]
    · rw [if_neg h, m.change_load_of_overflow (Nat.lt_of_not_le h)]
      rfl
  | setVector vector target =>
    have hne : vector ≠ vector + 1 := by grind
    show (m.setVector vector target).get address = (if address = vector then _ else
      if address = vector + 1 then _ else none).getD _
    rw [get_setVector]
    by_cases hlow : address = vector
    · rw [hlow, if_neg hne, if_pos rfl, if_pos rfl]
      rfl
    · rw [if_neg hlow, if_neg hlow]
      split <;> rfl

/-- **After a history** every address holds what the last call covering it put there. -/
theorem get_changeAll (history : List Change) (address : Word) :
    (m.changeAll history).get address =
      (history.reverse.findSome? fun c => c.put? address).getD (m.get address) := by
  induction history generalizing m with
  | nil => rfl
  | cons c rest ih =>
    have hrest : (m.changeAll (c :: rest)).get address =
        ((m.change c).changeAll rest).get address := rfl
    rw [hrest, ih, get_change, List.reverse_cons, List.findSome?_append, Option.getD_or,
      List.findSome?_singleton]

/-! ## Vectors -/

theorem readWord_setVector (vector target : Word) :
    (Bus.readWord (m.setVector vector target) vector).1 = target := by
  have hne : vector ≠ vector + 1 := by grind
  show Word.ofBytes ((m.setVector vector target).get vector)
    ((m.setVector vector target).get (vector + 1)) = target
  rw [get_setVector, get_setVector, if_neg hne, if_pos rfl, if_pos rfl, Word.ofBytes_low_high]

/-! ## A new memory -/

/-- **What was put last stays.** After any calls on a new memory, an address reads, as a bus cycle
or as an inspection, the byte that the last call covering it put there, or zero if none did. An
image is loaded if it ends at the top address or below; otherwise the error names its start and its
length, and the memory is as it was. A vector covers its address and the next one, which may be
zero, and a word read there is the vector. -/
theorem last_put_stays :
    (∀ (history : List Change) (address : Word),
      let m := zero.changeAll history
      let byte := (history.reverse.findSome? fun c => c.put? address).getD 0
      (Bus.read m address).1 = byte ∧ (Bus.peek m address).1 = byte) ∧
    (∀ (m : Memory) (start : Word) (image : List Byte),
      ((m.load start image).1.isOk = true ↔ start.toNat + image.length ≤ 65536) ∧
        (65536 < start.toNat + image.length →
          m.load start image = (.error ⟨start, image.length⟩, m) ∧
            m.change (.load start image) = m)) ∧
    ∀ (m : Memory) (vector target : Word),
      (∀ address, address ≠ vector → address ≠ vector + 1 →
        (m.setVector vector target).get address = m.get address) ∧
      (Bus.readWord (m.setVector vector target) vector).1 = target ∧
      (Bus.peekWord (m.setVector vector target) vector).1 = target := by
  refine ⟨fun history address => ?_, fun m start image => ⟨m.load_isOk_iff start image, fun h =>
    ⟨m.load_of_overflow h, m.change_load_of_overflow h⟩⟩, fun m vector target => ⟨?_,
    m.readWord_setVector vector target, m.readWord_setVector vector target⟩⟩
  · have h := zero.get_changeAll history address
    rw [get_zero] at h
    exact ⟨h, h⟩
  · intro address hlow hhigh
    rw [get_setVector, if_neg hhigh, if_neg hlow]

/-- At the top address an image of two bytes is refused while a vector wraps: of the calls here the
first image keeps only its first byte. -/
theorem put_at_top :
    let m := zero.changeAll [.load 0xFFFE [1, 2], .load 0xFFFF [3, 4], .setVector 0xFFFF 0x1234]
    (Bus.read m 0xFFFE).1 = 1 ∧ (Bus.read m 0xFFFF).1 = 0x34 ∧ (Bus.read m 0).1 = 0x12 ∧
      m.change (.load 0xFFFF [3, 4]) = m ∧ (m.setVector 0xFFFF 0x5678).get 0xFFFE = m.get 0xFFFE ∧
      (Bus.readWord (m.setVector 0xFFFF 0x5678) 0xFFFF).1 = 0x5678 := by
  intro m
  obtain ⟨reads, loads, vectors⟩ := last_put_stays
  have byte := fun address => (reads [.load 0xFFFE [1, 2], .load 0xFFFF [3, 4],
    .setVector 0xFFFF 0x1234] address).1
  have refused := (loads m 0xFFFF [3, 4]).2 (by decide)
  obtain ⟨others, word, -⟩ := vectors m 0xFFFF 0x5678
  exact ⟨(byte 0xFFFE).trans (by decide +kernel), (byte 0xFFFF).trans (by decide +kernel),
    (byte 0).trans (by decide +kernel), refused.2, others 0xFFFE (by decide) (by decide), word⟩

end Core6502.Memory
