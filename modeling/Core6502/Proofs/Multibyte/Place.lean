import Core6502.Proofs.Clock.Frame
import Core6502.Proofs.Multibyte.Number
import Core6502.Proofs.Reference.Conformance

/-!
# Places that shifts work on

A shift finds its operand in a cell of memory or in the accumulator and leaves its result in the
same place. The bit let in at one end and the bit that leaves at the other keep account of each
other, so a shift loses nothing.

* `toNat_step_of_left`, `toNat_step_of_right`: what a shift leaves, as an equation between numbers.
* `held_step`: it leaves every other place alone.
* `Row`: shifts that stand one behind the other and do not work on their own bytes; `Alike.step`: so
  each finds the next as it was.
* `Machine.number`: the number whose bytes lie in given places, with the carry above it or below it.
-/

namespace Core6502

open Multibyte

/-! ## Places -/

/-- Where a shift finds its operand and leaves its result. -/
inductive Place where
  | accumulator
  | cell (address : Word)
  deriving DecidableEq

/-- The place that an instruction names by its mode and its effective address. -/
def Place.named (mode : AddressingMode) (ea : Word) : Place :=
  if mode = .implied then .accumulator else .cell ea

namespace Operation

/-- The bit that the operation lets in, given the carry: the rotations let in the carry, the other
shifts nothing. -/
def incoming (carry : Bool) : Operation → Nat
  | rol | ror => carry.toNat
  | _ => 0

theorem incoming_le (o : Operation) (carry : Bool) : o.incoming carry ≤ 1 := by
  cases o
  case rol | ror => exact carry.toNat_le
  all_goals exact Nat.zero_le 1

/-- A shift goes to the left or to the right. -/
theorem isShift_iff (o : Operation) :
    o.isShift = true ↔ (o = .asl ∨ o = .rol) ∨ o = .lsr ∨ o = .ror := by
  cases o <;> simp [isShift]

end Operation

/-- Shifts come in five modes. -/
theorem Opcode.mode_of_isShift (opcode : Byte) :
    (lookup opcode).operation.isShift = true →
      (lookup opcode).mode ∈ [.implied, .zeroPage, .zeroPageX, .absolute, .absoluteX] :=
  Byte.forall_of_fin
    (P := fun b => (lookup b).operation.isShift = true →
      (lookup b).mode ∈ [.implied, .zeroPage, .zeroPageX, .absolute, .absoluteX])
    (by decide +kernel) opcode

namespace Reference.State

variable (s : State)

/-- The byte at a place. -/
def held : Place → Byte
  | .accumulator => s.registers.a
  | .cell address => s.memory address

/-- The place of the operand of the instruction at the program counter. -/
def place (wrap : Bool) : Place := Place.named s.entry.mode (s.effective wrap s.entry.mode)

theorem operand_eq_held (wrap : Bool) : s.operand wrap s.entry.mode = s.held (s.place wrap) := by
  unfold operand place Place.named
  split <;> rfl

/-- A result is put where its operand came from and nowhere else. -/
theorem held_putBack (mode : AddressingMode) (ea : Word) (r : Byte) (q : Place) :
    (s.putBack mode ea r).held q = if q = Place.named mode ea then r else s.held q := by
  cases q with
  | accumulator =>
    unfold held Place.named
    rw [registers_putBack]
    by_cases hi : mode = .implied <;> simp [hi]
  | cell address =>
    unfold held Place.named
    rw [memory_putBack]
    by_cases hi : mode = .implied <;> simp [hi, Function.update_apply]

/-! ## One shift -/

variable (wrap : Bool)

/-- A shift to the left doubles its operand; what does not fit is the carry. -/
theorem step_of_left (ho : s.entry.operation = .asl ∨ s.entry.operation = .rol) :
    s.step wrap = (s.past.setCarry (128 ≤ (s.held (s.place wrap)).toNat)).putBack s.entry.mode
      (s.effective wrap s.entry.mode)
      (Byte.exact (2 * (s.held (s.place wrap)).toNat +
        s.entry.operation.incoming s.registers.status.carry)) := by
  rw [← operand_eq_held]
  unfold step
  rcases ho with h | h
  · rw [h]
    show (_ : State) = putBack _ _ _ (Byte.exact (_ + 0))
    rw [Int.add_zero]
    rfl
  · rw [h]
    rfl

/-- A shift to the right halves its operand; the remainder is the carry. -/
theorem step_of_right (ho : s.entry.operation = .lsr ∨ s.entry.operation = .ror) :
    s.step wrap = (s.past.setCarry ((s.held (s.place wrap)).toNat % 2 = 1)).putBack s.entry.mode
      (s.effective wrap s.entry.mode)
      (Byte.exact ((s.held (s.place wrap)).toNat / 2 +
        128 * s.entry.operation.incoming s.registers.status.carry)) := by
  rw [← operand_eq_held]
  unfold step
  rcases ho with h | h
  · rw [h]
    show (_ : State) = putBack _ _ _ (Byte.exact (_ + 0))
    rw [Int.add_zero]
    rfl
  · rw [h]
    rfl

section PutBack

variable {wrap} {c : Bool} {r : Byte}
  (h : s.step wrap = (s.past.setCarry c).putBack s.entry.mode (s.effective wrap s.entry.mode) r)
include h

theorem carry_of_putBack : (s.step wrap).registers.status.carry = c := by
  rw [h, registers_putBack]
  rfl

theorem held_of_putBack (q : Place) :
    (s.step wrap).held q = if q = s.place wrap then r else s.held q := by
  have hpast : (s.past.setCarry c).held q = s.held q := by
    cases q <;> rfl
  rw [h, held_putBack, hpast]
  rfl

theorem held_place_of_putBack : (s.step wrap).held (s.place wrap) = r := by
  rw [s.held_of_putBack h, if_pos rfl]

end PutBack

/-- **A shift to the left loses nothing**: the bit let in comes at the bottom, and the bit at the
top becomes the carry. -/
theorem toNat_step_of_left (ho : s.entry.operation = .asl ∨ s.entry.operation = .rol) :
    ((s.step wrap).held (s.place wrap)).toNat +
        256 * (s.step wrap).registers.status.carry.toNat =
      2 * (s.held (s.place wrap)).toNat +
        s.entry.operation.incoming s.registers.status.carry := by
  have hb := (s.held (s.place wrap)).toNat_lt
  have hc := s.entry.operation.incoming_le s.registers.status.carry
  have hr := Byte.toNat_exact (2 * (s.held (s.place wrap)).toNat +
    s.entry.operation.incoming s.registers.status.carry)
  have hs := s.step_of_left wrap ho
  rw [s.held_place_of_putBack hs, s.carry_of_putBack hs]
  by_cases h : 128 ≤ (s.held (s.place wrap)).toNat
  · rw [decide_eq_true h, Bool.toNat_true]
    omega
  · rw [decide_eq_false h, Bool.toNat_false]
    omega

/-- **A shift to the right loses nothing**: the bit let in comes at the top, and the bit at the
bottom becomes the carry. -/
theorem toNat_step_of_right (ho : s.entry.operation = .lsr ∨ s.entry.operation = .ror) :
    2 * ((s.step wrap).held (s.place wrap)).toNat +
        (s.step wrap).registers.status.carry.toNat =
      (s.held (s.place wrap)).toNat +
        256 * s.entry.operation.incoming s.registers.status.carry := by
  have hb := (s.held (s.place wrap)).toNat_lt
  have hc := s.entry.operation.incoming_le s.registers.status.carry
  have hr := Byte.toNat_exact ((s.held (s.place wrap)).toNat / 2 +
    128 * s.entry.operation.incoming s.registers.status.carry)
  have hs := s.step_of_right wrap ho
  rw [s.held_place_of_putBack hs, s.carry_of_putBack hs]
  by_cases h : (s.held (s.place wrap)).toNat % 2 = 1
  · rw [decide_eq_true h, Bool.toNat_true]
    omega
  · rw [decide_eq_false h, Bool.toNat_false]
    omega

/-- A shift changes what its place holds, and no other place. -/
theorem held_step (ho : s.entry.operation.isShift = true) {q : Place} (hq : q ≠ s.place wrap) :
    (s.step wrap).held q = s.held q := by
  rcases s.entry.operation.isShift_iff.mp ho with h | h
  · rw [s.held_of_putBack (s.step_of_left wrap h), if_neg hq]
  · rw [s.held_of_putBack (s.step_of_right wrap h), if_neg hq]

/-! ## Rows of shifts -/

/-- Whether no byte of the next instruction lies in one of the places. -/
def Spared (worked : List Place) : Prop :=
  ∀ i < s.entry.size, Place.cell (s.registers.pc + UInt16.ofNat i) ∉ worked

/-- **A row of shifts**: from the program counter on the given operations stand one behind the other
and name the given places, and none of their own bytes lies in a place that is worked on. -/
def Row (worked : List Place) : State → List (Operation × Place) → Prop
  | _, [] => True
  | s, (o, p) :: rest =>
    o.isShift = true ∧ s.entry.operation = o ∧ s.place wrap = p ∧ s.Spared worked ∧
      Row worked s.past rest

instance decidableSpared (worked : List Place) : Decidable (s.Spared worked) :=
  inferInstanceAs (Decidable (∀ i < s.entry.size, _))

instance decidableRow (worked : List Place) :
    (s : State) → (work : List (Operation × Place)) → Decidable (Row wrap worked s work)
  | _, [] => .isTrue trivial
  | s, (_, _) :: rest =>
    have := decidableRow worked s.past rest
    inferInstanceAs (Decidable (_ ∧ _ ∧ _ ∧ _ ∧ _))

/-- Two states that agree in what a row of shifts goes by. -/
structure Alike (worked : List Place) (s t : State) : Prop where
  pc : t.registers.pc = s.registers.pc
  x : t.registers.x = s.registers.x
  memory : ∀ address, .cell address ∉ worked → t.memory address = s.memory address

namespace Alike

variable {s} {wrap} {t : State} {worked : List Place} (h : Alike worked s t) (hs : s.Spared worked)
include h hs

theorem byteAt_eq (i : Nat) (hi : i < s.entry.size) :
    t.byteAt (t.registers.pc.toNat + i) = s.byteAt (s.registers.pc.toNat + i) := by
  unfold byteAt
  rw [h.pc, Word.exact_add_ofNat, h.memory _ (hs i hi)]

theorem entry_eq : t.entry = s.entry := by
  have hpc : s.registers.pc + UInt16.ofNat 0 = s.registers.pc := UInt16.add_zero _
  have hb := h.memory _ (hs 0 (Nat.lt_of_lt_of_le Nat.one_pos (Nat.le_add_right 1 _)))
  rw [hpc] at hb
  unfold entry
  rw [h.pc, hb]

/-- A shift names the same place in both. -/
theorem place_eq (ho : s.entry.operation.isShift = true) : t.place wrap = s.place wrap := by
  have hm : s.entry.mode ∈ _ := Opcode.mode_of_isShift _ ho
  have hlow : 1 < 1 + s.entry.mode.operandLength → t.byteAt (t.registers.pc.toNat + 1) =
      s.byteAt (s.registers.pc.toNat + 1) := h.byteAt_eq hs 1
  have hhigh : 2 < 1 + s.entry.mode.operandLength → t.byteAt (t.registers.pc.toNat + 2) =
      s.byteAt (s.registers.pc.toNat + 2) := h.byteAt_eq hs 2
  unfold place
  rw [h.entry_eq hs]
  generalize s.entry.mode = mode at *
  cases mode
  case implied => rfl
  case zeroPage | zeroPageX =>
    unfold effective
    simp only [hlow (by decide), h.x]
  case absolute | absoluteX =>
    unfold effective pairAt
    simp only [hlow (by decide), hhigh (by decide), h.x]
  all_goals exact absurd hm (by decide)

/-- **A shift keeps states alike** when it works where it may. -/
theorem step (ho : s.entry.operation.isShift = true) (hp : s.place wrap ∈ worked) :
    Alike worked s.past (t.step wrap) := by
  have ht : t.entry.operation.isShift = true := by rwa [h.entry_eq hs]
  have hregisters : (t.step wrap).registers.pc = t.past.registers.pc ∧
      (t.step wrap).registers.x = t.registers.x := by
    rcases t.entry.operation.isShift_iff.mp ht with hl | hr
    · rw [t.step_of_left wrap hl, registers_putBack]
      exact ⟨rfl, rfl⟩
    · rw [t.step_of_right wrap hr, registers_putBack]
      exact ⟨rfl, rfl⟩
  refine ⟨?_, hregisters.2.trans h.x, fun address ha => ?_⟩
  · rw [hregisters.1]
    unfold past
    rw [h.entry_eq hs, h.pc]
    rfl
  · have hne : Place.cell address ≠ t.place wrap := by
      rintro he
      rw [he, h.place_eq hs ho] at ha
      exact ha hp
    exact (t.held_step wrap ht hne).trans (h.memory address ha)

end Alike

end Reference.State

namespace Machine

open Reference

/-! ## Numbers in a machine -/

variable (m : Machine Memory)

/-- The place of the operand of the next instruction. -/
def place : Place := m.view.place m.options.indirectPageWrap

/-- The number in the given places, the least significant byte first. -/
def number (places : List Place) : Nat := value (places.map m.view.held)

/-- The number with the carry on top of it. -/
def carryAbove (places : List Place) : Nat :=
  m.number places + 256 ^ places.length * m.registers.status.carry.toNat

/-- The number with the carry below it. -/
def carryBelow (places : List Place) : Nat :=
  2 * m.number places + m.registers.status.carry.toNat

variable {m} {p : Place} {places : List Place}

theorem number_lt : m.number places < 256 ^ places.length := by
  have h := value_lt (places.map m.view.held)
  rwa [List.length_map] at h

theorem number_cons :
    m.number (p :: places) = (m.view.held p).toNat + 256 * m.number places := rfl

theorem number_concat :
    m.number (places ++ [p]) = m.number places + 256 ^ places.length * (m.view.held p).toNat := by
  unfold number
  rw [List.map_append, List.map_singleton, value_append, value_singleton, List.length_map]

theorem number_congr {n : Machine Memory} (h : ∀ p ∈ places, n.view.held p = m.view.held p) :
    n.number places = m.number places := by
  unfold number
  rw [List.map_congr_left h]

/-! ## One link -/

section Link

variable {k : Machine Memory} (hk : k.owed = 0)
include hk

theorem toNat_clock_of_left (ho : k.entry.operation = .asl ∨ k.entry.operation = .rol) :
    (k.clock.view.held k.place).toNat + 256 * k.clock.registers.status.carry.toNat =
      2 * (k.view.held k.place).toNat + k.entry.operation.incoming k.registers.status.carry := by
  have h := k.view.toNat_step_of_left k.options.indirectPageWrap ho
  rw [← k.view_clock hk] at h
  exact h

theorem toNat_clock_of_right (ho : k.entry.operation = .lsr ∨ k.entry.operation = .ror) :
    2 * (k.clock.view.held k.place).toNat + k.clock.registers.status.carry.toNat =
      (k.view.held k.place).toNat + 256 * k.entry.operation.incoming k.registers.status.carry := by
  have h := k.view.toNat_step_of_right k.options.indirectPageWrap ho
  rw [← k.view_clock hk] at h
  exact h

theorem held_clock (ho : k.entry.operation.isShift = true) {q : Place} (hq : q ≠ k.place) :
    k.clock.view.held q = k.view.held q := by
  rw [k.view_clock hk]
  exact k.view.held_step k.options.indirectPageWrap ho hq

end Link

end Machine

end Core6502
