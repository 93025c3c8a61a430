import Core6502.Machine.Command
import Core6502.Proofs.Clock.Frame
import Core6502.Proofs.Multibyte.Number
import Core6502.Proofs.Reference.View
import Core6502.Proofs.Status
import Mathlib.Tactic.Ring

/-!
# Addition and subtraction of several bytes

A program adds numbers of several bytes from the least significant byte up: it loads a byte into the
accumulator and adds the other's, with the carry from the byte before. A `Pass` is such a run of
links; between them anything may happen that leaves the carry as it was.

One link keeps account of its carry (`toNat_add`), so a whole pass does (`Pass.value_results`). The
last link decides the overflow and negative flags, and no byte below it matters to these
(`Pass.top_flags`). To subtract is to add complements.

* **`passes_compute`**: what a pass leaves in the accumulator and in the flags, as a statement about
  whole numbers.
-/

universe u

namespace Core6502

open Multibyte

/-! ## One link -/

namespace Registers

variable (r : Registers) (v : Byte)

/-- **An addition loses nothing**: what does not fit into the accumulator is the carry. -/
theorem toNat_add :
    (r.add v).a.toNat + 256 * (r.add v).status.carry.toNat =
      r.a.toNat + v.toNat + r.status.carry.toNat := by
  have ha := r.a.toNat_lt
  have hv := v.toNat_lt
  have hc := Bool.toNat_le r.status.carry
  show (Word.low (wideSum r.a v r.status.carry)).toNat +
    256 * (decide (255 < wideSum r.a v r.status.carry)).toNat = _
  rw [Word.toNat_low, carry_wideSum, toNat_wideSum]
  by_cases h : 256 ≤ r.a.toNat + v.toNat + r.status.carry.toNat
  · rw [decide_eq_true h, Bool.toNat_true]
    omega
  · rw [decide_eq_false h, Bool.toNat_false]
    omega

theorem overflow_add :
    (r.add v).status.overflow =
      !decide (Fits 1 (r.a.signed + v.signed + r.status.carry.toNat)) := by
  have h : (r.add v).status.overflow = _ := overflow_wideSum r.a v r.status.carry
  rw [h, ← decide_not, decide_eq_decide]
  unfold Fits
  omega

theorem negative_add : (r.add v).status.negative = top [(r.add v).a] := rfl

end Registers

/-- A borrow is a carry that is not there. -/
theorem toNat_borrow (carry : Bool) : carry.toNat + (!carry).toNat = 1 := by
  cases carry <;> rfl

/-- What an addition or a subtraction adds: the operand or its complement. -/
def Operation.summand (o : Operation) (v : Byte) : Byte := if o = .sbc then ~~~v else v

namespace Machine

variable {β : Type u} [Bus β]

/-- The byte that the next instruction reads as its operand. -/
def argument (m : Machine β) : Byte := m.resolved.operand.1

/-- The byte that memory holds at the effective address of the next instruction, as the reference
counts it. -/
def addressed (m : Machine Memory) : Byte :=
  m.view.memory (m.view.effective m.options.indirectPageWrap m.view.entry.mode)

/-- **In memory the operand is the byte at the effective address.** -/
theorem argument_eq {m : Machine Memory} (h : m.entry.operation.readsOperand = true) :
    m.argument = m.addressed := by
  have ha : m.entry.operation.admits m.entry.mode = true := Opcode.admits_lookup _
  have hb : m.entry.operation.isBranch = false := Operation.isBranch_of_readsOperand h
  have hi : m.entry.mode ≠ .implied := Operation.ne_implied_of_admits ha (by
    unfold Operation.needsAddress
    rw [h]
    rfl)
  calc m.argument
      = m.resolved.operandByte m.resolved.mode := m.resolved.operand_eq.1
    _ = m.resolved.operandByte m.entry.mode := by rw [m.mode_resolved]
    _ = m.view.operand m.options.indirectPageWrap m.entry.mode :=
        m.operandByte_resolve (Operation.ne_relative_of_admits ha hb)
    _ = m.addressed := if_neg hi

/-- A clock that combines the operand with the registers, whatever the program counter is. -/
theorem registers_clock_of_withOperand {m : Machine β} {f : Registers → Byte → Registers}
    (h : m.owed = 0)
    (hf : m.resolved.execute m.entry.operation = m.resolved.withOperand f) :
    m.clock.registers =
      f { m.registers with pc := m.resolved.registers.pc } m.argument := by
  have hr : m.resolved.registers = { m.registers with pc := m.resolved.registers.pc } :=
    m.begin.registers_resolve m.entry.mode
  have hx : m.executed.registers = f m.resolved.registers m.argument := by
    unfold executed
    rw [hf]
    exact m.resolved.registers_withOperand _
  rw [registers_clock h, hx, ← hr]

section Link

variable {m : Machine β} {o : Operation} (h : m.owed = 0) (ho : o = .adc ∨ o = .sbc)
  (hm : m.entry.operation = o)
include h ho hm

theorem registers_clock_of_adds :
    m.clock.registers =
      { m.registers.add (o.summand m.argument) with pc := m.resolved.registers.pc } := by
  have hf : m.resolved.execute m.entry.operation =
      m.resolved.withOperand fun r v => r.add (o.summand v) := by
    rw [hm]
    rcases ho with rfl | rfl <;> rfl
  rw [registers_clock_of_withOperand h hf]
  rfl

/-- **A link loses nothing.** -/
theorem toNat_clock_of_adds :
    m.clock.registers.a.toNat + 256 * m.clock.registers.status.carry.toNat =
      m.registers.a.toNat + (o.summand m.argument).toNat + m.registers.status.carry.toNat := by
  rw [registers_clock_of_adds h ho hm]
  exact m.registers.toNat_add _

/-- The flags of a link alone. -/
theorem flags_clock_of_adds :
    m.clock.registers.status.overflow = !decide (Fits 1 (m.registers.a.signed +
        (o.summand m.argument).signed + m.registers.status.carry.toNat)) ∧
      m.clock.registers.status.negative = top [m.clock.registers.a] := by
  rw [registers_clock_of_adds h ho hm]
  exact ⟨m.registers.overflow_add _, m.registers.negative_add _⟩

end Link

/-! ## Passes -/

/-- **A pass of an operation**: links at instruction boundaries, each about to perform the operation
and reached by a history that leaves the carry as it was. -/
inductive Pass (o : Operation) : Machine β → List (Machine β) → Machine β → Prop where
  | nil (m : Machine β) : Pass o m [] m
  | cons {m k n : Machine β} {links : List (Machine β)} (history : List Command) :
    (m.performAll history).2 = k → k.registers.status.carry = m.registers.status.carry →
    k.owed = 0 → k.entry.operation = o → Pass o k.clock links n → Pass o m (k :: links) n

/-- The bytes in the accumulator before the links. -/
def augends (links : List (Machine β)) : List Byte := links.map fun k => k.registers.a

/-- The operand bytes of the links. -/
def arguments (links : List (Machine β)) : List Byte := links.map argument

/-- The bytes that the links add. -/
def addends (o : Operation) (links : List (Machine β)) : List Byte :=
  links.map fun k => o.summand k.argument

/-- The bytes in the accumulator after the links. -/
def results (links : List (Machine β)) : List Byte := links.map fun k => k.clock.registers.a

namespace Pass

variable {o : Operation} {m n : Machine β} {links : List (Machine β)}

/-- **A pass loses nothing.** -/
theorem value_results (h : Pass o m links n) (ho : o = .adc ∨ o = .sbc) :
    value (results links) + 256 ^ links.length * n.registers.status.carry.toNat =
      value (augends links) + value (addends o links) + m.registers.status.carry.toNat := by
  induction h with
  | nil => simp [results, augends, addends, value]
  | @cons m k n links history hk hc hb hm hrest ih =>
    have hlink := toNat_clock_of_adds hb ho hm
    have hr : value (results (k :: links)) =
        k.clock.registers.a.toNat + 256 * value (results links) := rfl
    have ha : value (augends (k :: links)) =
        k.registers.a.toNat + 256 * value (augends links) := rfl
    have hv : value (addends o (k :: links)) =
        (o.summand k.argument).toNat + 256 * value (addends o links) := rfl
    rw [hc] at hlink
    calc value (results (k :: links)) + 256 ^ (links.length + 1) * n.registers.status.carry.toNat
        = k.clock.registers.a.toNat + 256 * (value (results links) +
            256 ^ links.length * n.registers.status.carry.toNat) := by
          rw [hr, Nat.pow_succ]
          ring
      _ = k.clock.registers.a.toNat + 256 * k.clock.registers.status.carry.toNat +
            256 * (value (augends links) + value (addends o links)) := by
          rw [ih]
          ring
      _ = value (augends (k :: links)) + value (addends o (k :: links)) +
            m.registers.status.carry.toNat := by
          rw [hlink, ha, hv]
          ring

/-- **The last link decides.** Overflow and the sign are those of the whole number. -/
theorem top_flags (h : Pass o m links n) (ho : o = .adc ∨ o = .sbc) (hl : links ≠ []) :
    n.registers.status.overflow = !decide (Fits links.length (signed (augends links) +
        signed (addends o links) + m.registers.status.carry.toNat)) ∧
      n.registers.status.negative = top (results links) := by
  induction h with
  | nil => exact absurd rfl hl
  | @cons m k n links history hk hc hb hm hrest ih =>
    by_cases hlast : links = []
    · subst hlast
      cases hrest
      obtain ⟨hv, hn⟩ := flags_clock_of_adds hb ho hm
      refine ⟨?_, hn⟩
      have ha : signed (augends [k]) = k.registers.a.signed := signed_singleton _
      have hs : signed (addends o [k]) = (o.summand k.argument).signed := signed_singleton _
      rw [hv, hc, ha, hs]
      rfl
    · obtain ⟨hv, hn⟩ := ih hlast
      have hlink := toNat_clock_of_adds hb ho hm
      have hne : ∀ f : Machine β → Byte, links.map f ≠ [] := fun f =>
        mt List.map_eq_nil_iff.mp hlast
      have hlength : links.length ≠ 0 := mt List.length_eq_zero_iff.mp hlast
      have ha : signed (augends (k :: links)) =
          k.registers.a.toNat + 256 * signed (augends links) := signed_cons (hne _)
      have hs : signed (addends o (k :: links)) =
          (o.summand k.argument).toNat + 256 * signed (addends o links) := signed_cons (hne _)
      have hsum : signed (augends (k :: links)) + signed (addends o (k :: links)) +
          m.registers.status.carry.toNat = k.clock.registers.a.toNat + 256 *
            (signed (augends links) + signed (addends o links) +
              k.clock.registers.status.carry.toNat) := by
        rw [ha, hs, ← hc]
        omega
      have htop : top (results (k :: links)) = top (results links) := top_cons (hne _)
      rw [hsum, List.length_cons, htop, hv]
      refine ⟨?_, hn⟩
      simp only [fits_cons hlength]

/-- Over memory the operands of a pass are the bytes at the effective addresses. -/
theorem arguments_eq {m n : Machine Memory} {links : List (Machine Memory)} (h : Pass o m links n)
    (ho : o = .adc ∨ o = .sbc) : arguments links = links.map addressed := by
  induction h with
  | nil => rfl
  | @cons m k n links history hk hc hb hm hrest ih =>
    have hreads : k.entry.operation.readsOperand = true := by
      rw [hm]
      rcases ho with rfl | rfl <;> rfl
    rw [List.map_cons, ← ih, ← argument_eq hreads]
    rfl

omit [Bus β] in
theorem length_augends : (augends links).length = links.length := List.length_map _

theorem length_arguments : (arguments links).length = links.length := List.length_map _

theorem length_results : (results links).length = links.length := List.length_map _

/-- The sum wraps to as many bytes as there are links, and the carry tells that it did. -/
theorem wraps (h : Pass o m links n) (ho : o = .adc ∨ o = .sbc) :
    value (results links) =
        (value (augends links) + value (addends o links) + m.registers.status.carry.toNat) %
          256 ^ links.length ∧
      (n.registers.status.carry = true ↔ 256 ^ links.length ≤
        value (augends links) + value (addends o links) + m.registers.status.carry.toNat) := by
  have hr := value_lt (results links)
  have hsum := h.value_results ho
  rw [length_results] at hr
  rw [← hsum]
  cases n.registers.status.carry with
  | false =>
    rw [Bool.toNat_false, Nat.mul_zero, Nat.add_zero, Nat.mod_eq_of_lt hr]
    exact ⟨rfl, iff_of_false Bool.false_ne_true (Nat.not_le.mpr hr)⟩
  | true =>
    rw [Bool.toNat_true, Nat.mul_one, Nat.add_mod_right, Nat.mod_eq_of_lt hr]
    exact ⟨rfl, iff_of_true rfl (Nat.le_add_left _ _)⟩

/-- What an addition adds is its operand. -/
theorem addends_adc (links : List (Machine β)) : addends .adc links = arguments links := rfl

/-! ### Subtraction -/

/-- What a subtraction adds are complements. -/
theorem addends_sbc (links : List (Machine β)) :
    addends .sbc links = (arguments links).map (~~~·) := by
  rw [arguments, List.map_map]
  rfl

/-- A pass of subtractions wraps, and its carry tells that nothing was borrowed in the end. -/
theorem wraps_sbc (h : Pass .sbc m links n) :
    (value (results links) : Int) =
        (value (augends links) - value (arguments links) - (!m.registers.status.carry).toNat) %
          (256 ^ links.length : Nat) ∧
      (n.registers.status.carry = true ↔
        value (arguments links) + (!m.registers.status.carry).toNat ≤ value (augends links)) := by
  obtain ⟨hr, hc⟩ := h.wraps (.inr rfl)
  have hn := value_not (arguments links)
  have hb := toNat_borrow m.registers.status.carry
  rw [length_arguments] at hn
  have ht : ((value (augends links) + value (addends .sbc links) +
      m.registers.status.carry.toNat : Nat) : Int) =
        value (augends links) - value (arguments links) - (!m.registers.status.carry).toNat +
          (256 ^ links.length : Nat) := by
    rw [addends_sbc]
    omega
  constructor
  · rw [hr, Int.natCast_emod, ht, Int.add_emod_right]
  · rw [hc]
    omega

/-- Overflow tells that the signed difference is out of range. -/
theorem overflow_sbc (h : Pass .sbc m links n) (hl : links ≠ []) :
    n.registers.status.overflow = !decide (Fits links.length (signed (augends links) -
      signed (arguments links) - (!m.registers.status.carry).toNat)) := by
  have hb := toNat_borrow m.registers.status.carry
  have ht : signed (augends links) + signed (addends .sbc links) + m.registers.status.carry.toNat =
      signed (augends links) - signed (arguments links) - (!m.registers.status.carry).toNat := by
    have hne : arguments links ≠ [] := mt List.map_eq_nil_iff.mp hl
    rw [addends_sbc, signed_not hne]
    omega
  rw [← ht]
  exact (h.top_flags (.inr rfl) hl).1

/-- **The sign of the signed difference** is the negative flag, turned round by overflow. -/
theorem sign_sbc (h : Pass .sbc m links n) (hl : links ≠ []) :
    n.registers.status.negative ≠ n.registers.status.overflow ↔ signed (augends links) -
      signed (arguments links) - (!m.registers.status.carry).toNat < 0 := by
  have hfa := fits_signed (augends links)
  have hfv := fits_signed (arguments links)
  have hma := signed_modEq (augends links)
  have hmv := signed_modEq (arguments links)
  have hb := Bool.toNat_le (!m.registers.status.carry)
  rw [length_augends] at hfa hma
  rw [length_arguments] at hfv hmv
  have hr : (signed (augends links) - signed (arguments links) -
      (!m.registers.status.carry).toNat) % (256 ^ (results links).length : Nat) =
        value (results links) := by
    rw [length_results, h.wraps_sbc.1]
    exact (hma.sub hmv).sub_right _
  unfold Fits at hfa hfv
  rw [← top_iff_fits hr (by rw [length_results]; omega) (by rw [length_results]; omega),
    length_results, (h.top_flags (.inr rfl) hl).2, h.overflow_sbc hl]
  by_cases hf : Fits links.length (signed (augends links) - signed (arguments links) -
      (!m.registers.status.carry).toNat)
  · simp [hf]
  · simp [hf]

/-- **Subtracting what was added** restores the bytes. -/
theorem results_of_results {m' n' : Machine β} {links' : List (Machine β)}
    (h : Pass .adc m links n) (hc : m.registers.status.carry = false)
    (h' : Pass .sbc m' links' n') (hc' : m'.registers.status.carry = true)
    (ha : augends links' = results links) (hv : arguments links' = arguments links) :
    results links' = augends links := by
  have hl : links'.length = links.length := by rw [← length_augends, ha, length_results]
  have hlt := value_lt (augends links)
  obtain ⟨hsum, -⟩ := h.wraps (.inl rfl)
  obtain ⟨hdiff, -⟩ := h'.wraps_sbc
  rw [length_augends] at hlt
  rw [hc, Bool.toNat_false, Nat.add_zero, addends_adc] at hsum
  rw [hc', Bool.not_true, Bool.toNat_false, ha, hv, hl, hsum, Int.natCast_emod] at hdiff
  rw [Int.natCast_zero, Int.sub_zero, Int.emod_sub_emod, Int.natCast_add, Int.add_sub_cancel,
    Int.emod_eq_of_lt (Int.natCast_nonneg _) (Int.ofNat_lt.mpr hlt)] at hdiff
  exact eq_of_value_eq (by rw [length_results, length_augends, hl]) (Int.ofNat_inj.mp hdiff)

end Pass

/-! ## Whole numbers -/

/-- **Passes compute with whole numbers**, in whatever mode their operands come and whether decimal
mode is on or off. A pass of additions over `n` bytes leaves the sum of the numbers in the
accumulator and in the operands and of the initial carry, modulo `256 ^ n`. The carry then tells
whether this sum is out of the unsigned range, overflow whether the sum of the signed readings is
out of the signed range, and the negative flag is the top bit of the result. A pass of subtractions
leaves the difference less the initial borrow; the carry then tells whether there is no borrow left,
and the negative and overflow flags differ exactly when the signed difference is negative. So
subtracting what was added, with carry and borrow clear, restores the bytes. Over memory the operand
bytes are those at the effective addresses of the reference. -/
theorem passes_compute :
    (∀ (m n : Machine β) (links : List (Machine β)), Pass .adc m links n → links ≠ [] →
      let a := augends links
      let v := arguments links
      let c := m.registers.status.carry.toNat
      let p := n.registers.status
      value (results links) = (value a + value v + c) % 256 ^ links.length ∧
        (p.carry = true ↔ 256 ^ links.length ≤ value a + value v + c) ∧
        (p.overflow = true ↔ ¬ Fits links.length (signed a + signed v + c)) ∧
        p.negative = top (results links)) ∧
    (∀ (m n : Machine β) (links : List (Machine β)), Pass .sbc m links n → links ≠ [] →
      let a := augends links
      let v := arguments links
      let b := (!m.registers.status.carry).toNat
      let p := n.registers.status
      (value (results links) : Int) = (value a - value v - b) % (256 ^ links.length : Nat) ∧
        (p.carry = true ↔ value v + b ≤ value a) ∧
        (p.overflow = true ↔ ¬ Fits links.length (signed a - signed v - b)) ∧
        p.negative = top (results links) ∧
        (p.negative ≠ p.overflow ↔ signed a - signed v - b < 0)) ∧
    (∀ (m n m' n' : Machine β) (links links' : List (Machine β)),
      Pass .adc m links n → m.registers.status.carry = false →
      Pass .sbc m' links' n' → m'.registers.status.carry = true →
      augends links' = results links → arguments links' = arguments links →
      results links' = augends links) ∧
    ∀ (o : Operation) (m n : Machine Memory) (links : List (Machine Memory)),
      Pass o m links n → o = .adc ∨ o = .sbc → arguments links = links.map addressed := by
  refine ⟨?_, ?_, ?_, ?_⟩
  · intro m n links h hl
    obtain ⟨hv, hc⟩ := h.wraps (.inl rfl)
    obtain ⟨ho, hn⟩ := h.top_flags (.inl rfl) hl
    refine ⟨hv, hc, ?_, hn⟩
    rw [ho, Pass.addends_adc]
    simp
  · intro m n links h hl
    obtain ⟨hv, hc⟩ := h.wraps_sbc
    refine ⟨hv, hc, ?_, (h.top_flags (.inr rfl) hl).2, h.sign_sbc hl⟩
    rw [h.overflow_sbc hl]
    simp
  · intro m n m' n' links links' h hc h' hc' ha hv
    exact h.results_of_results hc h' hc' ha hv
  · intro o m n links h ho
    exact h.arguments_eq ho

/-- A machine in decimal mode at a program that adds $0101 to $7EFF, and subtracts it again from the
sum, with the operand bytes in four modes: LDA #$FF, ADC #$01, LDA #$7E, ADC $20F0,X, SEC, LDA #$00,
SBC $12, LDA #$80, SBC ($10),Y. Both indexed operands are at $2110, the first one across a page. -/
def summing : Machine Memory :=
  atRest ⟨0, 0x20, 0x10, 0xFD, 0x8000, { Status.initial with decimalMode := true }⟩
    (((Memory.zero.overlay 0x8000 [0xA9, 0xFF, 0x69, 0x01, 0xA9, 0x7E, 0x7D, 0xF0, 0x20, 0x38,
      0xA9, 0x00, 0xE5, 0x12, 0xA9, 0x80, 0xF1, 0x10]).overlay 0x0010 [0x00, 0x21, 0x01]).set
        0x2110 0x01)

/-- The machine at the operation behind a load. -/
def loadNext (m : Machine Memory) : Machine Memory := (m.performAll [.step]).2

/-- The sum overflows, and the difference is the number again. The operands are those in memory. -/
theorem results_summing :
    let low := summing.loadNext
    let high := low.clock.loadNext
    let back := high.clock.loadNext
    let low' := back.loadNext
    let high' := low'.clock.loadNext
    value (results [low, high]) = 0x8000 ∧ high.clock.registers.status.overflow = true ∧
      results [low', high'] = [0xFF, 0x7E] ∧ arguments [low', high'] = [0x01, 0x01] := by
  intro low high back low' high'
  obtain ⟨adds, -, restores, addresses⟩ := passes_compute (β := Memory)
  have up : Pass .adc summing [low, high] high.clock := by
    have h : (low.registers.status.carry = summing.registers.status.carry ∧ low.owed = 0 ∧
        low.entry.operation = .adc) ∧ high.registers.status.carry =
          low.clock.registers.status.carry ∧ high.owed = 0 ∧ high.entry.operation = .adc := by
      decide +kernel
    obtain ⟨⟨hc, ho, hm⟩, hc', ho', hm'⟩ := h
    exact .cons [.step] rfl hc ho hm (.cons [.step] rfl hc' ho' hm' (.nil _))
  have down : Pass .sbc back [low', high'] high'.clock := by
    have h : (low'.registers.status.carry = back.registers.status.carry ∧ low'.owed = 0 ∧
        low'.entry.operation = .sbc) ∧ high'.registers.status.carry =
          low'.clock.registers.status.carry ∧ high'.owed = 0 ∧ high'.entry.operation = .sbc := by
      decide +kernel
    obtain ⟨⟨hc, ho, hm⟩, hc', ho', hm'⟩ := h
    exact .cons [.step] rfl hc ho hm (.cons [.step] rfl hc' ho' hm' (.nil _))
  have bytes : back.registers.status.carry = true ∧ augends [low', high'] = results [low, high] ∧
      arguments [low', high'] = arguments [low, high] := by decide +kernel
  obtain ⟨sum, -, overflows, -⟩ := adds _ _ _ up (List.cons_ne_nil _ _)
  obtain ⟨hcarry, ha, hv⟩ := bytes
  have same := restores _ _ _ _ _ _ up rfl down hcarry ha hv
  exact ⟨sum.trans (by decide +kernel), overflows.mpr (by decide +kernel),
    same.trans (by decide +kernel),
    (addresses .sbc _ _ _ down (.inr rfl)).trans (by decide +kernel)⟩

end Machine

end Core6502
