import Core6502.Proofs.Clock.Cost
import Core6502.Proofs.Multibyte.Addition

/-!
# Comparison of several bytes

To compare is to subtract without keeping the difference: a compare leaves the carry, zero and
negative flags as a subtraction without borrow would. So a program compares numbers of several bytes
by a compare of the least significant bytes and a pass of subtractions over the others. The carry
then orders the numbers as unsigned ones, and the negative and overflow flags as signed ones.

* `compare_subtract`, `flags_clock_of_compares`: a compare and a subtraction leave the same flags.
* `registers_clock_of_compares`: a compare leaves everything else alone.
* `Comparison.carry_iff`, `Comparison.sign_iff`: what a comparison of several bytes tells.
* `pc_clock_of_isBranch`: where a branch goes.
* **`compares_as_subtracts`** puts these together.
-/

universe u

namespace Core6502

open Multibyte

/-! ## One byte -/

/-- The register that an operation compares with its operand. -/
def Operation.compared : Operation → Option Register
  | cmp => some .a
  | cpx => some .x
  | cpy => some .y
  | _ => none

theorem Operation.readsOperand_of_compared {o : Operation} {r : Register}
    (h : o.compared = some r) : o.readsOperand = true := by
  cases o <;> first | rfl | cases h

namespace Registers

/-- **A compare leaves the flags of a subtraction** from the same value without borrow. -/
theorem compare_subtract (r : Registers) {s : Registers} (v : Byte)
    (hc : s.status.carry = true) :
    let p := (r.compare s.a v).status
    let q := (s.subtract v).status
    p.carry = q.carry ∧ p.zero = q.zero ∧ p.negative = q.negative := by
  intro p q
  have ha := s.a.toNat_lt
  have hv := v.toNat_lt
  have hn := Byte.toNat_not v
  have hresult : Word.low (wideSum s.a (~~~v) s.status.carry) = s.a - v := by
    rw [low_wideSum, Byte.sub_eq_exact, hc, Bool.toNat_true]
    exact Byte.exact_congr (by omega)
  have hcarry : decide (v ≤ s.a) = decide (255 < wideSum s.a (~~~v) s.status.carry) := by
    rw [carry_wideSum, decide_eq_decide, UInt8.le_iff_toNat_le, hc, Bool.toNat_true]
    omega
  have hq : q = { s.status with
      carry := decide (255 < wideSum s.a (~~~v) s.status.carry)
      overflow := q.overflow }.withResult (s.a - v) := by
    rw [← hresult]
    rfl
  rw [hq, ← hcarry]
  exact ⟨rfl, rfl, rfl⟩

end Registers

namespace Machine

variable {β : Type u} [Bus β]

theorem execute_of_compared {o : Operation} {r : Register} (h : o.compared = some r)
    (m : Machine β) :
    m.execute o = m.withOperand fun s v => s.compare (s.byte r) v := by
  cases o
  case cmp | cpx | cpy =>
    cases h
    rfl
  all_goals cases h

section Compare

variable {m : Machine β} {r : Register} (h : m.owed = 0)
  (hm : m.entry.operation.compared = some r)
include h hm

theorem registers_clock_of_compares :
    m.clock.registers =
      { m.registers.compare (m.registers.byte r) m.argument with
        pc := m.resolved.registers.pc } := by
  rw [registers_clock_of_withOperand h (execute_of_compared hm _)]
  cases r <;> rfl

/-- **A compare and a subtraction** of the same byte from the same value, without borrow, leave the
same carry, zero and negative flags. -/
theorem flags_clock_of_compares {k : Machine β} (hk : k.owed = 0) (hs : k.entry.operation = .sbc)
    (ha : k.registers.a = m.registers.byte r) (hc : k.registers.status.carry = true)
    (hv : k.argument = m.argument) :
    let p := m.clock.registers.status
    let q := k.clock.registers.status
    p.carry = q.carry ∧ p.zero = q.zero ∧ p.negative = q.negative := by
  rw [registers_clock_of_compares h hm, registers_clock_of_adds hk (.inr rfl) hs, hv, ← ha]
  exact m.registers.compare_subtract m.argument hc

/-- A compare changes no register that a program computes with, and not the overflow flag. -/
theorem preserved_clock_of_compares :
    m.clock.registers.status.overflow = m.registers.status.overflow ∧
      ∀ s, m.clock.registers.byte s = m.registers.byte s := by
  rw [registers_clock_of_compares h hm]
  refine ⟨rfl, fun s => ?_⟩
  cases s <;> rfl

end Compare

/-! ## Several bytes -/

/-- **A comparison of several bytes**: a compare of the accumulator at an instruction boundary, then
a pass of subtractions. -/
structure Comparison (first : Machine β) (links : List (Machine β)) (last : Machine β) : Prop where
  owed : first.owed = 0
  operation : first.entry.operation = .cmp
  pass : Pass .sbc first.clock links last

namespace Comparison

variable {first last : Machine β} {links : List (Machine β)} (h : Comparison first links last)
include h

/-- The compare borrows when the operand is larger. -/
theorem borrow_first :
    (!first.clock.registers.status.carry).toNat =
      if first.registers.a.toNat < first.argument.toNat then 1 else 0 := by
  have hm : first.entry.operation.compared = some .a := congrArg Operation.compared h.operation
  have hc : first.clock.registers.status.carry = decide (first.argument ≤ first.registers.a) := by
    rw [registers_clock_of_compares h.owed hm]
    rfl
  rw [hc]
  by_cases hlt : first.registers.a.toNat < first.argument.toNat
  · have hle : ¬ first.argument ≤ first.registers.a := by
      rw [UInt8.le_iff_toNat_le]
      omega
    rw [if_pos hlt, decide_eq_false hle]
    rfl
  · have hle : first.argument ≤ first.registers.a := by
      rw [UInt8.le_iff_toNat_le]
      omega
    rw [if_neg hlt, decide_eq_true hle]
    rfl

/-- **The carry tells the unsigned order.** -/
theorem carry_iff :
    last.registers.status.carry = true ↔
      value (arguments (first :: links)) ≤ value (augends (first :: links)) := by
  have hb := h.borrow_first
  have ha := first.registers.a.toNat_lt
  have hv := first.argument.toNat_lt
  have hvalue : value (augends (first :: links)) =
      first.registers.a.toNat + 256 * value (augends links) := rfl
  have hvalue' : value (arguments (first :: links)) =
      first.argument.toNat + 256 * value (arguments links) := rfl
  rw [h.pass.wraps_sbc.2, hb, hvalue, hvalue']
  split <;> omega

/-- **The negative and overflow flags tell the signed order.** -/
theorem sign_iff (hl : links ≠ []) :
    last.registers.status.negative ≠ last.registers.status.overflow ↔
      signed (augends (first :: links)) < signed (arguments (first :: links)) := by
  have hb := h.borrow_first
  have ha := first.registers.a.toNat_lt
  have hv := first.argument.toNat_lt
  have hne : ∀ f : Machine β → Byte, links.map f ≠ [] := fun f => mt List.map_eq_nil_iff.mp hl
  have hsigned : signed (augends (first :: links)) =
      first.registers.a.toNat + 256 * signed (augends links) := signed_cons (hne _)
  have hsigned' : signed (arguments (first :: links)) =
      first.argument.toNat + 256 * signed (arguments links) := signed_cons (hne _)
  rw [h.pass.sign_sbc hl, hb, hsigned, hsigned']
  split <;> omega

end Comparison

/-- Over memory the operands of a comparison are the bytes at the effective addresses. -/
theorem Comparison.arguments_eq {first last : Machine Memory} {links : List (Machine Memory)}
    (h : Comparison first links last) :
    arguments (first :: links) = (first :: links).map addressed := by
  have hreads : first.entry.operation.readsOperand = true := by
    rw [h.operation]
    rfl
  rw [List.map_cons, ← h.pass.arguments_eq (.inr rfl), ← argument_eq hreads]
  rfl

/-! ## Branches -/

/-- Where the next instruction goes if it is a branch that is taken: as far from the address after
its two bytes as its operand byte says. -/
def destination (m : Machine β) : Word :=
  Word.exact (m.registers.pc.toNat + 2 + m.begin.fetchByte.1.signed)

/-- **A branch** goes to its destination when its condition holds, and else to the next
instruction. -/
theorem pc_clock_of_isBranch {m : Machine β} (h : m.owed = 0)
    (hb : m.entry.operation.isBranch = true) :
    m.clock.registers.pc = if m.entry.operation.branches m.registers.status = true
      then m.destination else Word.exact (m.registers.pc.toNat + 2) := by
  have hmode : m.entry.mode = .relative :=
    Operation.eq_relative_of_admits (Opcode.admits_lookup _) hb
  obtain ⟨hr, ho⟩ := m.resolved_of_relative hmode
  have hnext : m.resolved.registers.pc = Word.exact (m.registers.pc.toNat + 2) := by rw [hr]
  have htarget : m.resolved.registers.pc + m.resolved.latches.offset = m.destination := by
    rw [ho, hnext, Word.add_signExtend, Word.exact_exact_add]
    rfl
  have hx : m.executed = m.resolved.branch (m.entry.operation.branches m.registers.status) := by
    have hstatus : m.resolved.registers.status = m.registers.status := by rw [hr]
    rw [← hstatus]
    exact execute_of_isBranch hb m.resolved
  rw [registers_clock h, hx, ← htarget, ← hnext]
  cases m.entry.operation.branches m.registers.status <;> rfl

/-! ## The order of numbers -/

/-- **Machines compare as they subtract.** A compare of a register, in whatever mode its operand
comes, leaves carry, zero and negative as a subtraction of the same byte from the same value with
the carry set, and changes no register and not the overflow flag. After a compare of the least
significant bytes of two numbers and a pass of subtractions over the others the carry tells whether
the first number is at least the second one, and a branch on it, whenever it comes, goes by that.
If there is a byte to subtract, the negative and overflow flags differ exactly when the first number
is less than the second one in two's complement. Over memory the operand bytes are those at the
effective addresses of the reference. -/
theorem compares_as_subtracts :
    (∀ (m k : Machine β) (r : Register), m.owed = 0 → m.entry.operation.compared = some r →
      k.owed = 0 → k.entry.operation = .sbc → k.registers.a = m.registers.byte r →
      k.registers.status.carry = true → k.argument = m.argument →
      let p := m.clock.registers.status
      let q := k.clock.registers.status
      (p.carry = q.carry ∧ p.zero = q.zero ∧ p.negative = q.negative) ∧
        p.overflow = m.registers.status.overflow ∧
        ∀ s, m.clock.registers.byte s = m.registers.byte s) ∧
    (∀ (first last : Machine β) (links : List (Machine β)), Comparison first links last →
      let a := augends (first :: links)
      let v := arguments (first :: links)
      let p := last.registers.status
      (p.carry = true ↔ value v ≤ value a) ∧
        (links ≠ [] → (p.negative ≠ p.overflow ↔ signed a < signed v)) ∧
        ∀ (history : List Command) (k : Machine β), (last.performAll history).2 = k →
          k.registers.status.carry = p.carry → k.owed = 0 →
          (k.entry.operation = .bcs → k.clock.registers.pc =
            if value v ≤ value a then k.destination
            else Word.exact (k.registers.pc.toNat + 2)) ∧
          (k.entry.operation = .bcc → k.clock.registers.pc =
            if value a < value v then k.destination
            else Word.exact (k.registers.pc.toNat + 2))) ∧
    (∀ (m : Machine Memory) (r : Register), m.entry.operation.compared = some r →
      m.argument = m.addressed) ∧
    ∀ (first last : Machine Memory) (links : List (Machine Memory)), Comparison first links last →
      arguments (first :: links) = (first :: links).map addressed := by
  refine ⟨?_, ?_, ?_, ?_⟩
  · intro m k r h hm hk hs ha hc hv
    exact ⟨flags_clock_of_compares h hm hk hs ha hc hv, preserved_clock_of_compares h hm⟩
  · intro first last links h a v p
    refine ⟨h.carry_iff, h.sign_iff, fun history k _ hcarry hk => ⟨fun ho => ?_, fun ho => ?_⟩⟩
    · have hb : k.entry.operation.branches k.registers.status = true ↔ value v ≤ value a := by
        rw [ho, ← h.carry_iff]
        exact Bool.eq_iff_iff.mp hcarry
      rw [pc_clock_of_isBranch hk (congrArg Operation.isBranch ho)]
      simp only [hb]
    · have hb : k.entry.operation.branches k.registers.status = true ↔ value a < value v := by
        rw [ho, ← Nat.not_le, ← h.carry_iff, ← hcarry]
        simp [Operation.branches]
      rw [pc_clock_of_isBranch hk (congrArg Operation.isBranch ho)]
      simp only [hb]
  · intro m r hm
    exact argument_eq (Operation.readsOperand_of_compared hm)
  · intro first last links h
    exact h.arguments_eq

/-- A machine that ranks $8001 and $7F02: the given operation with #$02, LDA #$80, SBC $F0,X, which
wraps to $10, BCS +4, with $01 in the accumulator and the carry set. -/
def ranking (opcode : Byte) : Machine Memory :=
  atRest ⟨0x01, 0x20, 0, 0xFD, 0x8000, { Status.initial with carry := true }⟩
    ((Memory.zero.overlay 0x8000 [opcode, 0x02, 0xA9, 0x80, 0xF5, 0xF0, 0xB0, 0x04]).set 0x0010
      0x7F)

/-- The first number is larger, so the branch is taken, and it is the smaller one in two's
complement. The second number is the one in memory. -/
theorem pc_ranking :
    let first := ranking 0xC9
    let high := first.clock.loadNext
    let last := high.clock
    let branch := (last.performAll [.run 3]).2
    first.clock.registers.status.negative = (ranking 0xE9).clock.registers.status.negative ∧
      last.registers.status.negative ≠ last.registers.status.overflow ∧
      branch.clock.registers.pc = 0x800C ∧ arguments [first, high] = [0x02, 0x7F] := by
  intro first high last branch
  obtain ⟨flags, order, -, addresses⟩ := compares_as_subtracts (β := Memory)
  have alike : (ranking 0xE9).entry.operation = .sbc ∧
      (ranking 0xE9).registers.a = first.registers.a ∧
      (ranking 0xE9).argument = first.argument := by decide +kernel
  have compares : first.entry.operation = .cmp := by decide +kernel
  have ranks : Comparison first [high] last := by
    have h : high.registers.status.carry = first.clock.registers.status.carry ∧ high.owed = 0 ∧
        high.entry.operation = .sbc := by decide +kernel
    obtain ⟨hc, ho, hm⟩ := h
    exact ⟨rfl, compares, .cons [.step] rfl hc ho hm (.nil _)⟩
  have branches : branch.registers.status.carry = last.registers.status.carry ∧ branch.owed = 0 ∧
      branch.entry.operation = .bcs := by decide +kernel
  obtain ⟨hs, ha, hv⟩ := alike
  obtain ⟨hc, ho, hm⟩ := branches
  obtain ⟨⟨-, -, negative⟩, -⟩ := flags first (ranking 0xE9) .a rfl
    (congrArg Operation.compared compares) rfl hs ha rfl hv
  obtain ⟨-, sign, next⟩ := order first last [high] ranks
  have taken := (next [.run 3] branch rfl hc ho).1 hm
  exact ⟨negative, (sign (List.cons_ne_nil _ _)).mpr (by decide +kernel),
    taken.trans (by decide +kernel), (addresses _ _ _ ranks).trans (by decide +kernel)⟩

end Machine

end Core6502
