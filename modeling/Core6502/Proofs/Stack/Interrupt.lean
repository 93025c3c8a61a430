import Core6502.Machine.Interrupt
import Core6502.Proofs.Clock.Cost

/-!
# Entering a handler

Interrupt requests, non-maskable interrupts and the software interrupt enter their handlers by the
same three cells of the stack page: the address to return to, high byte first, and a status.
`Reference.State.Enters` says what that leaves. They differ in that address, in the status pushed,
in the status that lives on, and in the vector, which is read after the pushes and may lie among
them.

* `enters_of_pushes`: three pushes and a jump through a vector enter a handler.
* `pc_of_enters`: a vector that lies apart from the pushed bytes holds the word from before.
* `enters_interrupt`, `enters_break`: the two ways in.
* **`interrupts_enter`**: what a request, a non-maskable interrupt and a software interrupt do, and
  that it makes no difference how much of an instruction has been paid.
-/

namespace Core6502

namespace Reference

/-- The cells that entering a handler fills, from the stack pointer down. -/
def State.frame (s : State) : List Word := [s.cell 0, s.cell (-1), s.cell (-2)]

/-- **Entering a handler** takes `s` to `t`: an address and a status are pushed, the program counter
is what the vector then holds, a status lives on, and nothing else changes. -/
structure State.Enters (address : Word) (pushed live : Status) (vector : Word) (s t : State) :
    Prop where
  high : t.memory (s.cell 0) = Word.high address
  low : t.memory (s.cell (-1)) = Word.low address
  status : t.memory (s.cell (-2)) = pushed.bits
  memory : ∀ other ∉ s.frame, t.memory other = s.memory other
  registers : t.registers = { s.registers with
    sp := s.registers.sp - 3
    pc := Word.ofBytes (t.memory vector) (t.memory (vector + 1))
    status := live }

namespace State

variable {s t : State} {address vector : Word} {pushed live : Status}

/-- A pushed address and a byte on top of it fill the frame. -/
theorem memory_pushWord_push (s : State) (n : Int) (v : Byte) :
    ((s.pushWord n).push v).memory = Function.update (Function.update (Function.update s.memory
      (s.cell 0) (Byte.exact (n / 256))) (s.cell (-1)) (Byte.exact n)) (s.cell (-2)) v := by
  rw [memory_push, cell_pushWord, memory_pushWord]
  rfl

/-- **Pushing an address and a status and jumping through a vector** enters a handler. -/
theorem enters_of_pushes {n : Int} (hn : n % 65536 = address.toNat)
    (hm : t.memory = ((s.pushWord n).push pushed.bits).memory)
    (hr : t.registers = { s.registers with
      sp := ((s.pushWord n).push pushed.bits).registers.sp
      pc := Word.ofBytes (t.memory vector) (t.memory (vector + 1))
      status := live }) : Enters address pushed live vector s t := by
  have ha : s.pushWord n = s.pushWord address.toNat := by
    have := address.toNat_lt
    exact s.pushWord_congr (by omega)
  have hne : ∀ i j : Int, i % 256 ≠ j % 256 → s.cell i ≠ s.cell j :=
    fun i j h e => h (s.cell_inj e)
  rw [ha, memory_pushWord_push] at hm
  refine ⟨?_, ?_, ?_, ?_, ?_⟩
  · rw [hm, Function.update_of_ne (hne _ _ (by decide)),
      Function.update_of_ne (hne _ _ (by decide)), Function.update_self, Word.high_eq_exact]
  · rw [hm, Function.update_of_ne (hne _ _ (by decide)), Function.update_self, Word.low_eq_exact]
  · rw [hm, Function.update_self]
  · intro other ho
    simp only [frame, List.mem_cons, List.not_mem_nil, or_false, not_or] at ho
    obtain ⟨h₀, h₁, h₂⟩ := ho
    rw [hm, Function.update_of_ne h₂, Function.update_of_ne h₁, Function.update_of_ne h₀]
  · have hsp : ((s.pushWord n).push pushed.bits).registers.sp = s.registers.sp - 3 := by
      rw [Byte.sub_eq_exact, show (3 : Byte).toNat = 3 from rfl]
      simp only [pushWord, sp_push, Byte.exact_exact_add]
      exact Byte.exact_congr (by omega)
    rw [hr, hsp]

/-- **A vector apart from the frame** leads where it led before. -/
theorem pc_of_enters (h : Enters address pushed live vector s t) (hlo : vector ∉ s.frame)
    (hhi : vector + 1 ∉ s.frame) :
    t.registers.pc = Word.ofBytes (s.memory vector) (s.memory (vector + 1)) := by
  rw [h.registers, ← h.memory _ hlo, ← h.memory _ hhi]

/-- The stack page does not reach the vectors at the top of memory. -/
theorem not_mem_frame (s : State) {address : Word} (h : 0x200 ≤ address) : address ∉ s.frame := by
  have hc : ∀ i, address ≠ s.cell i := fun i e =>
    absurd (s.cell_lt i) (UInt16.not_lt.mpr (e ▸ h))
  simp only [frame, List.mem_cons, List.not_mem_nil, or_false, not_or]
  exact ⟨hc 0, hc (-1), hc (-2)⟩

/-- The word at two addresses, as the program counter takes it. -/
theorem exact_pairAt (s : State) (lowAt highAt : Int) :
    Word.exact (s.pairAt lowAt highAt) =
      Word.ofBytes (s.memory (Word.exact lowAt)) (s.memory (Word.exact highAt)) :=
  (Word.ofBytes_eq_exact _ _).symm

end State

end Reference

namespace Opcode

/-- There is one software interrupt, of seven cycles. -/
theorem eq_of_operation_brk (opcode : Byte) :
    (lookup opcode).operation = .brk → lookup opcode = ⟨"BRK", .brk, .implied, 7⟩ :=
  Byte.forall_of_fin
    (P := fun b => (lookup b).operation = .brk → lookup b = ⟨"BRK", .brk, .implied, 7⟩)
    (by decide +kernel) opcode

end Opcode

namespace Machine

open Reference State

variable (m : Machine Memory)

/-! ## Interrupts -/

/-- **An interrupt enters its handler** with the status that had its break flag cleared, and
disables interrupts. -/
theorem enters_interrupt (vector : Word) :
    Enters m.registers.pc (withoutBreak m.registers.status)
      { withoutBreak m.registers.status with interruptDisable := true } vector
      m.view (m.interrupt vector).view := by
  have hp := m.registers.pc.toNat_lt
  let pushed := (m.pushWord m.registers.pc).push (withoutBreak m.registers.status).bits
  have hv : pushed.view =
      (m.view.pushWord m.registers.pc.toNat).push (withoutBreak m.registers.status).bits := by
    rw [view_push, view_pushWord]
  have hm : (m.interrupt vector).view.memory = pushed.view.memory := rfl
  have hr : (m.interrupt vector).view.registers = { m.registers with
      sp := pushed.view.registers.sp
      pc := Word.ofBytes ((m.interrupt vector).view.memory vector)
        ((m.interrupt vector).view.memory (vector + 1))
      status := { withoutBreak m.registers.status with interruptDisable := true } } := rfl
  rw [hv] at hm hr
  exact enters_of_pushes (by omega) hm hr

/-- A request that is let through interrupts, and owes seven cycles. -/
theorem irq_of_enabled (h : m.registers.status.interruptDisable = false) :
    m.irq = { (m.record (.irqTaken m.registers.pc)).interrupt irqVector with owed := 7 } := by
  unfold irq
  rw [h]
  rfl

/-! ## The software interrupt -/

section Break

variable {m} (h : m.view.entry.operation = .brk)
include h

/-- **A software interrupt enters its handler** with the interrupts disabled in both statuses and
the break flag set in the one that is pushed. The address is behind the byte after the opcode. -/
theorem enters_break (ho : m.owed = 0) :
    Enters (m.registers.pc + 2) (withBreak { m.registers.status with interruptDisable := true })
      { m.registers.status with interruptDisable := true, brk := false } irqVector
      m.view m.clock.view := by
  have he : m.view.entry = ⟨"BRK", .brk, .implied, 7⟩ := Opcode.eq_of_operation_brk _ h
  have hpc : ((Word.exact (m.registers.pc.toNat + 1)).toNat + 1 : Int) % 65536 =
      (m.registers.pc + 2).toNat := by
    rw [Word.toNat_exact, UInt16.toNat_add, show (2 : Word).toNat = 2 from rfl]
    omega
  rw [m.view_clock ho]
  unfold State.step State.past
  rw [he]
  refine enters_of_pushes hpc rfl ?_
  simp only [transfer, exact_pairAt]
  rfl

theorem cost_of_break : m.cost = 7 := by
  have he : m.view.entry = ⟨"BRK", .brk, .implied, 7⟩ := Opcode.eq_of_operation_brk _ h
  rw [m.cost_eq]
  unfold State.cycles State.pageCycle State.branchCycles
  rw [he]
  rfl

end Break

/-! ## In the middle of an instruction -/

/-- **What has been paid makes no difference** but in the number of clocks. -/
theorem interrupt_paid {n : Nat} (hn : n ≤ m.owed) :
    (clock^[n] m).nmi = { m.nmi with clocks := m.clocks + n } ∧
      (m.registers.status.interruptDisable = false →
        (clock^[n] m).irq = { m.irq with clocks := m.clocks + n }) := by
  have hc : clock^[n] m = m.settled 0 n := m.clock_iterate_of_le hn
  rw [hc]
  refine ⟨rfl, fun h => ?_⟩
  have hs : (m.settled 0 n).registers.status.interruptDisable = false := h
  rw [irq_of_enabled _ h, irq_of_enabled _ hs]
  rfl

/-- **Interrupts are exact.** While interrupts are disabled a request changes nothing but the
journal. Otherwise it enters the handler, as a non-maskable interrupt always does: with the program
counter and the status without its break flag pushed, and interrupts disabled from then on. Beside
what entering changes, only the cycles owed are new, and how many of them had been paid makes no
difference. The handler is the one the vector held before the pushes unless they reach it. A
software interrupt enters by the same cells, with the address two bytes on and the status with both
the interrupt-disable and the break flag, and leaves the break flag clear. -/
theorem interrupts_enter :
    (m.registers.status.interruptDisable = true →
      m.irq = m.record (.irqMasked m.registers.pc)) ∧
    (m.registers.status.interruptDisable = false →
      Enters m.registers.pc (withoutBreak m.registers.status)
          { withoutBreak m.registers.status with interruptDisable := true } irqVector
          m.view m.irq.view ∧
        m.irq = { m.record (.irqTaken m.registers.pc) with
          registers := m.irq.registers, bus := m.irq.bus, owed := 7 } ∧
        m.irq.registers.pc =
          Word.ofBytes (m.bus.get irqVector) (m.bus.get (irqVector + 1)) ∧
        ∀ n ≤ m.owed, (clock^[n] m).irq = { m.irq with clocks := m.clocks + n }) ∧
    (Enters m.registers.pc (withoutBreak m.registers.status)
          { withoutBreak m.registers.status with interruptDisable := true } m.options.nmiVector
          m.view m.nmi.view ∧
        m.nmi = { m.record (.nmiTaken m.registers.pc) with
          registers := m.nmi.registers, bus := m.nmi.bus, owed := 8 } ∧
        (m.options.nmiVector ∉ m.view.frame → m.options.nmiVector + 1 ∉ m.view.frame →
          m.nmi.registers.pc = Word.ofBytes (m.bus.get m.options.nmiVector)
            (m.bus.get (m.options.nmiVector + 1))) ∧
        ∀ n ≤ m.owed, (clock^[n] m).nmi = { m.nmi with clocks := m.clocks + n }) ∧
    (m.owed = 0 → m.view.entry.operation = .brk →
      Enters (m.registers.pc + 2) (withBreak { m.registers.status with interruptDisable := true })
          { m.registers.status with interruptDisable := true, brk := false } irqVector
          m.view m.clock.view ∧
        m.cost = 7) := by
  refine ⟨fun h => ?_, fun h => ?_, ?_, fun ho hb => ⟨enters_break hb ho, cost_of_break hb⟩⟩
  · unfold irq
    rw [if_pos h]
  · have he := (m.record (.irqTaken m.registers.pc)).enters_interrupt irqVector
    rw [m.irq_of_enabled h]
    refine ⟨he, rfl, pc_of_enters he ?_ ?_, fun n hn => ?_⟩
    · exact m.view.not_mem_frame (by decide)
    · exact m.view.not_mem_frame (by decide)
    · rw [← m.irq_of_enabled h]
      exact (m.interrupt_paid hn).2 h
  · have he := (m.record (.nmiTaken m.registers.pc)).enters_interrupt m.options.nmiVector
    exact ⟨he, rfl, pc_of_enters he, fun n hn => (m.interrupt_paid hn).1⟩

/-- A machine at a store to $0100, with two bytes of the stack page left below its stack pointer and
the vector of its non-maskable interrupt at the two ends of the stack page. -/
def pending : Machine Memory :=
  { atRest ⟨0x9C, 0, 0, 0x01, 0x80FF, { Status.initial with brk := true, carry := true }⟩
      ((Memory.zero.overlay 0x80FF [0x8D, 0x00, 0x01]).setVector irqVector 0xA012) with
    options := { nmiVector := 0x01FF } }

/-- In the middle of the store, a non-maskable interrupt finds the status it has just pushed in its
vector; a request goes to its handler, and whether another cycle of the store was paid does not
show. -/
theorem pc_pending :
    pending.clock.nmi.registers.pc = 0x0021 ∧ pending.clock.irq.registers.pc = 0xA012 ∧
      (clock^[2] pending.clock).irq = { pending.clock.irq with clocks := 3 } := by
  obtain ⟨-, request, ⟨forced, -⟩, -⟩ := interrupts_enter pending.clock
  obtain ⟨-, -, handler, paid⟩ := request (by decide +kernel)
  refine ⟨?_, handler.trans (by decide +kernel), (paid 2 (by decide +kernel)).trans rfl⟩
  have hp : pending.clock.nmi.registers.pc = _ := congrArg Registers.pc forced.registers
  rw [hp]
  decide +kernel

end Machine

end Core6502
