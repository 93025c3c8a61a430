import Core6502.Machine.Clock
import Core6502.Memory
import Core6502.Proofs.Exact
import Mathlib.Logic.Function.Basic

/-!
# The reference: what an instruction does to the state a program sees

A program sees the registers and the bytes of memory, nothing of latches, clocks or buses.
`Reference.step` says in whole numbers what one instruction makes of that state: `effective` is the
address it names, `operand` the byte it works on, and `transfer` the effect of each operation once
the program counter has passed the instruction. What a rule does not mention stays as it was.

The rules share nothing with the machine but the opcode table. `Reference/Conformance.lean` proves
that the machine follows them.
-/

namespace Core6502

/-- What a program sees of a machine. -/
@[ext] structure Reference.State where
  registers : Registers
  memory : Word → Byte

/-- What a program sees of a machine. -/
def Machine.view (m : Machine Memory) : Reference.State := ⟨m.registers, m.bus.get⟩

/-- A machine at an instruction boundary with the given registers and memory. -/
def Machine.atRest (registers : Registers) (memory : Memory) : Machine Memory where
  registers := registers
  latches := Latches.clear
  owed := 0
  clocks := 0
  options := {}
  bus := memory
  journal := []

/-- Whether the operation is a branch whose condition holds. -/
def Operation.branches (p : Status) : Operation → Bool
  | bcc => !p.carry
  | bcs => p.carry
  | bne => !p.zero
  | beq => p.zero
  | bpl => !p.negative
  | bmi => p.negative
  | bvc => !p.overflow
  | bvs => p.overflow
  | _ => false

namespace Reference.State

variable (s : State)

/-! ## Operands -/

/-- The byte at an address, as a number. -/
def byteAt (address : Int) : Int := (s.memory (Word.exact address)).toNat

/-- The number whose low and high byte lie at two addresses. -/
def pairAt (lowAt highAt : Int) : Int := s.byteAt lowAt + 256 * s.byteAt highAt

/-- The address that an instruction names, from its operand bytes `b` or operand word `w`. In
implied mode it names none. -/
def effective (wrap : Bool) (mode : AddressingMode) : Word :=
  let pc : Int := s.registers.pc.toNat
  let x : Int := s.registers.x.toNat
  let y : Int := s.registers.y.toNat
  let b := s.byteAt (pc + 1)
  let w := s.pairAt (pc + 1) (pc + 2)
  match mode with
  | .implied => 0
  | .immediate => Word.exact (pc + 1)
  | .zeroPage => Word.exact b
  | .zeroPageX => Word.exact ((b + x) % 256)
  | .zeroPageY => Word.exact ((b + y) % 256)
  | .relative => Word.exact (pc + 2 + (s.memory (Word.exact (pc + 1))).signed)
  | .absolute => Word.exact w
  | .absoluteX => Word.exact (w + x)
  | .absoluteY => Word.exact (w + y)
  | .indirect =>
    Word.exact (s.pairAt w (if wrap = true ∧ w % 256 = 255 then w - 255 else w + 1))
  | .indirectX => Word.exact (s.pairAt ((b + x) % 256) ((b + x + 1) % 256))
  | .indirectY => Word.exact (s.pairAt b ((b + 1) % 256) + y)

/-- The byte that an instruction works on: the accumulator in implied mode. -/
def operand (wrap : Bool) (mode : AddressingMode) : Byte :=
  if mode = .implied then s.registers.a else s.memory (s.effective wrap mode)

/-! ## Effects -/

/-- Zero and negative from a result. -/
def judge (r : Byte) : State :=
  { s with registers.status := { s.registers.status with
      zero := r.toNat = 0, negative := 128 ≤ r.toNat } }

/-- The carry as given. -/
def setCarry (c : Bool) : State := { s with registers.status.carry := c }

/-- A result in the accumulator. -/
def toA (r : Byte) : State := judge { s with registers.a := r } r

/-- A result in X. -/
def toX (r : Byte) : State := judge { s with registers.x := r } r

/-- A result in Y. -/
def toY (r : Byte) : State := judge { s with registers.y := r } r

/-- A byte in memory. -/
def store (address : Word) (v : Byte) : State :=
  { s with memory := Function.update s.memory address v }

/-- A result in the place its operand came from. -/
def putBack (mode : AddressingMode) (address : Word) (r : Byte) : State :=
  judge (if mode = .implied then { s with registers.a := r } else s.store address r) r

/-- A sum or difference in the accumulator. The exact total and the exact signed total say what
the flags are: carry when the total has reached `threshold`, overflow when the signed total is no
signed byte. -/
def total (n signed threshold : Int) : State :=
  let r : Registers := { s.registers with status := { s.registers.status with
    carry := threshold ≤ n, overflow := signed < -128 ∨ 127 < signed } }
  toA { s with registers := r } (Byte.exact n)

/-- A register compared with a byte. -/
def compare (register v : Byte) : State :=
  (s.setCarry (v.toNat ≤ register.toNat)).judge (Byte.exact (register.toNat - v.toNat))

/-- A byte tested against the accumulator. -/
def test (v : Byte) : State :=
  { s with registers.status := { s.registers.status with
      zero := (s.registers.a &&& v).toNat = 0
      negative := 128 ≤ v.toNat
      overflow := 64 ≤ v.toNat % 128 } }

/-- The program counter elsewhere. -/
def goto (address : Word) : State := { s with registers.pc := address }

/-! ## The stack -/

/-- The address of the cell `n` above the stack pointer; the page wraps. -/
def cell (n : Int) : Word := Word.exact (256 + (s.registers.sp.toNat + n) % 256)

/-- The stack pointer `n` higher, modulo 256. -/
def lift (n : Int) : State :=
  { s with registers.sp := Byte.exact (s.registers.sp.toNat + n) }

/-- A byte pushed. -/
def push (v : Byte) : State := (s.store (s.cell 0) v).lift (-1)

/-- A whole number pushed as a word, high byte first. -/
def pushWord (n : Int) : State := (s.push (Byte.exact (n / 256))).push (Byte.exact n)

/-- The word on top of the stack, above `n` other bytes. -/
def topWord (n : Int) : Int :=
  (s.memory (s.cell (n + 1))).toNat + 256 * (s.memory (s.cell (n + 2))).toNat

/-- A status without its break flag. -/
def withoutBreak (p : Status) : Status := { p with brk := false, unused := true }

/-- A status as software pushes it. -/
def withBreak (p : Status) : Status := { p with brk := true, unused := true }

/-! ## Laws of the stack pointer -/

theorem lift_lift (i j : Int) : (s.lift i).lift j = s.lift (i + j) := by
  unfold lift
  rw [Byte.exact_exact_add, Int.add_assoc]

theorem sp_lift (i : Int) :
    (s.lift i).registers.sp = Byte.exact (s.registers.sp.toNat + i) := rfl

theorem cell_lift (i j : Int) : (s.lift i).cell j = s.cell (i + j) := by
  unfold lift cell
  rw [Byte.toNat_exact]
  exact Word.exact_congr (by omega)

theorem memory_lift (i : Int) : (s.lift i).memory = s.memory := rfl

theorem topWord_lift (i j : Int) : (s.lift i).topWord j = s.topWord (i + j) := by
  unfold topWord
  rw [cell_lift, cell_lift, memory_lift, ← Int.add_assoc, ← Int.add_assoc]

theorem memory_push (v : Byte) :
    (s.push v).memory = Function.update s.memory (s.cell 0) v := rfl

theorem sp_push (v : Byte) :
    (s.push v).registers.sp = Byte.exact (s.registers.sp.toNat + -1) := rfl

theorem cell_push (v : Byte) (i : Int) : (s.push v).cell i = s.cell (-1 + i) :=
  (s.store (s.cell 0) v).cell_lift (-1) i

/-- A word is pushed modulo 65536. -/
theorem pushWord_congr {i j : Int} (h : i % 65536 = j % 65536) : s.pushWord i = s.pushWord j := by
  have hh : Byte.exact (i / 256) = Byte.exact (j / 256) := Byte.exact_congr (by omega)
  have hl : Byte.exact i = Byte.exact j := Byte.exact_congr (by omega)
  unfold pushWord
  rw [hh, hl]

theorem cell_pushWord (n i : Int) : (s.pushWord n).cell i = s.cell (-2 + i) := by
  unfold pushWord
  rw [cell_push, cell_push, ← Int.add_assoc]
  rfl

/-- A pushed word changes the two cells it lies in. -/
theorem memory_pushWord (n : Int) :
    (s.pushWord n).memory =
      Function.update (Function.update s.memory (s.cell 0) (Byte.exact (n / 256))) (s.cell (-1))
        (Byte.exact n) := by
  unfold pushWord
  rw [memory_push, cell_push, memory_push]
  rfl

/-! ## One instruction -/

/-- What an operation does, given its effective address and its operand, once the program counter
has passed the instruction. -/
def transfer (mode : AddressingMode) (ea : Word) (v : Byte) (o : Operation) : State :=
  let a : Int := s.registers.a.toNat
  let c : Int := s.registers.status.carry.toNat
  let pc : Int := s.registers.pc.toNat
  match o with
  -- Loads, stores and logic
  | .lda => s.toA v
  | .ldx => s.toX v
  | .ldy => s.toY v
  | .sta => s.store ea s.registers.a
  | .stx => s.store ea s.registers.x
  | .sty => s.store ea s.registers.y
  | .and => s.toA (s.registers.a &&& v)
  | .ora => s.toA (s.registers.a ||| v)
  | .eor => s.toA (s.registers.a ^^^ v)
  -- Arithmetic
  | .adc => s.total (a + v.toNat + c) (s.registers.a.signed + v.signed + c) 256
  | .sbc => s.total (a - v.toNat - (1 - c)) (s.registers.a.signed - v.signed - (1 - c)) 0
  | .cmp => s.compare s.registers.a v
  | .cpx => s.compare s.registers.x v
  | .cpy => s.compare s.registers.y v
  | .bit => s.test v
  -- Shifts and counters
  | .asl => (s.setCarry (128 ≤ v.toNat)).putBack mode ea (Byte.exact (2 * v.toNat))
  | .lsr => (s.setCarry (v.toNat % 2 = 1)).putBack mode ea (Byte.exact (v.toNat / 2))
  | .rol => (s.setCarry (128 ≤ v.toNat)).putBack mode ea (Byte.exact (2 * v.toNat + c))
  | .ror => (s.setCarry (v.toNat % 2 = 1)).putBack mode ea (Byte.exact (v.toNat / 2 + 128 * c))
  | .inc => s.putBack mode ea (Byte.exact (v.toNat + 1))
  | .dec => s.putBack mode ea (Byte.exact (v.toNat - 1))
  | .inx => s.toX (Byte.exact (s.registers.x.toNat + 1))
  | .iny => s.toY (Byte.exact (s.registers.y.toNat + 1))
  | .dex => s.toX (Byte.exact (s.registers.x.toNat - 1))
  | .dey => s.toY (Byte.exact (s.registers.y.toNat - 1))
  -- Transfers
  | .tax => s.toX s.registers.a
  | .tay => s.toY s.registers.a
  | .txa => s.toA s.registers.x
  | .tya => s.toA s.registers.y
  | .tsx => s.toX s.registers.sp
  | .txs => { s with registers.sp := s.registers.x }
  -- Changes of control
  | .bcc | .bcs | .bne | .beq | .bpl | .bmi | .bvc | .bvs =>
    if o.branches s.registers.status then s.goto ea else s
  | .jmp => s.goto ea
  | .jsr => (s.pushWord (pc - 1)).goto ea
  | .rts => (s.lift 2).goto (Word.exact (s.topWord 0 + 1))
  | .rti =>
    let t := (s.lift 3).goto (Word.exact (s.topWord 1))
    { t with registers.status := withoutBreak (Status.ofBits (s.memory (s.cell 1))) }
  | .brk =>
    let p := { s.registers.status with interruptDisable := true }
    let t := (s.pushWord (pc + 1)).push (withBreak p).bits
    { t.goto (Word.exact (t.pairAt 0xFFFE 0xFFFF)) with
      registers.status := { p with brk := false } }
  -- Stack
  | .pha => s.push s.registers.a
  | .php => s.push (withBreak s.registers.status).bits
  | .pla => (s.lift 1).toA (s.memory (s.cell 1))
  | .plp =>
    { s.lift 1 with
      registers.status := { Status.ofBits (s.memory (s.cell 1)) with unused := true } }
  -- Flags
  | .clc => { s with registers.status.carry := false }
  | .sec => { s with registers.status.carry := true }
  | .cli => { s with registers.status.interruptDisable := false }
  | .sei => { s with registers.status.interruptDisable := true }
  | .cld => { s with registers.status.decimalMode := false }
  | .sed => { s with registers.status.decimalMode := true }
  | .clv => { s with registers.status.overflow := false }
  -- Nothing
  | .nop | .idle => s

/-- The table entry of the instruction at the program counter. -/
def entry : Opcode := Opcode.lookup (s.memory s.registers.pc)

/-- The state with the program counter past the instruction. -/
def past : State := s.goto (Word.exact (s.registers.pc.toNat + s.entry.size))

/-- **One instruction.** -/
def step (wrap : Bool) : State :=
  s.past.transfer s.entry.mode (s.effective wrap s.entry.mode) (s.operand wrap s.entry.mode)
    s.entry.operation

end Reference.State

end Core6502
