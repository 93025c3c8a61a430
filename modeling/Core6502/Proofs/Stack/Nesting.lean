import Core6502.Machine.Interrupt
import Core6502.Proofs.Reference.Conformance
import Core6502.Proofs.Stack.Holds

/-!
# Stack frames nest

A frame is opened by an instruction that pushes or by an interrupt, and closed by the instruction
that pulls what was pushed.

* `Entry.pushed`: the bytes each entry pushes. `Entry.holds_of_enters`: it pushes them.
* `Entry.restores_of_leaves`: over these bytes, the exit restores what the entry saved.
* `Session` is a run of frames in each other and after each other, with any other activity in
  between that leaves the stack pointer and the pending bytes alone.
* **`Session.restores_frames`**: in every session every frame is restored, as long as no more
  bytes are pending than the stack page holds.
-/

namespace Core6502

open Reference

/-- What opens a frame on the stack. -/
inductive Entry where
  | pha
  | php
  | jsr
  | brk
  | irq
  | nmi
  deriving DecidableEq

namespace Entry

/-- The bytes of a word as they lie on the stack, from the top. -/
def word (w : Word) : List Byte := [Word.low w, Word.high w]

/-- The bytes that an entry pushes, the last one pushed first. -/
def pushed (r : Registers) : Entry → List Byte
  | pha => [r.a]
  | php => [(State.withBreak r.status).bits]
  | jsr => word (r.pc + 2)
  | brk => (State.withBreak { r.status with interruptDisable := true }).bits :: word (r.pc + 2)
  | irq | nmi => (State.withoutBreak r.status).bits :: word r.pc

/-- How many bytes an entry pushes. -/
def size : Entry → Nat
  | pha | php => 1
  | jsr => 2
  | brk | irq | nmi => 3

theorem length_pushed (e : Entry) (r : Registers) : (e.pushed r).length = e.size := by
  cases e <;> rfl

/-- At a boundary before the operation `o`, the machine makes the clock that performs it. -/
structure Performs (o : Operation) (m m' : Machine Memory) : Prop where
  boundary : m.owed = 0
  operation : m.view.entry.operation = o
  clock : m.clock = m'

/-- The entry takes the machine from `m` to `m'`: an instruction at its boundary, an interrupt at
any time, and a request while interrupts are enabled. -/
def Enters (m m' : Machine Memory) : Entry → Prop
  | pha => Performs .pha m m'
  | php => Performs .php m m'
  | jsr => Performs .jsr m m'
  | brk => Performs .brk m m'
  | irq => m.registers.status.interruptDisable = false ∧ m.irq = m'
  | nmi => m.nmi = m'

/-- The exit that matches the entry takes the machine from `m` to `m'`. -/
def Leaves (m m' : Machine Memory) : Entry → Prop
  | pha => Performs .pla m m'
  | php => Performs .plp m m'
  | jsr => Performs .rts m m'
  | brk | irq | nmi => Performs .rti m m'

/-- What the registers `r'` after the exit have of the registers `r` before the entry. -/
def Restores (r r' : Registers) : Entry → Prop
  | pha => r'.a = r.a
  | php => r'.status = State.withBreak r.status
  | jsr => r'.pc = r.pc + 3
  | irq | nmi => r'.pc = r.pc ∧ r'.status = State.withoutBreak r.status
  | brk => r'.pc = r.pc + 2 ∧
      r'.status = State.withoutBreak { r.status with interruptDisable := true }

variable {m m' : Machine Memory} {base : Byte} {xs : List Byte}

/-- A performed operation does what the reference says, past its instruction. -/
theorem Performs.view {o : Operation} {mode : AddressingMode} (h : Performs o m m')
    (hm : ∀ mode', o.admits mode' = true → mode' = mode) :
    ∃ ea v, m'.view = (m.view.goto (m.registers.pc +
      UInt16.ofNat (1 + mode.operandLength))).transfer mode ea v o := by
  have he : m.view.entry.mode = mode := by
    apply hm
    rw [← h.operation]
    exact Opcode.admits_lookup _
  have hp : m.view.past = m.view.goto (m.registers.pc + UInt16.ofNat (1 + mode.operandLength)) := by
    rw [← Word.exact_add_ofNat, ← he]
    rfl
  refine ⟨m.view.effective m.options.indirectPageWrap mode,
    m.view.operand m.options.indirectPageWrap mode, ?_⟩
  rw [← h.clock, m.view_clock h.boundary, ← hp]
  unfold State.step
  rw [he, h.operation]

/-- An interrupt pushes the program counter and the status without its break flag. -/
theorem holds_interrupt (vector : Word) (h : Holds base xs m.view) (hr : xs.length + 3 ≤ 256) :
    Holds base ((State.withoutBreak m.registers.status).bits :: (word m.registers.pc ++ xs))
      (m.interrupt vector).view := by
  have hw : Holds base (word m.registers.pc ++ xs) (m.pushWord m.registers.pc).view := by
    rw [m.view_pushWord]
    exact h.pushWord (by omega) (by have := m.registers.pc.toNat_lt; omega)
  have hp := hw.push hr (State.withoutBreak m.registers.status).bits
  rw [← Machine.view_push] at hp
  exact hp.congr rfl rfl

/-- **An entry pushes its bytes** while there is room for them. -/
theorem holds_of_enters {e : Entry} (he : e.Enters m m') (h : Holds base xs m.view)
    (hr : xs.length + e.size ≤ 256) :
    Holds base (e.pushed m.registers ++ xs) m'.view := by
  cases e
  case pha | php =>
    obtain ⟨ea, v, hv⟩ := Performs.view he fun _ => of_decide_eq_true
    rw [hv]
    exact (h.goto _).push hr _
  case jsr =>
    obtain ⟨ea, v, hv⟩ := Performs.view he fun _ => of_decide_eq_true
    rw [hv]
    have hn : (((m.registers.pc + 3).toNat : Int) - 1) % 65536 = (m.registers.pc + 2).toNat := by
      simp only [UInt16.toNat_add, UInt16.reduceToNat]
      omega
    exact ((h.goto _).pushWord hr hn).goto ea
  case brk =>
    obtain ⟨ea, v, hv⟩ := Performs.view he fun _ => of_decide_eq_true
    rw [hv]
    have hn : (((m.registers.pc + 1).toNat : Int) + 1) % 65536 = (m.registers.pc + 2).toNat := by
      simp only [UInt16.toNat_add, UInt16.reduceToNat]
      omega
    have hw : Holds base (word (m.registers.pc + 2) ++ xs)
        ((m.view.goto (m.registers.pc + 1)).pushWord ((m.registers.pc + 1).toNat + 1)) :=
      (h.goto _).pushWord (Nat.le_of_succ_le hr) hn
    exact (hw.push hr _).congr rfl rfl
  case irq =>
    obtain ⟨hi, rfl⟩ := he
    unfold Machine.irq
    rw [hi]
    exact (holds_interrupt irqVector (h.congr rfl rfl) hr).congr rfl rfl
  case nmi =>
    obtain rfl := he
    exact (holds_interrupt m.options.nmiVector (h.congr rfl rfl) hr).congr rfl rfl

/-- A return from an interrupt takes a status and an address off the stack. -/
theorem returns_of_performs {p : Status} {w : Word} (he : Performs .rti m m')
    (h : Holds base (p.bits :: (word w ++ xs)) m.view) :
    Holds base xs m'.view ∧ m'.registers.pc = w ∧
      m'.registers.status = State.withoutBreak p := by
  obtain ⟨ea, v, hv⟩ := he.view fun _ => of_decide_eq_true
  have hl : (m.view.lift 1).lift 2 = m.view.lift 3 := m.view.lift_lift 1 2
  have ht : (m.view.lift 1).topWord 0 = m.view.topWord 1 := m.view.topWord_lift 1 0
  rw [← Machine.view_registers, hv]
  refine ⟨?_, ?_, ?_⟩
  · have hp := h.pop.popWord
    rw [hl] at hp
    exact hp.congr rfl rfl
  · show Word.exact (m.view.topWord 1) = w
    rw [← ht, h.pop.topWord, Word.ofBytes_low_high, Word.exact_toNat]
  · show State.withoutBreak (Status.ofBits (m.view.memory (m.view.cell 1))) = _
    rw [h.head, Status.ofBits_bits]

/-- **The exit finds its bytes**, takes them off and restores what the entry saved. -/
theorem restores_of_leaves {e : Entry} {r : Registers} (he : e.Leaves m m')
    (h : Holds base (e.pushed r ++ xs) m.view) :
    Holds base xs m'.view ∧ e.Restores r m'.registers := by
  cases e
  case pha =>
    obtain ⟨ea, v, hv⟩ := Performs.view he fun _ => of_decide_eq_true
    rw [← Machine.view_registers, hv]
    exact ⟨(h.goto _).pop.congr rfl rfl, h.head⟩
  case php =>
    obtain ⟨ea, v, hv⟩ := Performs.view he fun _ => of_decide_eq_true
    rw [← Machine.view_registers, hv]
    refine ⟨(h.goto _).pop.congr rfl rfl, ?_⟩
    show ({ Status.ofBits (m.view.memory (m.view.cell 1)) with unused := true } : Status) = _
    rw [h.head, Status.ofBits_bits]
    rfl
  case jsr =>
    obtain ⟨ea, v, hv⟩ := Performs.view he fun _ => of_decide_eq_true
    rw [← Machine.view_registers, hv]
    refine ⟨(h.goto _).popWord.goto _, ?_⟩
    show Word.exact (m.view.topWord 0 + 1) = r.pc + 3
    rw [h.topWord, Word.ofBytes_low_high, Word.exact_add_one]
    grind
  case brk =>
    exact returns_of_performs
      (p := State.withBreak { r.status with interruptDisable := true }) he h
  case irq | nmi => exact returns_of_performs (p := State.withoutBreak r.status) he h

end Entry

/-! ## Sessions -/

/-- A frame that was opened and closed: its entry, the machine before it and the machine after the
matching exit. -/
structure Visit where
  entry : Entry
  before : Machine Memory
  after : Machine Memory

/-- The frame gave back the stack pointer and what its entry saved. -/
def Visit.Restored (v : Visit) : Prop :=
  v.after.registers.sp = v.before.registers.sp ∧
    v.entry.Restores v.before.registers v.after.registers

/-- **A session** takes the machine from one state to another while `d` bytes are pending on the
stack, and makes some visits, all of them closed at its end. It is any activity that leaves the
stack pointer and the pending bytes alone, or a frame with a session inside, or one session after
another. A frame needs room in the stack page: frames that are open together may push 256 bytes
in all. -/
inductive Session : Nat → Machine Memory → Machine Memory → List Visit → Prop
  | quiet {d : Nat} {m m' : Machine Memory} (h : Quiet d m.view m'.view) : Session d m m' []
  | frame {d : Nat} {e : Entry} {m₁ m₂ m₃ m₄ : Machine Memory} {vs : List Visit}
      (room : d + e.size ≤ 256) (enters : e.Enters m₁ m₂) (inner : Session (d + e.size) m₂ m₃ vs)
      (leaves : e.Leaves m₃ m₄) : Session d m₁ m₄ (⟨e, m₁, m₄⟩ :: vs)
  | append {d : Nat} {m₁ m₂ m₃ : Machine Memory} {vs ws : List Visit}
      (first : Session d m₁ m₂ vs) (second : Session d m₂ m₃ ws) : Session d m₁ m₃ (vs ++ ws)

namespace Session

/-- What lies on the stack before a session lies there after it, and every frame is restored. -/
theorem holds {d : Nat} {m m' : Machine Memory} {vs : List Visit}
    (h : Session d m m' vs) {base : Byte} {xs : List Byte} (hd : xs.length = d)
    (hx : Holds base xs m.view) : Holds base xs m'.view ∧ ∀ v ∈ vs, v.Restored := by
  induction h generalizing base xs with
  | quiet h => exact ⟨hx.of_quiet (hd ▸ h), fun v hv => absurd hv List.not_mem_nil⟩
  | @frame d e m₁ m₂ m₃ m₄ vs room enters inner leaves ih =>
    have hl : (e.pushed m₁.registers ++ xs).length = d + e.size := by
      rw [List.length_append, e.length_pushed, hd, Nat.add_comm]
    obtain ⟨hin, hvs⟩ := ih hl (Entry.holds_of_enters enters hx (hd ▸ room))
    obtain ⟨hout, hr⟩ := Entry.restores_of_leaves leaves hin
    have hsp : m₄.registers.sp = m₁.registers.sp := hout.sp.trans hx.sp.symm
    exact ⟨hout, List.forall_mem_cons.mpr ⟨⟨hsp, hr⟩, hvs⟩⟩
  | append _ _ ih₁ ih₂ =>
    obtain ⟨h₁, hvs⟩ := ih₁ hd hx
    obtain ⟨h₂, hws⟩ := ih₂ hd h₁
    exact ⟨h₂, List.forall_mem_append.mpr ⟨hvs, hws⟩⟩

/-- **Stack frames nest.** From any stack pointer, a session whose pending bytes never exceed the
stack page restores every frame it opens, and gives back its own stack pointer. -/
theorem restores_frames {m m' : Machine Memory} {vs : List Visit} (h : Session 0 m m' vs) :
    m'.registers.sp = m.registers.sp ∧ ∀ v ∈ vs, v.Restored := by
  obtain ⟨hx, hvs⟩ := h.holds rfl (Holds.nil m.view)
  exact ⟨hx.sp.trans (Holds.nil m.view).sp.symm, hvs⟩

/-- A machine at a call with two bytes of the stack page left below its stack pointer. The
subroutine only returns, and so does the handler of interrupts. -/
def caller : Machine Memory :=
  Machine.atRest ⟨0, 0, 0, 0x01, 0x8000, Status.initial⟩
    ((((Memory.zero.overlay 0x8000 [0x20, 0x00, 0x90]).set 0x9000 0x60).set 0xA000 0x40).setVector
      irqVector 0xA000)

/-- The machine in the subroutine, its call not yet paid for. -/
def called : Machine Memory := caller.clock

/-- The machine back from an interrupt that came at that moment. -/
def resumed : Machine Memory := called.nmi.finish.2.clock

/-- The machine back from the subroutine. -/
def returned : Machine Memory := resumed.finish.2.clock

theorem session_caller :
    Session 0 caller returned [⟨.jsr, caller, returned⟩, ⟨.nmi, called, resumed⟩] := by
  have interrupt : Session 2 called resumed [⟨.nmi, called, resumed⟩] :=
    .frame (by decide) rfl (.quiet ⟨by decide +kernel, by decide +kernel⟩)
      ⟨by decide +kernel, by decide +kernel, rfl⟩
  have paid : Session 2 resumed resumed.finish.2 [] :=
    .quiet ⟨by decide +kernel, by decide +kernel⟩
  exact .frame (by decide) ⟨rfl, by decide +kernel, rfl⟩ (.append interrupt paid)
    ⟨by decide +kernel, by decide +kernel, rfl⟩

/-- The stack wraps below the call, and the call returns behind itself all the same. -/
theorem pc_returned : returned.registers.sp = 0x01 ∧ returned.registers.pc = 0x8003 := by
  obtain ⟨hsp, hvs⟩ := session_caller.restores_frames
  exact ⟨hsp, (hvs _ List.mem_cons_self).2⟩

end Session

end Core6502
