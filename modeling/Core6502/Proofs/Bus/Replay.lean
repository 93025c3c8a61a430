import Core6502.Machine.Command
import Core6502.Proofs.Clock.Refinement
import Core6502.Recorder

/-!
# Accesses replayed

What a machine does is settled by the bytes that its bus shows it. Put the machine in another
`World`, with another memory and another past, and as long as the accesses it makes are answered
alike it does the same.

* `Memory.Answers`, `Memory.after`: whether accesses can happen on a memory, and what they leave
  there.
* `Replayable` says of a function on worlds that it makes accesses and notes events, and does the
  same wherever these accesses are answered alike; `Steady` says so of what a function does to a
  machine. `Replayable.bind` puts such functions after each other.
* `replayable_resolve`, `steady_execute`, `steady_instruction`: so do the parts of an instruction.
* `replayable_performAll`: so does a whole history.
-/

universe u v

namespace Core6502

/-! ## Accesses and memory -/

namespace Memory

variable {memory : Memory}

/-- Whether accesses can happen on a memory: every byte read is the one that is there. -/
def Answers (memory : Memory) : List Access → Prop
  | [] => True
  | ⟨.write, address, value⟩ :: t => (memory.set address value).Answers t
  | ⟨_, address, value⟩ :: t => memory.get address = value ∧ memory.Answers t

/-- The memory as accesses leave it. -/
def after (memory : Memory) : List Access → Memory
  | [] => memory
  | ⟨.write, address, value⟩ :: t => (memory.set address value).after t
  | _ :: t => memory.after t

theorem answers_append {s t : List Access} :
    memory.Answers (s ++ t) ↔ memory.Answers s ∧ (memory.after s).Answers t := by
  induction s generalizing memory with
  | nil => exact (and_iff_right trivial).symm
  | cons x s ih =>
    obtain ⟨kind, address, value⟩ := x
    cases kind
    case write => exact ih
    all_goals exact (and_congr_right fun _ => ih).trans and_assoc.symm

theorem after_append {s t : List Access} :
    memory.after (s ++ t) = (memory.after s).after t := by
  induction s generalizing memory with
  | nil => rfl
  | cons x s ih =>
    obtain ⟨kind, address, value⟩ := x
    cases kind <;> exact ih

end Memory

/-! ## Worlds -/

/-- What a machine leaves its traces in: the memory on its bus with the accesses noted there, and
the journal. -/
structure World where
  bus : Recorder Memory
  journal : List Event

namespace World

variable {w : World} {s t : List Access} {d e : List Event}

/-- Whether accesses can happen in a world. -/
def Answers (w : World) (t : List Access) : Prop := w.bus.inner.Answers t

/-- The world after accesses, which happened in order, and events, the latest first. -/
def after (w : World) (t : List Access) (e : List Event) : World :=
  ⟨⟨w.bus.inner.after t, t.reverse ++ w.bus.log⟩, e ++ w.journal⟩

theorem after_after : (w.after s d).after t e = w.after (s ++ t) (e ++ d) := by
  unfold after
  simp only [Memory.after_append, List.reverse_append, List.append_assoc]

theorem accesses_after : (w.after t e).bus.accesses = w.bus.accesses ++ t := by
  unfold Recorder.accesses after
  rw [List.reverse_append, List.reverse_reverse]

end World

namespace Machine

/-- A machine on a recorded memory. -/
abbrev Recorded := Machine (Recorder Memory)

/-- The machine in another world. -/
def within (m : Recorded) (w : World) : Recorded := { m with bus := w.bus, journal := w.journal }

theorem registers_within (m : Recorded) (w : World) : (m.within w).registers = m.registers := rfl

theorem latches_within (m : Recorded) (w : World) : (m.within w).latches = m.latches := rfl

/-! ## Replayable functions -/

section Logic

variable {α : Type u} {β : Type v}

/-- **What a function does can be replayed**: in a world it makes accesses and notes events, and
in any other world where these accesses can happen it makes them too and gives the same. -/
def Replayable (f : World → α × Recorded) : Prop :=
  ∀ w : World, ∃ t e, w.Answers t ∧
    ∀ v : World, v.Answers t → f v = ((f w).1, (f w).2.within (v.after t e))

/-- What a function does to a machine can be replayed. -/
def Steady (f : World → Recorded) : Prop := Replayable fun w => ((), f w)

namespace Replayable

theorem pure (a : α) (m : Recorded) : Replayable fun w => (a, m.within w) :=
  fun _ => ⟨[], [], trivial, fun _ _ => rfl⟩

/-- One function after another. The second may depend on what the first returns. -/
theorem bind {f : World → α × Recorded} (g : α → Recorded → β × Recorded) (hf : Replayable f)
    (hg : ∀ (a : α) (m : Recorded), Replayable fun w => g a (m.within w)) :
    Replayable fun w => g (f w).1 (f w).2 := by
  intro w
  obtain ⟨s, d, hs, replay⟩ := hf w
  -- Replayed in its own world, `f` leaves its machine in the world after its accesses: there `g`
  -- goes on.
  have hw : (f w).2 = (f w).2.within (w.after s d) := congrArg Prod.snd (replay w hs)
  obtain ⟨t, e, ht, replay'⟩ := hg (f w).1 (f w).2 (w.after s d)
  refine ⟨s ++ t, e ++ d, Memory.answers_append.mpr ⟨hs, ht⟩, fun v hv => ?_⟩
  obtain ⟨hvs, hvt⟩ := Memory.answers_append.mp hv
  have h : g (f w).1 ((f w).2.within (v.after s d)) =
      ((g (f w).1 ((f w).2.within (w.after s d))).1,
        (g (f w).1 ((f w).2.within (w.after s d))).2.within ((v.after s d).after t e)) :=
    replay' (v.after s d) hvt
  rw [← hw, World.after_after] at h
  show g (f v).1 (f v).2 = _
  rw [replay v hvs]
  exact h

/-- A function after one that returns something. -/
theorem andThen {f : World → α × Recorded} (g : α → Recorded → Recorded) (hf : Replayable f)
    (hg : ∀ (a : α) (m : Recorded), Steady fun w => g a (m.within w)) :
    Steady fun w => g (f w).1 (f w).2 :=
  hf.bind (fun a m => ((), g a m)) hg

end Replayable

namespace Steady

theorem within (m : Recorded) : Steady fun w => m.within w := Replayable.pure () m

theorem bind {f : World → Recorded} (g : Recorded → α × Recorded) (hf : Steady f)
    (hg : ∀ m : Recorded, Replayable fun w => g (m.within w)) : Replayable fun w => g (f w) :=
  Replayable.bind (fun _ m => g m) hf fun _ m => hg m

theorem andThen {f : World → Recorded} (g : Recorded → Recorded) (hf : Steady f)
    (hg : ∀ m : Recorded, Steady fun w => g (m.within w)) : Steady fun w => g (f w) :=
  Replayable.bind (fun _ m => ((), g m)) hf fun _ m => hg m

end Steady

end Logic

/-! ## Bus cycles -/

variable (m : Recorded)

theorem replayable_read (address : Word) : Replayable fun w => (m.within w).read address := by
  intro w
  refine ⟨[⟨.read, address, w.bus.inner.get address⟩], [], ⟨rfl, trivial⟩, fun v hv => ?_⟩
  obtain ⟨hb, -⟩ := hv
  show (v.bus.inner.get address, m.within
    ⟨⟨v.bus.inner, ⟨.read, address, v.bus.inner.get address⟩ :: v.bus.log⟩, v.journal⟩) = _
  rw [hb]
  rfl

theorem steady_write (address : Word) (value : Byte) :
    Steady fun w => (m.within w).write address value :=
  fun _ => ⟨[⟨.write, address, value⟩], [], trivial, fun _ _ => rfl⟩

theorem steady_record (event : Event) : Steady fun w => (m.within w).record event :=
  fun _ => ⟨[], [event], trivial, fun _ _ => rfl⟩

theorem replayable_readPair (lowAt highAt : Word) :
    Replayable fun w => (m.within w).readPair lowAt highAt :=
  (m.replayable_read lowAt).bind
    (fun lo n => (Word.ofBytes lo (n.read highAt).1, (n.read highAt).2)) fun lo n =>
    (n.replayable_read highAt).bind (fun hi k => (Word.ofBytes lo hi, k)) fun hi k =>
    .pure (Word.ofBytes lo hi) k

theorem replayable_fetchByte : Replayable fun w => (m.within w).fetchByte :=
  (m.replayable_read m.registers.pc).bind
    (fun (b : Byte) n => (b, n.jumpTo (m.registers.pc + 1))) fun b n =>
    .pure b (n.jumpTo _)

theorem replayable_fetchWord : Replayable fun w => (m.within w).fetchWord :=
  m.replayable_fetchByte.bind
    (fun lo n => (Word.ofBytes lo n.fetchByte.1, n.fetchByte.2)) fun lo n =>
    n.replayable_fetchByte.bind (fun hi k => (Word.ofBytes lo hi, k)) fun hi k =>
    .pure (Word.ofBytes lo hi) k

theorem steady_push (value : Byte) : Steady fun w => (m.within w).push value :=
  (m.steady_write (stackBase + m.registers.sp.toUInt16) value).andThen
    (fun n => { n with registers.sp := n.registers.sp - 1 }) fun n =>
    .within { n with registers.sp := n.registers.sp - 1 }

theorem replayable_pull : Replayable fun w => (m.within w).pull :=
  replayable_read { m with registers.sp := m.registers.sp + 1 }
    (stackBase + (m.registers.sp + 1).toUInt16)

theorem steady_pushWord (value : Word) : Steady fun w => (m.within w).pushWord value :=
  (m.steady_push (Word.high value)).andThen (fun n => n.push (Word.low value)) fun n =>
    n.steady_push _

theorem replayable_pullWord : Replayable fun w => (m.within w).pullWord :=
  m.replayable_pull.bind (fun lo n => (Word.ofBytes lo n.pull.1, n.pull.2)) fun lo n =>
    n.replayable_pull.bind (fun hi k => (Word.ofBytes lo hi, k)) fun hi k =>
    .pure (Word.ofBytes lo hi) k

/-! ## Addressing -/

theorem replayable_resolve (mode : AddressingMode) :
    Replayable fun w => (m.within w).resolve mode := by
  cases mode
  case implied => exact .pure false { m with latches.operand := m.registers.a }
  case immediate => exact .pure false ((m.locate m.registers.pc).jumpTo (m.registers.pc + 1))
  case zeroPage =>
    exact m.replayable_fetchByte.bind (fun (b : Byte) n => (false, n.locate b.toUInt16)) fun b n =>
      .pure false (n.locate b.toUInt16)
  case zeroPageX =>
    exact m.replayable_fetchByte.bind
      (fun (b : Byte) n => (false, n.locate (b + m.registers.x).toUInt16)) fun b n =>
      .pure false (n.locate (b + m.registers.x).toUInt16)
  case zeroPageY =>
    exact m.replayable_fetchByte.bind
      (fun (b : Byte) n => (false, n.locate (b + m.registers.y).toUInt16)) fun b n =>
      .pure false (n.locate (b + m.registers.y).toUInt16)
  case relative =>
    exact m.replayable_fetchByte.bind
      (fun (b : Byte) n => (false, { n with latches.offset := Byte.signExtend b })) fun b n =>
      .pure false { n with latches.offset := Byte.signExtend b }
  case absolute =>
    exact m.replayable_fetchWord.bind (fun (v : Word) n => (false, n.locate v)) fun v n =>
      .pure false (n.locate v)
  case absoluteX =>
    exact m.replayable_fetchWord.bind
      (fun (v : Word) n => n.locateIndexed v m.registers.x) fun v n =>
      .pure _ (n.locateIndexed v m.registers.x).2
  case absoluteY =>
    exact m.replayable_fetchWord.bind
      (fun (v : Word) n => n.locateIndexed v m.registers.y) fun v n =>
      .pure _ (n.locateIndexed v m.registers.y).2
  case indirect =>
    exact m.replayable_fetchWord.bind
      (fun (p : Word) n => (false, (n.readPair p (pointerHigh m.options p)).2.locate
        (n.readPair p (pointerHigh m.options p)).1)) fun p n =>
      (n.replayable_readPair p _).bind (fun (v : Word) k => (false, k.locate v)) fun v k =>
      .pure false (k.locate v)
  case indirectX =>
    exact m.replayable_fetchByte.bind
      (fun (b : Byte) n => (false, (n.readZeroPageWord (b + m.registers.x)).2.locate
        (n.readZeroPageWord (b + m.registers.x)).1)) fun b n =>
      (n.replayable_readPair _ _).bind (fun (v : Word) k => (false, k.locate v)) fun v k =>
      .pure false (k.locate v)
  case indirectY =>
    exact m.replayable_fetchByte.bind
      (fun (b : Byte) n =>
        (n.readZeroPageWord b).2.locateIndexed (n.readZeroPageWord b).1 m.registers.y) fun b n =>
      (n.replayable_readPair _ _).bind
        (fun (v : Word) k => k.locateIndexed v m.registers.y) fun v k =>
      .pure _ (k.locateIndexed v m.registers.y).2

/-! ## Execution -/

theorem replayable_operand : Replayable fun w => (m.within w).operand := by
  by_cases hi : m.mode = .implied
  · have hw : ∀ w, (m.within w).mode = .implied := fun _ => hi
    simp only [operand, if_pos (hw _)]
    exact .pure m.latches.operand m
  · have hw : ∀ w, (m.within w).mode ≠ .implied := fun _ => hi
    simp only [operand, if_neg (hw _)]
    exact (m.replayable_read m.latches.address).bind
      (fun (v : Byte) n => (v, { n with latches.operand := v })) fun v n =>
      .pure v { n with latches.operand := v }

theorem steady_writeBack (result : Byte) : Steady fun w => (m.within w).writeBack result := by
  by_cases hi : m.mode = .implied
  · have hw : ∀ w, (m.within w).mode = .implied := fun _ => hi
    simp only [writeBack, if_pos (hw _)]
    exact .within { m with registers := { m.registers with
      a := result, status := m.registers.status.withResult result } }
  · have hw : ∀ w, (m.within w).mode ≠ .implied := fun _ => hi
    simp only [writeBack, if_neg (hw _)]
    exact (m.steady_write m.latches.address result).andThen
      (fun n => { n with registers.status := n.registers.status.withResult result }) fun n =>
      .within { n with registers.status := n.registers.status.withResult result }

theorem steady_withOperand (f : Registers → Byte → Registers) :
    Steady fun w => (m.within w).withOperand f :=
  m.replayable_operand.andThen (fun (v : Byte) n => n.modifyRegisters fun r => f r v)
    fun v n => .within (n.modifyRegisters fun r => f r v)

theorem steady_shift (f : Byte → Bool → Byte × Bool) : Steady fun w => (m.within w).shift f :=
  m.replayable_operand.andThen
    (fun (v : Byte) n => writeBack
      { n with registers.status.carry := (f v m.registers.status.carry).2 }
      (f v m.registers.status.carry).1) fun v n =>
    steady_writeBack { n with registers.status.carry := (f v m.registers.status.carry).2 }
      (f v m.registers.status.carry).1

theorem steady_modify (delta : Byte) : Steady fun w => (m.within w).modify delta :=
  m.replayable_operand.andThen
    (fun (v : Byte) n => (n.store (v + delta)).modifyRegisters fun r =>
      { r with status := r.status.withResult (v + delta) }) fun v n =>
    (n.steady_write n.latches.address (v + delta)).andThen
      (fun k => k.modifyRegisters fun r => { r with status := r.status.withResult (v + delta) })
      fun k => .within (k.modifyRegisters fun r =>
        { r with status := r.status.withResult (v + delta) })

theorem steady_branch (condition : Bool) : Steady fun w => (m.within w).branch condition := by
  cases condition
  case false => exact .within m
  case true => exact .within (m.branch true)

theorem steady_callSubroutine : Steady fun w => (m.within w).callSubroutine :=
  (m.steady_pushWord (m.registers.pc - 1)).andThen (fun n => n.jumpTo m.latches.address) fun n =>
    .within (n.jumpTo m.latches.address)

theorem steady_returnFromSubroutine : Steady fun w => (m.within w).returnFromSubroutine :=
  m.replayable_pullWord.andThen (fun (v : Word) n => n.jumpTo (v + 1)) fun v n =>
    .within (n.jumpTo (v + 1))

theorem steady_returnFromInterrupt : Steady fun w => (m.within w).returnFromInterrupt :=
  m.replayable_pull.andThen
    (fun (p : Byte) n =>
      let k := { n with registers.status := { Status.ofPulled p with brk := false } }
      k.pullWord.2.jumpTo k.pullWord.1) fun p n =>
    (replayable_pullWord
      { n with registers.status := { Status.ofPulled p with brk := false } }).andThen
      (fun (v : Word) k => k.jumpTo v) fun v k => .within (k.jumpTo v)

/-- The jump through a vector that ends an interrupt. -/
theorem steady_vector (vector : Word) :
    Steady fun w => ((m.within w).readWord vector).2.jumpTo ((m.within w).readWord vector).1 :=
  (m.replayable_readPair vector (vector + 1)).andThen (fun (v : Word) n => n.jumpTo v) fun v n =>
    .within (n.jumpTo v)

theorem steady_forceInterrupt : Steady fun w => (m.within w).forceInterrupt :=
  let p := { m.registers.status with interruptDisable := true }
  let k : Recorded := { m with registers := { m.registers with
    pc := m.registers.pc + 1, status := p } }
  (k.steady_pushWord k.registers.pc).andThen
    (fun n =>
      let n := n.push n.registers.status.pushedByBreak
      let n := { n with registers.status.brk := false }
      (n.readWord irqVector).2.jumpTo (n.readWord irqVector).1) fun n =>
    (n.steady_push n.registers.status.pushedByBreak).andThen
      (fun n =>
        let n := { n with registers.status.brk := false }
        (n.readWord irqVector).2.jumpTo (n.readWord irqVector).1) fun n =>
      steady_vector { n with registers.status.brk := false } irqVector

theorem steady_pullAccumulator : Steady fun w => (m.within w).pullAccumulator :=
  m.replayable_pull.andThen (fun (v : Byte) n => n.modifyRegisters fun r => r.loadA v) fun v n =>
    .within (n.modifyRegisters fun r => r.loadA v)

theorem steady_pullStatus : Steady fun w => (m.within w).pullStatus :=
  m.replayable_pull.andThen
    (fun (v : Byte) n => { n with registers.status := Status.ofPulled v }) fun v n =>
    .within { n with registers.status := Status.ofPulled v }

/-- **What an operation does can be replayed.** -/
theorem steady_execute (o : Operation) : Steady fun w => (m.within w).execute o := by
  -- Operations that make no access
  have alone (h : ∀ w, (m.within w).execute o = (m.execute o).within w) :
      Steady fun w => (m.within w).execute o := by
    simp only [h]
    exact .within (m.execute o)
  cases o
  case lda | ldx | ldy | and | ora | eor | adc | sbc | cmp | cpx | cpy | bit =>
    simp only [execute]
    exact m.steady_withOperand _
  case asl | lsr | rol | ror =>
    simp only [execute]
    exact m.steady_shift _
  case inc | dec => exact m.steady_modify _
  case sta | stx | sty =>
    simp only [execute, store, registers_within, latches_within]
    exact m.steady_write m.latches.address _
  case bcc | bcs | bne | beq | bpl | bmi | bvc | bvs =>
    simp only [execute, registers_within]
    exact m.steady_branch _
  case jsr => exact m.steady_callSubroutine
  case rts => exact m.steady_returnFromSubroutine
  case rti => exact m.steady_returnFromInterrupt
  case brk => exact m.steady_forceInterrupt
  case pha | php =>
    simp only [execute, registers_within]
    exact m.steady_push _
  case pla => exact m.steady_pullAccumulator
  case plp => exact m.steady_pullStatus
  case idle => exact m.steady_record (.unassigned m.latches.opcode (m.registers.pc - 1))
  all_goals exact alone fun _ => rfl

/-! ## Instructions and clocks -/

theorem steady_begin : Steady fun w => (m.within w).begin :=
  m.replayable_fetchByte.andThen
    (fun (opcode : Byte) n =>
      let k := { n with latches.opcode := opcode }
      let entry := Opcode.lookup opcode
      { k.record (.started (k.registers.pc - 1) opcode entry) with owed := entry.baseCycles })
    fun opcode n =>
    (steady_record { n with latches.opcode := opcode }
      (.started (n.registers.pc - 1) opcode (Opcode.lookup opcode))).andThen
      (fun k => { k with owed := (Opcode.lookup opcode).baseCycles }) fun k =>
      .within { k with owed := (Opcode.lookup opcode).baseCycles }

theorem steady_instruction : Steady fun w => (m.within w).instruction := by
  refine m.steady_begin.andThen
    (fun n =>
      let entry := Opcode.lookup n.latches.opcode
      let done := (n.resolve entry.mode).2.execute entry.operation
      if (n.resolve entry.mode).1 && entry.operation.paysPageCross n.latches.opcode then
        done.charge 1
      else done)
    fun n => ?_
  let entry := Opcode.lookup n.latches.opcode
  let pays := entry.operation.paysPageCross n.latches.opcode
  refine (n.replayable_resolve entry.mode).andThen
    (fun crossed k =>
      let done := k.execute entry.operation
      if crossed && pays then done.charge 1 else done)
    fun crossed k => ?_
  refine (k.steady_execute entry.operation).andThen
    (fun done => if crossed && pays then done.charge 1 else done)
    fun done => ?_
  by_cases hc : (crossed && pays) = true
  · simp only [if_pos hc]
    exact .within (done.charge 1)
  · simp only [if_neg hc]
    exact .within done

theorem steady_clock : Steady fun w => (m.within w).clock := by
  by_cases h : m.owed = 0
  · have hc : ∀ w, (m.within w).clock = (m.within w).instruction.pay := fun _ =>
      clock_of_boundary h
    simp only [hc]
    exact m.steady_instruction.andThen pay fun n => .within n.pay
  · have hc : ∀ w, (m.within w).clock = (m.within w).pay := fun _ => clock_of_owed h
    simp only [hc]
    exact .within m.pay

/-- A step makes the accesses of one instruction. -/
theorem replayable_step : Replayable fun w => (m.within w).step := by
  have hs : ∀ w, (m.within w).step = ((m.within w).instruction.owed,
      { (m.within w).instruction with
        owed := 0, clocks := m.clocks + (m.owed + (m.within w).instruction.owed) }) := fun w =>
    Prod.ext (congrArg Prod.fst (step_eq (m.within w)) :) (step_snd (m.within w))
  simp only [hs]
  exact m.steady_instruction.bind
    (fun n => (n.owed, { n with owed := 0, clocks := m.clocks + (m.owed + n.owed) })) fun n =>
    .pure n.owed { n with owed := 0, clocks := m.clocks + (m.owed + n.owed) }

theorem replayable_tally (count : Nat) : Replayable fun w => tally (count, m.within w) :=
  m.steady_clock.bind (fun n => (if n.owed = 0 then count + 1 else count, n)) fun n =>
    .pure (if n.owed = 0 then count + 1 else count) n

theorem replayable_run (k : Nat) : Replayable fun w => (m.within w).run k := by
  induction k with
  | zero => exact .pure 0 m
  | succ k ih =>
    exact ih.bind (fun count n => tally (count, n)) fun count n => n.replayable_tally count

/-! ## Histories -/

theorem steady_interrupt (vector : Word) : Steady fun w => (m.within w).interrupt vector :=
  (m.steady_pushWord m.registers.pc).andThen
    (fun n =>
      let n := { n with
        registers.status := { n.registers.status with brk := false, unused := true } }
      let n := n.push n.registers.status.pushedByInterrupt
      let n := { n with registers.status.interruptDisable := true }
      (n.readWord vector).2.jumpTo (n.readWord vector).1) fun n =>
    let p := { n.registers.status with brk := false, unused := true }
    (steady_push { n with registers.status := p } p.pushedByInterrupt).andThen
      (fun n =>
        let n := { n with registers.status.interruptDisable := true }
        (n.readWord vector).2.jumpTo (n.readWord vector).1) fun n =>
      steady_vector { n with registers.status.interruptDisable := true } vector

theorem steady_reset : Steady fun w => (m.within w).reset := by
  refine (m.replayable_readPair resetVector (resetVector + 1)).andThen
    (fun (target : Word) n =>
      let registers : Registers :=
        { a := 0, x := 0, y := 0, sp := 0xFD, pc := target, status := Status.initial }
      { n with registers, latches := Latches.clear, owed := 8 }.record (.reset target))
    fun target n => ?_
  let registers : Registers :=
    { a := 0, x := 0, y := 0, sp := 0xFD, pc := target, status := Status.initial }
  exact steady_record { n with registers, latches := Latches.clear, owed := 8 } (.reset target)

theorem steady_irq : Steady fun w => (m.within w).irq := by
  by_cases hi : m.registers.status.interruptDisable = true
  · have h : ∀ w, (m.within w).irq = (m.within w).record (.irqMasked m.registers.pc) := fun _ =>
      if_pos hi
    simp only [h]
    exact m.steady_record _
  · have h : ∀ w, (m.within w).irq =
        { ((m.within w).record (.irqTaken m.registers.pc)).interrupt irqVector with owed := 7 } :=
      fun _ => if_neg hi
    simp only [h]
    exact ((m.steady_record (.irqTaken m.registers.pc)).andThen (fun n => n.interrupt irqVector)
      fun n => n.steady_interrupt irqVector).andThen (fun n => { n with owed := 7 }) fun n =>
      .within { n with owed := 7 }

theorem steady_nmi : Steady fun w => (m.within w).nmi :=
  ((m.steady_record (.nmiTaken m.registers.pc)).andThen
    (fun n => n.interrupt m.options.nmiVector)
    fun n => n.steady_interrupt m.options.nmiVector).andThen (fun n => { n with owed := 8 })
    fun n => .within { n with owed := 8 }

theorem replayable_perform (c : Command) : Replayable fun w => (m.within w).perform c := by
  have quiet {f : World → Recorded} (hf : Steady f) :
      Replayable fun w => ((none : Option Nat), f w) :=
    hf.bind (fun n => (none, n)) fun n => .pure none n
  have counted {f : World → Nat × Recorded} (hf : Replayable f) :
      Replayable fun w => (some (f w).1, (f w).2) :=
    hf.bind (fun k n => (some k, n)) fun k n => .pure (some k) n
  cases c
  case clock => exact quiet m.steady_clock
  case step => exact counted m.replayable_step
  case run k => exact counted (m.replayable_run k)
  case reset => exact quiet m.steady_reset
  case irq => exact quiet m.steady_irq
  case nmi => exact quiet m.steady_nmi
  case write address value => exact quiet (m.steady_write address value)
  case setA value => exact .pure none { m with registers.a := value }
  case setX value => exact .pure none { m with registers.x := value }
  case setY value => exact .pure none { m with registers.y := value }
  case setSp value => exact .pure none { m with registers.sp := value }
  case setPc value => exact .pure none (m.jumpTo value)
  case setFlags mask on => exact .pure none (m.setFlags mask on)

/-- **What a history does can be replayed.** -/
theorem replayable_performAll (history : List Command) :
    Replayable fun w => (m.within w).performAll history := by
  induction history generalizing m with
  | nil => exact .pure [] m
  | cons c rest ih =>
    exact (m.replayable_perform c).bind
      (fun reply n => (reply :: (n.performAll rest).1, (n.performAll rest).2)) fun reply n =>
      (ih n).bind (fun replies k => (reply :: replies, k)) fun replies k =>
      .pure (reply :: replies) k

end Machine

end Core6502
