import Core6502.Proofs.Bus.Recording
import Core6502.Proofs.Reference.Conformance
import Core6502.Proofs.Stack.Holds

/-!
# What an instruction does on the bus

A device may react to every access, so the accesses of an instruction matter by number and order.
`Reference.State.traffic` lists them from what a program sees: the bytes of the instruction, the
pointer that leads to its operand, what its operation loads, what it writes, and at last the vector
of a software interrupt. A byte that is read is the one that memory held before the instruction,
and a byte that is written is the one that memory holds after it.

* `pointers_lt`, `high_pointers`: where pointers are read.
* `Recorder.Exchanges` joins accesses into longer ones: a byte written stays until the end when its
  address is not written again.
* `exchanges_resolve`, `exchanges_execute`: what addressing and execution do on a recorded bus.
* **`clock_traffic`**: a clock at an instruction boundary makes just these accesses, and any other
  clock makes none.
-/

namespace Core6502

/-! ## The accesses of an instruction -/

/-- The read of an address whose byte is the one in `memory`. -/
def Access.readOf (memory : Word → Byte) (address : Word) : Access :=
  ⟨.read, address, memory address⟩

/-- The write that leaves the byte at an address as it is in `memory`. -/
def Access.writeOf (memory : Word → Byte) (address : Word) : Access :=
  ⟨.write, address, memory address⟩

/-- Where the operation finds the address to continue at, after it has written. -/
def Operation.vectors : Operation → List Word
  | brk => [0xFFFE, 0xFFFF]
  | _ => []

namespace Reference.State

variable (s : State)

/-- The addresses of the opcode and the operand bytes. An immediate operand is left to the
operation. -/
def fetched (mode : AddressingMode) : List Word :=
  let pc : Int := s.registers.pc.toNat
  match mode with
  | .implied | .immediate => [Word.exact pc]
  | .zeroPage | .zeroPageX | .zeroPageY | .relative | .indirectX | .indirectY =>
    [Word.exact pc, Word.exact (pc + 1)]
  | .absolute | .absoluteX | .absoluteY | .indirect =>
    [Word.exact pc, Word.exact (pc + 1), Word.exact (pc + 2)]

/-- The addresses of the low and the high byte of a pointer to the operand. -/
def pointers (wrap : Bool) (mode : AddressingMode) : List Word :=
  let pc : Int := s.registers.pc.toNat
  let x : Int := s.registers.x.toNat
  let b := s.byteAt (pc + 1)
  let w := s.pairAt (pc + 1) (pc + 2)
  match mode with
  | .indirect => [Word.exact w, Word.exact (if wrap = true ∧ w % 256 = 255 then w - 255 else w + 1)]
  | .indirectX => [Word.exact ((b + x) % 256), Word.exact ((b + x + 1) % 256)]
  | .indirectY => [Word.exact b, Word.exact ((b + 1) % 256)]
  | _ => []

/-- The addresses that the operation loads from: its effective address, or the stack. -/
def loaded (mode : AddressingMode) (ea : Word) : Operation → List Word
  | .lda | .ldx | .ldy | .and | .ora | .eor | .adc | .sbc | .cmp | .cpx | .cpy | .bit => [ea]
  | .asl | .lsr | .rol | .ror | .inc | .dec => if mode = .implied then [] else [ea]
  | .pla | .plp => [s.cell 1]
  | .rts => [s.cell 1, s.cell 2]
  | .rti => [s.cell 1, s.cell 2, s.cell 3]
  | _ => []

/-- The addresses that an instruction reads before it writes. -/
def reads (wrap : Bool) : List Word :=
  s.fetched s.entry.mode ++ s.pointers wrap s.entry.mode ++
    s.loaded s.entry.mode (s.effective wrap s.entry.mode) s.entry.operation

/-- The addresses that an instruction writes. -/
def writes (wrap : Bool) : List Word :=
  s.written s.entry.mode (s.effective wrap s.entry.mode) s.entry.operation

/-- **The accesses of one instruction.** -/
def traffic (wrap : Bool) : List Access :=
  (s.reads wrap).map (Access.readOf s.memory) ++
    (s.writes wrap).map (Access.writeOf (s.step wrap).memory) ++
    s.entry.operation.vectors.map (Access.readOf s.memory)

/-! ## Pointers -/

theorem byteAt_nonneg (address : Int) : 0 ≤ s.byteAt address := Int.natCast_nonneg _

theorem byteAt_lt (address : Int) : s.byteAt address < 256 :=
  Int.ofNat_lt.mpr (s.memory _).toNat_lt

theorem exact_lt_page {n : Int} (h₀ : 0 ≤ n) (h : n < 256) : Word.exact n < 0x100 := by
  have hn := Word.toNat_exact n
  rw [UInt16.lt_iff_toNat_lt]
  show (Word.exact n).toNat < 256
  omega

/-- The pointers of the indexed indirect modes lie in the zero page. -/
theorem pointers_lt (wrap : Bool) {mode : AddressingMode}
    (h : mode = .indirectX ∨ mode = .indirectY) {address : Word}
    (ha : address ∈ s.pointers wrap mode) : address < 0x100 := by
  have h₀ := s.byteAt_nonneg (s.registers.pc.toNat + 1)
  have h₁ := s.byteAt_lt (s.registers.pc.toNat + 1)
  rcases h with rfl | rfl <;>
    rcases List.mem_cons.mp ha with rfl | ha <;>
    first
      | exact exact_lt_page (by omega) (by omega)
      | rcases List.mem_singleton.mp ha with rfl
        exact exact_lt_page (by omega) (by omega)

/-- When pointers wrap, the high byte of one that ends a page is in the same page. -/
theorem high_pointers {lo hi : Word} (h : s.pointers true .indirect = [lo, hi])
    (hl : Word.low lo = 0xFF) : Word.high hi = Word.high lo := by
  obtain ⟨hlo, hhi⟩ := List.cons.inj h
  obtain ⟨hhi, -⟩ := List.cons.inj hhi
  have h₀ := s.byteAt_nonneg (s.registers.pc.toNat + 1)
  have h₁ := s.byteAt_lt (s.registers.pc.toNat + 1)
  have h₂ := s.byteAt_nonneg (s.registers.pc.toNat + 2)
  have h₃ := s.byteAt_lt (s.registers.pc.toNat + 2)
  have hw : s.pairAt (s.registers.pc.toNat + 1) (s.registers.pc.toNat + 2) =
      s.byteAt (s.registers.pc.toNat + 1) + 256 * s.byteAt (s.registers.pc.toNat + 2) := rfl
  generalize s.pairAt (s.registers.pc.toNat + 1) (s.registers.pc.toNat + 2) = w at *
  have hlo' := Word.toNat_exact w
  have hend : w % 256 = 255 := by
    have := congrArg UInt8.toNat hl
    rw [Word.toNat_low, ← hlo, show (0xFF : Byte).toNat = 255 from rfl] at this
    omega
  rw [if_pos ⟨rfl, hend⟩] at hhi
  have hhi' := Word.toNat_exact (w - 255)
  apply UInt8.toNat_inj.mp
  rw [Word.toNat_high, Word.toNat_high, ← hlo, ← hhi]
  omega

/-- The stack page ends below the vectors. -/
theorem cell_lt (n : Int) : s.cell n < 0x200 := by
  have hn := Word.toNat_exact (256 + (s.registers.sp.toNat + n) % 256)
  rw [UInt16.lt_iff_toNat_lt]
  show (Word.exact _).toNat < 512
  omega

end Reference.State

/-! ## Recorded accesses -/

/-- **From `r` to `r'` the addresses `as` are read, then `bs` are written, then `cs` are read.** The
bytes read are those that memory held at first, the bytes written those that it holds at last. -/
structure Recorder.Exchanges (as bs cs : List Word) (r r' : Recorder Memory) : Prop where
  accesses : r'.accesses = r.accesses ++ (as.map (Access.readOf r.inner.get) ++
    bs.map (Access.writeOf r'.inner.get) ++ cs.map (Access.readOf r.inner.get))
  frame : ∀ address ∉ bs, r'.inner.get address = r.inner.get address

namespace Recorder.Exchanges

variable {as bs cs : List Word} {r r' : Recorder Memory} {address : Word}

theorem nil (r : Recorder Memory) : Exchanges [] [] [] r r :=
  ⟨(List.append_nil _).symm, fun _ _ => rfl⟩

theorem read (h : Exchanges as [] [] r r') (address : Word) :
    Exchanges (as ++ [address]) [] [] r (Bus.read r' address).2 where
  accesses := by
    have hb : (Bus.read r'.inner address).1 = r.inner.get address :=
      h.frame address List.not_mem_nil
    rw [accesses_read, h.accesses, hb]
    simp only [List.map_nil, List.append_nil, List.map_append, List.append_assoc]
    rfl
  frame := h.frame

theorem write (h : Exchanges as bs [] r r') (hn : address ∉ bs) (value : Byte) :
    Exchanges as (bs ++ [address]) [] r (Bus.write r' address value) where
  accesses := by
    have hw : bs.map (Access.writeOf (r'.inner.set address value).get) =
        bs.map (Access.writeOf r'.inner.get) := by
      refine List.map_congr_left fun b hb => ?_
      unfold Access.writeOf
      rw [Memory.get_set_of_ne _ _ (ne_of_mem_of_not_mem hb hn)]
    have hv : Access.writeOf (r'.inner.set address value).get address =
        ⟨.write, address, value⟩ := by
      unfold Access.writeOf
      rw [Memory.get_set_self]
    show (Bus.write r' address value).accesses = _ ++ (_ ++
      (bs ++ [address]).map (Access.writeOf (r'.inner.set address value).get) ++ _)
    rw [accesses_write, h.accesses, List.map_append, hw, List.map_singleton, hv]
    simp only [List.map_nil, List.append_nil, List.append_assoc]
  frame a ha := by
    have hb : a ∉ bs := fun hb => ha (List.mem_append_left _ hb)
    have hne : a ≠ address := fun e => ha (List.mem_append_right _ (List.mem_singleton.mpr e))
    show (r'.inner.set address value).get a = _
    rw [Memory.get_set_of_ne _ _ hne]
    exact h.frame a hb

theorem readAfter (h : Exchanges as bs cs r r') (hn : address ∉ bs) :
    Exchanges as bs (cs ++ [address]) r (Bus.read r' address).2 where
  accesses := by
    have hb : (Bus.read r'.inner address).1 = r.inner.get address := h.frame address hn
    rw [accesses_read, h.accesses, hb]
    simp only [List.map_append, List.append_assoc]
    rfl
  frame := h.frame

end Recorder.Exchanges

/-! ## Recorded functions -/

namespace Machine

open Reference Recorder

variable (m : Machine (Recorder Memory)) {as bs : List Word} {r : Recorder Memory}

theorem exchanges_push (h : Exchanges as bs [] r m.bus) {address : Word}
    (hc : m.unrecorded.view.cell 0 = address) (hn : address ∉ bs) (v : Byte) :
    Exchanges as (bs ++ [address]) [] r (m.push v).bus := by
  have ha : address = stackBase + m.registers.sp.toUInt16 := by
    rw [← hc]
    refine m.unrecorded.cell_view m.registers.sp 0 ?_
    have := m.registers.sp.toNat_lt
    show (m.registers.sp.toNat : Int) = (m.registers.sp.toNat + 0) % 256
    omega
  subst ha
  exact h.write hn v

theorem exchanges_pull (h : Exchanges as [] [] r m.bus) :
    Exchanges (as ++ [m.unrecorded.view.cell 1]) [] [] r m.pull.2.bus := by
  have hc : m.unrecorded.view.cell 1 = stackBase + (m.registers.sp + 1).toUInt16 := by
    refine m.unrecorded.cell_view _ 1 ?_
    rw [Byte.add_eq_exact, Byte.toNat_exact]
    rfl
  rw [hc]
  exact h.read _

theorem cell_pull (i : Int) :
    m.pull.2.unrecorded.view.cell i = m.unrecorded.view.cell (1 + i) := by
  have hv : m.pull.2.unrecorded.view = m.unrecorded.view.lift 1 := m.unrecorded.view_pull
  rw [hv, State.cell_lift]

theorem exchanges_pullWord (h : Exchanges as [] [] r m.bus) :
    Exchanges (as ++ [m.unrecorded.view.cell 1, m.unrecorded.view.cell 2]) [] [] r
      m.pullWord.2.bus := by
  have h₂ := m.pull.2.exchanges_pull (m.exchanges_pull h)
  rw [m.cell_pull 1, List.append_assoc] at h₂
  exact h₂

theorem cell_push (v : Byte) (i : Int) :
    (m.push v).unrecorded.view.cell i = m.unrecorded.view.cell (-1 + i) := by
  have hv : (m.push v).unrecorded.view = m.unrecorded.view.push v := m.unrecorded.view_push v
  rw [hv, State.cell_push]

theorem exchanges_pushWord (h : Exchanges as [] [] r m.bus) (w : Word) :
    Exchanges as [m.unrecorded.view.cell 0, m.unrecorded.view.cell (-1)] [] r
      (m.pushWord w).bus := by
  refine exchanges_push _ (m.exchanges_push h rfl List.not_mem_nil _) ?_ ?_ _
  · exact m.cell_push _ 0
  · intro hm
    have := m.unrecorded.view.cell_inj (List.mem_singleton.mp hm)
    omega

/-! ## Addressing -/

/-- The pointers of the reference, as the machine finds them. -/
theorem pointers_indirect (m : Machine Memory) :
    m.view.pointers m.options.indirectPageWrap .indirect =
      let p := Word.ofBytes (m.bus.get (m.registers.pc + 1)) (m.bus.get (m.registers.pc + 1 + 1))
      [p, pointerHigh m.options p] := by
  unfold State.pointers
  simp only [pairAt_view, view_registers, Word.exact_add_one, Word.exact_add_two, pointerHigh_eq,
    Word.exact_toNat]

theorem pointers_indirectX (m : Machine Memory) (wrap : Bool) :
    m.view.pointers wrap .indirectX =
      let p := m.bus.get (m.registers.pc + 1) + m.registers.x
      [p.toUInt16, (p + 1).toUInt16] := by
  unfold State.pointers
  simp only [byteAt_view, view_registers, Word.exact_add_one, Word.exact_add_mod,
    Word.exact_add_succ_mod]

theorem pointers_indirectY (m : Machine Memory) (wrap : Bool) :
    m.view.pointers wrap .indirectY =
      let p := m.bus.get (m.registers.pc + 1)
      [p.toUInt16, (p + 1).toUInt16] := by
  unfold State.pointers
  simp only [byteAt_view, view_registers, Word.exact_add_one, Word.exact_succ_mod,
    ← Byte.toUInt16_eq_exact]

/-- **Resolving reads the bytes of the instruction and then the pointer.** -/
theorem exchanges_resolve (mode : AddressingMode) :
    Exchanges (m.unrecorded.view.fetched mode ++
        m.unrecorded.view.pointers m.options.indirectPageWrap mode) [] [] m.bus
      (m.begin.resolve mode).2.bus := by
  have h1 : Word.exact (m.registers.pc.toNat + 1) = m.registers.pc + 1 := Word.exact_add_one _
  have h2 : Word.exact (m.registers.pc.toNat + 2) = m.registers.pc + 1 + 1 := Word.exact_add_two _
  have one : Exchanges [m.registers.pc] [] [] m.bus m.begin.bus :=
    (Exchanges.nil m.bus).read m.registers.pc
  have two := one.read (m.registers.pc + 1)
  have three := two.read (m.registers.pc + 1 + 1)
  cases mode
  case indirect =>
    rw [← options_unrecorded, pointers_indirect]
    simp only [State.fetched, view_registers, registers_unrecorded, Word.exact_toNat, h1, h2]
    exact (three.read _).read _
  case indirectX =>
    rw [pointers_indirectX]
    simp only [State.fetched, view_registers, registers_unrecorded, Word.exact_toNat, h1]
    exact (two.read _).read _
  case indirectY =>
    rw [pointers_indirectY]
    simp only [State.fetched, view_registers, registers_unrecorded, Word.exact_toNat, h1]
    exact (two.read _).read _
  all_goals
    simp only [State.fetched, State.pointers, view_registers, registers_unrecorded,
      Word.exact_toNat, h1, h2]
  case implied | immediate => exact one
  case absolute | absoluteX | absoluteY => exact three
  all_goals exact two

/-! ## Execution -/

theorem exchanges_returnFromInterrupt (h : Exchanges as [] [] r m.bus) :
    Exchanges (as ++ [m.unrecorded.view.cell 1, m.unrecorded.view.cell 2,
      m.unrecorded.view.cell 3]) [] [] r m.returnFromInterrupt.bus := by
  have h₃ := m.pull.2.exchanges_pullWord (m.exchanges_pull h)
  rw [m.cell_pull 1, m.cell_pull 2, List.append_assoc] at h₃
  exact h₃

/-- The vector is read after the pushes, but they do not reach it. -/
theorem exchanges_forceInterrupt (h : Exchanges as [] [] r m.bus) :
    Exchanges as
      [m.unrecorded.view.cell 0, m.unrecorded.view.cell (-1), m.unrecorded.view.cell (-2)]
      [0xFFFE, 0xFFFF] r m.forceInterrupt.bus := by
  -- The machine before its pushes, and after it has pushed the address
  let n : Machine (Recorder Memory) := { m with registers := { m.registers with
    pc := m.registers.pc + 1
    status := { m.registers.status with interruptDisable := true } } }
  let w := n.pushWord n.registers.pc
  have hw : w.unrecorded.view.cell 0 = m.unrecorded.view.cell (-2) := by
    have hv : w.unrecorded.view = n.unrecorded.view.pushWord n.registers.pc.toNat :=
      n.unrecorded.view_pushWord _
    rw [hv, State.cell_pushWord]
    rfl
  have hne : ∀ i j : Int, i % 256 ≠ j % 256 →
      m.unrecorded.view.cell i ≠ m.unrecorded.view.cell j :=
    fun i j h e => h (m.unrecorded.view.cell_inj e)
  have hn : m.unrecorded.view.cell (-2) ∉
      [m.unrecorded.view.cell 0, m.unrecorded.view.cell (-1)] := by
    simp only [List.mem_cons, List.not_mem_nil, or_false, not_or]
    exact ⟨hne _ _ (by decide), hne _ _ (by decide)⟩
  have hv : ∀ v : Word, 0x200 ≤ v → v ∉ [m.unrecorded.view.cell 0, m.unrecorded.view.cell (-1),
      m.unrecorded.view.cell (-2)] := by
    intro v hv
    have hc : ∀ i, v ≠ m.unrecorded.view.cell i := fun i e =>
      absurd (m.unrecorded.view.cell_lt i) (UInt16.not_lt.mpr (e ▸ hv))
    simp only [List.mem_cons, List.not_mem_nil, or_false, not_or]
    exact ⟨hc 0, hc (-1), hc (-2)⟩
  have hp := w.exchanges_push (n.exchanges_pushWord h _) hw hn
    n.registers.status.pushedByBreak
  exact (hp.readAfter (hv 0xFFFE (by decide))).readAfter (hv 0xFFFF (by decide))

/-- Unless it is the accumulator, the operand is read at the effective address. -/
theorem bus_operand (hi : m.mode ≠ .implied) :
    m.operand.2.bus = (Bus.read m.bus m.latches.address).2 := by
  unfold operand
  rw [if_neg hi]
  rfl

theorem bus_writeBack (result : Byte) :
    (m.writeBack result).bus =
      if m.mode = .implied then m.bus else Bus.write m.bus m.latches.address result := by
  unfold writeBack
  split <;> rfl

/-- A shift of the accumulator makes no access; any other reads its operand and writes its result in
the same place. -/
theorem bus_shift (f : Byte → Bool → Byte × Bool) :
    ∃ result, (m.shift f).bus = if m.mode = .implied then m.bus
      else Bus.write (Bus.read m.bus m.latches.address).2 m.latches.address result := by
  let s := f m.operand.1 m.registers.status.carry
  refine ⟨s.1, (bus_writeBack { m.operand.2 with registers.status.carry := s.2 } s.1).trans ?_⟩
  show (if m.operand.2.mode = .implied then m.operand.2.bus
    else Bus.write m.operand.2.bus m.operand.2.latches.address s.1) = _
  rw [mode_operand, address_operand]
  by_cases hi : m.mode = .implied
  · rw [if_pos hi, if_pos hi]
    unfold operand
    rw [if_pos hi]
  · rw [if_neg hi, if_neg hi, m.bus_operand hi]

/-- **An operation makes its accesses**, after those that led to its operand. -/
theorem exchanges_execute {o : Operation} {mode : AddressingMode} {ea : Word}
    (hm : m.mode = mode) (ha : o.admits mode = true)
    (he : mode ≠ .implied → m.unrecorded.target mode = ea) (h : Exchanges as [] [] r m.bus) :
    Exchanges (as ++ m.unrecorded.view.loaded mode ea o) (m.unrecorded.view.written mode ea o)
      o.vectors r (m.execute o).bus := by
  have haddress : o.isBranch = false → mode ≠ .implied → m.latches.address = ea := fun hb hi => by
    rw [← he hi]
    unfold target
    rw [if_neg (Operation.ne_relative_of_admits ha hb)]
    rfl
  have hnil := h
  rw [← List.append_nil as] at hnil
  cases o
  case lda | ldx | ldy | and | ora | eor | adc | sbc | cmp | cpx | cpy | bit =>
    have hi : mode ≠ .implied := Operation.ne_implied_of_admits ha rfl
    rw [← haddress rfl hi]
    show Exchanges _ _ _ _ m.operand.2.bus
    rw [m.bus_operand (hm.trans_ne hi)]
    exact h.read _
  case asl | lsr | rol | ror =>
    simp only [execute, State.loaded, State.written]
    obtain ⟨result, hb⟩ := m.bus_shift _
    rw [hb, hm]
    by_cases hi : mode = .implied
    · rw [if_pos hi, if_pos hi]
      exact hnil
    · rw [if_neg hi, if_neg hi, ← haddress rfl hi]
      exact (h.read _).write List.not_mem_nil _
  case inc | dec =>
    have hi : mode ≠ .implied := Operation.ne_implied_of_admits ha rfl
    rw [← haddress rfl hi]
    show Exchanges _ _ _ _ (Bus.write m.operand.2.bus m.operand.2.latches.address _)
    rw [m.bus_operand (hm.trans_ne hi), address_operand]
    simp only [State.loaded, State.written, if_neg hi]
    exact (h.read _).write List.not_mem_nil _
  case sta | stx | sty =>
    rw [← haddress rfl (Operation.ne_implied_of_admits ha rfl)]
    exact hnil.write List.not_mem_nil _
  case bcc | bcs | bne | beq | bpl | bmi | bvc | bvs =>
    simp only [execute, branch]
    split <;> exact hnil
  case pha | php => exact m.exchanges_push hnil rfl List.not_mem_nil _
  case pla | plp => exact m.exchanges_pull h
  case jsr => exact m.exchanges_pushWord hnil _
  case rts => exact m.exchanges_pullWord h
  case rti => exact m.exchanges_returnFromInterrupt h
  case brk => exact m.exchanges_forceInterrupt hnil
  all_goals exact hnil

/-! ## One instruction -/

/-- **An instruction makes the accesses of the reference.** -/
theorem exchanges_instruction :
    Exchanges (m.unrecorded.view.reads m.options.indirectPageWrap)
      (m.unrecorded.view.writes m.options.indirectPageWrap)
      m.unrecorded.view.entry.operation.vectors m.bus m.instruction.bus := by
  let entry := m.unrecorded.view.entry
  let n := (m.begin.resolve entry.mode).2
  have hi : m.instruction.bus = (n.execute entry.operation).bus :=
    instruction_frame (f := bus) (fun _ _ => rfl) m
  have hn : n.unrecorded = (m.unrecorded.begin.resolve entry.mode).2 :=
    (m.begin.unrecorded_resolve entry.mode).2
  have ha : entry.operation.admits entry.mode = true := Opcode.admits_lookup _
  have hm : n.mode = entry.mode := m.begin.mode_resolve entry.mode
  have hx := n.exchanges_execute hm ha (hn ▸ m.unrecorded.target_resolve)
    (m.exchanges_resolve entry.mode)
  rw [hn, view_resolve_begin] at hx
  rw [hi]
  exact hx

/-- **Bus traffic.** A clock at an instruction boundary makes the accesses of the reference and no
others, and a clock in the middle of an instruction makes none. Pointers in the indexed indirect
modes are read in the zero page; with page wrapping, the pointer of an indirect jump that ends a
page is read within it. -/
theorem clock_traffic :
    (m.owed = 0 → m.clock.bus.accesses =
      m.bus.accesses ++ m.unrecorded.view.traffic m.options.indirectPageWrap) ∧
    (m.owed ≠ 0 → m.clock.bus = m.bus) ∧
    (∀ mode, mode = .indirectX ∨ mode = .indirectY →
      ∀ address ∈ m.unrecorded.view.pointers m.options.indirectPageWrap mode, address < 0x100) ∧
    (m.options.indirectPageWrap = true → ∀ lo hi,
      m.unrecorded.view.pointers m.options.indirectPageWrap .indirect = [lo, hi] →
        Word.low lo = 0xFF → Word.high hi = Word.high lo) := by
  refine ⟨fun h => ?_, fun h => ?_, fun mode h address => ?_, fun h lo hi => ?_⟩
  · have hv : m.instruction.bus.inner.get =
        (m.unrecorded.view.step m.options.indirectPageWrap).memory := by
      rw [← options_unrecorded, ← view_instruction, ← unrecorded_instruction]
      rfl
    have hx := m.exchanges_instruction.accesses
    rw [hv] at hx
    rw [clock_of_boundary h]
    exact hx
  · rw [clock_of_owed h]
    rfl
  · exact State.pointers_lt _ _ h
  · rw [h]
    exact State.high_pointers _

/-- A machine at a software interrupt with two bytes of the stack page below its stack pointer. -/
def breaking : Machine (Recorder Memory) :=
  (atRest ⟨0, 0, 0, 0x01, 0x8000, Status.initial⟩
    (Memory.zero.setVector irqVector 0xA012)).recorded

/-- The third push wraps to the top of the stack page, and the vector is read last. -/
theorem accesses_breaking : breaking.clock.bus.accesses =
    [⟨.read, 0x8000, 0x00⟩, ⟨.write, 0x0101, 0x80⟩, ⟨.write, 0x0100, 0x02⟩, ⟨.write, 0x01FF, 0x34⟩,
      ⟨.read, 0xFFFE, 0x12⟩, ⟨.read, 0xFFFF, 0xA0⟩] := by
  rw [(clock_traffic breaking).1 rfl]
  decide +kernel

end Machine

end Core6502
