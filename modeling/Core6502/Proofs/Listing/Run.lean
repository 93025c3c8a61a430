import Core6502.Proofs.Listing.Agreement

/-!
# A straight run follows the listing

A run that never transfers control and leaves its own code alone begins its instructions at the
addresses that the listing of that code shows, in order.

* `Straight` says what such a run is, and `Straight.tail` that it stays one after its first step.
* `walk_of_le`: one step of the listing.
* `pcs_eq_take` puts the two together, by induction on the number of instructions.
* **`agrees_with_listing`** is the agreement of one instruction and of runs.
-/

namespace Core6502

/-! ## One step of the listing -/

theorem Listing.walk_of_le (bus : Memory) {cursor stop : Nat} (h : cursor ≤ stop) :
    (walk bus cursor stop).1 = (Instruction.decode bus (UInt16.ofNat cursor)).1 ::
      (walk bus (cursor + (Instruction.decode bus (UInt16.ofNat cursor)).1.size) stop).1 := by
  rw [walk, dif_pos h]
  simp only [Instruction.decode_snd]

namespace Machine

open Reference

variable {m : Machine Memory}

/-! ## One step of the machine -/

/-- The machine after `n` steps. -/
def after (m : Machine Memory) (n : Nat) : Machine Memory := (fun m => m.step.2)^[n] m

theorem after_succ (m : Machine Memory) (n : Nat) : m.after (n + 1) = m.step.2.after n :=
  Function.iterate_succ_apply _ n m

theorem owed_step (m : Machine Memory) : m.step.2.owed = 0 := by
  rw [step_snd]

/-- From a boundary a step shows a program what its first clock shows it. -/
theorem view_step (h : m.owed = 0) : m.step.2.view = m.clock.view := by
  rw [step_snd, clock_of_boundary h]
  rfl

theorem pc_step (h : m.owed = 0) : m.step.2.registers.pc = m.clock.registers.pc :=
  congrArg (fun s : State => s.registers.pc) (view_step h)

/-! ## Straight runs -/

/-- **A straight run** of `n` instructions within the code from `start` to `stop`: each begins
there, behind the one before it, and transfers control nowhere; its bytes stay those of `code`. -/
structure Straight (code : Memory) (start stop : Word) (m : Machine Memory) (n : Nat) : Prop where
  inside : ∀ i < n, start ≤ (m.after i).registers.pc ∧ (m.after i).registers.pc ≤ stop
  forward : ∀ i, i + 1 < n → (m.after i).registers.pc < (m.after (i + 1)).registers.pc
  straight : ∀ i < n, (m.after i).transfersControl = false
  intact : ∀ i < n, ∀ address, start ≤ address → address ≤ stop →
    (m.after i).bus.get address = code.get address

variable {code : Memory} {start stop : Word} {n : Nat}

theorem Straight.tail (h : Straight code start stop m (n + 1)) :
    Straight code start stop m.step.2 n where
  inside i hi := by
    rw [← after_succ]
    exact h.inside (i + 1) (by omega)
  forward i hi := by
    rw [← after_succ, ← after_succ]
    exact h.forward (i + 1) (by omega)
  straight i hi := by
    rw [← after_succ]
    exact h.straight (i + 1) (by omega)
  intact i hi := by
    rw [← after_succ]
    exact h.intact (i + 1) (by omega)

/-- The listing of the code has the size of the instruction that the machine is at. -/
theorem Straight.size_decode (h : Straight code start stop m (n + 1)) :
    (Instruction.decode code m.registers.pc).1.size = m.listed.size := by
  have hin := h.inside 0 (Nat.succ_pos n)
  have hb : m.bus.get m.registers.pc = code.get m.registers.pc :=
    h.intact 0 (Nat.succ_pos n) _ hin.1 hin.2
  show (Opcode.lookup (code.get m.registers.pc)).size = (Opcode.lookup (m.bus.get _)).size
  rw [hb]

/-- The next instruction begins where the listing goes on. -/
theorem Straight.toNat_pc_step (h : Straight code start stop m (n + 2)) (h0 : m.owed = 0) :
    m.step.2.registers.pc.toNat = m.registers.pc.toNat + m.listed.size := by
  have hf : m.registers.pc < m.step.2.registers.pc := h.forward 0 (by omega)
  have hs : m.listed.size ≤ 3 := Opcode.size_le_three _
  rw [pc_step h0, pc_clock_of_next h0 (h.straight 0 (by omega))] at hf ⊢
  have := UInt16.lt_iff_toNat_lt.mp hf
  rw [UInt16.toNat_add, UInt16.toNat_ofNat'] at this ⊢
  omega

/-- **A straight run begins its instructions where the listing shows them.** -/
theorem Straight.pcs_eq_take (h : Straight code start stop m n) (h0 : m.owed = 0) :
    (List.range n).map (fun i => (m.after i).registers.pc) =
      ((Listing.walk code m.registers.pc.toNat stop.toNat).1.map Instruction.address).take n := by
  induction n generalizing m with
  | zero => rfl
  | succ n ih =>
    have hle : m.registers.pc.toNat ≤ stop.toNat := (h.inside 0 (Nat.succ_pos n)).2
    have htail := ih h.tail (owed_step m)
    rw [List.range_succ_eq_map, List.map_cons, List.map_map, Listing.walk_of_le code hle,
      List.map_cons, List.take_succ_cons, UInt16.ofNat_toNat, h.size_decode]
    refine congrArg (m.registers.pc :: ·) ?_
    cases n with
    | zero => rfl
    | succ n =>
      rw [← h.toNat_pc_step h0, ← htail]
      refine List.map_congr_left fun i _ => ?_
      exact congrArg (fun m : Machine Memory => m.registers.pc) (after_succ m i)

/-! ## The agreement -/

/-- **The machine and the listing agree.** At every instruction boundary the machine latches the
opcode listed at its program counter and charges at least the base cycles listed. Unless it
transfers control it goes on behind the listed bytes; a taken branch, an absolute jump and a call
land on the address that the line shows, and an indirect jump takes its low byte from the pointer
that the line shows. A straight run begins its instructions where the listing shows them, in
order. -/
theorem agrees_with_listing (m : Machine Memory) (h : m.owed = 0) :
    m.clock.latches.opcode = m.listed.opcode ∧
    m.listed.baseCycles ≤ m.clock.owed + 1 ∧
    (m.transfersControl = false →
      m.clock.registers.pc = m.registers.pc + UInt16.ofNat m.listed.size) ∧
    (m.view.entry.operation.branches m.registers.status = true → ∀ target,
      m.listed.text = m.listed.line
          ("$" ++ Hex.byte m.listed.operandByte ++ " [$" ++ Hex.word target ++ "]") ↔
        target = m.clock.registers.pc) ∧
    (m.view.entry.operation = .jmp ∧ m.listed.mode = .absolute ∨ m.view.entry.operation = .jsr →
      ∀ target, m.listed.text = m.listed.line ("$" ++ Hex.word target) ↔
        target = m.clock.registers.pc) ∧
    (m.view.entry.operation = .jmp ∧ m.listed.mode = .indirect →
      ∃ target, Word.low m.clock.registers.pc = m.bus.get target ∧
        ∀ pointer, m.listed.text = m.listed.line ("($" ++ Hex.word pointer ++ ")") ↔
          pointer = target) ∧
    ∀ start stop n, m.registers.pc = start → Straight m.bus start stop m n →
      (List.range n).map (fun i => (m.after i).registers.pc) =
        ((Listing.range m.bus start stop).1.map Instruction.address).take n := by
  have hadmits : m.view.entry.operation.admits m.listed.mode = true := Opcode.admits_lookup _
  refine ⟨opcode_clock h, baseCycles_le_owed_clock h, pc_clock_of_next h, ?_, ?_, ?_, ?_⟩
  · intro hb target
    have hm : m.listed.mode = .relative :=
      Operation.eq_relative_of_admits hadmits (Operation.isBranch_of_branches hb)
    rw [pc_clock_of_branches h hm hb]
    exact Instruction.text_relative _ hm target
  · intro ho target
    have hm : m.listed.mode = .absolute := by
      rcases ho with ⟨-, hm⟩ | ho
      · exact hm
      · rw [ho] at hadmits
        exact of_decide_eq_true hadmits
    rw [pc_clock_of_jump h (ho.imp_left And.left), hm, effective_absolute m _ hm]
    exact Instruction.text_absolute _ hm target
  · rintro ⟨ho, hm⟩
    refine ⟨m.listed.operandWord, ?_, Instruction.text_indirect _ hm⟩
    rw [pc_clock_of_jump h (.inl ho), hm, low_effective_indirect m _ hm]
  · rintro start stop n rfl hs
    exact hs.pcs_eq_take h

/-- A machine at LDA #$50, STA $20, NOP. -/
def loadStore : Machine Memory :=
  atRest ⟨0, 0, 0, 0xFD, 0x8000, Status.initial⟩
    (Memory.zero.overlay 0x8000 [0xA9, 0x50, 0x85, 0x20, 0xEA])

theorem straight_loadStore : Straight loadStore.bus 0x8000 0x8004 loadStore 3 where
  inside := by decide +kernel
  forward i hi := by
    have all : ∀ i < 2,
        (loadStore.after i).registers.pc < (loadStore.after (i + 1)).registers.pc := by
      decide +kernel
    exact all i (by omega)
  straight := by decide +kernel
  intact i hi address hlo hhi := by
    have all : ∀ i < 3, ∀ k < 5, (loadStore.after i).bus.get (UInt16.ofNat (0x8000 + k)) =
        loadStore.bus.get (UInt16.ofNat (0x8000 + k)) := by
      decide +kernel
    have hlo' : 0x8000 ≤ address.toNat := UInt16.le_iff_toNat_le.mp hlo
    have hhi' : address.toNat ≤ 0x8004 := UInt16.le_iff_toNat_le.mp hhi
    have ha : UInt16.ofNat (0x8000 + (address.toNat - 0x8000)) = address := by
      rw [Nat.add_sub_cancel' hlo', UInt16.ofNat_toNat]
    rw [← ha]
    exact all i hi _ (by omega)

/-- The listing of the three instructions, read off the machine that runs them. -/
theorem addresses_loadStore :
    ((Listing.range loadStore.bus 0x8000 0x8004).1.map Instruction.address).take 3 =
      [0x8000, 0x8002, 0x8004] := by
  obtain ⟨-, -, -, -, -, -, hrun⟩ := agrees_with_listing loadStore rfl
  rw [← hrun 0x8000 0x8004 3 rfl straight_loadStore]
  decide +kernel

end Machine

end Core6502
