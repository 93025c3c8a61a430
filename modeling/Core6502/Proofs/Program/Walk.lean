import Core6502.Proofs.Clock.Cost
import Core6502.Proofs.Listing.Run

/-!
# Walks through a program

A `Walk` is a run of the reference with its instructions and cycles counted, up to the first time
that it comes to a given address. The code it runs through lies at `base`, and `Placed` says of a
state that it lies there intact and that the next instruction is the one at an offset into it.

* `Placed.immediate`, `Placed.absolute`, `Placed.implied`, `Placed.relative`: the walk over one
  instruction, from the bytes of the code.
* `Walk.trans`: walks follow one another.
* **`Machine.after_of_walk`**: the steps of a machine follow the walks of its view and take their
  cycles.
-/

namespace Core6502

/-! ## Offsets into code -/

namespace Word

variable (base : Word)

theorem add_ofNat_add (k n : Nat) :
    base + UInt16.ofNat k + UInt16.ofNat n = base + UInt16.ofNat (k + n) := by
  rw [UInt16.ofNat_add, UInt16.add_assoc]

theorem exact_offset (k n : Nat) :
    Word.exact ((base + UInt16.ofNat k).toNat + n) = base + UInt16.ofNat (k + n) := by
  rw [Word.exact_add_ofNat, add_ofNat_add]

theorem offset_inj {i j : Nat} (hi : i < 65536) (hj : j < 65536)
    (h : base + UInt16.ofNat i = base + UInt16.ofNat j) : i = j := by
  have hnat := congrArg UInt16.toNat ((UInt16.add_right_inj base).mp h)
  rwa [UInt16.toNat_ofNat_of_lt' hi, UInt16.toNat_ofNat_of_lt' hj] at hnat

end Word

namespace Reference.State

/-! ## Walks -/

/-- **A walk**: so many instructions, which take so many cycles and none of which begins at
`stop`. -/
inductive Walk (wrap : Bool) (stop : Word) : Nat → Nat → State → State → Prop where
  | refl (s : State) : Walk wrap stop 0 0 s s
  | step {s t : State} {n cycles : Nat} : s.registers.pc ≠ stop →
    Walk wrap stop n cycles (s.step wrap) t → Walk wrap stop (n + 1) (s.cycles wrap + cycles) s t

variable {wrap : Bool} {stop : Word} {s t u : State} {i j c d : Nat}

theorem Walk.trans (h : Walk wrap stop i c s t) (h' : Walk wrap stop j d t u) :
    Walk wrap stop (i + j) (c + d) s u := by
  induction h with
  | refl s =>
    rwa [Nat.zero_add, Nat.zero_add]
  | step hpc _ ih =>
    rw [Nat.add_right_comm, Nat.add_assoc _ _ d]
    exact .step hpc (ih h')

theorem Walk.single (hpc : s.registers.pc ≠ stop) :
    Walk wrap stop 1 (s.cycles wrap) s (s.step wrap) :=
  .step hpc (.refl _)

/-! ## One instruction of a program -/

theorem memory_store_self (s : State) (address : Word) (v : Byte) :
    (s.store address v).memory address = v := Function.update_self _ _ _

theorem memory_store_of_ne (s : State) {address other : Word} (h : other ≠ address) (v : Byte) :
    (s.store address v).memory other = s.memory other := Function.update_of_ne h _ _

/-- Only indexed and relative instructions take more than their base cycles. -/
theorem cycles_eq_baseCycles
    (h : s.entry.mode ∉ [.absoluteX, .absoluteY, .indirectY, .relative]) :
    s.cycles wrap = s.entry.baseCycles := by
  have hpage : s.pageCycle wrap = 0 :=
    if_neg fun hc => h (List.mem_append_left [.relative] (s.mem_of_carries hc.1))
  have hbranch : s.branchCycles = 0 := by
    refine if_neg fun hb => h ?_
    have ha : s.entry.operation.admits s.entry.mode = true := Opcode.admits_lookup _
    rw [Operation.eq_relative_of_admits ha (Operation.isBranch_of_branches hb)]
    decide
  unfold cycles
  rw [hpage, hbranch]
  rfl

/-- A branch operation goes to its address when its condition holds. -/
theorem transfer_of_isBranch {o : Operation} {mode : AddressingMode} {ea : Word} {v : Byte}
    (s : State) (hb : o.isBranch = true) :
    s.transfer mode ea v o = if o.branches s.registers.status then s.goto ea else s := by
  cases o
  case bcc | bcs | bne | beq | bpl | bmi | bvc | bvs => rfl
  all_goals exact absurd hb Bool.noConfusion

/-- **A state in a program**: the code lies at `base`, and the program counter is `k` bytes into
it. -/
structure Placed (base : Word) (code : List Byte) (k : Nat) (s : State) : Prop where
  pc : s.registers.pc = base + UInt16.ofNat k
  code : ∀ i b, code[i]? = some b → s.memory (base + UInt16.ofNat i) = b

namespace Placed

variable {base : Word} {code : List Byte} {k : Nat} {name : String} {o : Operation} {n : Nat}
  {op : Byte} (h : Placed base code k s)
include h

theorem entry_eq (hop : code[k]? = some op) : s.entry = Opcode.lookup op := by
  unfold entry
  rw [h.pc, h.code k op hop]

theorem past_eq (hop : code[k]? = some op) :
    s.past = s.goto (base + UInt16.ofNat (k + (Opcode.lookup op).size)) := by
  unfold past
  rw [h.entry_eq hop, h.pc, Word.exact_offset]

theorem byteAt_eq {b : Byte} (i : Nat) (hb : code[k + i]? = some b) :
    s.memory (Word.exact (s.registers.pc.toNat + i)) = b := by
  rw [h.pc, Word.exact_offset, h.code (k + i) b hb]

/-- The code stays intact when a byte is stored outside it. -/
theorem code_store {address : Word} (v : Byte)
    (ha : ∀ i < code.length, address ≠ base + UInt16.ofNat i) (i : Nat) (b : Byte)
    (hb : code[i]? = some b) : (s.store address v).memory (base + UInt16.ofNat i) = b := by
  have hi : i < code.length := (List.getElem?_eq_some_iff.mp hb).1
  exact (s.memory_store_of_ne (ha i hi).symm v).trans (h.code i b hb)

theorem step_eq {mode : AddressingMode} (hop : code[k]? = some op)
    (ho : Opcode.lookup op = ⟨name, o, mode, n⟩) :
    s.step wrap = (s.goto (base + UInt16.ofNat (k + (1 + mode.operandLength)))).transfer mode
      (s.effective wrap mode) (s.operand wrap mode) o := by
  have he := h.entry_eq hop
  have hp := h.past_eq hop
  unfold step
  rw [hp, he, ho]
  rfl

variable (wrap) (hpc : base + UInt16.ofNat k ≠ stop)
include hpc

/-- The walk over an instruction that takes its base cycles. -/
theorem plain {mode : AddressingMode} {next : Nat} {ea : Word} {v : Byte} (hop : code[k]? = some op)
    (ho : Opcode.lookup op = ⟨name, o, mode, n⟩)
    (hm : mode ∉ [.absoluteX, .absoluteY, .indirectY, .relative])
    (hn : k + (1 + mode.operandLength) = next) (he : s.effective wrap mode = ea)
    (hv : s.operand wrap mode = v) :
    Walk wrap stop 1 n s ((s.goto (base + UInt16.ofNat next)).transfer mode ea v o) := by
  have hentry : s.entry = ⟨name, o, mode, n⟩ := (h.entry_eq hop).trans ho
  have hc : s.cycles wrap = n := by
    rw [cycles_eq_baseCycles (hentry ▸ hm), hentry]
  subst hn he hv
  rw [← h.step_eq hop ho, ← hc]
  exact .single (h.pc.trans_ne hpc)

theorem implied (hop : code[k]? = some op) (ho : Opcode.lookup op = ⟨name, o, .implied, n⟩) :
    Walk wrap stop 1 n s
      ((s.goto (base + UInt16.ofNat (k + 1))).transfer .implied 0 s.registers.a o) :=
  h.plain wrap hpc hop ho (by decide) rfl rfl rfl

theorem immediate {v : Byte} (hop : code[k]? = some op) (hv : code[k + 1]? = some v)
    (ho : Opcode.lookup op = ⟨name, o, .immediate, n⟩) :
    Walk wrap stop 1 n s ((s.goto (base + UInt16.ofNat (k + 2))).transfer .immediate
      (base + UInt16.ofNat (k + 1)) v o) := by
  have he : s.effective wrap .immediate = base + UInt16.ofNat (k + 1) := by
    rw [← Word.exact_offset, ← h.pc]
    rfl
  exact h.plain wrap hpc hop ho (by decide) rfl he (h.byteAt_eq 1 hv)

theorem absolute {lo hi : Byte} (hop : code[k]? = some op) (hlo : code[k + 1]? = some lo)
    (hhi : code[k + 2]? = some hi) (ho : Opcode.lookup op = ⟨name, o, .absolute, n⟩) :
    Walk wrap stop 1 n s ((s.goto (base + UInt16.ofNat (k + 3))).transfer .absolute
      (Word.ofBytes lo hi) (s.memory (Word.ofBytes lo hi)) o) := by
  have he : s.effective wrap .absolute = Word.ofBytes lo hi := by
    rw [Word.ofBytes_eq_exact, ← h.byteAt_eq 1 hlo, ← h.byteAt_eq 2 hhi]
    rfl
  exact h.plain wrap hpc hop ho (by decide) rfl he (congrArg s.memory he)

/-- The walk over a branch: one cycle more when it is taken, or two when it leaves the page of the
next instruction. -/
theorem relative {v : Byte} {next target : Word} (hop : code[k]? = some op)
    (hv : code[k + 1]? = some v) (ho : Opcode.lookup op = ⟨name, o, .relative, n⟩)
    (hb : o.isBranch = true) (hn : base + UInt16.ofNat (k + 2) = next)
    (ht : next + Byte.signExtend v = target) :
    Walk wrap stop 1
      (n + if o.branches s.registers.status then
        if Word.crossesPage next target then 2 else 1 else 0)
      s (s.goto (if o.branches s.registers.status then target else next)) := by
  subst hn ht
  have he : s.entry = ⟨name, o, .relative, n⟩ := (h.entry_eq hop).trans ho
  have hnext : Word.exact (s.registers.pc.toNat + 2) = base + UInt16.ofNat (k + 2) := by
    rw [h.pc]
    exact Word.exact_offset base k 2
  have hbyte : s.memory (Word.exact (s.registers.pc.toNat + 1)) = v := h.byteAt_eq 1 hv
  have htarget : s.effective wrap .relative =
      base + UInt16.ofNat (k + 2) + Byte.signExtend v := by
    show Word.exact (s.registers.pc.toNat + 2 + (s.memory (Word.exact _)).signed) = _
    rw [← Word.exact_exact_add, hnext, hbyte, ← Word.add_signExtend]
  have hs : s.step wrap = s.goto (if o.branches s.registers.status
      then base + UInt16.ofNat (k + 2) + Byte.signExtend v else base + UInt16.ofNat (k + 2)) := by
    rw [h.step_eq hop ho, transfer_of_isBranch _ hb, htarget, apply_ite s.goto]
    rfl
  have hc : s.cycles wrap = n + if o.branches s.registers.status then
      if Word.crossesPage (base + UInt16.ofNat (k + 2))
        (base + UInt16.ofNat (k + 2) + Byte.signExtend v) then 2 else 1 else 0 := by
    have hpage : s.pageCycle wrap = 0 := by
      refine if_neg fun hc => ?_
      rw [he] at hc
      exact Bool.noConfusion hc.1
    unfold cycles branchCycles
    rw [hpage, he, hnext, hbyte, Word.crossesPage_signExtend]
    simp only [Bool.not_eq_true', decide_eq_false_iff_not, ite_not, Nat.add_zero]
  rw [← hs, ← hc]
  exact .single (h.pc.trans_ne hpc)

end Placed

end Reference.State

/-! ## Machines that walk -/

namespace Machine

open Reference

/-- After a step nothing is owed. -/
theorem owed_after (m : Machine Memory) {n : Nat} (hn : n ≠ 0) : (m.after n).owed = 0 := by
  obtain ⟨n, rfl⟩ := Nat.exists_eq_succ_of_ne_zero hn
  unfold after
  rw [Function.iterate_succ_apply']
  exact owed_step _

/-- **The steps of a machine follow the walks of its view.** What the machine owes in the beginning
is paid on the way. -/
theorem after_of_walk {m : Machine Memory} {wrap : Bool} {stop : Word} {n c : Nat} {t : State}
    (hw : m.options.indirectPageWrap = wrap) (h : State.Walk wrap stop n c m.view t) :
    (m.after n).view = t ∧ (m.after n).clocks + (m.after n).owed = m.clocks + m.owed + c ∧
      ∀ i < n, (m.after i).registers.pc ≠ stop := by
  generalize hs : m.view = s at h
  induction h generalizing m with
  | refl s => exact ⟨hs, rfl, fun i hi => absurd hi (Nat.not_lt_zero i)⟩
  | @step s t n c hpc _ ih =>
    have hview : m.step.2.view = s.step wrap := by
      rw [step_snd, ← hs, ← hw]
      exact m.view_instruction
    have hoptions : m.step.2.options = m.options := by
      rw [step_snd]
      exact m.options_instruction
    have hclocks : m.step.2.clocks + m.step.2.owed = m.clocks + (m.owed + s.cycles wrap) := by
      rw [step_snd, ← hs, ← hw, ← m.cost_eq]
      rfl
    obtain ⟨hv, ht, hi⟩ := ih (hoptions ▸ hw) hview
    simp only [after_succ]
    refine ⟨hv, by omega, fun i hlt => ?_⟩
    cases i with
    | zero =>
      subst hs
      exact hpc
    | succ i =>
      rw [after_succ]
      exact hi i (Nat.lt_of_succ_lt_succ hlt)

end Machine

end Core6502
