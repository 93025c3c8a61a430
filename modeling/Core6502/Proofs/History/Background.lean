import Core6502.Proofs.History.Moments
import Core6502.Proofs.Reference.Conformance

/-!
# Options matter only where they are read

A machine reads its options in two places: a non-maskable interrupt looks up its vector, and an
indirect jump through a pointer at the end of a page asks where the pointer's high byte lies. Any
other command does the same against any background, so that machines which differ in their
background alone run side by side.

* `act_against`, `options_act`: what an atomic command does against another background.
* `simulation_against`, **`performAll_against`**, `moments_against`: so does a history, as long as
  no command consults an option in which the backgrounds differ.
* `pc_clock_of_straddles`: where an indirect jump through a pointer at the end of a page goes.
* **`options_matter_where_read`** puts these together.
-/

universe u

namespace Core6502.Machine

variable {β : Type u} [Bus β]

/-- Whether a command consults an option in which two sets of options differ. -/
def consults (o o' : Options) (m : Machine β) : Command → Bool
  | .clock => m.complete && m.straddles && o.indirectPageWrap != o'.indirectPageWrap
  | .nmi => o.nmiVector != o'.nmiVector
  | _ => false

/-! ## Commands against another background -/

theorem clock_against {m : Machine β} {b : Background} (ht : ∀ t, b.time (t + 1) = b.time t + 1)
    (h : m.consults m.options b.options .clock = false) :
    (m.against b).clock = m.clock.against b := by
  have pay_against : ∀ k : Machine β, (k.against b).pay = k.pay.against b := by
    intro k
    unfold pay against
    rw [ht]
  by_cases ho : m.owed = 0
  · have hi : m.options.indirectPageWrap = b.options.indirectPageWrap ∨ m.straddles = false := by
      simpa [consults, complete, ho, or_iff_not_imp_right] using h
    rw [clock_of_boundary ho, clock_of_boundary (m := m.against b) ho, instruction_against m b hi,
      pay_against]
  · rw [clock_of_owed ho, clock_of_owed (m := m.against b) ho, pay_against]

/-- **A command does the same against another background**, unless it consults an option that is
another there. -/
theorem act_against {m : Machine β} {b : Background} (ht : ∀ t, b.time (t + 1) = b.time t + 1)
    {c : Command} (hc : c.isAtomic = true) (h : m.consults m.options b.options c = false) :
    (m.against b).act c = (m.act c).against b := by
  cases c
  case step | run => exact absurd hc Bool.noConfusion
  case clock => exact clock_against ht h
  case irq =>
    have hr : (m.against b).registers = m.registers := rfl
    show (m.against b).irq = m.irq.against b
    unfold irq
    rw [hr]
    split <;> rfl
  case nmi =>
    have hv : m.options.nmiVector = b.options.nmiVector := by simpa [consults] using h
    show (m.against b).nmi = m.nmi.against b
    unfold nmi
    rw [hv]
    rfl
  all_goals rfl

/-- No command changes an option. -/
theorem options_act (m : Machine β) {c : Command} (hc : c.isAtomic = true) :
    (m.act c).options = m.options := by
  cases c
  case step | run => exact absurd hc Bool.noConfusion
  case clock =>
    show (if m.owed = 0 then m.instruction else m).options = m.options
    split
    case isTrue => exact m.options_instruction
    case isFalse => rfl
  case irq =>
    show m.irq.options = m.options
    unfold irq
    split <;> rfl
  all_goals rfl

theorem Trail.options_eq {m n : Machine β} {t : List (Machine β × Command)} (h : Trail m t n) :
    n.options = m.options :=
  (h.always (P := fun k => k.options = m.options)
    (fun k _ _ hc hk => (k.options_act hc).trans hk) rfl).2

/-- A machine with given options and the same machine against a background whose time runs as fast
stay so, as long as no command consults an option in which the two differ. -/
theorem simulation_against (o : Options) {b : Background}
    (ht : ∀ t, b.time (t + 1) = b.time t + 1) :
    Simulation (β := β) (fun m c => m.consults o b.options c = false)
      (fun m n => m.options = o ∧ n = m.against b) where
  owed := by
    rintro m n ⟨-, rfl⟩
    rfl
  act := by
    rintro m n c hc h ⟨rfl, rfl⟩
    exact ⟨m.options_act hc, act_against ht hc h⟩

section Histories

variable {m : Machine β} {b : Background} (ht : ∀ t, b.time (t + 1) = b.time t + 1)
include ht

theorem perform_against {c : Command}
    (h : ∀ p ∈ m.during c, p.1.consults m.options b.options p.2 = false) :
    (m.against b).perform c = ((m.perform c).1, (m.act c).against b) := by
  obtain ⟨hreply, -, hact⟩ := (simulation_against m.options ht).perform ⟨rfl, rfl⟩ h
  exact Prod.ext hreply.symm hact

/-- **A history does the same against another background.** -/
theorem performAll_against {history : List Command}
    (h : ∀ p ∈ m.moments history, p.1.consults m.options b.options p.2 = false) :
    (m.against b).performAll history =
      ((m.performAll history).1, (m.performAll history).2.against b) := by
  obtain ⟨hreplies, -, hend⟩ := (simulation_against m.options ht).performAll ⟨rfl, rfl⟩ history h
  exact Prod.ext hreplies.symm hend

theorem moments_against {history : List Command}
    (h : ∀ p ∈ m.moments history, p.1.consults m.options b.options p.2 = false) :
    (m.against b).moments history = (m.moments history).map fun p => (p.1.against b, p.2) := by
  have hmoments := (simulation_against m.options ht).moments ⟨rfl, rfl⟩ history h
  rw [← List.forall₂_eq_eq_eq, List.forall₂_map_right_iff]
  refine (hmoments.imp ?_).flip
  rintro p q ⟨⟨-, hq⟩, hcommand⟩
  exact Prod.ext hq hcommand.symm

end Histories

/-- No moment of a history consults an option in which two sets of options differ, if no command
asks for such an interrupt and no clock makes such a jump. -/
theorem consults_eq_false {m : Machine β} {o o' : Options} {history : List Command}
    (hv : o.nmiVector = o'.nmiVector ∨ .nmi ∉ history)
    (hw : o.indirectPageWrap = o'.indirectPageWrap ∨ ∀ p ∈ m.moments history,
      p.2 = .clock → p.1.complete = true → p.1.straddles = false) :
    ∀ p ∈ m.moments history, p.1.consults o o' p.2 = false := by
  rintro ⟨k, c⟩ hp
  cases c
  case clock =>
    rcases hw with hw | hw
    · simp [consults, hw]
    · cases ho : k.complete with
      | false => simp [consults, ho]
      | true => simp [consults, hw _ hp rfl ho]
  case nmi =>
    rcases hv with hv | hv
    · simp [consults, hv]
    · rcases mem_of_mem_moments hp with hn | ⟨hn, -⟩
      · exact absurd hn hv
      · exact Command.noConfusion hn
  all_goals rfl

/-! ## Jumps through a pointer -/

/-- In memory, an indirect jump through a pointer at the end of a page is these bytes. -/
theorem straddles_iff {m : Machine Memory} :
    m.straddles = true ↔
      m.bus.get m.registers.pc = 0x6C ∧ m.bus.get (m.registers.pc + 1) = 0xFF := by
  have hl : Word.low m.begin.fetchWord.1 = m.bus.get (m.registers.pc + 1) := Word.low_ofBytes _ _
  unfold straddles
  rw [hl, Bool.and_eq_true_iff, beq_iff_eq, beq_iff_eq]
  rfl

/-- The option decides which page the high byte of the target comes from. -/
theorem pc_clock_of_straddles {m : Machine Memory} (h : m.owed = 0) (hs : m.straddles = true) :
    let page := m.bus.get (m.registers.pc + 2)
    m.clock.registers.pc = Word.ofBytes (m.bus.get (Word.ofBytes 0xFF page)) (m.bus.get
      (if m.options.indirectPageWrap then Word.ofBytes 0x00 page
        else Word.ofBytes 0xFF page + 1)) := by
  intro page
  obtain ⟨hopcode, hlow⟩ := straddles_iff.mp hs
  have hpage : m.bus.get (m.registers.pc + 1 + 1) = page :=
    congrArg m.bus.get (by grind)
  have hentry : Opcode.lookup m.begin.latches.opcode = Opcode.lookup 0x6C := congrArg _ hopcode
  have hpointer : m.begin.fetchWord.1 = Word.ofBytes 0xFF page :=
    congrArg₂ Word.ofBytes hlow hpage
  rw [clock_of_boundary h]
  unfold instruction
  simp only [hentry]
  show Word.ofBytes (m.bus.get m.begin.fetchWord.1)
    (m.bus.get (pointerHigh m.options m.begin.fetchWord.1)) = _
  rw [hpointer]
  unfold pointerHigh
  rw [Word.low_ofBytes, Word.high_ofBytes]
  simp only [BEq.rfl, Bool.and_true]

/-! ## Other options -/

/-- The machine with other options. -/
def under (m : Machine β) (o : Options) : Machine β := { m with options := o }

omit [Bus β] in
theorem against_options (m : Machine β) (o : Options) : m.against ⟨o, id, []⟩ = m.under o := by
  unfold against under
  rw [List.append_nil]
  rfl

/-- **Options matter only where they are read.** A machine under other options answers a history
alike and is the same but for its options, in the end and at every moment of it, if the options
agree in the vector of the non-maskable interrupt or no such interrupt is asked for, and agree in
what becomes of a pointer at the end of a page or no indirect jump goes through one. The bus may be
any, such as one that notes the accesses made to it. In memory, where an indirect jump goes through
a pointer at `0xFF` of a page, the high byte of its target comes from the start of that page or
from the next address, as the option says. -/
theorem options_matter_where_read :
    (∀ (m : Machine β) (o : Options) (history : List Command),
      (m.options.nmiVector = o.nmiVector ∨ .nmi ∉ history) →
      (m.options.indirectPageWrap = o.indirectPageWrap ∨ ∀ p ∈ m.moments history,
        p.2 = .clock → p.1.complete = true → p.1.straddles = false) →
      (m.under o).performAll history =
          ((m.performAll history).1, (m.performAll history).2.under o) ∧
        (m.under o).moments history = (m.moments history).map fun p => (p.1.under o, p.2)) ∧
    ∀ m : Machine Memory, m.owed = 0 → m.bus.get m.registers.pc = 0x6C →
      m.bus.get (m.registers.pc + 1) = 0xFF →
      let page := m.bus.get (m.registers.pc + 2)
      m.clock.registers.pc = Word.ofBytes (m.bus.get (Word.ofBytes 0xFF page)) (m.bus.get
        (if m.options.indirectPageWrap then Word.ofBytes 0x00 page
          else Word.ofBytes 0xFF page + 1)) := by
  refine ⟨?_, fun m h h₁ h₂ => pc_clock_of_straddles h (straddles_iff.mpr ⟨h₁, h₂⟩)⟩
  intro m o history hv hw
  have hc := consults_eq_false (m := m) (o := m.options) hv hw
  have hall := performAll_against (b := ⟨o, id, []⟩) (fun _ => rfl) hc
  have hmoments := moments_against (b := ⟨o, id, []⟩) (fun _ => rfl) hc
  simp only [against_options] at hall hmoments
  exact ⟨hall, hmoments⟩

/-- A machine at JMP ($30FF), with high bytes for its target on two pages. -/
def jumping : Machine Memory :=
  atRest ⟨0, 0, 0, 0xFD, 0x8000, Status.initial⟩
    (((Memory.zero.overlay 0x8000 [0x6C, 0xFF, 0x30]).set 0x3000 0x90).set 0x3100 0xA0)

/-- The option for such jumps sends the machine to another page, and does not show while it jumps
elsewhere; a vector that no interrupt looks up does not show at all. -/
theorem pc_jumping :
    jumping.clock.registers.pc = 0x9000 ∧
      (jumping.under ⟨irqVector, false⟩).clock.registers.pc = 0xA000 ∧
      ((jumping.under ⟨irqVector, false⟩).performAll [.setPc 0x9000, .nmi, .step]).2.registers =
        (jumping.performAll [.setPc 0x9000, .nmi, .step]).2.registers ∧
      ((jumping.under .nmos).performAll [.step, .irq]).2.registers =
        (jumping.performAll [.step, .irq]).2.registers := by
  obtain ⟨same, jumps⟩ := options_matter_where_read (β := Memory)
  have wraps := jumps jumping rfl rfl rfl
  have crosses := jumps (jumping.under ⟨irqVector, false⟩) rfl rfl rfl
  obtain ⟨elsewhere, -⟩ := same jumping ⟨irqVector, false⟩ [.setPc 0x9000, .nmi, .step] (.inl rfl)
    (.inr (by decide +kernel))
  obtain ⟨silent, -⟩ := same jumping .nmos [.step, .irq] (.inr (by decide)) (.inl rfl)
  exact ⟨wraps.trans (by decide +kernel), crosses.trans (by decide +kernel),
    congrArg (fun r => r.2.registers) elsewhere, congrArg (fun r => r.2.registers) silent⟩

end Core6502.Machine
