import Core6502.Proofs.Bus.Recording
import Core6502.Proofs.Bus.Replay
import Core6502.Proofs.Reference.Basic

/-!
# A run depends on the bytes it reads

Of the memory that a run begins with, only the bytes matter that the run reads before it writes
there. The accesses of the run say which these are: those at addresses where the first access is a
read.

* `Memory.answers_of_agree`: accesses that can happen on one memory can happen on any that agrees
  with it on these bytes.
* `Memory.get_after_of_mem`: and then they leave both with the same bytes at all their addresses.
* **`only_reads_matter`** says so of the runs of machines with the same fields.
-/

namespace Core6502

/-- Whether accesses read an address before they write there: whether the first of them at that
address is no write. -/
def Access.readFirst (address : Word) : List Access → Bool
  | [] => false
  | x :: t => if x.address = address then x.kind ≠ .write else readFirst address t

namespace Access

variable {x : Access} {t : List Access} {address : Word}

theorem readFirst_of_head (h : x.kind ≠ .write) : readFirst x.address (x :: t) = true := by
  rw [readFirst, if_pos rfl]
  exact decide_eq_true h

theorem readFirst_of_tail (h : readFirst address t = true)
    (hx : x.kind = .write → x.address ≠ address) : readFirst address (x :: t) = true := by
  rw [readFirst]
  split
  case isTrue ha => exact decide_eq_true fun hw => hx hw ha
  case isFalse => exact h

end Access

/-! ## Memories that agree -/

namespace Memory

open Access

variable {m n : Memory} {t : List Access} {address : Word}

theorem get_set_congr {other : Word} (value : Byte)
    (h : other ≠ address → m.get address = n.get address) :
    (m.set other value).get address = (n.set other value).get address := by
  by_cases ho : other = address
  · rw [ho, get_set_self, get_set_self]
  · rw [get_set_of_ne _ _ (Ne.symm ho), get_set_of_ne _ _ (Ne.symm ho), h ho]

/-- Once memories agree at an address, accesses do not part them there. -/
theorem get_after_congr (h : m.get address = n.get address) :
    (m.after t).get address = (n.after t).get address := by
  induction t generalizing m n with
  | nil => exact h
  | cons x t ih =>
    obtain ⟨kind, a, value⟩ := x
    cases kind
    case write => exact ih (get_set_congr value fun _ => h)
    all_goals exact ih h

/-- Accesses change no byte where they do not write. -/
theorem get_after_of_unwritten (h : ∀ x ∈ t, x.kind = .write → x.address ≠ address) :
    (m.after t).get address = m.get address := by
  induction t generalizing m with
  | nil => rfl
  | cons x t ih =>
    obtain ⟨hx, ht⟩ := List.forall_mem_cons.mp h
    obtain ⟨kind, a, value⟩ := x
    cases kind
    case write => exact (ih ht).trans (get_set_of_ne _ _ (Ne.symm (hx rfl)))
    all_goals exact ih ht

/-- What is read first behind an access is read first, or was written by it. -/
theorem agree_tail {x : Access} {a : Word}
    (h : ∀ a, readFirst a (x :: t) = true → m.get a = n.get a)
    (ha : readFirst a t = true) (hx : x.kind = .write → x.address ≠ a) : m.get a = n.get a :=
  h a (readFirst_of_tail ha hx)

/-- **Accesses need the bytes that they read first**, and no others. -/
theorem answers_of_agree (h : m.Answers t)
    (ha : ∀ a, readFirst a t = true → m.get a = n.get a) : n.Answers t := by
  induction t generalizing m n with
  | nil => trivial
  | cons x t ih =>
    obtain ⟨kind, a, value⟩ := x
    -- A write makes the memories agree at its address, so nothing is needed of them there.
    cases kind
    case write =>
      exact ih h fun b hb => get_set_congr value fun hne => agree_tail ha hb fun _ => hne
    all_goals
      have hr : m.get a = n.get a := ha a (readFirst_of_head Kind.noConfusion)
      exact ⟨hr ▸ h.1, ih h.2 fun b hb => agree_tail ha hb Kind.noConfusion⟩

/-- **Accesses leave the same bytes at all their addresses.** -/
theorem get_after_of_mem {x : Access} (hx : x ∈ t)
    (ha : ∀ a, readFirst a t = true → m.get a = n.get a) :
    (m.after t).get x.address = (n.after t).get x.address := by
  induction t generalizing m n with
  | nil => exact absurd hx List.not_mem_nil
  | cons y t ih =>
    obtain ⟨kind, a, value⟩ := y
    rcases List.mem_cons.mp hx with rfl | ht
    · cases kind
      case write =>
        exact get_after_congr (m := m.set a value) (get_set_congr value (absurd rfl))
      all_goals exact get_after_congr (ha a (readFirst_of_head Kind.noConfusion))
    · cases kind
      case write =>
        exact ih ht fun b hb => get_set_congr value fun hne => agree_tail ha hb fun _ => hne
      all_goals exact ih ht fun b hb => agree_tail ha hb Kind.noConfusion

end Memory

/-! ## Machines with the same fields -/

namespace Machine

open Access

/-- **Machines with the same fields**, each on a bus and with a journal of its own. -/
structure Twins (m n : Recorded) : Prop where
  registers : m.registers = n.registers
  latches : m.latches = n.latches
  owed : m.owed = n.owed
  clocks : m.clocks = n.clocks
  options : m.options = n.options

/-- A twin is the machine in another world. -/
theorem Twins.eq_within {m n : Recorded} (h : Twins m n) : n = m.within ⟨n.bus, n.journal⟩ := by
  obtain ⟨hr, hl, ho, hc, hp⟩ := h
  unfold within
  rw [hr, hl, ho, hc, hp]

/-- **A run depends on the bytes it reads before it writes there.** Let `t` be the accesses of a
history. A machine with the same fields, on a memory with the same bytes at the addresses that `t`
reads first, returns the same to every command, makes the same accesses and ends with the same
fields. Both memories then agree wherever `t` reads or writes, and neither has changed where `t`
does not write. -/
theorem only_reads_matter {m n : Recorded} (h : Twins m n) (history : List Command) :
    ∃ t, (m.performAll history).2.bus.accesses = m.bus.accesses ++ t ∧
      (∀ a, (∀ x ∈ t, x.kind = .write → x.address ≠ a) →
        (m.performAll history).2.bus.inner.get a = m.bus.inner.get a) ∧
      ((∀ a, readFirst a t = true → m.bus.inner.get a = n.bus.inner.get a) →
        (n.performAll history).1 = (m.performAll history).1 ∧
        (n.performAll history).2.bus.accesses = n.bus.accesses ++ t ∧
        Twins (m.performAll history).2 (n.performAll history).2 ∧
        (∀ x ∈ t, (m.performAll history).2.bus.inner.get x.address =
          (n.performAll history).2.bus.inner.get x.address) ∧
        ∀ a, (∀ x ∈ t, x.kind = .write → x.address ≠ a) →
          (n.performAll history).2.bus.inner.get a = n.bus.inner.get a) := by
  obtain ⟨t, e, ht, replay⟩ := m.replayable_performAll history ⟨m.bus, m.journal⟩
  have ran (w : World) (hw : w.Answers t) : (m.within w).performAll history =
      ((m.performAll history).1, (m.performAll history).2.within (w.after t e)) := replay w hw
  have hm : (m.performAll history).2.bus = (World.after ⟨m.bus, m.journal⟩ t e).bus :=
    congrArg (fun r => r.2.bus) (ran ⟨m.bus, m.journal⟩ ht)
  rw [hm]
  refine ⟨t, World.accesses_after, fun a => Memory.get_after_of_unwritten, fun ha => ?_⟩
  have hn := ran ⟨n.bus, n.journal⟩ (Memory.answers_of_agree ht ha)
  rw [← h.eq_within] at hn
  rw [hn]
  exact ⟨rfl, World.accesses_after (e := e), ⟨rfl, rfl, rfl, rfl, rfl⟩,
    fun x hx => Memory.get_after_of_mem hx ha, fun a => Memory.get_after_of_unwritten⟩

/-- A machine at LDA #$07, STA $20, INC $20, with a given byte at $20. -/
def counting (v : Byte) : Recorded :=
  (atRest ⟨0, 0, 0, 0xFD, 0x8000, Status.initial⟩
    ((Memory.zero.overlay 0x8000 [0xA9, 0x07, 0x85, 0x20, 0xE6, 0x20]).set 0x20 v)).recorded

/-- The byte that was at $20 is overwritten before it is read. -/
theorem accesses_counting :
    Twins (counting 0x00) (counting 0xFF) ∧
      ((counting 0xFF).performAll [.step, .step, .step]).2.bus.accesses =
        ((counting 0x00).performAll [.step, .step, .step]).2.bus.accesses := by
  have h : Twins (counting 0x00) (counting 0xFF) := ⟨rfl, rfl, rfl, rfl, rfl⟩
  obtain ⟨t, ht, -, same⟩ := only_reads_matter h [.step, .step, .step]
  have hw : readFirst 0x20 t = false := by
    have : t = ((counting 0x00).performAll [.step, .step, .step]).2.bus.accesses := ht.symm
    rw [this]
    decide +kernel
  refine ⟨h, (same fun a ha => ?_).2.1.trans ht.symm⟩
  have hne : a ≠ 0x20 := by
    rintro rfl
    exact absurd (ha.symm.trans hw) (by decide)
  exact (Memory.get_set_of_ne _ _ hne).trans (Memory.get_set_of_ne _ _ hne).symm

end Machine

end Core6502
