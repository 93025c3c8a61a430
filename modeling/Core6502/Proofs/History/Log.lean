import Core6502.Proofs.Clock.Completions
import Core6502.Proofs.History.Restart
import Core6502.Proofs.Listing.Agreement

/-!
# The log of a history

A log shows the events of a machine, a line for each. What it shows of a history can be told
without looking at how the machine notes its events: an instruction is told of as it is listed at
the program counter before the clock that performs it, with one more line if its opcode is
unassigned, and a reset or an interrupt by the program counter after it or before it.

A machine may be built in place of another, over any memory; the log then goes on.

* `Instruction.told`, `Machine.told`, `Machine.toldAll`: the lines that tell of an instruction, of
  an atomic command and of requests.
* `log_instruction`: the lines of an instruction are those of the listing. The program counter has
  moved on when they are written, but an unassigned opcode has no operand to move past.
* `log_act`, `Trail.log_eq`: an atomic command adds its lines to the log, and so does a trail.
* **`log_tells_of_requests`** says so of any requests, from the first machine on.
-/

universe u

namespace Core6502

/-! ## What is told -/

/-- A line for tracing. -/
def traceLine (text : String) : String := "TRACE " ++ text

/-- A line for debugging. -/
def debugLine (text : String) : String := "DEBUG " ++ text

/-- The line that tells of a reset to an address. -/
def resetLine (target : Word) : String := debugLine ("reset: PC=$" ++ Hex.word target)

namespace Instruction

/-- The line that tells of the start of an instruction. -/
def startLine (i : Instruction) : String :=
  traceLine ("$" ++ Hex.word i.address ++ ": " ++ Hex.byte i.opcode ++ " " ++ i.mnemonic
    ++ " \x7b" ++ i.mode.tag ++ "\x7d " ++ toString i.baseCycles ++ "cy")

/-- The line that tells of an unassigned opcode. -/
def unassignedLine (i : Instruction) : String :=
  traceLine ("unassigned opcode $" ++ Hex.byte i.opcode ++ " at $" ++ Hex.word i.address)

/-- The lines that tell of an instruction. -/
def told (i : Instruction) : List String :=
  i.startLine :: if (Opcode.lookup i.opcode).isPlaceholder then [i.unassignedLine] else []

end Instruction

/-- What is asked for: that the machine carries out a command, or makes way for a new one. -/
inductive Request where
  | build (memory : Memory) (options : Options)
  | ask (command : Command)

namespace Machine

/-- The log of a machine: the lines of its events, in order. -/
def log {β : Type u} (m : Machine β) : List String := m.events.map Event.line

/-- The machine after a request. A new machine goes on with the log. -/
def answer (m : Machine Memory) : Request → Machine Memory
  | .build memory options => (powerOn memory options).later 0 m.journal
  | .ask c => m.act c

/-- The machine after requests. -/
def answerAll (m : Machine Memory) (requests : List Request) : Machine Memory :=
  requests.foldl answer m

/-- The lines that tell of an atomic command: those of the listed instruction for a clock at an
instruction boundary and none for any other clock, one for a reset with the program counter after
it, and one for an interrupt with the program counter before it. -/
def told (m : Machine Memory) : Command → List String
  | .clock => if m.complete then m.listed.told else []
  | .reset => [resetLine m.reset.registers.pc]
  | .irq =>
    if m.registers.status.interruptDisable then
      [debugLine ("irq masked at PC=$" ++ Hex.word m.registers.pc)]
    else [debugLine ("irq taken at PC=$" ++ Hex.word m.registers.pc)]
  | .nmi => [debugLine ("nmi taken at PC=$" ++ Hex.word m.registers.pc)]
  | _ => []

/-- The lines that tell of requests: one for the reset that builds a machine, and those of the
atomic commands that a command is made of. -/
def toldAll (m : Machine Memory) : List Request → List String
  | [] => []
  | .build memory options :: rest =>
    resetLine (powerOn memory options).registers.pc ::
      (m.answer (.build memory options)).toldAll rest
  | .ask c :: rest => (m.during c).flatMap (fun p => p.1.told p.2) ++ (m.act c).toldAll rest

/-! ## Instructions -/

variable (m : Machine Memory)

/-- What is listed is what the machine is going to perform. -/
theorem listed_eq : ∃ operand, m.listed =
    ⟨m.registers.pc, m.begin.latches.opcode, m.entry.mnemonic, m.entry.mode, operand,
      m.entry.size, m.entry.baseCycles⟩ :=
  ⟨_, rfl⟩

theorem line_started :
    Event.line (.started m.registers.pc m.begin.latches.opcode m.entry) = m.listed.startLine := by
  obtain ⟨operand, hl⟩ := m.listed_eq
  rw [hl]
  rfl

theorem line_unassigned :
    Event.line (.unassigned m.begin.latches.opcode m.registers.pc) = m.listed.unassignedLine := by
  obtain ⟨operand, hl⟩ := m.listed_eq
  rw [hl]
  rfl

theorem isPlaceholder_listed :
    (Opcode.lookup m.listed.opcode).isPlaceholder = true ↔ m.entry.operation = .idle := by
  obtain ⟨operand, hl⟩ := m.listed_eq
  rw [hl]
  exact beq_iff_eq

/-- **An instruction adds its lines to the log**, as it is listed before it is performed. -/
theorem log_instruction : m.instruction.log = m.log ++ m.listed.told := by
  unfold log events Instruction.told
  simp only [isPlaceholder_listed]
  -- The journal has the latest event first, so the start comes out before the unassigned opcode
  rw [journal_instruction, List.reverse_append, List.reverse_cons, List.append_assoc,
    List.map_append, List.singleton_append, List.map_cons, line_started]
  split
  · exact congrArg (fun line => _ ++ [_, line]) m.line_unassigned
  · rfl

/-! ## Commands -/

/-- What adds an event to the journal adds its line to the log. -/
theorem log_of_journal {n : Machine Memory} (event : Event) (h : n.journal = event :: m.journal) :
    n.log = m.log ++ [event.line] := by
  unfold log events
  rw [h, List.reverse_cons, List.map_append]
  rfl

/-- **An atomic command adds its lines to the log.** -/
theorem log_act {c : Command} (hc : c.isAtomic = true) : (m.act c).log = m.log ++ m.told c := by
  cases c
  case step | run => exact absurd hc Bool.noConfusion
  case clock =>
    show (if m.owed = 0 then m.instruction else m).log =
      m.log ++ if m.complete then m.listed.told else []
    by_cases h : m.owed = 0
    · have hb : m.complete = true := beq_iff_eq.mpr h
      rw [if_pos h, if_pos hb]
      exact m.log_instruction
    · have hb : ¬ m.complete = true := fun hb => h (eq_of_beq hb)
      rw [if_neg h, if_neg hb, List.append_nil]
  case reset => exact m.log_of_journal (.reset m.reset.registers.pc) rfl
  case irq =>
    show m.irq.log = m.log ++ if m.registers.status.interruptDisable then _ else _
    unfold irq
    split
    · exact m.log_of_journal (.irqMasked m.registers.pc) rfl
    · exact m.log_of_journal (.irqTaken m.registers.pc) rfl
  case nmi => exact m.log_of_journal (.nmiTaken m.registers.pc) rfl
  all_goals exact (List.append_nil m.log).symm

/-- **A trail adds the lines of its commands.** -/
theorem Trail.log_eq {m n : Machine Memory} {t : List (Machine Memory × Command)}
    (h : Trail m t n) : n.log = m.log ++ t.flatMap fun p => p.1.told p.2 := by
  induction h with
  | nil => exact (List.append_nil _).symm
  | @cons m n c l hc _ ih => rw [ih, log_act m hc, List.flatMap_cons, List.append_assoc]

/-! ## Requests -/

/-- A new machine has a log of one line. -/
theorem log_powerOn (memory : Memory) (options : Options) :
    (powerOn memory options).log = [resetLine (powerOn memory options).registers.pc] := rfl

/-- The log of a machine with events before its own. -/
theorem log_later (past : List Event) :
    (m.later 0 past).log = past.reverse.map Event.line ++ m.log := by
  show ((m.journal ++ past).reverse).map Event.line = _
  rw [List.reverse_append, List.map_append]
  rfl

/-- Requests add their lines to the log. -/
theorem log_answerAll (requests : List Request) :
    (m.answerAll requests).log = m.log ++ m.toldAll requests := by
  induction requests generalizing m with
  | nil => exact (List.append_nil _).symm
  | cons r rest ih =>
    show ((m.answer r).answerAll rest).log = _
    rw [ih]
    cases r with
    | build memory options =>
      have hb : (m.answer (.build memory options)).log =
          m.log ++ [resetLine (powerOn memory options).registers.pc] := by
        rw [← log_powerOn]
        exact log_later (powerOn memory options) m.journal
      rw [hb, List.append_assoc]
      rfl
    | ask c =>
      have hc : (m.answer (.ask c)).log = m.log ++ (m.during c).flatMap fun p => p.1.told p.2 :=
        (m.trail_during c).log_eq
      rw [hc, List.append_assoc]
      rfl

/-- **The log tells of every request.** A log shows a line for the reset of the first machine, and
then, of any requests, their lines in order: for every clock made at an instruction boundary, by a
step or a run too, the start of the instruction as it is listed there, with its opcode and address
again if the opcode is unassigned; nothing for other clocks; and a line for every reset and every
interrupt, a masked request included. -/
theorem log_tells_of_requests (memory : Memory) (options : Options) (requests : List Request) :
    let first := powerOn memory options
    (first.answerAll requests).log =
      resetLine first.registers.pc :: first.toldAll requests := by
  intro first
  have hfirst : first.log = [resetLine first.registers.pc] := log_powerOn memory options
  rw [log_answerAll, hfirst]
  rfl

/-- An unassigned opcode at the top address is told of there, although the program counter has
wrapped. -/
example :
    let memory := (Memory.zero.setVector resetVector 0xFFFF).set 0xFFFF 0x02
    ((powerOn memory {}).answerAll [.ask (.run 10), .ask .irq]).log =
      ["DEBUG reset: PC=$FFFF", "TRACE $FFFF: 02 ??? \x7bIMP\x7d 2cy",
        "TRACE unassigned opcode $02 at $FFFF", "DEBUG irq taken at PC=$0000"] := by
  decide +kernel

end Machine

end Core6502
