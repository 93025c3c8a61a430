import Core6502.Proofs.Listing.Tiling
import Mathlib.Data.List.Nodup

/-!
# A listing can be read back

The lines of a listing determine the code they list. A line is read back part by part: the tag of
the mode is cut off at its end and the mnemonic at its front, and what is left is the operand in
the notation of that mode. The mnemonic and the mode in turn name one opcode, except for the few
that have `hasTwins`.

* `Operation.mnemonic_injective`, `AddressingMode.tag_injective`: the names are told apart.
* `Opcode.eq_of_mnemonic_of_mode`: the opcode that a mnemonic and a mode name.
* `shown_of_text`: what a line says.
* `lines_ext`: a table of lines is the list of its lines.
* `Course.congr`: a listing looks at no byte but those of its range and two more.
* **`lines_determine_code`** puts these together.
-/

namespace Core6502

/-! ## Names -/

namespace Operation

/-- Every operation. -/
def all : List Operation :=
  [adc, and, asl, bcc, bcs, beq, bit, bmi, bne, bpl, brk, bvc, bvs, clc, cld, cli, clv, cmp, cpx,
    cpy, dec, dex, dey, eor, inc, inx, iny, jmp, jsr, lda, ldx, ldy, lsr, nop, ora, pha, php, pla,
    plp, rol, ror, rti, rts, sbc, sec, sed, sei, sta, stx, sty, tax, tay, tsx, txa, txs, tya, idle]

theorem mem_all (o : Operation) : o ∈ all := by
  cases o <;> decide

theorem mnemonic_injective : Function.Injective mnemonic := by
  have h : (all.map mnemonic).Nodup := by decide +kernel
  exact fun o o' e => List.inj_on_of_nodup_map h o.mem_all o'.mem_all e

/-- Whether several opcodes may perform the operation in the same mode. -/
def hasTwins (mode : AddressingMode) : Operation → Bool
  | nop | idle => true
  | sbc => mode = .immediate
  | _ => false

end Operation

namespace AddressingMode

theorem tag_injective : Function.Injective tag := by
  intro mode mode' h
  cases mode <;> cases mode' <;> first | rfl | exact absurd h (by decide)

theorem length_tag (mode : AddressingMode) : mode.tag.length = 3 := by
  cases mode <;> rfl

end AddressingMode

namespace Opcode

theorem length_mnemonic (opcode : Byte) : (lookup opcode).mnemonic.length = 3 := by
  rw [mnemonic_lookup]
  cases (lookup opcode).operation <;> rfl

/-- The opcodes of a mode that are the only ones there for their operation. -/
def singles (mode : AddressingMode) : List Byte :=
  ((List.finRange 256).map fun n => UInt8.ofNat n.val).filter fun b =>
    (lookup b).mode = mode && !(lookup b).operation.hasTwins mode

theorem nodup_singles (mode : AddressingMode) :
    ((singles mode).map fun b => (lookup b).operation).Nodup := by
  cases mode <;> decide +kernel

theorem mem_singles {b : Byte} {mode : AddressingMode} (hm : (lookup b).mode = mode)
    (ht : (lookup b).operation.hasTwins mode = false) : b ∈ singles mode := by
  unfold singles
  rw [List.mem_filter, hm, ht, decide_eq_true rfl]
  refine ⟨List.mem_map.mpr ⟨⟨b.toNat, b.toNat_lt⟩, List.mem_finRange _, ?_⟩, rfl⟩
  exact UInt8.ofNat_toNat

/-- **A mnemonic and a mode name one opcode**, unless it has twins. -/
theorem eq_of_mnemonic_of_mode {b c : Byte} (ho : (lookup b).mnemonic = (lookup c).mnemonic)
    (hm : (lookup b).mode = (lookup c).mode)
    (ht : (lookup b).operation.hasTwins (lookup b).mode = false) : b = c := by
  rw [mnemonic_lookup, mnemonic_lookup] at ho
  have ho' : (lookup b).operation = (lookup c).operation := Operation.mnemonic_injective ho
  refine List.inj_on_of_nodup_map (nodup_singles (lookup b).mode) (mem_singles rfl ht) ?_ ho'
  exact mem_singles hm.symm (ho' ▸ ht)

end Opcode

namespace Hex

theorem length_byte (b : Byte) : (byte b).length = 2 := by
  unfold byte
  rw [String.length_ofList]
  rfl

end Hex

/-! ## Lines -/

namespace Instruction

/-- Whether other opcodes may have the mnemonic and the mode of the instruction. -/
def hasTwins (i : Instruction) : Bool :=
  i.mnemonic = "NOP" || i.mnemonic = "???" || i.mnemonic = "SBC" && i.mode = .immediate

/-- What a line says: where the instruction is, what it does and on what. -/
def shown (i : Instruction) : Word × String × AddressingMode × List Byte :=
  (i.address, i.mnemonic, i.mode, i.operand)

/-- Two texts cut behind as many characters. -/
theorem append_inj_left {s t s' t' : String} (h : s ++ t = s' ++ t') (hl : s.length = s'.length) :
    s = s' ∧ t = t' := by
  have hc : s.toList ++ t.toList = s'.toList ++ t'.toList := by
    rw [← String.toList_append, h, String.toList_append]
  obtain ⟨h₁, h₂⟩ := List.append_inj hc (by rwa [String.length_toList, String.length_toList])
  exact ⟨String.toList_inj.mp h₁, String.toList_inj.mp h₂⟩

/-- Two texts cut before as many characters. -/
theorem append_inj_right {s t s' t' : String} (h : s ++ t = s' ++ t')
    (hl : t.length = t'.length) : s = s' ∧ t = t' := by
  refine append_inj_left h ?_
  have := congrArg String.length h
  rw [String.length_append, String.length_append] at this
  omega

variable {i j : Instruction}

/-- A line is cut into its parts. -/
theorem parts_of_text (h : i.text = j.text) (ha : i.address = j.address)
    (hl : i.mnemonic.length = j.mnemonic.length) :
    i.mnemonic = j.mnemonic ∧ i.mode = j.mode ∧ i.operandText = j.operandText := by
  unfold text at h
  rw [String.append_left_inj, ha] at h
  obtain ⟨h, ht⟩ := append_inj_right h
    ((AddressingMode.length_tag _).trans (AddressingMode.length_tag _).symm)
  have hm : i.mode = j.mode := AddressingMode.tag_injective ht
  rw [String.append_left_inj] at h
  simp only [String.append_assoc, String.append_right_inj] at h
  obtain ⟨hn, ho⟩ := append_inj_left h hl
  refine ⟨hn, hm, ?_⟩
  rw [hm] at ho
  by_cases hi : j.mode = .implied
  · unfold operandText
    rw [hm, hi]
  · rw [if_neg hi, if_neg hi] at ho
    exact (String.append_right_inj _).mp ho

theorem operand_of_operandByte (h : i.operandByte = j.operandByte) (hi : i.operand.length = 1)
    (hj : j.operand.length = 1) : i.operand = j.operand := by
  obtain ⟨b, hb⟩ := List.length_eq_one_iff.mp hi
  obtain ⟨c, hc⟩ := List.length_eq_one_iff.mp hj
  unfold operandByte at h
  rw [hb, hc] at h ⊢
  exact congrArg (fun b => [b]) h

theorem operand_of_operandWord (h : i.operandWord = j.operandWord) (hi : i.operand.length = 2)
    (hj : j.operand.length = 2) : i.operand = j.operand := by
  obtain ⟨lo, hi, hb⟩ := List.length_eq_two.mp hi
  obtain ⟨lo', hi', hc⟩ := List.length_eq_two.mp hj
  unfold operandWord at h
  rw [hb, hc] at h ⊢
  have hl := congrArg Word.low h
  have hh := congrArg Word.high h
  rw [Word.low_ofBytes, Word.low_ofBytes] at hl
  rw [Word.high_ofBytes, Word.high_ofBytes] at hh
  rw [hl, hh]

/-- The operand in the notation of its mode has one reading. -/
theorem operand_of_operandText (h : i.operandText = j.operandText) (hm : i.mode = j.mode)
    (hi : i.operand.length = i.mode.operandLength)
    (hj : j.operand.length = j.mode.operandLength) : i.operand = j.operand := by
  rw [hm] at hi
  have ofByte (hl : j.mode.operandLength = 1)
      (hb : Hex.byte i.operandByte = Hex.byte j.operandByte) : i.operand = j.operand :=
    operand_of_operandByte (Hex.byte_injective hb) (hi.trans hl) (hj.trans hl)
  have ofWord (hl : j.mode.operandLength = 2)
      (hw : Hex.word i.operandWord = Hex.word j.operandWord) : i.operand = j.operand :=
    operand_of_operandWord (Hex.word_injective hw) (hi.trans hl) (hj.trans hl)
  unfold operandText at h
  rw [hm] at h
  cases hmode : j.mode <;> rw [hmode] at h hi hj ofByte ofWord <;>
    simp only [String.append_left_inj, String.append_right_inj] at h
  case implied => rw [List.eq_nil_of_length_eq_zero hi, List.eq_nil_of_length_eq_zero hj]
  case relative =>
    simp only [String.append_assoc, String.append_right_inj] at h
    exact ofByte rfl
      (append_inj_left h ((Hex.length_byte _).trans (Hex.length_byte _).symm)).1
  case absolute | absoluteX | absoluteY | indirect => exact ofWord rfl h
  all_goals exact ofByte rfl h

/-! ## Decoded instructions -/

section Decode

variable {m n : Memory} {a b : Word}

theorem getElem?_peekBytes (m : Memory) (a : Word) {count k : Nat} (h : k < count) :
    (peekBytes m a count).1[k]? = some (m.get (a + UInt16.ofNat k)) := by
  induction count generalizing a k with
  | zero => exact absurd h (Nat.not_lt_zero k)
  | succ count ih =>
    cases k with
    | zero =>
      show some (m.get a) = some (m.get (a + 0))
      rw [UInt16.add_zero]
    | succ k =>
      have hk : a + 1 + UInt16.ofNat k = a + UInt16.ofNat (k + 1) := by
        rw [Nat.add_comm k, UInt16.ofNat_add, ← UInt16.add_assoc]
        rfl
      rw [← hk]
      exact ih (a + 1) (Nat.lt_of_succ_lt_succ h)

/-- The bytes of a decoded instruction behind its opcode. -/
theorem getElem?_operand_decode (m : Memory) (a : Word) {k : Nat}
    (h : k + 1 < (decode m a).1.size) :
    (decode m a).1.operand[k]? = some (m.get (a + UInt16.ofNat (k + 1))) := by
  have hk : k < (decode m a).1.mode.operandLength := by
    have : (decode m a).1.size = 1 + (decode m a).1.mode.operandLength := rfl
    omega
  have hp := getElem?_peekBytes m (a + 1) hk
  rw [UInt16.add_assoc] at hp
  rw [Nat.add_comm k, UInt16.ofNat_add]
  exact hp

theorem hasTwins_decode (m : Memory) (a : Word) :
    (decode m a).1.hasTwins =
      (Opcode.lookup (m.get a)).operation.hasTwins (Opcode.lookup (m.get a)).mode := by
  have h : ∀ (o : Operation) (mode : AddressingMode), (decide (o.mnemonic = "NOP") ||
      decide (o.mnemonic = "???") || decide (o.mnemonic = "SBC") && decide (mode = .immediate)) =
        o.hasTwins mode := by
    intro o mode
    cases o <;> rfl
  have hn : (decode m a).1.mnemonic = (Opcode.lookup (m.get a)).operation.mnemonic :=
    Opcode.mnemonic_lookup _
  unfold hasTwins
  rw [hn]
  exact h _ _

/-- **A line says what the instruction is.** -/
theorem shown_of_text (ha : (decode m a).1.address = (decode n b).1.address)
    (h : (decode m a).1.text = (decode n b).1.text) :
    (decode m a).1.shown = (decode n b).1.shown := by
  have hl : (decode m a).1.mnemonic.length = (decode n b).1.mnemonic.length :=
    (Opcode.length_mnemonic _).trans (Opcode.length_mnemonic _).symm
  obtain ⟨hn, hm, ho⟩ := parts_of_text h ha hl
  unfold shown
  rw [ha, hn, hm, operand_of_operandText ho hm (length_peekBytes m _ _) (length_peekBytes n _ _)]

/-- What is shown of an instruction is also in its bytes, but for an opcode with twins. -/
theorem get_of_shown (h : (decode m a).1.shown = (decode n a).1.shown) {k : Nat}
    (hk : k < (decode m a).1.size) (ht : k = 0 → (decode m a).1.hasTwins = false) :
    m.get (a + UInt16.ofNat k) = n.get (a + UInt16.ofNat k) := by
  have hn : (decode m a).1.mnemonic = (decode n a).1.mnemonic := congrArg (fun s => s.2.1) h
  have hm : (decode m a).1.mode = (decode n a).1.mode := congrArg (fun s => s.2.2.1) h
  have ho : (decode m a).1.operand = (decode n a).1.operand := congrArg (fun s => s.2.2.2) h
  cases k with
  | zero =>
    rw [show UInt16.ofNat 0 = 0 from rfl, UInt16.add_zero]
    refine Opcode.eq_of_mnemonic_of_mode hn hm ?_
    rw [← hasTwins_decode]
    exact ht rfl
  | succ k =>
    have hs : (decode m a).1.size = (decode n a).1.size :=
      congrArg (fun mode => 1 + AddressingMode.operandLength mode) hm
    refine Option.some.inj ?_
    rw [← getElem?_operand_decode m a hk, ← getElem?_operand_decode n a (hs ▸ hk), ho]

/-- An instruction is decoded from at most three bytes. -/
theorem decode_congr (h : ∀ k < 3, m.get (a + UInt16.ofNat k) = n.get (a + UInt16.ofNat k)) :
    (decode m a).1 = (decode n a).1 := by
  have h₀ : m.get a = n.get a := by
    have := h 0 (by decide)
    rwa [show UInt16.ofNat 0 = 0 from rfl, UInt16.add_zero] at this
  have hs := Opcode.size_le_three (Opcode.lookup (m.get a))
  have hl : (Opcode.lookup (m.get a)).size = (decode n a).1.size := by
    rw [h₀]
    rfl
  have ho : (decode m a).1.operand = (decode n a).1.operand := by
    refine List.ext_getElem? fun k => ?_
    rcases Nat.lt_or_ge (k + 1) (decode m a).1.size with hk | hk
    · rw [getElem?_operand_decode m a hk, getElem?_operand_decode n a (hl ▸ hk),
        h (k + 1) (Nat.lt_of_lt_of_le hk hs)]
    · have hm := length_operand_decode m a
      have hn := length_operand_decode n a
      rw [← hl] at hn
      have : (decode m a).1.size = (Opcode.lookup (m.get a)).size := rfl
      rw [List.getElem?_eq_none (by omega), List.getElem?_eq_none (by omega)]
  have hb : ∀ m : Memory, (decode m a).1 =
      { address := a
        opcode := m.get a
        mnemonic := (Opcode.lookup (m.get a)).mnemonic
        mode := (Opcode.lookup (m.get a)).mode
        operand := (decode m a).1.operand
        size := (Opcode.lookup (m.get a)).size
        baseCycles := (Opcode.lookup (m.get a)).baseCycles } := fun _ => rfl
  rw [hb m, hb n, ho, h₀]

end Decode

end Instruction

/-! ## Listings -/

namespace Listing

open Instruction

variable {m n : Memory} {start stop : Word}

theorem course_range (m : Memory) (start stop : Word) :
    Course m stop.toNat start.toNat (range m start stop).1 :=
  course_walk m start.toNat stop.toNat

/-- A table of lines is the list of its lines. -/
theorem lines_ext (h : ∀ address : Word, (lines m start stop).1[address]? =
      (lines n start stop).1[address]?) :
    (range m start stop).1.map (fun i => (i.address, i.text)) =
      (range n start stop).1.map fun i => (i.address, i.text) := by
  have ht : ∀ m : Memory, (lines m start stop).1.toList =
      (range m start stop).1.map fun i => (i.address, i.text) := fun m =>
    toList_ofList (List.pairwise_map.mpr ((course_range m start stop).ascending stop.toNat_lt))
  have he : (lines m start stop).1.Equiv (lines n start stop).1 :=
    Std.TreeMap.Equiv.of_forall_constGet?_eq h
  rw [← ht m, ← ht n, he.toList_eq]

theorem lines_congr (h : (range m start stop).1.map (fun i => (i.address, i.text)) =
      (range n start stop).1.map fun i => (i.address, i.text)) :
    (lines m start stop).1 = (lines n start stop).1 :=
  congrArg (fun l : List (Word × String) => Std.TreeMap.ofList l) h

/-- Courses with the same lines show the same. -/
theorem Course.shown_of_texts {stop cursor cursor' : Nat} {xs ys : List Instruction}
    (h : Course m stop cursor xs) (h' : Course n stop cursor' ys)
    (he : xs.map (fun i => (i.address, i.text)) = ys.map fun i => (i.address, i.text)) :
    xs.map shown = ys.map shown := by
  induction h generalizing cursor' ys with
  | done => rw [List.map_eq_nil_iff.mp he.symm]
  | next _ _ ih =>
    cases h' with
    | done => exact absurd he (List.cons_ne_nil _ _)
    | next _ tail =>
      obtain ⟨hi, ht⟩ := List.cons.inj he
      have hs := shown_of_text (congrArg Prod.fst hi) (congrArg Prod.snd hi)
      rw [List.map_cons, List.map_cons, ih tail ht]
      exact congrArg (· :: _) hs

/-- A walk looks at no byte but those from its cursor on to two behind its end. -/
theorem Course.congr {stop cursor : Nat} {items : List Instruction} (h : Course m stop cursor items)
    (ha : ∀ c, cursor ≤ c → c ≤ stop + 2 → m.get (UInt16.ofNat c) = n.get (UInt16.ofNat c)) :
    Course n stop cursor items := by
  induction h with
  | done past => exact .done past
  | @next cursor rest inside tail ih =>
    have hd : (decode m (UInt16.ofNat cursor)).1 = (decode n (UInt16.ofNat cursor)).1 := by
      refine decode_congr fun k hk => ?_
      rw [← UInt16.ofNat_add]
      exact ha _ (Nat.le_add_right _ _) (by omega)
    have ht := ih fun c hc hs => ha c (by omega) hs
    rw [hd] at ht ⊢
    exact .next inside ht

/-- **A listing determines the code.** Memories with the same table of lines for a range have there
the same instructions, with the same mnemonics, modes and operand bytes at the same addresses, and
hold the same byte wherever one of these instructions lies, except that an opcode may be replaced by
a twin; and only the opcodes that `hasTwins` speaks of share their mnemonic and their mode with
others. Conversely, memories that hold the same bytes in the range and at the two addresses behind
it have the same table of lines. -/
theorem lines_determine_code (m n : Memory) (start stop : Word) :
    ((∀ address : Word, (lines m start stop).1[address]? = (lines n start stop).1[address]?) →
      (range m start stop).1.map shown = (range n start stop).1.map shown ∧
      ∀ i ∈ (range m start stop).1, ∀ k < i.size, (k = 0 → i.hasTwins = false) →
        m.get (i.address + UInt16.ofNat k) = n.get (i.address + UInt16.ofNat k)) ∧
    (∀ b c : Byte, b ≠ c → (Opcode.lookup b).mnemonic = (Opcode.lookup c).mnemonic →
      (Opcode.lookup b).mode = (Opcode.lookup c).mode →
        (Opcode.lookup b).operation.hasTwins (Opcode.lookup b).mode = true) ∧
    ((∀ k ≤ stop.toNat - start.toNat + 2,
        m.get (start + UInt16.ofNat k) = n.get (start + UInt16.ofNat k)) →
      (lines m start stop).1 = (lines n start stop).1) := by
  have hm := course_range m start stop
  have hn := course_range n start stop
  refine ⟨fun h => ?_, fun b c hne ho hmode => ?_, fun h => ?_⟩
  · have hs := hm.shown_of_texts hn (lines_ext h)
    refine ⟨hs, fun i hi k hk ht => ?_⟩
    -- The other listing shows the same at the same address.
    obtain ⟨j, hj, hji⟩ := List.mem_map.mp (hs ▸ List.mem_map_of_mem (f := shown) hi)
    have ha : j.address = i.address := congrArg Prod.fst hji
    have hi' := hm.decoded i hi
    have hj' := hn.decoded j hj
    rw [ha] at hj'
    rw [hi'] at hk ht hji
    rw [hj'] at hji
    exact get_of_shown hji.symm hk ht
  · by_contra ht
    exact hne (Opcode.eq_of_mnemonic_of_mode ho hmode (Bool.eq_false_iff.mpr ht))
  · have hc : Course n stop.toNat start.toNat (range m start stop).1 := by
      refine hm.congr fun c hc hs => ?_
      have := h (c - start.toNat) (by omega)
      rwa [← Nat.add_sub_cancel' hc, UInt16.ofNat_add, UInt16.ofNat_toNat]
    have he : (range n start stop).1 = (range m start stop).1 := hc.eq_walk
    exact lines_congr (by rw [he])

/-- A no-operation of the given opcode and LDA #$05. -/
def padded (opcode : Byte) : Memory := Memory.zero.overlay 0x8000 [opcode, 0xA9, 0x05]

/-- The listing does not tell which of its opcodes the no-operation has. -/
theorem shown_padded :
    (range (padded 0xEA) 0x8000 0x8001).1.map shown =
        (range (padded 0x1A) 0x8000 0x8001).1.map shown ∧
      (lines (padded 0xEA) 0x8001 0x8001).1 = (lines (padded 0x1A) 0x8001 0x8001).1 := by
  have hl : (range (padded 0xEA) 0x8000 0x8001).1.map (fun i => (i.address, i.text)) =
      (range (padded 0x1A) 0x8000 0x8001).1.map fun i => (i.address, i.text) := by decide +kernel
  have ht : (lines (padded 0xEA) 0x8000 0x8001).1 = (lines (padded 0x1A) 0x8000 0x8001).1 :=
    lines_congr hl
  obtain ⟨same, -, -⟩ := lines_determine_code (padded 0xEA) (padded 0x1A) 0x8000 0x8001
  obtain ⟨-, -, congr⟩ := lines_determine_code (padded 0xEA) (padded 0x1A) 0x8001 0x8001
  exact ⟨(same fun _ => by rw [ht]).1, congr (by decide +kernel)⟩

end Listing

end Core6502
