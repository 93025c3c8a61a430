import Core6502.Machine.Interrupt
import Core6502.Proofs.Multibyte.Addition
import Core6502.Proofs.Program.Walk
import Mathlib.Data.Nat.ModEq
import Mathlib.Order.Bounds.Basic

/-!
# A program that multiplies by adding

The program keeps one operand in Y as a counter and adds the other to the accumulator as often as
the counter says. Its additions never clear the carry, so what carries out of the accumulator is
added to it in the next round: accumulator and carry together hold the product modulo 255.

* `Sums`: what the accumulator and the carry hold after some additions; `Sums.add`: one more.
* `round`, `loop`: one round of the loop, and all that are left by induction on their number.
* `walk`: the program from its first instruction to its end.
* **`multiplies`**: what a machine has done when it gets there, and in which time.
-/

namespace Core6502.Multiplication

open Reference Reference.State

/-- The program that multiplies `a` and `b`. -/
def program (a b : Byte) : List Byte :=
  [0xA2, a,                -- LDX #a
   0x8E, 0x00, 0x00,       -- STX $0000
   0xA2, b,                -- LDX #b
   0x8E, 0x01, 0x00,       -- STX $0001
   0xAC, 0x00, 0x00,       -- LDY $0000
   0xA9, 0x00,             -- LDA #$00
   0x18,                   -- CLC
   0x6D, 0x01, 0x00,       -- ADC $0001
   0x88,                   -- DEY
   0xD0, 0xFA,             -- BNE to ADC
   0x8D, 0x02, 0x00,       -- STA $0002
   0xEA, 0xEA, 0xEA]       -- NOP, NOP, NOP

/-- Where the program ends. -/
def stop (base : Word) : Word := base + 0x19

/-- How often the program adds: the counter is tested after the addition. -/
def rounds (a : Byte) : Nat := if a = 0 then 256 else a.toNat

/-- The program lies above the bytes that it stores and below the vectors. -/
structure Clear (base : Word) : Prop where
  above : 3 ≤ base.toNat
  below : base.toNat ≤ 0xFFE0

variable {base : Word} {a b : Byte} {wrap : Bool} {s t : State} {i k left : Nat}

theorem ne_stop (hk : k < 0x19) : base + UInt16.ofNat k ≠ stop base := by
  intro h
  have hk' : k = 0x19 := Word.offset_inj base (by omega) (by decide) h
  omega

theorem Clear.toNat_offset (hb : Clear base) (hi : i < 28) :
    (base + UInt16.ofNat i).toNat = base.toNat + i := by
  have hhi := hb.below
  rw [UInt16.toNat_add, UInt16.toNat_ofNat']
  omega

/-- A byte stored below the program leaves it intact. -/
theorem Clear.store (hb : Clear base) (h : Placed base (program a b) k s) {address : Word}
    (ha : address.toNat < 3) (v : Byte) :
    ∀ i c, (program a b)[i]? = some c →
      (s.store address v).memory (base + UInt16.ofNat i) = c := by
  refine h.code_store v fun i hi he => ?_
  have hlo := hb.above
  rw [he, hb.toNat_offset hi] at ha
  omega

/-! ## The sum -/

/-- **The sum after `i` additions** of `b`: a carry comes back at the bottom, and there is none as
long as the sum fits. -/
structure Sums (b : Byte) (i : Nat) (r : Registers) : Prop where
  modEq : r.a.toNat + r.status.carry.toNat ≡ i * b.toNat [MOD 255]
  eq : i * b.toNat ≤ 255 → r.a.toNat = i * b.toNat ∧ r.status.carry = false

theorem Sums.add {r : Registers} (h : Sums b i r) : Sums b (i + 1) (r.add b) where
  modEq := by
    have hsum := r.toNat_add b
    have hnext : r.a.toNat + r.status.carry.toNat + b.toNat ≡ (i + 1) * b.toNat [MOD 255] := by
      rw [Nat.succ_mul]
      exact h.modEq.add_right _
    unfold Nat.ModEq at hnext ⊢
    omega
  eq hle := by
    have hsum := r.toNat_add b
    rw [Nat.succ_mul] at hle ⊢
    obtain ⟨ha, hc⟩ := h.eq (by omega)
    rw [hc, Bool.toNat_false, ha] at hsum
    cases hcarry : (r.add b).status.carry with
    | false =>
      rw [hcarry, Bool.toNat_false] at hsum
      exact ⟨by omega, rfl⟩
    | true =>
      rw [hcarry, Bool.toNat_true] at hsum
      omega

/-! ## The loop -/

/-- **In the loop**, at an offset into the program, with `i` additions done and `left` to do. -/
structure Looping (base : Word) (a b : Byte) (k i left : Nat) (s : State) : Prop extends
    Placed base (program a b) k s where
  addend : s.memory 0x0001 = b
  counter : s.registers.y = Byte.exact left
  sums : Sums b i s.registers

/-- The cycle that the branch back to the addition takes for leaving its page, if it does. -/
def crossing (base : Word) : Nat :=
  if Word.high (base + 0x10) = Word.high (base + 0x16) then 0 else 1

theorem cycles_back (base : Word) : 2 + (if Word.crossesPage (base + UInt16.ofNat 0x16)
    (base + UInt16.ofNat 0x10) then 2 else 1) = 3 + crossing base := by
  show _ = 3 + if Word.high (base + UInt16.ofNat 0x10) = Word.high (base + UInt16.ofNat 0x16)
    then 0 else 1
  unfold Word.crossesPage
  generalize Word.high (base + UInt16.ofNat 0x10) = p
  generalize Word.high (base + UInt16.ofNat 0x16) = q
  by_cases h : p = q
  · simp [h]
  · simp [h, Ne.symm h]

/-- The branch to the addition. -/
theorem target_eq (base : Word) :
    base + UInt16.ofNat 0x16 + Byte.signExtend 0xFA = base + UInt16.ofNat 0x10 := by
  rw [UInt16.add_assoc]
  rfl

/-- **One round**: ADC, DEY and BNE. -/
theorem round (wrap : Bool) (hl : left < 256) (h : Looping base a b 0x10 i (left + 1) s) :
    ∃ t, Walk wrap (stop base) 3 (6 + if left = 0 then 2 else 3 + crossing base) s t ∧
      Looping base a b (if left = 0 then 0x16 else 0x10) (i + 1) left t := by
  -- After ADC, and after DEY
  let r := { s.registers with pc := base + UInt16.ofNat 0x13 }
  let s₁ : State := ⟨r.add b, s.memory⟩
  have h₁ : Placed base (program a b) 0x13 s₁ := ⟨rfl, h.code⟩
  let s₂ := (s₁.goto (base + UInt16.ofNat 0x14)).toY (Byte.exact (s.registers.y.toNat - 1))
  have h₂ : Placed base (program a b) 0x14 s₂ := ⟨rfl, h.code⟩
  have hsums : Sums b (i + 1) s₂.registers :=
    have hr : Sums b i r := ⟨h.sums.modEq, h.sums.eq⟩
    ⟨hr.add.modEq, hr.add.eq⟩
  have hcounter : s₂.registers.y = Byte.exact left := by
    show Byte.exact (s.registers.y.toNat - 1) = _
    rw [h.counter, Int.sub_eq_add_neg, Byte.exact_exact_add]
    exact Byte.exact_congr (by omega)
  have hzero : s₂.registers.status.zero = decide (left = 0) := by
    have hy := Byte.toNat_exact left
    show decide (s₂.registers.y.toNat = 0) = _
    rw [hcounter, decide_eq_decide]
    omega
  have adc : Walk wrap (stop base) 1 4 s s₁ := by
    have w := h.absolute wrap (ne_stop (by decide)) rfl rfl rfl rfl
    have he : (s.goto (base + UInt16.ofNat 0x13)).transfer .absolute 0x0001 (s.memory 0x0001) .adc =
        s₁ := by
      rw [h.addend]
      exact (mk_add r s.memory b).symm
    exact he ▸ w
  have dey : Walk wrap (stop base) 1 2 s₁ s₂ := h₁.implied wrap (ne_stop (by decide)) rfl rfl
  have bne := h₂.relative wrap (ne_stop (by decide)) rfl rfl rfl rfl rfl (target_eq base)
  have hbranches : Operation.branches s₂.registers.status .bne = !decide (left = 0) :=
    congrArg (!·) hzero
  rw [hbranches] at bne
  have hw := (adc.trans dey).trans bne
  -- BNE sees the zero flag of DEY, so it leaves the loop when no round is left
  by_cases h0 : left = 0
  · rw [decide_eq_true h0] at hw
    rw [if_pos h0, if_pos h0]
    exact ⟨_, hw, ⟨rfl, h.code⟩, h.addend, hcounter, ⟨hsums.modEq, hsums.eq⟩⟩
  · rw [decide_eq_false h0] at hw
    rw [if_neg h0, if_neg h0, ← cycles_back]
    exact ⟨_, hw, ⟨rfl, h.code⟩, h.addend, hcounter, ⟨hsums.modEq, hsums.eq⟩⟩

/-- **The whole loop**, by induction on the rounds that are left. -/
theorem loop (wrap : Bool) (hl : left < 256) (h : Looping base a b 0x10 i (left + 1) s) :
    ∃ t, Walk wrap (stop base) (3 * (left + 1))
        (6 * (left + 1) + left * (3 + crossing base) + 2) s t ∧
      Looping base a b 0x16 (i + (left + 1)) 0 t := by
  induction left generalizing i s with
  | zero =>
    rw [Nat.zero_mul]
    exact round wrap hl h
  | succ left ih =>
    obtain ⟨t, hfirst, ht⟩ := round wrap hl h
    rw [if_neg (Nat.succ_ne_zero left)] at hfirst ht
    obtain ⟨u, hrest, hu⟩ := ih (by omega) ht
    have hc : 6 + (3 + crossing base) + (6 * (left + 1) + left * (3 + crossing base) + 2) =
        6 * (left + 1 + 1) + (left + 1) * (3 + crossing base) + 2 := by ring
    have hn : 3 + 3 * (left + 1) = 3 * (left + 1 + 1) := by ring
    have hi : i + 1 + (left + 1) = i + (left + 1 + 1) := by ring
    rw [hi] at hu
    rw [← hn, ← hc]
    exact ⟨u, hfirst.trans hrest, hu⟩

/-! ## The whole program -/

/-- The way to the loop. -/
theorem setup (wrap : Bool) (hb : Clear base) (h : Placed base (program a b) 0 s) :
    ∃ t, Walk wrap (stop base) 7 20 s t ∧ Looping base a b 0x10 0 (rounds a) t := by
  -- Of the states between the instructions only two have stored, both below the program
  let s₁ := (s.goto (base + UInt16.ofNat 2)).toX a
  have h₁ : Placed base (program a b) 2 s₁ := ⟨rfl, h.code⟩
  let s₂ := (s₁.goto (base + UInt16.ofNat 5)).store 0x0000 a
  have h₂ : Placed base (program a b) 5 s₂ := ⟨rfl, hb.store h₁ (by decide) a⟩
  let s₃ := (s₂.goto (base + UInt16.ofNat 7)).toX b
  have h₃ : Placed base (program a b) 7 s₃ := ⟨rfl, h₂.code⟩
  let s₄ := (s₃.goto (base + UInt16.ofNat 10)).store 0x0001 b
  have h₄ : Placed base (program a b) 10 s₄ := ⟨rfl, hb.store h₃ (by decide) b⟩
  let s₅ := (s₄.goto (base + UInt16.ofNat 13)).toY (s₄.memory 0x0000)
  have h₅ : Placed base (program a b) 13 s₅ := ⟨rfl, h₄.code⟩
  let s₆ := (s₅.goto (base + UInt16.ofNat 15)).toA 0
  have h₆ : Placed base (program a b) 15 s₆ := ⟨rfl, h₅.code⟩
  let s₇ := { s₆.goto (base + UInt16.ofNat 16) with registers.status.carry := false }
  have h₇ : Placed base (program a b) 16 s₇ := ⟨rfl, h₆.code⟩
  have w₁ := h.immediate wrap (ne_stop (by decide)) rfl rfl rfl
  have w₂ := h₁.absolute wrap (ne_stop (by decide)) rfl rfl rfl rfl
  have w₃ := h₂.immediate wrap (ne_stop (by decide)) rfl rfl rfl
  have w₄ := h₃.absolute wrap (ne_stop (by decide)) rfl rfl rfl rfl
  have w₅ := h₄.absolute wrap (ne_stop (by decide)) rfl rfl rfl rfl
  have w₆ := h₅.immediate wrap (ne_stop (by decide)) rfl rfl rfl
  have w₇ := h₆.implied wrap (ne_stop (by decide)) rfl rfl
  have hw : Walk wrap (stop base) 7 20 s s₇ :=
    w₁.trans (w₂.trans (w₃.trans (w₄.trans (w₅.trans (w₆.trans w₇)))))
  refine ⟨s₇, hw, h₇, ?_, ?_, ?_, ?_⟩
  · have hstored : s₄.memory 0x0001 = b := memory_store_self _ _ _
    exact hstored
  · have hother : s₄.memory 0x0000 = s₂.memory 0x0000 := memory_store_of_ne _ (by decide) b
    have hself : s₂.memory 0x0000 = a := memory_store_self _ _ _
    show s₄.memory 0x0000 = Byte.exact (rounds a)
    rw [hother, hself]
    unfold rounds
    by_cases ha : a = 0
    · rw [if_pos ha, ha]
      rfl
    · rw [if_neg ha, Byte.exact_toNat]
  · rw [Nat.zero_mul]
    rfl
  · rw [Nat.zero_mul]
    exact fun _ => ⟨rfl, rfl⟩

theorem rounds_pos (a : Byte) : ∃ left < 256, rounds a = left + 1 := by
  have ha := a.toNat_lt
  unfold rounds
  by_cases h : a = 0
  · rw [if_pos h]
    exact ⟨255, by decide, rfl⟩
  · have hne : a.toNat ≠ 0 := fun h0 => h (UInt8.toNat_inj.mp h0)
    rw [if_neg h]
    exact ⟨a.toNat - 1, by omega, by omega⟩

/-- **The walk through the program.** -/
theorem walk (wrap : Bool) (hb : Clear base) (h : Placed base (program a b) 0 s) :
    ∃ t, Walk wrap (stop base) (8 + 3 * rounds a)
        (20 + 6 * rounds a + (rounds a - 1) * (3 + crossing base) + 2 + 4) s t ∧
      t.registers.pc = stop base ∧ t.memory 0x0002 = t.registers.a ∧
      Sums b (rounds a) t.registers := by
  obtain ⟨s₁, hsetup, h₁⟩ := setup wrap hb h
  obtain ⟨left, hl, hk⟩ := rounds_pos a
  rw [hk] at h₁ ⊢
  obtain ⟨s₂, hloop, h₂⟩ := loop wrap hl h₁
  let t := (s₂.goto (stop base)).store 0x0002 s₂.registers.a
  have sta : Walk wrap (stop base) 1 4 s₂ t :=
    h₂.absolute wrap (ne_stop (by decide)) rfl rfl rfl rfl
  have hw := (hsetup.trans hloop).trans sta
  have hn : 7 + 3 * (left + 1) + 1 = 8 + 3 * (left + 1) := by ring
  have hc : 20 + (6 * (left + 1) + left * (3 + crossing base) + 2) + 4 =
      20 + 6 * (left + 1) + (left + 1 - 1) * (3 + crossing base) + 2 + 4 := by
    rw [Nat.add_sub_cancel]
    ring
  have hs := h₂.sums
  rw [Nat.zero_add] at hs
  rw [← hn, ← hc]
  exact ⟨t, hw, rfl, memory_store_self _ _ _, hs.modEq, hs.eq⟩

/-! ## The machine -/

/-- Memory with the program at `base` and the reset vector pointing there. -/
def loaded (base : Word) (a b : Byte) : Memory :=
  (Memory.zero.overlay base (program a b)).setVector resetVector base

theorem Clear.fits (hb : Clear base) : base.toNat + (program a b).length ≤ 65536 :=
  Nat.le_trans (Nat.add_le_add_right hb.below 28) (by decide)

/-- A machine with the program starts at its first instruction. -/
theorem Clear.placed (hb : Clear base) (options : Options) :
    Placed base (program a b) 0 (Machine.powerOn (loaded base a b) options).view where
  pc := by
    have hlow : (loaded base a b).get resetVector = Word.low base := by
      unfold loaded
      rw [Memory.get_setVector, if_neg (by decide), if_pos rfl]
    have hhigh : (loaded base a b).get (resetVector + 1) = Word.high base := by
      unfold loaded
      rw [Memory.get_setVector, if_pos rfl]
    calc Word.ofBytes ((loaded base a b).get resetVector) ((loaded base a b).get (resetVector + 1))
        = base := by rw [hlow, hhigh, Word.ofBytes_low_high]
      _ = base + UInt16.ofNat 0 := (UInt16.add_zero base).symm
  code i c hc := by
    have hhi := hb.below
    have hi : i < 28 := (List.getElem?_eq_some_iff.mp hc).1
    have hn := hb.toNat_offset hi
    have hne : ∀ v : Word, 0xFFFC ≤ v.toNat → base + UInt16.ofNat i ≠ v := by
      rintro v hv rfl
      omega
    have himage : Memory.imageAt base (program a b) (base + UInt16.ofNat i) = some c := by
      unfold Memory.imageAt
      rw [if_pos (UInt16.le_iff_toNat_le.mpr (by omega)), hn, Nat.add_sub_cancel_left, hc]
    show (loaded base a b).get (base + UInt16.ofNat i) = c
    unfold loaded
    rw [Memory.get_setVector, if_neg (hne _ (by decide)), if_neg (hne _ (by decide)),
      Memory.get_overlay _ hb.fits, himage]
    rfl

/-- **The program multiplies**, by as many additions as its first operand says, wherever it lies:
with zero it adds 256 times. Stepping a machine that starts with it comes to its end after eight
instructions and three for each addition; the cycles are those of the reset, of the way to the loop
and of the rounds, all but the last of which branch back, and of the last store. The byte that it
stores is the accumulator; with the carry it is the product modulo 255, and it is the product
itself, without a carry, when this fits into a byte. -/
theorem multiplies (a b : Byte) (base : Word) (options : Options) (hlo : 3 ≤ base.toNat)
    (hhi : base.toNat ≤ 0xFFE0) :
    let memory := Memory.zero.overlay base (program a b)
    let start := Machine.powerOn (memory.setVector resetVector base) options
    let k := if a = 0 then 256 else a.toNat
    let q := if Word.high (base + 0x10) = Word.high (base + 0x16) then 0 else 1
    let final := start.after (8 + 3 * k)
    let r := final.bus.get 0x0002
    let carry := final.registers.status.carry
    Memory.zero.load base (program a b) = (.ok (), memory) ∧
      IsLeast {n | (start.after n).registers.pc = base + 0x19} (8 + 3 * k) ∧
      final.clocks = 8 + 20 + 6 * k + (k - 1) * (3 + q) + 2 + 4 ∧
      final.registers.a = r ∧
      r.toNat + carry.toNat ≡ k * b.toNat [MOD 255] ∧
      (1 ≤ a.toNat → a.toNat * b.toNat ≤ 255 →
        r.toNat = a.toNat * b.toNat ∧ carry = false) := by
  intro memory start k q final r carry
  have hb : Clear base := ⟨hlo, hhi⟩
  have hstart : Placed base (program a b) 0 start.view := hb.placed options
  obtain ⟨t, hwalk, hpc, hstored, hsums⟩ := walk start.options.indirectPageWrap hb hstart
  obtain ⟨hview, htime, hbefore⟩ := Machine.after_of_walk rfl hwalk
  have ha : final.registers.a = t.registers.a := congrArg (fun s : State => s.registers.a) hview
  have hr : r = t.registers.a := (congrArg (fun s : State => s.memory 0x0002) hview).trans hstored
  have hc : carry = t.registers.status.carry :=
    congrArg (fun s : State => s.registers.status.carry) hview
  refine ⟨Memory.load_of_fits _ hb.fits, ⟨?_, ?_⟩, ?_, ha.trans hr.symm, ?_, ?_⟩
  · exact (congrArg (fun s : State => s.registers.pc) hview).trans hpc
  · intro n hn
    by_contra hlt
    exact hbefore n (Nat.lt_of_not_le hlt) hn
  · have howed : final.owed = 0 := start.owed_after (by omega)
    have hpaid : final.clocks + final.owed =
        0 + 8 + (20 + 6 * k + (k - 1) * (3 + q) + 2 + 4) := htime
    rw [howed] at hpaid
    omega
  · rw [hr, hc]
    exact hsums.modEq
  · intro hpos hfits
    have hk : k = a.toNat := if_neg fun h0 => by
      rw [h0] at hpos
      exact absurd hpos (by decide)
    have hrounds : rounds a = a.toNat := hk
    rw [hrounds] at hsums
    rw [hr, hc]
    exact hsums.eq hfits

/-- Ten times three, with the loop across the end of a page. -/
theorem product_across_page :
    let memory := Memory.zero.overlay 0x80EC (program 10 3)
    let final := (Machine.powerOn (memory.setVector resetVector 0x80EC) {}).after 38
    final.bus.get 0x0002 = 30 ∧ final.clocks = 8 + 20 + 60 + 9 * 4 + 2 + 4 := by
  obtain ⟨-, -, hclocks, -, -, hproduct⟩ := multiplies 10 3 0x80EC {} (by decide) (by decide)
  obtain ⟨hr, -⟩ := hproduct (by decide) (by decide)
  exact ⟨UInt8.toNat_inj.mp hr, hclocks⟩

end Core6502.Multiplication
