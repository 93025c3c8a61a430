import Core6502.Proofs.History.Simulation
import Core6502.Proofs.Multibyte.Place
import Mathlib.Data.Nat.ModEq
import Mathlib.Tactic.Ring

/-!
# Shifts and rotations of several bytes

A program shifts a number of several bytes one byte at a time, and the bit that leaves one byte
enters the next through the carry: to the left from the least significant byte up, to the right from
the most significant byte down. A `Sweep` is such a run of links over different places. It says of
each link which instruction stands there when its turn comes, so its own shifts have not overwritten
it. A place is a cell of memory or the accumulator, so what holds of bytes in memory holds of the
accumulator forms too.

With the carry at one end of the number no bit is lost. A rotation to the left moves the carry from
below the number to above it, and one to the right moves it back.

* `Sweep.of_row`: shifts that stand in memory one behind the other are a sweep.
* `Sweep.held_eq`: a sweep leaves alone what is kept in between and not worked on.
* `Sweep.carryAbove_of_rol`, `Sweep.carryBelow_of_ror`: a sweep of rotations, by induction on its
  places.
* `Turns`: many sweeps multiply by a power of two, modulo the largest value of the number with its
  carry.
* **`sweeps_shift`**: what sweeps leave, in whole numbers.
-/

namespace Core6502

open Multibyte

namespace Machine

open Reference

variable {m : Machine Memory} {p : Place} {places : List Place}

/-! ## Sweeps -/

/-- **A sweep** performs shifts at given places, one after the other, each at an instruction
boundary. What happens before each leaves alone the carry and what the `kept` places hold. -/
inductive Sweep (kept : Set Place) :
    List (Operation × Place) → Machine Memory → Machine Memory → Prop where
  | nil (m : Machine Memory) : Sweep kept [] m m
  | cons {m k n : Machine Memory} {o : Operation} {p : Place} {work : List (Operation × Place)}
    (history : List Command) :
    (m.performAll history).2 = k → k.registers.status.carry = m.registers.status.carry →
    (∀ q ∈ kept, k.view.held q = m.view.held q) →
    k.owed = 0 → o.isShift = true → k.entry.operation = o → k.place = p →
    Sweep kept work k.clock n → Sweep kept ((o, p) :: work) m n

/-- The work of one operation at each of the places, but for the first operation. -/
def along (first o : Operation) : List Place → List (Operation × Place)
  | [] => []
  | p :: rest => (first, p) :: rest.map (Prod.mk o)

theorem along_self (o : Operation) (places : List Place) :
    along o o places = places.map (Prod.mk o) := by
  cases places <;> rfl

/-- The machine with what it owes paid and its next instruction begun. -/
def onward (m : Machine Memory) : Machine Memory := (m.settled 0 m.owed).clock

theorem view_onward (m : Machine Memory) :
    m.onward.view = m.view.step m.options.indirectPageWrap :=
  (m.settled 0 m.owed).view_clock (Nat.sub_self _)

theorem options_onward (m : Machine Memory) : m.onward.options = m.options := by
  have hclock : m.onward = (m.settled 0 m.owed).instruction.pay :=
    clock_of_boundary (Nat.sub_self _)
  rw [hclock]
  exact (m.settled 0 m.owed).options_instruction

namespace Sweep

variable {kept : Set Place} {k n : Machine Memory} {first : Operation}
  {work rest : List (Operation × Place)}

/-- Paying changes nothing that is held, so shifts in a row are a sweep whatever is kept. -/
theorem of_onward {o : Operation} (hs : o.isShift = true) (ho : m.entry.operation = o)
    (hp : m.place = p) (h : Sweep kept work m.onward n) : Sweep kept ((o, p) :: work) m n := by
  have hpaid : (m.performAll [.run m.owed]).2 = m.settled 0 m.owed := by
    rw [← m.clock_iterate_of_le (Nat.le_refl _)]
    exact m.run_snd m.owed
  exact .cons [.run m.owed] hpaid rfl (fun _ _ => rfl) (Nat.sub_self _) hs ho hp h

/-- **A row of shifts is a sweep**, with everything kept in between. The machine may differ from the
state in which the row was read, but not in what the row goes by. -/
theorem of_alike {worked : List Place} {s : State} (hw : ∀ w ∈ work, w.2 ∈ worked)
    (hrow : State.Row m.options.indirectPageWrap worked s work)
    (h : State.Alike worked s m.view) : Sweep Set.univ work m (onward^[work.length] m) := by
  induction work generalizing m s with
  | nil => exact .nil m
  | cons w rest ih =>
    obtain ⟨o, p⟩ := w
    obtain ⟨hs, rfl, rfl, hspared, hrest⟩ := hrow
    have hp := hw _ List.mem_cons_self
    have hnext : State.Alike worked s.past m.onward.view := by
      rw [m.view_onward]
      exact h.step hspared hs hp
    have hentry : m.entry = s.entry := h.entry_eq hspared
    rw [← m.options_onward] at hrest
    refine of_onward hs (by rw [hentry]) (h.place_eq hspared hs) ?_
    exact ih (fun w hmem => hw w (List.mem_cons_of_mem _ hmem)) hrest hnext

theorem of_row (h : State.Row m.options.indirectPageWrap (work.map Prod.snd) m.view work) :
    Sweep Set.univ work m (onward^[work.length] m) :=
  of_alike (fun _ hw => List.mem_map_of_mem hw) h ⟨rfl, rfl, fun _ _ => rfl⟩

/-- **The frame of a sweep**: what is kept in between and not worked on stays. -/
theorem held_eq (h : Sweep kept work m n) {q : Place} (hq : q ∈ kept)
    (hw : q ∉ work.map Prod.snd) : n.view.held q = m.view.held q := by
  induction h with
  | nil => rfl
  | @cons m k n o p work history _ _ hkept hk hs ho hp hrest ih =>
    rw [List.map_cons, List.mem_cons, not_or] at hw
    subst ho hp
    rw [ih hw.2, held_clock hk hs hw.1, hkept q hq]

theorem split (h : Sweep kept (work ++ rest) m n) :
    ∃ k, Sweep kept work m k ∧ Sweep kept rest k n := by
  induction work generalizing m with
  | nil => exact ⟨m, .nil m, h⟩
  | cons w work ih =>
    cases h with
    | cons history hk hc hkept ho hs hm hp htail =>
      obtain ⟨k, hwork, hrest⟩ := ih htail
      exact ⟨k, .cons history hk hc hkept ho hs hm hp hwork, hrest⟩

/-- What the first link of a sweep does, and what the rest of it leaves alone. -/
theorem exists_link {o o' : Operation} (hd : p ∉ places) (hkept : ∀ q ∈ p :: places, q ∈ kept)
    (h : Sweep kept ((o, p) :: places.map (Prod.mk o')) m n) :
    ∃ k : Machine Memory, k.owed = 0 ∧ k.entry.operation = o ∧ k.place = p ∧
      k.registers.status.carry = m.registers.status.carry ∧ k.view.held p = m.view.held p ∧
      n.view.held p = k.clock.view.held p ∧ (∀ q ∈ places, k.clock.view.held q = m.view.held q) ∧
      Sweep kept (places.map (Prod.mk o')) k.clock n := by
  cases h with
  | @cons _ k _ _ _ _ history _ hc hheld hk hs ho hp hrest =>
    subst ho hp
    refine ⟨k, hk, rfl, rfl, hc, hheld _ (hkept _ List.mem_cons_self), ?_, ?_, hrest⟩
    · exact hrest.held_eq (hkept _ List.mem_cons_self) (by simpa [Function.comp_def] using hd)
    · intro q hq
      rw [held_clock hk hs (ne_of_mem_of_not_mem hq hd),
        hheld q (hkept q (List.mem_cons_of_mem _ hq))]

/-! ### To the left -/

/-- A link in front of a sweep of rotations to the left. -/
theorem left_cons (hf : first = .asl ∨ first = .rol) (hd : p ∉ places)
    (hkept : ∀ q ∈ p :: places, q ∈ kept)
    (h : Sweep kept ((first, p) :: places.map (Prod.mk .rol)) m n)
    (ih : ∀ {k}, Sweep kept (places.map (Prod.mk .rol)) k n →
      n.carryAbove places = k.carryBelow places) :
    n.carryAbove (p :: places) =
      2 * m.number (p :: places) + first.incoming m.registers.status.carry := by
  obtain ⟨k, hk, rfl, rfl, hc, hfirst, hlast, hothers, hrest⟩ := h.exists_link hd hkept
  -- The carry out of the first link is the bit that the rest lets in
  have hlink := toNat_clock_of_left hk hf
  have htail : n.number places + 256 ^ places.length * n.registers.status.carry.toNat =
      2 * k.clock.number places + k.clock.registers.status.carry.toNat := ih hrest
  rw [hfirst, hc] at hlink
  rw [number_congr hothers] at htail
  unfold carryAbove
  rw [number_cons, number_cons, List.length_cons, Nat.pow_succ, hlast]
  calc _ = (k.clock.view.held k.place).toNat + 256 * (n.number places +
          256 ^ places.length * n.registers.status.carry.toNat) := by ring
    _ = (k.clock.view.held k.place).toNat + 256 * k.clock.registers.status.carry.toNat +
          512 * m.number places := by
        rw [htail]
        ring
    _ = _ := by
        rw [hlink]
        ring

/-- **A sweep of rotations to the left** moves the carry from below the number to above it. -/
theorem carryAbove_of_rol (hd : places.Nodup) (hkept : ∀ q ∈ places, q ∈ kept)
    (h : Sweep kept (places.map (Prod.mk .rol)) m n) :
    n.carryAbove places = m.carryBelow places := by
  induction places generalizing m with
  | nil =>
    cases h
    simp [carryAbove, carryBelow, number, value]
  | cons p places ih =>
    obtain ⟨hp, hd⟩ := List.nodup_cons.mp hd
    exact left_cons (.inr rfl) hp hkept h fun hrest =>
      ih hd (fun q hq => hkept q (List.mem_cons_of_mem p hq)) hrest

/-- A sweep to the left doubles the number. -/
theorem left (hf : first = .asl ∨ first = .rol) (hd : places.Nodup)
    (hkept : ∀ q ∈ places, q ∈ kept) (hl : places ≠ [])
    (h : Sweep kept (along first .rol places) m n) :
    n.carryAbove places = 2 * m.number places + first.incoming m.registers.status.carry := by
  obtain ⟨p, rest, rfl⟩ := List.exists_cons_of_ne_nil hl
  obtain ⟨hp, hd⟩ := List.nodup_cons.mp hd
  exact left_cons hf hp hkept h
    (carryAbove_of_rol hd fun q hq => hkept q (List.mem_cons_of_mem p hq))

/-! ### To the right -/

/-- A link in front of a sweep of rotations to the right. -/
theorem right_cons (hf : first = .lsr ∨ first = .ror) (hd : p ∉ places)
    (hkept : ∀ q ∈ p :: places, q ∈ kept)
    (h : Sweep kept ((first, p) :: places.map (Prod.mk .ror)) m n)
    (ih : ∀ {k}, Sweep kept (places.map (Prod.mk .ror)) k n →
      n.carryBelow places.reverse = k.carryAbove places.reverse) :
    n.carryBelow (p :: places).reverse = m.number (p :: places).reverse +
      256 ^ (p :: places).length * first.incoming m.registers.status.carry := by
  obtain ⟨k, hk, rfl, rfl, hc, hfirst, hlast, hothers, hrest⟩ := h.exists_link hd hkept
  -- The first link works on the most significant byte, so the rest keeps its weight below it
  have hlink := toNat_clock_of_right hk hf
  have htail : 2 * n.number places.reverse + n.registers.status.carry.toNat =
      k.clock.number places.reverse +
        256 ^ places.reverse.length * k.clock.registers.status.carry.toNat := ih hrest
  rw [hfirst, hc] at hlink
  rw [number_congr fun q hq => hothers q (List.mem_reverse.mp hq)] at htail
  unfold carryBelow
  rw [List.reverse_cons, number_concat, number_concat, List.length_cons, Nat.pow_succ, hlast]
  rw [List.length_reverse] at *
  calc _ = 2 * n.number places.reverse + n.registers.status.carry.toNat +
          256 ^ places.length * (2 * (k.clock.view.held k.place).toNat) := by ring
    _ = m.number places.reverse + 256 ^ places.length *
          (2 * (k.clock.view.held k.place).toNat + k.clock.registers.status.carry.toNat) := by
        rw [htail]
        ring
    _ = _ := by
        rw [hlink]
        ring

/-- **A sweep of rotations to the right** moves the carry from above the number to below it. -/
theorem carryBelow_of_ror (hd : places.Nodup) (hkept : ∀ q ∈ places, q ∈ kept)
    (h : Sweep kept (places.map (Prod.mk .ror)) m n) :
    n.carryBelow places.reverse = m.carryAbove places.reverse := by
  induction places generalizing m with
  | nil =>
    cases h
    simp [carryAbove, carryBelow, number, value]
  | cons p places ih =>
    obtain ⟨hp, hd⟩ := List.nodup_cons.mp hd
    have hcons := right_cons (.inr rfl) hp hkept h fun hrest =>
      ih hd (fun q hq => hkept q (List.mem_cons_of_mem p hq)) hrest
    rw [hcons, ← List.length_reverse]
    rfl

/-- A sweep to the right, from the most significant byte down, halves the number. -/
theorem right (hf : first = .lsr ∨ first = .ror) (hd : places.Nodup)
    (hkept : ∀ q ∈ places, q ∈ kept) (hl : places ≠ [])
    (h : Sweep kept (along first .ror places.reverse) m n) :
    n.carryBelow places = m.number places +
      256 ^ places.length * first.incoming m.registers.status.carry := by
  obtain ⟨p, rest, hr⟩ := List.exists_cons_of_ne_nil (mt List.reverse_eq_nil_iff.mp hl)
  obtain rfl : places = (p :: rest).reverse := by rw [← hr, List.reverse_reverse]
  rw [hr] at h
  obtain ⟨hp, hd⟩ := List.nodup_cons.mp ((List.reverse_perm _).nodup_iff.mp hd)
  have hkept : ∀ q ∈ p :: rest, q ∈ kept := fun q hq => hkept q (List.mem_reverse.mpr hq)
  rw [List.length_reverse]
  exact right_cons hf hp hkept h
    (carryBelow_of_ror hd fun q hq => hkept q (List.mem_cons_of_mem p hq))

end Sweep

/-! ## Back again -/

/-- A number with the carry below it tells both. -/
theorem eq_of_carryBelow {n : Machine Memory} (h : n.carryBelow places = m.carryBelow places) :
    n.number places = m.number places ∧
      n.registers.status.carry = m.registers.status.carry := by
  unfold carryBelow at h
  cases hm : m.registers.status.carry <;> cases hn : n.registers.status.carry <;>
    rw [hm, hn] at h <;> simp at h ⊢ <;> omega

/-- So does a number with the carry on top. -/
theorem eq_of_carryAbove {n : Machine Memory} (h : n.carryAbove places = m.carryAbove places) :
    n.number places = m.number places ∧
      n.registers.status.carry = m.registers.status.carry := by
  have hlt : m.number places < 256 ^ places.length := number_lt
  have hlt' : n.number places < 256 ^ places.length := number_lt
  unfold carryAbove at h
  cases hm : m.registers.status.carry <;> cases hn : n.registers.status.carry <;>
    rw [hm, hn] at h <;> simp at h ⊢ <;> omega

theorem carryAbove_lt : m.carryAbove places < 2 * 256 ^ places.length := by
  have hlt : m.number places < 256 ^ places.length := number_lt
  unfold carryAbove
  cases m.registers.status.carry <;> simp <;> omega

/-- Modulo `v - 1`, to multiply by `v` changes nothing; and of the numbers below `v` only zero and
`v - 1` are the same. -/
theorem eq_of_mul_modEq {v a b : Nat} (ha : a < v) (hb : b < v) (h : v * a ≡ b [MOD v - 1])
    (hzero : a = 0 ↔ b = 0) : b = a := by
  have hv : v * a = a + (v - 1) * a := by
    rw [Nat.sub_one_mul]
    have := Nat.le_mul_of_pos_left a (Nat.zero_lt_of_lt ha)
    omega
  have hab : a % (v - 1) = b % (v - 1) := by
    rw [← Nat.add_mul_mod_self_left a (v - 1) a, ← hv]
    exact h
  rcases Nat.lt_or_ge a (v - 1) with ha' | ha' <;> rcases Nat.lt_or_ge b (v - 1) with hb' | hb'
  · rw [Nat.mod_eq_of_lt ha', Nat.mod_eq_of_lt hb'] at hab
    exact hab.symm
  · rw [Nat.mod_eq_of_lt ha', show b = v - 1 by omega, Nat.mod_self] at hab
    omega
  · rw [Nat.mod_eq_of_lt hb', show a = v - 1 by omega, Nat.mod_self] at hab
    omega
  · omega

/-- **Turns of the number and the carry together.** Each doubles the number with the carry on top,
up to a multiple of its largest value. -/
def Turns (places : List Place) (j : Nat) (m n : Machine Memory) : Prop :=
  2 ^ j * m.carryAbove places ≡ n.carryAbove places [MOD 2 * 256 ^ places.length - 1] ∧
    (m.carryAbove places = 0 ↔ n.carryAbove places = 0)

namespace Turns

variable {i j : Nat} {k n : Machine Memory}

theorem refl (m : Machine Memory) : Turns places 0 m m := by
  unfold Turns
  rw [Nat.pow_zero, Nat.one_mul]
  exact ⟨rfl, Iff.rfl⟩

theorem trans (h : Turns places i m k) (h' : Turns places j k n) : Turns places (j + i) m n := by
  refine ⟨?_, h.2.trans h'.2⟩
  rw [Nat.pow_add, Nat.mul_assoc]
  exact (h.1.mul_left _).trans h'.1

theorem single (h : n.carryAbove places = m.carryBelow places) : Turns places 1 m n := by
  have hpos : 0 < 256 ^ places.length := Nat.pow_pos (by decide)
  unfold Turns
  rw [h]
  unfold carryAbove carryBelow
  generalize 256 ^ places.length = w at hpos ⊢
  cases m.registers.status.carry with
  | false => simp [Nat.ModEq]
  | true =>
    have hsum : 2 ^ 1 * (m.number places + w * true.toNat) =
        2 * m.number places + true.toNat + (2 * w - 1) * 1 := by
      rw [Bool.toNat_true]
      omega
    rw [hsum]
    exact ⟨Nat.add_mul_mod_self_left _ _ _, iff_of_false (by simp; omega) (by simp)⟩

/-- **The full turn**, one bit at a time. -/
theorem carryAbove_eq (h : Turns places (8 * places.length + 1) m n) :
    n.carryAbove places = m.carryAbove places := by
  obtain ⟨hmod, hzero⟩ := h
  rw [Nat.pow_succ', Nat.pow_mul, show 2 ^ 8 = 256 from rfl] at hmod
  exact eq_of_mul_modEq carryAbove_lt carryAbove_lt hmod hzero

end Turns

namespace Sweep

variable {kept : Set Place} {n : Machine Memory} (hd : places.Nodup)
  (hkept : ∀ q ∈ places, q ∈ kept)

/-- What holds of one sweep after the other holds of many. -/
theorem rounds {work : List (Operation × Place)} {R : Nat → Machine Memory → Machine Memory → Prop}
    (zero : ∀ m, R 0 m m)
    (succ : ∀ {j m k n}, Sweep kept work m k → R j k n → R (j + 1) m n) {j : Nat}
    (h : Sweep kept (List.replicate j work).flatten m n) : R j m n := by
  induction j generalizing m with
  | zero =>
    cases h
    exact zero _
  | succ j ih =>
    rw [List.replicate_succ, List.flatten_cons] at h
    obtain ⟨k, hfirst, hrest⟩ := h.split
    exact succ hfirst (ih hrest)

include hd hkept

theorem turns_of_rol {j : Nat}
    (h : Sweep kept (List.replicate j (along .rol .rol places)).flatten m n) :
    Turns places j m n := by
  refine rounds (R := Turns places) Turns.refl (fun hfirst hrest => ?_) h
  rw [along_self] at hfirst
  exact (Turns.single (hfirst.carryAbove_of_rol hd hkept)).trans hrest

/-- A sweep to the right turns back. -/
theorem turns_of_ror {j : Nat}
    (h : Sweep kept (List.replicate j (along .ror .ror places.reverse)).flatten m n) :
    Turns places j n m := by
  refine rounds (R := fun j m n => Turns places j n m) Turns.refl
    (fun {j} _ _ _ hfirst hrest => ?_) h
  rw [along_self] at hfirst
  have hback := hfirst.carryBelow_of_ror ((List.reverse_perm _).nodup_iff.mpr hd)
    fun q hq => hkept q (List.mem_reverse.mp hq)
  rw [List.reverse_reverse] at hback
  rw [Nat.add_comm]
  exact hrest.trans (.single hback.symm)

end Sweep

/-! ## Whole numbers -/

/-- The top bit of the number. -/
theorem testBit_number :
    (m.number places).testBit (8 * places.length - 1) =
      decide (256 ^ places.length ≤ 2 * m.number places) := by
  have h := top_eq (places.map m.view.held)
  unfold top at h
  rwa [List.length_map] at h

/-- What a sweep to the left leaves, in whole numbers. -/
theorem wraps_of_carryAbove {n : Machine Memory} {c : Nat} (hl : places ≠ []) (hc : c ≤ 1)
    (h : n.carryAbove places = 2 * m.number places + c) :
    n.number places = (2 * m.number places + c) % 256 ^ places.length ∧
      n.registers.status.carry = (m.number places).testBit (8 * places.length - 1) := by
  have hn : n.number places < 256 ^ places.length := number_lt
  have hw := pow_eq_two_mul (mt List.length_eq_zero_iff.mp hl)
  rw [testBit_number, ← h]
  unfold carryAbove at h ⊢
  cases hcarry : n.registers.status.carry with
  | false =>
    rw [hcarry, Bool.toNat_false, Nat.mul_zero, Nat.add_zero] at h
    rw [Bool.toNat_false, Nat.mul_zero, Nat.add_zero, Nat.mod_eq_of_lt hn]
    exact ⟨rfl, (decide_eq_false (by omega)).symm⟩
  | true =>
    rw [hcarry, Bool.toNat_true, Nat.mul_one] at h
    rw [Bool.toNat_true, Nat.mul_one, Nat.add_mod_right, Nat.mod_eq_of_lt hn]
    exact ⟨rfl, (decide_eq_true (by omega)).symm⟩

/-- What a sweep to the right leaves, in whole numbers. -/
theorem halves_of_carryBelow {n : Machine Memory} {c : Nat} (hl : places ≠ [])
    (h : n.carryBelow places = m.number places + 256 ^ places.length * c) :
    n.number places = m.number places / 2 + c * 2 ^ (8 * places.length - 1) ∧
      n.registers.status.carry.toNat = m.number places % 2 := by
  have hcarry := n.registers.status.carry.toNat_le
  unfold carryBelow at h
  rw [pow_eq_two_mul (mt List.length_eq_zero_iff.mp hl), Nat.mul_assoc, Nat.mul_comm _ c] at h
  omega

/-- **Sweeps shift whole numbers**, wherever their bytes lie and in whatever mode each is named. A
sweep of rotations to the left, from the least significant byte up, doubles the number and lets in
the carry, modulo `256 ^ n`, and the top bit becomes the carry. One to the right, from the most
significant byte down, halves the number and lets in the carry at the top, and the remainder becomes
the carry. A sweep that begins with a shift lets in nothing instead. So a sweep back restores the
number and the carry, and so do `8 * n + 1` sweeps in one direction; and no place that is kept in
between changes but those worked on. Shifts that stand in memory one behind the other are a sweep
with everything kept, unless they work on their own bytes. -/
theorem sweeps_shift (kept : Set Place) (places : List Place) (hl : places ≠ [])
    (hd : places.Nodup) (hkept : ∀ p ∈ places, p ∈ kept) :
    (∀ (m n : Machine Memory) (first : Operation), first = .asl ∨ first = .rol →
      Sweep kept (along first .rol places) m n →
      let v := m.number places
      let c := first.incoming m.registers.status.carry
      n.number places = (2 * v + c) % 256 ^ places.length ∧
        n.registers.status.carry = v.testBit (8 * places.length - 1)) ∧
    (∀ (m n : Machine Memory) (first : Operation), first = .lsr ∨ first = .ror →
      Sweep kept (along first .ror places.reverse) m n →
      let v := m.number places
      let c := first.incoming m.registers.status.carry
      n.number places = v / 2 + c * 2 ^ (8 * places.length - 1) ∧
        n.registers.status.carry.toNat = v % 2) ∧
    (∀ m k n : Machine Memory, Sweep kept (along .rol .rol places) m k →
      Sweep kept (along .ror .ror places.reverse) k n →
      n.number places = m.number places ∧ n.registers.status.carry = m.registers.status.carry) ∧
    (∀ (m n : Machine Memory) (sweep : List (Operation × Place)),
      sweep = along .rol .rol places ∨ sweep = along .ror .ror places.reverse →
      Sweep kept (List.replicate (8 * places.length + 1) sweep).flatten m n →
      n.number places = m.number places ∧ n.registers.status.carry = m.registers.status.carry) ∧
    (∀ (m n : Machine Memory) (work : List (Operation × Place)), Sweep kept work m n →
      ∀ q ∈ kept, q ∉ work.map Prod.snd → n.view.held q = m.view.held q) ∧
    ∀ (m : Machine Memory) (work : List (Operation × Place)),
      State.Row m.options.indirectPageWrap (work.map Prod.snd) m.view work →
      Sweep Set.univ work m (onward^[work.length] m) := by
  refine ⟨?_, ?_, ?_, ?_, fun m n work h q => h.held_eq, fun m work h => .of_row h⟩
  · intro m n first hf h
    exact wraps_of_carryAbove hl (first.incoming_le _) (h.left hf hd hkept hl)
  · intro m n first hf h
    exact halves_of_carryBelow hl (h.right hf hd hkept hl)
  · intro m k n hthere hback
    have hk : k.carryAbove places = m.carryBelow places := hthere.left (.inr rfl) hd hkept hl
    have hn : n.carryBelow places = k.carryAbove places := hback.right (.inr rfl) hd hkept hl
    exact eq_of_carryBelow (hn.trans hk)
  · rintro m n sweep (rfl | rfl) h
    · exact eq_of_carryAbove (h.turns_of_rol hd hkept).carryAbove_eq
    · obtain ⟨hv, hc⟩ := eq_of_carryAbove (h.turns_of_ror hd hkept).carryAbove_eq
      exact ⟨hv.symm, hc.symm⟩

/-- A machine with X = 1 and the carry set, at ROL $10, ROL $0200,X, ROR $0201, ROR $10. -/
def rotating : Machine Memory :=
  atRest ⟨0, 1, 0, 0xFD, 0x8000, { Status.initial with carry := true }⟩
    (((Memory.zero.overlay 0x8000 [0x26, 0x10, 0x3E, 0x00, 0x02, 0x6E, 0x01, 0x02, 0x66, 0x10]).set
      0x0010 0x80).set 0x0201 0x01)

/-- The number is doubled and restored. -/
theorem number_rotating :
    let places := [Place.cell 0x0010, .cell 0x0201]
    let doubled := rotating.onward.onward
    doubled.number places = 0x0301 ∧ doubled.onward.onward.number places = 0x0180 := by
  intro places doubled
  obtain ⟨left, -, back, -, -, row⟩ := sweeps_shift Set.univ places (List.cons_ne_nil _ _)
    (by decide) fun p _ => Set.mem_univ p
  have there : Sweep Set.univ (along .rol .rol places) rotating doubled :=
    row rotating (along .rol .rol places) (by decide +kernel)
  have home : Sweep Set.univ (along .ror .ror places.reverse) doubled doubled.onward.onward :=
    row doubled (along .ror .ror places.reverse) (by decide +kernel)
  exact ⟨(left _ _ .rol (.inr rfl) there).1.trans (by decide +kernel),
    (back _ _ _ there home).1.trans (by decide +kernel)⟩

end Machine

end Core6502
