import Core6502.Proofs.Reference.Basic

/-!
# Bytes on the stack

The stack page wraps, so a stack has room for 256 bytes wherever the stack pointer stands.
`Holds base xs s` says that the stack pointer was at `base` before the bytes `xs` came on top of it,
and that they are there still, the latest first.

* `Holds.push`, `Holds.pushWord`: a push puts a byte on top while there is room.
* `Holds.head`, `Holds.pop`, `Holds.topWord`, `Holds.popWord`: a pull finds what is on top and
  uncovers the others.
* `Holds.of_quiet`: what leaves the stack pointer and these bytes alone keeps them.
-/

namespace Core6502.Reference

open State

/-- Two cells of the stack page are the same when they are as many bytes above the pointer,
modulo 256. -/
theorem State.cell_inj (s : State) {i j : Int} (h : s.cell i = s.cell j) : i % 256 = j % 256 := by
  have hi := Word.toNat_exact (256 + (s.registers.sp.toNat + i) % 256)
  have hj := Word.toNat_exact (256 + (s.registers.sp.toNat + j) % 256)
  have e : ((s.cell i).toNat : Int) = (s.cell j).toNat := by rw [h]
  unfold cell at e
  omega

theorem State.cell_congr {s t : State} (h : t.registers.sp = s.registers.sp) (i : Int) :
    t.cell i = s.cell i := by
  unfold cell
  rw [h]

/-- **The bytes on the stack** since the stack pointer was at `base`, the latest first. -/
structure Holds (base : Byte) (xs : List Byte) (s : State) : Prop where
  room : xs.length ≤ 256
  sp : s.registers.sp = Byte.exact (base.toNat - xs.length)
  data : ∀ i (h : i < xs.length), s.memory (s.cell (i + 1)) = xs[i]

/-- From `s` to `t` the stack pointer and the `d` bytes above it are left as they are. -/
structure Quiet (d : Nat) (s t : State) : Prop where
  sp : t.registers.sp = s.registers.sp
  data : ∀ i < d, t.memory (s.cell (i + 1)) = s.memory (s.cell (i + 1))

namespace Holds

variable {base v : Byte} {xs : List Byte} {s t : State}

theorem nil (s : State) : Holds s.registers.sp [] s where
  room := Nat.zero_le _
  sp := by rw [List.length_nil, Int.natCast_zero, Int.sub_zero, Byte.exact_toNat]
  data i h := absurd h (Nat.not_lt_zero i)

/-! ## Other activity -/

theorem of_quiet (h : Holds base xs s) (hq : Quiet xs.length s t) : Holds base xs t where
  room := h.room
  sp := hq.sp.trans h.sp
  data i hi := by
    rw [cell_congr hq.sp, hq.data i hi]
    exact h.data i hi

/-- Only the stack pointer and memory matter. -/
theorem congr (h : Holds base xs s) (hsp : t.registers.sp = s.registers.sp)
    (hm : t.memory = s.memory) : Holds base xs t :=
  h.of_quiet ⟨hsp, fun _ _ => congrFun hm _⟩

theorem goto (h : Holds base xs s) (address : Word) : Holds base xs (s.goto address) :=
  h.congr rfl rfl

/-! ## Pushes -/

theorem push (h : Holds base xs s) (hr : xs.length + 1 ≤ 256) (v : Byte) :
    Holds base (v :: xs) (s.push v) where
  room := hr
  sp := by
    have hn : (base.toNat : Int) - xs.length + -1 = base.toNat - (xs.length + 1 : Nat) := by omega
    rw [sp_push, h.sp, List.length_cons, Byte.exact_exact_add, hn]
  data i hi := by
    rw [memory_push, cell_push]
    cases i with
    | zero => exact Function.update_self _ _ _
    | succ i =>
      have hi' : i < xs.length := Nat.lt_of_succ_lt_succ hi
      have hc : s.cell (-1 + (((i + 1 : Nat) : Int) + 1)) = s.cell (i + 1) :=
        congrArg s.cell (by omega)
      have hne : s.cell (i + 1) ≠ s.cell 0 := fun e => by
        have := s.cell_inj e
        omega
      rw [hc, Function.update_of_ne hne]
      exact h.data i hi'

/-- A pushed word lies with its low byte on top. -/
theorem pushWord (h : Holds base xs s) (hr : xs.length + 2 ≤ 256) {n : Int} {w : Word}
    (hn : n % 65536 = w.toNat) : Holds base (Word.low w :: Word.high w :: xs) (s.pushWord n) := by
  have hw : s.pushWord n = s.pushWord w.toNat := s.pushWord_congr (by omega)
  rw [hw, Word.low_eq_exact, Word.high_eq_exact]
  exact (h.push (by omega) _).push hr _

/-! ## Pulls -/

theorem head (h : Holds base (v :: xs) s) : s.memory (s.cell 1) = v :=
  h.data 0 (Nat.succ_pos _)

theorem pop (h : Holds base (v :: xs) s) : Holds base xs (s.lift 1) where
  room := Nat.le_of_succ_le h.room
  sp := by
    have hn : (base.toNat : Int) - (xs.length + 1 : Nat) + 1 = base.toNat - xs.length := by omega
    rw [sp_lift, h.sp, List.length_cons, Byte.exact_exact_add, hn]
  data i hi := by
    have hc : s.cell (1 + ((i : Int) + 1)) = s.cell ((i + 1 : Nat) + 1) :=
      congrArg s.cell (by omega)
    rw [memory_lift, cell_lift, hc]
    exact h.data (i + 1) (Nat.succ_lt_succ hi)

theorem popWord {lo hi : Byte} (h : Holds base (lo :: hi :: xs) s) : Holds base xs (s.lift 2) := by
  have hl : (s.lift 1).lift 1 = s.lift 2 := s.lift_lift 1 1
  rw [← hl]
  exact h.pop.pop

theorem topWord {lo hi : Byte} (h : Holds base (lo :: hi :: xs) s) :
    s.topWord 0 = (Word.ofBytes lo hi).toNat := by
  have hhi : s.memory (s.cell 2) = hi := h.data 1 (by simp)
  have hlo : s.memory (s.cell 1) = lo := h.head
  rw [Word.toNat_ofBytes]
  show ((s.memory (s.cell 1)).toNat : Int) + 256 * (s.memory (s.cell 2)).toNat = _
  rw [hlo, hhi]
  omega

end Holds

end Core6502.Reference
