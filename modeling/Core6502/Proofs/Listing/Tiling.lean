import Core6502.Proofs.Listing.Run
import Core6502.Recorder
import Mathlib.Algebra.GroupWithZero.Nat
import Mathlib.Data.List.Sort

/-!
# A listing tiles its range

A listing walks through its range one instruction after another, by a cursor that does not wrap.
`Course` is that walk as a relation, and what holds of every listing is proved by induction on it.

* `Tiles`: the instructions follow each other from the start of the range without gap or overlap,
  until one reaches past the end.
* `Course.drop`, `Course.isPrefix`: a listing from one of its addresses on is the rest of it, and a
  listing to an earlier end is the beginning of it.
* `toList_ofList`: a table of lines keeps a line for every instruction.
* `Recorder.walk_of_course`: on a recorded bus a listing peeks at each of its bytes once, in order.
* **`range_tiles`** puts these together.
-/

universe u

namespace Core6502

/-! ## The length of a decoded instruction -/

namespace Instruction

variable {β : Type u} [Bus β]

theorem length_peekBytes (bus : β) (address : Word) (count : Nat) :
    (peekBytes bus address count).1.length = count := by
  induction count generalizing bus address with
  | zero => rfl
  | succ count ih => exact congrArg (· + 1) (ih _ _)

theorem length_operand_decode (bus : β) (address : Word) :
    (decode bus address).1.operand.length + 1 = (decode bus address).1.size := by
  have h := length_peekBytes (Bus.peek bus address).2 (address + 1)
    (decode bus address).1.mode.operandLength
  exact (congrArg (· + 1) h).trans (Nat.add_comm _ 1)

end Instruction

namespace Listing

open Instruction

/-! ## Courses -/

/-- **A course** of instructions from a cursor on: each is decoded where the one before it ended,
up to the last that begins at `stop` or before. -/
inductive Course (memory : Memory) (stop : Nat) : Nat → List Instruction → Prop
  | done {cursor : Nat} (past : stop < cursor) : Course memory stop cursor []
  | next {cursor : Nat} {rest : List Instruction} (inside : cursor ≤ stop)
      (tail : Course memory stop
        (cursor + (decode memory (UInt16.ofNat cursor)).1.size) rest) :
      Course memory stop cursor ((decode memory (UInt16.ofNat cursor)).1 :: rest)

/-- The walk is a course. -/
theorem course_walk (memory : Memory) (cursor stop : Nat) :
    Course memory stop cursor (walk memory cursor stop).1 := by
  by_cases h : cursor ≤ stop
  · have := size_decode_pos memory (UInt16.ofNat cursor)
    rw [walk_of_le memory h]
    exact .next h (course_walk memory _ stop)
  · rw [walk, dif_neg h]
    exact .done (Nat.lt_of_not_le h)
termination_by stop + 1 - cursor

/-- The total size of a list of instructions. -/
def total (items : List Instruction) : Nat := (items.map Instruction.size).sum

namespace Course

variable {memory : Memory} {stop earlier cursor : Nat} {i : Instruction}
  {items xs ys : List Instruction}

/-- The walk is the only course. -/
theorem eq_walk (h : Course memory stop cursor items) : (walk memory cursor stop).1 = items := by
  induction h with
  | done past => rw [walk, dif_neg (Nat.not_le_of_lt past)]
  | next inside _ ih => rw [walk_of_le memory inside, ih]

theorem decoded (h : Course memory stop cursor items) :
    ∀ i ∈ items, i = (decode memory i.address).1 := by
  induction h with
  | done => exact fun i hi => absurd hi List.not_mem_nil
  | next _ _ ih => exact List.forall_mem_cons.mpr ⟨rfl, ih⟩

/-- A course ends past its range. -/
theorem stop_lt (h : Course memory stop cursor items) : stop < cursor + total items := by
  induction h with
  | done past => exact past
  | next _ _ ih =>
    unfold total at ih ⊢
    rw [List.map_cons, List.sum_cons, ← Nat.add_assoc]
    exact ih

/-- A course to an earlier end is the beginning of the course. -/
theorem isPrefix (h : Course memory earlier cursor ys) (h' : Course memory stop cursor xs)
    (hle : earlier ≤ stop) : ys <+: xs := by
  induction h generalizing xs with
  | done => exact List.nil_prefix
  | next inside _ ih =>
    cases h' with
    | done past => omega
    | next _ tail => exact (List.prefix_cons_inj _).mpr (ih tail)

/-! Within the address space the cursor is the address of the next instruction. -/

section Addresses

variable (hs : stop < 65536)
include hs

theorem address_head (h : Course memory stop cursor (i :: xs)) : i.address.toNat = cursor := by
  cases h with
  | next inside _ => exact UInt16.toNat_ofNat_of_lt' (Nat.lt_of_le_of_lt inside hs)

theorem address_bounds (h : Course memory stop cursor items) :
    ∀ i ∈ items, cursor ≤ i.address.toNat ∧ i.address.toNat ≤ stop := by
  induction h with
  | done => exact fun i hi => absurd hi List.not_mem_nil
  | next inside tail ih =>
    have hi := address_head hs (.next inside tail)
    exact List.forall_mem_cons.mpr ⟨⟨hi.ge, hi.trans_le inside⟩,
      fun j hj => ⟨Nat.le_of_add_right_le (ih j hj).1, (ih j hj).2⟩⟩

theorem ascending (h : Course memory stop cursor items) :
    items.Pairwise fun i j => i.address < j.address := by
  induction h with
  | done => exact .nil
  | @next cursor rest inside tail ih =>
    refine .cons (fun j hj => UInt16.lt_iff_toNat_lt.mpr ?_) ih
    have hpos := size_decode_pos memory (UInt16.ofNat cursor)
    have hj := (address_bounds hs tail j hj).1
    rw [address_head hs (.next inside tail)]
    omega

/-- Each instruction begins where the one before it ended. -/
theorem isChain (h : Course memory stop cursor items) :
    items.IsChain fun i j => j.address.toNat = i.address.toNat + i.size := by
  induction h with
  | done => exact .nil
  | @next cursor rest inside tail ih =>
    have hi := address_head hs (.next inside tail)
    cases rest with
    | nil => exact .singleton _
    | cons j rest =>
      refine List.isChain_cons_cons.mpr ⟨?_, ih⟩
      rw [hi, address_head hs tail]

theorem address_last (h : Course memory stop cursor items) :
    ∀ i, items.getLast? = some i → i.address.toNat + i.size = cursor + total items := by
  induction h with
  | done => exact fun i hi => nomatch hi
  | @next cursor rest inside tail ih =>
    intro i hi
    unfold total at ih ⊢
    rw [List.map_cons, List.sum_cons, ← Nat.add_assoc]
    cases rest with
    | nil =>
      obtain rfl : (decode memory (UInt16.ofNat cursor)).1 = i := Option.some.inj hi
      rw [address_head hs (.next inside tail)]
      rfl
    | cons j rest => exact ih i hi

/-- The course from one of its instructions on is the rest of it. -/
theorem drop (h : Course memory stop cursor (xs ++ i :: ys)) :
    Course memory stop i.address.toNat (i :: ys) := by
  induction xs generalizing cursor with
  | nil =>
    rw [address_head hs h]
    exact h
  | cons x xs ih =>
    cases h with
    | next _ tail => exact ih tail

end Addresses

end Course

/-! ## Tables of lines -/

/-- A table built from lines in ascending order has exactly these lines. -/
theorem toList_ofList {l : List (Word × String)} (h : l.Pairwise fun a b => a.1 < b.1) :
    (Std.TreeMap.ofList l).toList = l := by
  have hd : l.Pairwise fun a b => ¬ compare a.1 b.1 = .eq := by
    refine h.imp fun hab he => ?_
    rw [Std.compare_eq_iff_eq.mp he] at hab
    exact UInt16.lt_irrefl _ hab
  have hget : ∀ k v, (k, v) ∈ l → (Std.TreeMap.ofList l)[k]? = some v := fun _ _ hm =>
    Std.TreeMap.getElem?_ofList_of_mem Std.ReflCmp.compare_self hd hm
  have : Std.Irrefl fun a b : Word × String => a.1 < b.1 := ⟨fun a => UInt16.lt_irrefl a.1⟩
  have : Std.Antisymm fun a b : Word × String => a.1 < b.1 :=
    ⟨fun _ _ hab hba => absurd hba (UInt16.lt_asymm hab)⟩
  have ho := (Std.TreeMap.ordered_keys_toList (t := Std.TreeMap.ofList l)).imp
    Std.compare_eq_lt.mp
  refine ho.eq_of_mem_iff h fun ⟨k, v⟩ => ?_
  rw [Std.TreeMap.mem_toList_iff_getElem?_eq_some]
  refine ⟨fun hv => ?_, hget k v⟩
  have hk : k ∈ Std.TreeMap.ofList l := by
    rw [Std.TreeMap.mem_iff_isSome_getElem?, hv]
    rfl
  obtain ⟨⟨_, w⟩, hm, rfl⟩ :=
    List.mem_map.mp (List.contains_iff_mem.mp (Std.TreeMap.mem_ofList.mp hk))
  obtain rfl : w = v := Option.some.inj ((hget _ w hm).symm.trans hv)
  exact hm

/-! ## Peeks -/

/-- The peeks at `count` addresses from one on, wrapping past the top. -/
def peeks (memory : Memory) (address : Word) (count : Nat) : List Access :=
  (List.range count).map fun k =>
    ⟨.peek, address + UInt16.ofNat k, memory.get (address + UInt16.ofNat k)⟩

theorem peeks_add (memory : Memory) (address : Word) (j k : Nat) :
    peeks memory address (j + k) =
      peeks memory address j ++ peeks memory (address + UInt16.ofNat j) k := by
  unfold peeks
  rw [List.range_add, List.map_append, List.map_map]
  refine congrArg (_ ++ ·) (List.map_congr_left fun i _ => ?_)
  simp only [Function.comp_apply, UInt16.ofNat_add, UInt16.add_assoc]

end Listing

namespace Recorder

open Listing Instruction

/-- The recorder after peeks. -/
def peeked (r : Recorder Memory) (address : Word) (count : Nat) : Recorder Memory :=
  ⟨r.inner, (peeks r.inner address count).reverse ++ r.log⟩

variable (r : Recorder Memory)

theorem accesses_peeked (address : Word) (count : Nat) :
    (r.peeked address count).accesses = r.accesses ++ peeks r.inner address count := by
  unfold accesses peeked
  rw [List.reverse_append, List.reverse_reverse]

theorem peeked_peeked (address : Word) (j k : Nat) :
    (r.peeked address j).peeked (address + UInt16.ofNat j) k = r.peeked address (j + k) := by
  unfold peeked
  rw [peeks_add, List.reverse_append, List.append_assoc]

theorem peeked_succ (address : Word) (count : Nat) :
    (r.peeked address 1).peeked (address + 1) count = r.peeked address (1 + count) :=
  r.peeked_peeked address 1 count

theorem inner_peeked (address : Word) (count : Nat) : (r.peeked address count).inner = r.inner :=
  rfl

theorem peek_eq (address : Word) :
    Bus.peek r address = (r.inner.get address, r.peeked address 1) := by
  have h : peeks r.inner address 1 = [⟨.peek, address, r.inner.get address⟩] := by
    show [(⟨.peek, address + 0, r.inner.get (address + 0)⟩ : Access)] = _
    rw [UInt16.add_zero]
  unfold peeked
  rw [h]
  rfl

theorem peekBytes_eq (address : Word) (count : Nat) :
    peekBytes r address count = ((peekBytes r.inner address count).1, r.peeked address count) := by
  induction count generalizing r address with
  | zero => rfl
  | succ count ih =>
    simp only [peekBytes, peek_eq, Memory.peek_eq, ih, inner_peeked, peeked_succ]
    rw [Nat.add_comm]

theorem decode_eq (address : Word) :
    decode r address =
      ((decode r.inner address).1, r.peeked address (decode r.inner address).1.size) := by
  simp only [decode, peek_eq, Memory.peek_eq, peekBytes_eq, inner_peeked, peeked_succ]
  rfl

/-- **A listing peeks at each of its bytes once**, in order. -/
theorem walk_of_course {memory : Memory} {cursor stop : Nat} {items : List Instruction}
    (h : Course memory stop cursor items) (r : Recorder Memory) (hr : r.inner = memory) :
    walk r cursor stop = (items, r.peeked (UInt16.ofNat cursor) (total items)) := by
  induction h generalizing r with
  | done past =>
    rw [walk, dif_neg (Nat.not_le_of_lt past)]
    rfl
  | next inside _ ih =>
    rw [walk, dif_pos inside]
    simp only [decode_eq, hr]
    rw [ih (r.peeked _ _) hr, UInt16.ofNat_add, peeked_peeked]
    rfl

end Recorder

namespace Listing

/-! ## The tiling -/

/-- **The instructions tile the range** from `start` to `stop`: they follow each other from `start`
without gap or overlap, all of them begin in the range, and the last one reaches past it. -/
structure Tiles (memory : Memory) (start stop : Word) (items : List Instruction) : Prop where
  empty : stop < start → items = []
  first : start ≤ stop → items.head?.map Instruction.address = some start
  next : items.IsChain fun i j => j.address.toNat = i.address.toNat + i.size
  inside : ∀ i ∈ items, i.address ≤ stop
  last : ∀ i, items.getLast? = some i → stop.toNat < i.address.toNat + i.size
  span : ∀ i, items.getLast? = some i → i.address.toNat + i.size = start.toNat + total items
  decoded : ∀ i ∈ items, i = (Instruction.decode memory i.address).1
  sized : ∀ i ∈ items, i.operand.length + 1 = i.size

theorem Course.tiles {memory : Memory} {start stop : Word} {items : List Instruction}
    (h : Course memory stop.toNat start.toNat items) : Tiles memory start stop items where
  empty hlt := by
    cases h with
    | done => rfl
    | next inside => exact absurd inside (Nat.not_le_of_lt (UInt16.lt_iff_toNat_lt.mp hlt))
  first hle := by
    cases h with
    | done past => exact absurd (UInt16.le_iff_toNat_le.mp hle) (Nat.not_le_of_lt past)
    | next =>
      rw [UInt16.ofNat_toNat]
      rfl
  next := h.isChain stop.toNat_lt
  inside i hi := UInt16.le_iff_toNat_le.mpr (h.address_bounds stop.toNat_lt i hi).2
  last i hi := by
    rw [h.address_last stop.toNat_lt i hi]
    exact h.stop_lt
  span := h.address_last stop.toNat_lt
  decoded := h.decoded
  sized i hi := by
    rw [h.decoded i hi]
    exact Instruction.length_operand_decode memory i.address

/-- **A listing tiles its range.** Its table has a line for each of its instructions and no other.
On a recorded bus it peeks once at each byte of these instructions, from the start on, and does
nothing else. Starting afresh at one of its addresses gives the rest of it, and ending earlier gives
a beginning of it. -/
theorem range_tiles (memory : Memory) (start stop : Word) :
    Tiles memory start stop (range memory start stop).1 ∧
    (lines memory start stop).1.toList =
      (range memory start stop).1.map (fun i => (i.address, i.text)) ∧
    (∀ bus : Recorder Memory, bus.inner = memory →
      (range bus start stop).1 = (range memory start stop).1 ∧
      (range bus start stop).2.inner = memory ∧
      (range bus start stop).2.accesses =
        bus.accesses ++ peeks memory start (total (range memory start stop).1) ∧
      lines bus start stop = ((lines memory start stop).1, (range bus start stop).2)) ∧
    (∀ xs i ys, (range memory start stop).1 = xs ++ i :: ys →
      (range memory i.address stop).1 = i :: ys) ∧
    (∀ earlier ≤ stop, (range memory start earlier).1 <+: (range memory start stop).1) := by
  have h : Course memory stop.toNat start.toNat (range memory start stop).1 :=
    course_walk memory start.toNat stop.toNat
  refine ⟨h.tiles, ?_, fun bus hb => ?_, fun xs i ys hi => ?_, fun earlier he => ?_⟩
  · exact toList_ofList (List.pairwise_map.mpr (h.ascending stop.toNat_lt))
  · have hr : range bus start stop = ((range memory start stop).1,
        bus.peeked start (total (range memory start stop).1)) := by
      have := Recorder.walk_of_course h bus hb
      rwa [UInt16.ofNat_toNat] at this
    have ha := bus.accesses_peeked start (total (range memory start stop).1)
    rw [hb] at ha
    unfold lines
    rw [hr]
    exact ⟨rfl, hb, ha, rfl⟩
  · rw [hi] at h
    exact (h.drop stop.toNat_lt).eq_walk
  · exact (course_walk memory start.toNat earlier.toNat).isPrefix h
      (UInt16.le_iff_toNat_le.mp he)

/-- A load and a jump at the top of memory, with the last byte of the jump at the bottom. -/
def topmost : Memory := (Memory.zero.overlay 0xFFFC [0xA9, 0x50, 0x4C, 0x34]).set 0x0000 0x12

/-- The listing up to the top address ends there, and its last peek wraps. -/
theorem accesses_topmost :
    (range (Recorder.start topmost) 0xFFFC 0xFFFF).2.accesses =
        [⟨.peek, 0xFFFC, 0xA9⟩, ⟨.peek, 0xFFFD, 0x50⟩, ⟨.peek, 0xFFFE, 0x4C⟩,
          ⟨.peek, 0xFFFF, 0x34⟩, ⟨.peek, 0x0000, 0x12⟩] ∧
      (range topmost 0xFFFE 0xFFFF).1 = [(Instruction.decode topmost 0xFFFE).1] ∧
      (range topmost 0xFFFC 0xFFFD).1 <+: (range topmost 0xFFFC 0xFFFF).1 := by
  obtain ⟨-, -, recorded, afresh, shorter⟩ := range_tiles topmost 0xFFFC 0xFFFF
  obtain ⟨-, -, peeked, -⟩ := recorded (Recorder.start topmost) rfl
  refine ⟨?_, ?_, shorter 0xFFFD (by decide)⟩
  · rw [peeked]
    decide +kernel
  · exact afresh [(Instruction.decode topmost 0xFFFC).1] (Instruction.decode topmost 0xFFFE).1 []
      (by decide +kernel)

end Listing

end Core6502
