import Core6502.Word

/-!
# The processor status register

The status register is eight flags. As a byte, from bit 0: carry, zero, interrupt disable, decimal
mode, break, unused, overflow, negative. A `Status` also serves as a set of flags, so that a mask
of several flags can be set, cleared or tested at once. It models the flag set `status::Status`,
with the text that its debug form has.

* `bits` and `ofBits` are inverse (`ofBits_bits`, `bits_ofBits`): the register holds any byte.
* `withResult` is the rule by which a result sets the zero and negative flags.
* `pushedByBreak`, `pushedByInterrupt` and `ofPulled` say how the break and unused flags travel
  through the stack: the live break flag never matters to a pushed copy.
-/

namespace Core6502

/-- The eight status flags. -/
structure Status where
  carry : Bool
  zero : Bool
  interruptDisable : Bool
  decimalMode : Bool
  brk : Bool
  unused : Bool
  overflow : Bool
  negative : Bool
  deriving DecidableEq

namespace Status

/-! ## The register as a byte -/

/-- The register read from a byte. -/
def ofBits (b : Byte) : Status where
  carry := Byte.bit b 0
  zero := Byte.bit b 1
  interruptDisable := Byte.bit b 2
  decimalMode := Byte.bit b 3
  brk := Byte.bit b 4
  unused := Byte.bit b 5
  overflow := Byte.bit b 6
  negative := Byte.bit b 7

/-- The register as a byte. -/
def bits (p : Status) : Byte :=
  UInt8.ofNat (p.carry.toNat + 2 * p.zero.toNat + 4 * p.interruptDisable.toNat
    + 8 * p.decimalMode.toNat + 16 * p.brk.toNat + 32 * p.unused.toNat + 64 * p.overflow.toNat
    + 128 * p.negative.toNat)

@[simp] theorem ofBits_bits : ∀ p : Status, ofBits p.bits = p
  | ⟨a, b, c, d, e, f, g, h⟩ => by
    cases a <;> cases b <;> cases c <;> cases d <;> cases e <;> cases f <;> cases g <;> cases h
      <;> rfl

@[simp] theorem bits_ofBits (b : Byte) : (ofBits b).bits = b := by
  have all : ∀ n : Fin 256, (ofBits (UInt8.ofNat n.val)).bits = UInt8.ofNat n.val := by
    decide +kernel
  have h := all ⟨b.toNat, b.toNat_lt⟩
  rwa [UInt8.ofNat_toNat] at h

/-! ## Sets of flags -/

/-- Combine two registers flag by flag. -/
def zipWith (f : Bool → Bool → Bool) (p q : Status) : Status where
  carry := f p.carry q.carry
  zero := f p.zero q.zero
  interruptDisable := f p.interruptDisable q.interruptDisable
  decimalMode := f p.decimalMode q.decimalMode
  brk := f p.brk q.brk
  unused := f p.unused q.unused
  overflow := f p.overflow q.overflow
  negative := f p.negative q.negative

/-- No flag. -/
def empty : Status := ⟨false, false, false, false, false, false, false, false⟩

/-- Every flag. -/
def full : Status := ⟨true, true, true, true, true, true, true, true⟩

/-- The flags of either. -/
def union (p q : Status) : Status := zipWith (fun a b => a || b) p q

/-- The flags of both. -/
def inter (p q : Status) : Status := zipWith (fun a b => a && b) p q

/-- The flags of exactly one. -/
def symmDiff (p q : Status) : Status := zipWith xor p q

/-- The flags of `p` that are not in `q`. -/
def diff (p q : Status) : Status := zipWith (fun a b => a && !b) p q

/-- The flags that are not in `p`. -/
def compl (p : Status) : Status := diff full p

/-- Set or clear every flag of `mask`. -/
def set (p mask : Status) (on : Bool) : Status := if on then union p mask else diff p mask

/-- Whether every flag of `mask` is set. -/
def contains (p mask : Status) : Bool := inter p mask == mask

/-- Whether some flag of `mask` is set. -/
def intersects (p mask : Status) : Bool := inter p mask != empty

/-! ## Flag names -/

/-- The flags by name, from bit 0. -/
def named : List (String × Status) :=
  [("CARRY", { empty with carry := true }), ("ZERO", { empty with zero := true }),
   ("INTERRUPT_DISABLE", { empty with interruptDisable := true }),
   ("DECIMAL_MODE", { empty with decimalMode := true }), ("BREAK", { empty with brk := true }),
   ("UNUSED", { empty with unused := true }), ("OVERFLOW", { empty with overflow := true }),
   ("NEGATIVE", { empty with negative := true })]

/-- The flag of that exact name. -/
def ofName? (name : String) : Option Status := named.lookup name

/-- The names of the set flags, from bit 0. -/
def names (p : Status) : List String :=
  (named.filter fun flag => p.contains flag.2).map Prod.fst

/-- The register as text: its flags' names joined by bars, or `0x0` when there is none. -/
def text (p : Status) : String :=
  if p = empty then "Status(0x0)" else "Status(" ++ String.intercalate " | " p.names ++ ")"

/-! ## Rules of the processor -/

/-- The register after power-on and reset (`Status::default`): only the unused flag. -/
def initial : Status := { empty with unused := true }

/-- Zero and negative set from an eight-bit result (`Status::set_zn`). -/
def withResult (p : Status) (result : Byte) : Status :=
  { p with zero := result == 0, negative := Byte.bit result 7 }

/-- The copy that software pushes (`Status::pushed_with_break`): break and unused set. -/
def pushedByBreak (p : Status) : Byte := bits { p with brk := true, unused := true }

/-- The copy that an interrupt pushes (`Status::pushed_for_interrupt`): break clear and unused
set. -/
def pushedByInterrupt (p : Status) : Byte := bits { p with brk := false, unused := true }

/-- The register rebuilt from a pulled byte (`Status::from_pulled`): unused always comes back
set. -/
def ofPulled (b : Byte) : Status := { ofBits b with unused := true }

end Status

end Core6502
