import Core6502.Memory

/-!
# Recording bus and write protection

Two buses built over another bus. `Recorder` notes every access that passes through it, with the
byte that was read or written. `WriteProtect` drops the writes to one range of addresses. Over a
`WriteProtect`, a recorder still notes the dropped writes.
-/

universe u

namespace Core6502

/-- The kinds of bus access. -/
inductive Access.Kind where
  | read
  | peek
  | write
  deriving DecidableEq

/-- One access: its kind, its address and the byte that passed. -/
structure Access where
  kind : Access.Kind
  address : Word
  value : Byte
  deriving DecidableEq

/-- A bus that notes every access to the bus inside. -/
structure Recorder (β : Type u) where
  inner : β
  /-- The accesses so far, the latest first. -/
  log : List Access

namespace Recorder

variable {β : Type u}

/-- The accesses so far, in order. -/
def accesses (r : Recorder β) : List Access := r.log.reverse

/-- Start recording a bus. -/
def start (bus : β) : Recorder β := ⟨bus, []⟩

/-- Forget the accesses noted so far. -/
def clear (r : Recorder β) : Recorder β := { r with log := [] }

instance [Bus β] : Bus (Recorder β) where
  read r address :=
    let p := Bus.read r.inner address
    (p.1, ⟨p.2, ⟨.read, address, p.1⟩ :: r.log⟩)
  peek r address :=
    let p := Bus.peek r.inner address
    (p.1, ⟨p.2, ⟨.peek, address, p.1⟩ :: r.log⟩)
  write r address value :=
    ⟨Bus.write r.inner address value, ⟨.write, address, value⟩ :: r.log⟩

@[simp] theorem accesses_read [Bus β] (r : Recorder β) (address : Word) :
    (Bus.read r address).2.accesses =
      r.accesses ++ [⟨.read, address, (Bus.read r.inner address).1⟩] :=
  List.reverse_cons

@[simp] theorem accesses_write [Bus β] (r : Recorder β) (address : Word) (value : Byte) :
    (Bus.write r address value).accesses = r.accesses ++ [⟨.write, address, value⟩] :=
  List.reverse_cons

end Recorder

/-- A bus whose addresses from `first` to `last` cannot be written. -/
structure WriteProtect (β : Type u) where
  inner : β
  first : Word
  last : Word

namespace WriteProtect

variable {β : Type u}

/-- Whether an address is protected. -/
def covers (w : WriteProtect β) (address : Word) : Bool := w.first ≤ address && address ≤ w.last

instance [Bus β] : Bus (WriteProtect β) where
  read w address :=
    let p := Bus.read w.inner address
    (p.1, { w with inner := p.2 })
  peek w address :=
    let p := Bus.peek w.inner address
    (p.1, { w with inner := p.2 })
  write w address value :=
    if w.covers address then w else { w with inner := Bus.write w.inner address value }

end WriteProtect

end Core6502
