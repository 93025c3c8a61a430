import Core6502.Bus
import Core6502.Hex

/-!
# Flat memory

`Memory` is 65536 bytes of storage (`bus::FlatMemory`), held as 256 pages of 256 bytes. All its
operations are seen through `Memory.get`: two memories with the same `get` are equal
(`Memory.ext_get`), and `get_zero`, `get_set_self` and `get_set_of_ne` say what the operations do to
it.

An image is loaded whole or not at all: `load` fails exactly when the image runs past the top
address. As a bus, memory does not react to being read.
-/

namespace Core6502

/-- A program image that does not fit between its start and the top of memory
(`BusError::ImageOverflow`). -/
structure ImageOverflow where
  /-- Where the image was to begin. -/
  start : Word
  /-- Its number of bytes. -/
  length : Nat
  deriving DecidableEq

namespace ImageOverflow

/-- The error as text. -/
def message (error : ImageOverflow) : String :=
  toString error.length ++ " byte image at $" ++ Hex.word error.start
    ++ " does not fit below $10000"

end ImageOverflow

/-- 65536 bytes of storage, page by page. -/
structure Memory where
  /-- The pages, each from its lowest address. -/
  pages : Vector (Vector Byte 256) 256

namespace Memory

/-- The page that holds an address. -/
def pageOf (address : Word) : Fin 256 :=
  have h := address.toNat_lt
  ⟨address.toNat / 256, by omega⟩

/-- The place of an address in its page. -/
def offsetOf (address : Word) : Fin 256 := ⟨address.toNat % 256, by omega⟩

/-- Memory that holds zero everywhere (`FlatMemory::new`). -/
def zero : Memory := ⟨Vector.replicate 256 (Vector.replicate 256 0)⟩

/-- The byte at an address. -/
def get (m : Memory) (address : Word) : Byte :=
  m.pages[pageOf address][offsetOf address]

/-- The memory with one byte replaced. -/
def set (m : Memory) (address : Word) (value : Byte) : Memory :=
  ⟨m.pages.set (pageOf address) (m.pages[pageOf address].set (offsetOf address) value)⟩

/-- The memory with `image` copied in from `start` upwards. -/
def overlay (m : Memory) (start : Word) : List Byte → Memory
  | [] => m
  | b :: rest => (m.set start b).overlay (start + 1) rest

/-- Copy an image in from `start` upwards (`FlatMemory::load`). An image that would run past the top
address is refused before its first byte is written. -/
def load (m : Memory) (start : Word) (image : List Byte) : Except ImageOverflow Unit × Memory :=
  if start.toNat + image.length ≤ 65536 then (.ok (), m.overlay start image)
  else (.error ⟨start, image.length⟩, m)

/-- Store a word at `vector` and the address after it, low byte first (`FlatMemory::set_vector`). -/
def setVector (m : Memory) (vector target : Word) : Memory :=
  (m.set vector (Word.low target)).set (vector + 1) (Word.high target)

/-- The `count` bytes from `start` upwards. -/
def bytes (m : Memory) (start : Word) (count : Nat) : List Byte :=
  (List.range count).map fun i => m.get (start + UInt16.ofNat i)

/-- The 256 bytes of a page. -/
def page (m : Memory) (number : Byte) : List Byte := m.bytes (Word.ofBytes 0 number) 256

instance : Inhabited Memory := ⟨zero⟩

/-- Memory answers every access at once and is changed by writes only. -/
instance : Bus Memory where
  read m address := (m.get address, m)
  peek m address := (m.get address, m)
  write m address value := m.set address value

/-! ## Memory through its bytes -/

theorem eq_of_page_of_offset {a b : Word} (hp : pageOf a = pageOf b)
    (ho : offsetOf a = offsetOf b) : a = b := by
  have h₁ : a.toNat / 256 = b.toNat / 256 := congrArg Fin.val hp
  have h₂ : a.toNat % 256 = b.toNat % 256 := congrArg Fin.val ho
  exact UInt16.toNat_inj.mp (by omega)

@[simp] theorem get_zero (address : Word) : zero.get address = 0 := by
  simp [get, zero]

@[simp] theorem get_set_self (m : Memory) (address : Word) (value : Byte) :
    (m.set address value).get address = value := by
  simp [get, set]

theorem get_set_of_ne (m : Memory) {address other : Word} (value : Byte) (h : other ≠ address) :
    (m.set address value).get other = m.get other := by
  by_cases hp : pageOf other = pageOf address
  · have ho : offsetOf other ≠ offsetOf address := fun ho => h (eq_of_page_of_offset hp ho)
    have ho' : (offsetOf address).val ≠ (offsetOf other).val := fun e => ho (Fin.ext e.symm)
    simp [get, set, hp, Vector.getElem_set_ne _ _ ho']
  · have hp' : (pageOf address).val ≠ (pageOf other).val := fun e => hp (Fin.ext e.symm)
    simp [get, set, Vector.getElem_set_ne _ _ hp']

/-- A memory is the bytes at its addresses. -/
theorem ext_get {m n : Memory} (h : ∀ address, m.get address = n.get address) : m = n := by
  obtain ⟨p⟩ := m
  obtain ⟨q⟩ := n
  congr 1
  apply Vector.ext
  intro i hi
  apply Vector.ext
  intro j hj
  have hij : 256 * i + j < 65536 := by omega
  have e := h (UInt16.ofNat (256 * i + j))
  have ht : (UInt16.ofNat (256 * i + j)).toNat = 256 * i + j := UInt16.toNat_ofNat_of_lt' hij
  have hp : pageOf (UInt16.ofNat (256 * i + j)) = ⟨i, hi⟩ :=
    Fin.ext (by simp only [pageOf, ht]; omega)
  have ho : offsetOf (UInt16.ofNat (256 * i + j)) = ⟨j, hj⟩ :=
    Fin.ext (by simp only [offsetOf, ht]; omega)
  simpa only [get, hp, ho, Fin.getElem_fin] using e

@[simp] theorem read_eq (m : Memory) (address : Word) :
    Bus.read m address = (m.get address, m) := rfl

@[simp] theorem peek_eq (m : Memory) (address : Word) :
    Bus.peek m address = (m.get address, m) := rfl

@[simp] theorem write_eq (m : Memory) (address : Word) (value : Byte) :
    Bus.write m address value = m.set address value := rfl

end Memory

end Core6502
