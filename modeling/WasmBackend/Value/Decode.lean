/-
Values read back from a word and a snapshot of memory. A list whose cells
lead back to an earlier one has no end, and no value.
-/
import WasmBackend.Tree.Types
import WasmBackend.Value.Basic

namespace WasmBackend

/-- The contents of a memory; addresses from `size` on are not part of it. -/
structure Memory where
  size : Nat
  byte : Nat → UInt8

namespace Memory

def zeros (size : Nat) : Memory := ⟨size, fun _ => 0⟩

def ofBytes (bytes : ByteArray) : Memory := ⟨bytes.size, fun i => bytes.data[i]?.getD 0⟩

/-- Overwrites bytes from an address on. -/
def write (m : Memory) (address : Nat) (bytes : ByteArray) : Memory where
  size := m.size
  byte i := if address ≤ i ∧ i < address + bytes.size then bytes.data[i - address]?.getD 0 else m.byte i

/-- The number that `count` bytes are, the lowest first. -/
def number (m : Memory) (address : Nat) : Nat → Nat
  | 0 => 0
  | count + 1 => (m.byte address).toNat + 256 * m.number (address + 1) count

end Memory

inductive DecodeError where
  | outOfBounds (address : Nat)
  | notInteger (w : Word)
  | notBoxed (w : Word) (expected : Tag)
  | unresolved
deriving DecidableEq, Repr

def DecodeError.message : DecodeError → String
  | outOfBounds address =>
    "address 0x" ++ String.ofList (Nat.toDigits 16 address) ++ " is outside of linear memory"
  | notInteger w => "word " ++ w.hex ++ " is not a integer"
  | notBoxed w expected => "word " ++ w.hex ++ " is not a " ++ expected.name
  | unresolved => "can not decode a value of unresolved type"

namespace Memory

def loadWord (m : Memory) (address : Nat) : Except DecodeError Word :=
  if address + 4 ≤ m.size then .ok (.ofNat 32 (m.number address 4)) else .error (.outOfBounds address)

def loadDouble (m : Memory) (address : Nat) : Except DecodeError Double :=
  if address + 8 ≤ m.size then .ok (.ofNat 64 (m.number address 8)) else .error (.outOfBounds address)

end Memory

namespace Value

/-- The address in a word with this tag. -/
def unbox (w : Word) (t : Tag) : Except DecodeError Nat :=
  if Tag.of? w = some t then .ok w.address else .error (.notBoxed w t)

/-- What reading comes to: nothing if there are more cells than a limit, else a result or an error. -/
abbrev Reading (α : Type) := ExceptT DecodeError Option α

/-- Nothing was read before a limit was reached. -/
def Reading.unfinished {α : Type} : Reading α := ExceptT.mk none

def Reading.ofExcept {α : Type} (e : Except DecodeError α) : Reading α := ExceptT.mk (some e)

/-- The items of a list of at most `limit` cells. -/
def cells (m : Memory) (item : Word → Reading Value) : Nat → Word → Reading (List Value)
  | 0, w => if w = Word.emptyList then pure [] else .unfinished
  | limit + 1, w =>
    if w = Word.emptyList then pure []
    else do
      let address ← .ofExcept (unbox w .list)
      let head ← .ofExcept (m.loadWord (address + 4))
      let first ← item head
      let tail ← .ofExcept (m.loadWord address)
      let rest ← cells m item limit tail
      return first :: rest

/-- Reads a word as a value of a type, following no list for more than `limit` cells. -/
def decodeWithin (m : Memory) (limit : Nat) : Ty → Word → Reading Value
  | .int, w => if w.getLsbD 0 then pure (.int w.unpack) else throw (.notInteger w)
  | .bool, w => pure (.bool (w ≠ Word.falseWord))
  | .float, w => do
    let address ← .ofExcept (unbox w .float)
    let x ← .ofExcept (m.loadDouble address)
    return .float x
  | .list item, w => do
    let items ← cells m (decodeWithin m limit item) limit w
    return .list items
  | .func _ _, w => do
    let address ← .ofExcept (unbox w .closure)
    let env ← .ofExcept (m.loadWord address)
    let index ← .ofExcept (m.loadWord (address + 4))
    return .closure env index
  | .var _, _ => throw .unresolved

/-- The value of a word. A list with more cells than memory has bytes meets one of them twice, and
so never ends: then there is no result. -/
def decode? (m : Memory) (ty : Ty) (w : Word) : Option (Except DecodeError Value) :=
  (decodeWithin m (m.size + 1) ty w).run

end Value

end WasmBackend
