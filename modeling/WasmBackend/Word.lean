/-
Machine words. Every value of a running program is one 32-bit word, and its
low bits say how to read the rest: a set lowest bit marks an integer, the
tags mark the address of a boxed float, list cell or closure, and the zero
word is both `false` and the empty list.
-/
namespace WasmBackend

abbrev Word := BitVec 32

/-- The tag of a boxed word. -/
inductive Tag where
  | float
  | list
  | closure
deriving DecidableEq, Repr

namespace Tag

def bits : Tag → Word
  | float => 0b0010
  | list => 0b0100
  | closure => 0b1110

def name : Tag → String
  | float => "float"
  | list => "list"
  | closure => "closure"

/-- The bits a tag occupies. -/
def mask : Word := 0b1110

/-- How far an address is shifted up to make room for its tag. -/
def shift : Nat := 4

/-- The tag of a boxed word. Integers, the zero word and unused bit patterns have none. -/
def of? (w : Word) : Option Tag :=
  if w.getLsbD 0 = true ∨ w = 0 then none
  else if w &&& mask = float.bits then some float
  else if w &&& mask = list.bits then some list
  else if w &&& mask = closure.bits then some closure
  else none

end Tag

namespace Word

/-- The bit that marks an integer. -/
def intFlag : Word := 1

def falseWord : Word := 0

def trueWord : Word := 0b0011

def emptyList : Word := 0

/-- The environment of the outermost scope. -/
def rootEnv : Word := -1

/-- The first address that is handed out, so that no boxed word is zero. -/
def heapStart : Word := 4

/-- Packs an integer, dropping its top bit. -/
def int (n : Word) : Word := n <<< 1 ||| intFlag

def bool (b : Bool) : Word := if b then trueWord else falseWord

/-- Packs an address under a tag, dropping the address bits that are shifted out. -/
def boxed (address : Word) (tag : Tag) : Word := address <<< Tag.shift ||| tag.bits

/-- The integer in a packed word. -/
def unpack (w : Word) : Word := w.sshiftRight 1

/-- The address in a boxed word. -/
def address (w : Word) : Nat := (w >>> Tag.shift).toNat

/-- Lower-case hexadecimal digits of the word read without a sign, after `0x`. -/
def hex (w : Word) : String := "0x" ++ String.ofList (Nat.toDigits 16 w.toNat)

end Word

end WasmBackend
