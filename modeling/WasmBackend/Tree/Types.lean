/-
Types as inferred for occurrences of expressions.
-/
import WasmBackend.Source.Span

namespace WasmBackend

inductive Ty where
  | int
  | bool
  | float
  | list (item : Ty)
  | func (arg result : Ty)
  /-- A variable that inference left open. -/
  | var (n : Nat)
deriving DecidableEq, Repr

/-- Integers and booleans are words in order, so that comparing them needs no tags. -/
def Ty.isWord : Ty → Bool
  | int => true
  | bool => true
  | _ => false

/-- Inferred types by occurrence, the latest entry first. -/
structure TypeMap where
  entries : List (Span × Ty)

namespace TypeMap

def empty : TypeMap := ⟨[]⟩

/-- A later entry for the same span hides an earlier one. -/
def insert (m : TypeMap) (s : Span) (ty : Ty) : TypeMap := ⟨(s, ty) :: m.entries⟩

def get? (m : TypeMap) (s : Span) : Option Ty := (m.entries.find? (·.1.same s)).map (·.2)

end TypeMap

end WasmBackend
