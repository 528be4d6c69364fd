/-
Modules as ordered lists of fields. A field refers to others by name, so
that putting two modules together is appending their fields.
-/
import WasmBackend.Wasm.Instr

namespace WasmBackend

/-- A parameter or local of a function. -/
structure Local where
  name : String
  ty : ValType
deriving DecidableEq, Repr

def Local.word (name : String) : Local := ⟨name, .i32⟩

structure Signature where
  params : List ValType
  result : Option ValType
deriving DecidableEq, Repr

structure Func where
  name : String
  params : List Local
  result : Option ValType
  locals : List Local
  body : Code

namespace Func

/-- A function from words to one word. -/
def words (name : String) (params locals : List String) (body : Code) : Func where
  name := name
  params := params.map .word
  result := some .i32
  locals := locals.map .word
  body := body

def signature (f : Func) : Signature := ⟨f.params.map (·.ty), f.result⟩

def size (f : Func) : Nat := Instr.sizeAll f.body

end Func

inductive ExportKind where
  | func
  | memory
  | global
deriving DecidableEq, Repr

def ExportKind.text : ExportKind → String
  | func => "func"
  | memory => "memory"
  | global => "global"

/-- A top-level declaration of a module. -/
inductive Field where
  | type (name : String) (signature : Signature)
  | func (f : Func)
  /-- A global word. -/
  | global (name : String) (isMutable : Bool) (init : Word)
  | memory (name : String) (pages : Nat)
  /-- A table of function references. -/
  | table (name : String) (size : Nat)
  /-- Fills `table` with `funcs`, starting at `offset`. -/
  | elem (table : String) (offset : Word) (funcs : List String)
  | exports (name : String) (kind : ExportKind) (target : String)

def Field.func? : Field → Option Func
  | .func f => some f
  | _ => none

/-- Changes the body of a function and leaves other fields alone. -/
def Field.mapBody (g : Code → Code) : Field → Field
  | .func f => .func { f with body := g f.body }
  | field => field

structure Module where
  fields : List Field

namespace Module

def funcs (m : Module) : List Func := m.fields.filterMap Field.func?

def func? (m : Module) (name : String) : Option Func := m.funcs.find? (·.name = name)

/-- The functions' names and sizes, in order. -/
def sizes (m : Module) : List (String × Nat) := m.funcs.map fun f => (f.name, f.size)

end Module

end WasmBackend
