/-
Functions that are made on the way through a tree. A function that is begun
opens a frame for its locals; when its body is there the frame is closed and
the function gets the next number. Frames nest, so that the locals of one
function never end up in another.
-/
import WasmBackend.Library.Names
import WasmBackend.Wasm.Module

namespace WasmBackend

/-- Open frames of locals, the innermost first, and the finished functions in order. -/
structure Definitions where
  frames : List (List Local)
  funcs : List Func

/-- What the functions of a family are called and which words they take. -/
structure Definitions.Family where
  stem : String
  params : List String

namespace Definitions

def Family.literals : Family := ⟨"fn_", [Library.Env.current]⟩

def Family.matchers : Family := ⟨"matcher_", ["env", "value"]⟩

def Family.name (family : Family) (index : Nat) : String := family.stem ++ toString index

/-- With one open frame, for code outside of all functions. -/
def withRoot : Definitions := ⟨[[]], []⟩

def empty : Definitions := ⟨[], []⟩

def depth (d : Definitions) : Nat := d.frames.length

def enter (d : Definitions) : Definitions := { d with frames := [] :: d.frames }

/-- Adds a local to the innermost frame, once. -/
def declare (d : Definitions) (l : Local) : Definitions :=
  match d.frames with
  | [] => d
  | frame :: outer => { d with frames := (if l ∈ frame then frame else frame ++ [l]) :: outer }

/-- Closes the innermost frame. -/
def close (d : Definitions) : List Local × Definitions :=
  (d.frames.head?.getD [], { d with frames := d.frames.drop 1 })

/-- Closes the innermost frame and makes it a function. -/
def leave (family : Family) (d : Definitions) (body : Code) : Definitions where
  frames := d.close.2.frames
  funcs := d.funcs ++ [{
    name := family.name d.funcs.length
    params := family.params.map .word
    result := some .i32
    locals := d.close.1
    body := body }]

def fields (d : Definitions) : List Field := d.funcs.map .func

/-- Function literals as fields, after the signature they share. -/
def literalFields (d : Definitions) : List Field :=
  if d.funcs.isEmpty then [] else .type Library.Closures.type ⟨[.i32], some .i32⟩ :: d.fields

/-- The table that every function literal has a slot in. -/
def tableFields (d : Definitions) : List Field :=
  if d.funcs.isEmpty then []
  else [
    .table Library.Closures.table d.funcs.length,
    .elem Library.Closures.table 0 (d.funcs.map (·.name))]

end Definitions

end WasmBackend
