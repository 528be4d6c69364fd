/-
Sketches: trees that are put together by hand and have no positions of their
own. Building one gives every node and pattern a span of length one at the
next free offset, when it is complete: its parts first, from left to right.
-/
import WasmBackend.Tree.Node
import WasmBackend.Tree.Types

namespace WasmBackend

/-- A pattern without spans. -/
inductive Shape where
  | wildcard
  | nil
  | ident (name : String)
  | cons (head tail : Shape)
deriving DecidableEq, Repr

inductive Sketch where
  | lit (value : Literal)
  | ident (name : String)
  | unary (op : UnaryOp) (operand : Sketch)
  | binary (op : BinaryOp) (left right : Sketch)
  | cond (test yes no : Sketch)
  | letIn (name : String) (value body : Sketch)
  | letRec (name : String) (value body : Sketch)
  | lambda (param : String) (body : Sketch)
  /-- Applies a function to each argument in turn. -/
  | apply (fn : Sketch) (args : List Sketch)
  | cons (head tail : Sketch)
  /-- A list of items, made of cells from the last one to the first. -/
  | list (items : List Sketch)
  | cases (scrutinee : Sketch) (arms : List (Shape × Sketch))
  /-- Moves the finished node to another span, then records its type. -/
  | note (place : Option (Nat × Nat)) (ty : Option Ty) (tree : Sketch)

/-- The next free offset and the types recorded so far. -/
structure Sketch.Progress where
  next : Nat
  types : TypeMap

namespace Sketch

abbrev Build := StateM Progress

/-- A span that was not handed out before. -/
def fresh (source : Source) : Build Span :=
  modifyGet fun p => (⟨source, p.next, 1⟩, { p with next := p.next + 1 })

/-- Moves a node, and records a type for where it is then. -/
def annotate (source : Source) (place : Option (Nat × Nat)) (ty : Option Ty) (node : Node) :
    Build Node := do
  let moved := match place with
    | some (offset, length) => node.withSpan ⟨source, offset, length⟩
    | none => node
  match ty with
  | some t => modify fun p => { p with types := p.types.insert moved.span t }
  | none => pure ()
  return moved

/-- Applications of a function to arguments, from the first one on. -/
def applyAll (source : Source) (fn : Node) : List Node → Build Node
  | [] => pure fn
  | arg :: args => do applyAll source (.app (← fresh source) fn arg) args

/-- Cells for items, the last one first, in front of a list. -/
def consAll (source : Source) : List Node → Node → Build Node
  | [], tail => pure tail
  | item :: items, tail => do
    let rest ← consAll source items tail
    return .cons (← fresh source) item rest

end Sketch

def Shape.build (source : Source) : Shape → Sketch.Build Pattern
  | wildcard => return .wildcard (← Sketch.fresh source)
  | nil => return .nil (← Sketch.fresh source)
  | ident name => return .ident (← Sketch.fresh source) name
  | cons head tail => do
    let h ← head.build source
    let t ← tail.build source
    return .cons (← Sketch.fresh source) h t

namespace Sketch

mutual

def build (source : Source) : Sketch → Build Node
  | lit value => return .lit (← fresh source) value
  | ident name => return .ident (← fresh source) name
  | unary op operand => do
    let e ← operand.build source
    return .unary (← fresh source) op e
  | binary op left right => do
    let l ← left.build source
    let r ← right.build source
    return .binary (← fresh source) op l r
  | cond test yes no => do
    let t ← test.build source
    let y ← yes.build source
    let n ← no.build source
    return .cond (← fresh source) t y n
  | letIn name value body => do
    let v ← value.build source
    let b ← body.build source
    return .letIn (← fresh source) name v b
  | letRec name value body => do
    let v ← value.build source
    let b ← body.build source
    return .letRec (← fresh source) name v b
  | lambda param body => do
    let b ← body.build source
    return .lambda (← fresh source) param b
  | apply fn args => do
    let f ← fn.build source
    let xs ← buildAll source args
    applyAll source f xs
  | cons head tail => do
    let h ← head.build source
    let t ← tail.build source
    return .cons (← fresh source) h t
  | list items => do
    let xs ← buildAll source items
    let empty := Node.lit (← fresh source) .nil
    consAll source xs empty
  | cases scrutinee arms => do
    let e ← scrutinee.build source
    let branches ← buildArms source arms
    return .cases (← fresh source) e branches
  | note place ty tree => do
    let e ← tree.build source
    annotate source place ty e
termination_by structural s => s

def buildAll (source : Source) : List Sketch → Build (List Node)
  | [] => pure []
  | s :: rest => do
    let e ← s.build source
    let es ← buildAll source rest
    return e :: es
termination_by structural ss => ss

def buildArms (source : Source) : List (Shape × Sketch) → Build (List (Pattern × Node))
  | [] => pure []
  | (shape, body) :: rest => do
    let p ← shape.build source
    let b ← body.build source
    let more ← buildArms source rest
    return (p, b) :: more
termination_by structural arms => arms

end

end Sketch

end WasmBackend
