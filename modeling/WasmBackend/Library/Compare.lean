/-
The component that compares words of any one type: unboxed words as
integers, boxed ones by what their tag says, lists in lexicographic order
with the empty list least, closures equal to themselves only.
-/
import WasmBackend.Comparison
import WasmBackend.Library.Heap

namespace WasmBackend.Library

/-- The comparisons a program asks for, and whether it has boxed floats and list cells at all. -/
structure CompareRequest where
  ops : List Comparison
  floats : Bool
  lists : Bool
deriving DecidableEq, Repr

namespace Compare

def function (c : Comparison) : String := "compare_" ++ c.suffix

def listFunction (c : Comparison) : String := "compare_list_" ++ c.suffix

/-- Whether some requested comparison needs the function of `c`: inequality is negated equality,
and lists compare heads for equality and strictly. -/
def needs (r : CompareRequest) (c : Comparison) : Bool :=
  c ∈ r.ops ||
  match c with
  | .eq => .ne ∈ r.ops || (r.lists && !r.ops.isEmpty)
  | .lt => r.lists && .le ∈ r.ops
  | .gt => r.lists && .ge ∈ r.ops
  | _ => false

def closure (r : CompareRequest) : List Comparison := Comparison.all.filter (needs r)

def operands : Code := [.localGet "left", .localGet "right"]

def binary (name : String) (body : Code) : Func := .words name ["left", "right"] [] body

/-- Whether the left operand has this tag. -/
def hasTag (t : Tag) : Code :=
  [.localGet "left", .i32Const Tag.mask, .op .i32And, .i32Const t.bits, .op .i32Eq]

/-- Branches on the tag of a boxed left operand and traps on any other. -/
def dispatch : List (Tag × Code) → Code
  | [] => [.op .unreachable]
  | (t, code) :: rest => hasTag t ++ [.condWord code (dispatch rest)]

/-- What to do for each tag that a boxed left operand can have. -/
def branches (r : CompareRequest) (c : Comparison) : List (Tag × Code) :=
  (if r.floats then
    [(.float, [.localGet "left", .call Floats.get, .localGet "right", .call Floats.get,
      .op c.floatOp])]
  else []) ++
  (if r.lists then [(.list, operands ++ [.call (listFunction c)])] else []) ++
  (if c = .eq then [(.closure, operands ++ [.op .i32Eq])] else [])

/-- Compares two words of the same type. -/
def anyFunc (r : CompareRequest) (c : Comparison) : Func :=
  if c = .ne then binary (function c) (operands ++ [.call (function .eq), .op .i32Eqz])
  else
    let words := operands ++ [.op c.wordOp]
    binary (function c) [
      .localGet "left",
      .i32Const Word.intFlag,
      .op .i32And,
      .condWord words [.localGet "left", .condWord (dispatch (branches r c)) words]]

/-- The same part of both operands. -/
def both (part : String) : Code :=
  [.localGet "left", .call part, .localGet "right", .call part]

def answer (b : Bool) : Code := [.i32Const (if b then 1 else 0)]

/-- The answer when only the left list has a cell. -/
def onlyLeft : Comparison → Bool
  | .gt => true
  | .ge => true
  | _ => false

/-- The answer when only the right list has a cell. -/
def onlyRight : Comparison → Bool
  | .lt => true
  | .le => true
  | _ => false

/-- The answer on two empty lists. -/
def neither : Comparison → Bool
  | .lt => false
  | .gt => false
  | _ => true

/-- Two cells: equal heads leave it to the tails, and else the strict order of the heads decides. -/
def cells (c : Comparison) : Code :=
  let equal := both Lists.head ++
    [.call (function .eq), .condWord (both Lists.tail ++ [.call (listFunction c)]) (answer false)]
  if c = .eq then equal
  else both Lists.head ++ [.call (function c.strict), .condWord (answer true) equal]

/-- Compares two lists. -/
def listFunc (c : Comparison) : Func :=
  binary (listFunction c) [
    .localGet "left",
    .condWord
      [.localGet "right", .condWord (cells c) (answer (onlyLeft c))]
      [.localGet "right", .condWord (answer (onlyRight c)) (answer (neither c))]]

end Compare

/-- Refers to boxed floats and lists only where the program has them. -/
def comparator (r : CompareRequest) (pages : Nat) : Component :=
  let ops := Compare.closure r
  .ofFuncs "comparator"
    (ops.map (Compare.anyFunc r) ++
      if r.lists then (ops.filter (· ≠ .ne)).map Compare.listFunc else [])
    ((if r.floats then [float pages] else []) ++ if r.lists then [list pages] else [])

end WasmBackend.Library
