/-
What trees mean. Evaluation is by value, an argument before its function and
a tail before its head. Integers have 31 bits. A closure is a number in the
arena that remembers what each closure is made of, so that closures are
equal only to themselves.

Evaluation stops at a fault (a division by zero, or no arm that matches), at
a value of the wrong kind, or where applications nest deeper than was asked
for. On the way it counts the cells it takes: one for every frame, list cell,
float and closure that is made.
-/
import WasmBackend.Proofs.Machine.Run

namespace WasmBackend

inductive Datum where
  | int (n : BitVec 31)
  | bool (b : Bool)
  | float (x : Double)
  | list (items : List Datum)
  /-- The closure of this number in an arena. -/
  | closure (id : Nat)

/-- Names with their values, the innermost first. -/
abbrev Bindings := List (String × Datum)

/-- A function literal in the scope it was met in. `self` is the name it has inside of itself. -/
structure Closure where
  self : Option String
  param : String
  body : Node
  env : Bindings

/-- The closures made so far, and how many cells were taken. -/
structure Arena where
  closures : List Closure
  cells : Nat

def Arena.empty : Arena := ⟨[], 0⟩

inductive Stop where
  /-- A division by zero, or no arm that matches. -/
  | fault
  /-- An operation on a value of a kind that it is not for, or a name without a value. -/
  | wrong
  | unfinished
deriving DecidableEq, Repr

abbrev Eval := EStateM Stop Arena

/-- How doubles are computed with, and which comparisons are recorded as comparisons of words, by
the spans of their operands. -/
structure Meaning where
  ops : FloatOps
  asWords : Span → Span → Bool

/-- No comparison is recorded. -/
def Meaning.plain (ops : FloatOps) : Meaning := ⟨ops, fun _ _ => false⟩

def Verdict.ofOrdering : Ordering → Verdict
  | .lt => less
  | .eq => equal
  | .gt => greater

namespace Datum

/-- Whether a value is one word on its own. -/
def isWord : Datum → Bool
  | int _ => true
  | bool _ => true
  | _ => false

mutual

/-- How two values of one kind stand to each other. Closures can only be told apart, which counts
if `identity`. -/
def verdict? (ops : FloatOps) (identity : Bool) : Datum → Datum → Option Verdict
  | int a, int b => some (.ofOrdering (compare a.toInt b.toInt))
  | bool a, bool b => some (.ofOrdering (compare a b))
  | float x, float y => some (ops.verdict x y)
  | list xs, list ys => verdictAll? ops identity xs ys
  | closure i, closure j =>
    if identity then some (if i = j then .equal else .unordered) else none
  | _, _ => none
termination_by structural d => d

/-- The first items that are not equal decide; a list that ends before is less. -/
def verdictAll? (ops : FloatOps) (identity : Bool) : List Datum → List Datum → Option Verdict
  | [], [] => some .equal
  | [], _ :: _ => some .less
  | _ :: _, [] => some .greater
  | x :: xs, y :: ys =>
    match verdict? ops identity x y with
    | some .equal => verdictAll? ops identity xs ys
    | v => v
termination_by structural xs => xs

end

/-- Whether a comparison holds, if it is one of values of one kind. -/
def holds? (ops : FloatOps) (c : Comparison) (d e : Datum) : Option Bool :=
  (verdict? ops (c = .eq || c = .ne) d e).map c.accepts

end Datum

namespace Eval

def fault {α : Type} : Eval α := throw .fault

def wrong {α : Type} : Eval α := throw .wrong

/-- Counts cells. -/
def take (n : Nat) : Eval Unit := modify fun s => { s with cells := s.cells + n }

/-- A new closure. -/
def close (c : Closure) : Eval Datum := do
  take 1
  modifyGet fun s => (.closure s.closures.length, { s with closures := s.closures ++ [c] })

def float (x : Double) : Eval Datum := do
  take 1
  return .float x

def toInt : Datum → Eval (BitVec 31)
  | .int n => pure n
  | _ => wrong

def toBool : Datum → Eval Bool
  | .bool b => pure b
  | _ => wrong

def toDouble : Datum → Eval Double
  | .float x => pure x
  | _ => wrong

def toList : Datum → Eval (List Datum)
  | .list items => pure items
  | _ => wrong

end Eval

def Literal.eval : Literal → Eval Datum
  | int n => pure (.int (n.setWidth 31))
  | float x => Eval.float x
  | bool b => pure (.bool b)
  | nil => pure (.list [])

/-- Division goes towards zero. -/
def IntOp.eval : IntOp → BitVec 31 → BitVec 31 → Eval Datum
  | add, a, b => pure (.int (a + b))
  | sub, a, b => pure (.int (a - b))
  | mul, a, b => pure (.int (a * b))
  | div, a, b => if b = 0 then Eval.fault else pure (.int (a.sdiv b))

namespace Pattern

/-- What a pattern binds in a value, the innermost first, or nothing if it does not match. The head
of a cell is looked at before its tail. -/
def select : Pattern → Datum → Eval (Option Bindings)
  | wildcard _, _ => pure (some [])
  | ident _ name, d => do
    Eval.take 1
    return some [(name, d)]
  | nil _, d => do
    match ← Eval.toList d with
    | [] => return some []
    | _ :: _ => return none
  | cons _ head tail, d => do
    match ← Eval.toList d with
    | [] => return none
    | first :: rest =>
      match ← head.select first with
      | none => return none
      | some outer =>
        match ← tail.select (.list rest) with
        | none => return none
        | some inner => return some (inner ++ outer)

end Pattern

namespace Node

/-- How values are applied to values. -/
abbrev Apply := Datum → Datum → Eval Datum

mutual

/-- The value of a node in scope of these names. -/
def evalWith (sem : Meaning) (apply : Apply) : Node → Bindings → Eval Datum
  | .lit _ value, _ => value.eval
  | .ident _ name, env =>
    match env.lookup name with
    | some d => pure d
    | none => Eval.wrong
  | .unary _ .neg operand, env => do
    let n ← Eval.toInt (← evalWith sem apply operand env)
    return .int (-n)
  | .unary _ .floatNeg operand, env => do
    let x ← Eval.toDouble (← evalWith sem apply operand env)
    Eval.float (sem.ops.neg x)
  | .binary _ (.int o) left right, env => do
    let a ← Eval.toInt (← evalWith sem apply left env)
    let b ← Eval.toInt (← evalWith sem apply right env)
    o.eval a b
  | .binary _ (.float o) left right, env => do
    let x ← Eval.toDouble (← evalWith sem apply left env)
    let y ← Eval.toDouble (← evalWith sem apply right env)
    Eval.float (sem.ops.arith o x y)
  | .binary _ .and left right, env => do
    if ← Eval.toBool (← evalWith sem apply left env) then
      let b ← Eval.toBool (← evalWith sem apply right env)
      return .bool b
    else return .bool false
  | .binary _ .or left right, env => do
    if ← Eval.toBool (← evalWith sem apply left env) then return .bool true
    else
      let b ← Eval.toBool (← evalWith sem apply right env)
      return .bool b
  | .binary _ (.compare c) left right, env => do
    let d ← evalWith sem apply left env
    let e ← evalWith sem apply right env
    if sem.asWords left.span right.span && !(d.isWord && e.isWord) then Eval.wrong
    else
      match d.holds? sem.ops c e with
      | some b => return .bool b
      | none => Eval.wrong
  | .cond _ test yes no, env => do
    if ← Eval.toBool (← evalWith sem apply test env) then evalWith sem apply yes env
    else evalWith sem apply no env
  | .letIn _ name value body, env => do
    let d ← evalWith sem apply value env
    Eval.take 1
    evalWith sem apply body ((name, d) :: env)
  | .letRec _ name (.lambda _ param inner) body, env => do
    let d ← Eval.close ⟨some name, param, inner, env⟩
    Eval.take 1
    evalWith sem apply body ((name, d) :: env)
  | .letRec _ _ _ _, _ => Eval.wrong
  | .lambda _ param body, env => Eval.close ⟨none, param, body, env⟩
  | .app _ fn arg, env => do
    let a ← evalWith sem apply arg env
    let f ← evalWith sem apply fn env
    apply f a
  | .cons _ head tail, env => do
    let items ← Eval.toList (← evalWith sem apply tail env)
    let d ← evalWith sem apply head env
    Eval.take 1
    return .list (d :: items)
  | .cases _ scrutinee arms, env => do
    let d ← evalWith sem apply scrutinee env
    evalArms sem apply arms d env
termination_by structural node => node

/-- The body of the first arm that matches. -/
def evalArms (sem : Meaning) (apply : Apply) : List (Pattern × Node) → Datum → Bindings → Eval Datum
  | [], _, _ => Eval.fault
  | (pattern, body) :: rest, d, env => do
    match ← pattern.select d with
    | some bindings => evalWith sem apply body (bindings ++ env)
    | none => evalArms sem apply rest d env
termination_by structural arms => arms

end

end Node

namespace Closure

/-- The scope of a closure's body when it is applied: the argument, then the closure itself if it
has a name, then what was in scope where it was made. -/
def scope (c : Closure) (self arg : Datum) : Bindings :=
  (c.param, arg) :: (c.self.toList.map (·, self) ++ c.env)

end Closure

/-- Applies a closure, with applications in it nested at most `depth` deep, itself included. -/
def Meaning.apply (sem : Meaning) : Nat → Node.Apply
  | 0, _, _ => throw .unfinished
  | depth + 1, .closure id, arg => do
    match (← get).closures[id]? with
    | some c =>
      Eval.take 2
      c.body.evalWith sem (sem.apply depth) (c.scope (.closure id) arg)
    | none => Eval.wrong
  | _ + 1, _, _ => Eval.wrong

namespace Node

/-- The value of a whole tree. -/
def eval (sem : Meaning) (depth : Nat) (tree : Node) : EStateM.Result Stop Arena Datum :=
  tree.evalWith sem (sem.apply depth) [] .empty

/-- A tree evaluates to a value, which is to be read in this arena. -/
def Evaluates (sem : Meaning) (tree : Node) (d : Datum) (arena : Arena) : Prop :=
  ∃ depth, tree.eval sem depth = .ok d arena

end Node

end WasmBackend
