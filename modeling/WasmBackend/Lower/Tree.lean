/-
Lowering of nodes to the code that leaves their value on the stack.
-/
import WasmBackend.Lower.Emit
import WasmBackend.Lower.State

namespace WasmBackend

/-- Makes a matcher for every node of a pattern, children first, and gives the name of the last. -/
def Pattern.lower : Pattern → Lower String
  | wildcard _ => do
    Lower.use .matcher
    Lower.enterMatcher
    Lower.leaveMatcher (Emit.matchBy Library.Matchers.wildcard)
  | nil _ => do
    Lower.use .matcher
    Lower.enterMatcher
    Lower.leaveMatcher (Emit.matchBy Library.Matchers.emptyList)
  | ident _ _ => do
    Lower.use .matcher
    Lower.enterMatcher
    Lower.leaveMatcher (Emit.matchBy Library.Matchers.identifier)
  | cons _ head tail => do
    Lower.use .matcher
    Lower.enterMatcher
    let h ← head.lower
    let t ← tail.lower
    Lower.declareInMatcher Emit.next
    Lower.leaveMatcher (Emit.matchCons h t)

namespace Lower

/-- Goes on only if nodes of this kind are given to their own lowering. -/
def route (cx : Setup) (kind : NodeKind) (span : Span) : Lower Unit :=
  match cx.routes.target? kind with
  | none => reject (.unsupported ⟨kind.name, span⟩ "this construct is not supported by the back end")
  | some target => if target = kind then pure () else throw (.misrouted kind target)

def literal : Literal → Lower Code
  | .int n => return Emit.int n
  | .bool b => return Emit.bool b
  | .nil => do
    use .list
    return Emit.emptyList
  | .float x => do
    use .float
    return Emit.float x

/-- A reference to a name in scope. -/
def reference (span : Span) (name : String) : Lower Code := do
  match (← get).scopes.distance? name with
  | none => reject (.unbound ⟨name, span⟩)
  | some distance =>
    use .environment
    return Emit.lookup distance

/-- A function literal. Its body sees the closure itself, by name if it has one, and the parameter. -/
def function (name : Option String) (param : String) (body : Lower Code) : Lower Code := do
  use .closure
  let code ← inScope [name, some param] (do enterFunction; body)
  return Emit.closure (← leaveFunction code)

/-- A body with one more name in scope. -/
def withBinding (name : String) (value : Code) (body : Lower Code) : Lower Code := do
  use .environment
  let code ← inScope [some name] body
  return Emit.bind value code

/-- The locals of the next match expression. -/
def matchSite : Lower Emit.Site := do
  let site := Emit.Site.ofNumber (← site)
  declare site.value
  declare site.outer
  declare site.inner
  return site

end Lower

namespace Node

open Lower

mutual

/-- The parts of a node are lowered in the order in which they run, and what they need is
requested on the way. -/
def lower (cx : Setup) : Node → Lower Code
  | .lit span value => do
    route cx .lit span
    literal value
  | .ident span name => do
    route cx .ident span
    reference span name
  | .unary span .neg operand => do
    route cx .unary span
    let e ← lower cx operand
    return Emit.neg e
  | .unary span .floatNeg operand => do
    route cx .unary span
    use .float
    let e ← lower cx operand
    return Emit.floatNeg e
  | .binary span (.int o) left right => do
    route cx .binary span
    let l ← lower cx left
    let r ← lower cx right
    return Emit.intOp o l r
  | .binary span (.float o) left right => do
    route cx .binary span
    use .float
    let l ← lower cx left
    let r ← lower cx right
    return Emit.floatOp o l r
  | .binary span .and left right => do
    route cx .binary span
    let l ← lower cx left
    let r ← lower cx right
    return Emit.and l r
  | .binary span .or left right => do
    route cx .binary span
    let l ← lower cx left
    let r ← lower cx right
    return Emit.or l r
  | .binary span (.compare c) left right => do
    route cx .binary span
    let l ← lower cx left
    let r ← lower cx right
    if cx.areWords left.span right.span then
      return Emit.compareWords c l r
    else
      useComparison c
      return Emit.compareAny c l r
  | .cond span test yes no => do
    route cx .cond span
    let t ← lower cx test
    let y ← lower cx yes
    let n ← lower cx no
    return Emit.cond t y n
  | .letIn span name value body => do
    route cx .letIn span
    let v ← lower cx value
    withBinding name v (lower cx body)
  | .letRec span name (.lambda _ param inner) body => do
    route cx .letRec span
    let v ← function (some name) param (lower cx inner)
    withBinding name v (lower cx body)
  | .letRec span _ value _ => do
    route cx .letRec span
    reject (.unsupported ⟨NodeKind.letRec.name, value.span⟩ "only functions can be defined recursively")
  | .lambda span param body => do
    route cx .lambda span
    function none param (lower cx body)
  | .app span fn arg => do
    route cx .app span
    use .closure
    declare Emit.callee
    declare Emit.argument
    let a ← lower cx arg
    let f ← lower cx fn
    return Emit.app a f
  | .cons span head tail => do
    route cx .cons span
    use .list
    let t ← lower cx tail
    let h ← lower cx head
    return Emit.cons t h
  | .cases span scrutinee arms => do
    route cx .cases span
    use .matcher
    let site ← matchSite
    let e ← lower cx scrutinee
    let branches ← lowerArms cx arms
    return Emit.cases site e branches
termination_by structural node => node

/-- The matcher and the code of each arm. -/
def lowerArms (cx : Setup) : List (Pattern × Node) → Lower (List (String × Code))
  | [] => pure []
  | (pattern, body) :: rest => do
    let matcher ← pattern.lower
    let code ← inScope (pattern.bindings.map some) (lower cx body)
    let branches ← lowerArms cx rest
    return (matcher, code) :: branches
termination_by structural arms => arms

end

end Node

end WasmBackend
