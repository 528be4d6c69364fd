/-
What is known and what has been collected while a tree is lowered. The
collection outlives a failure: what was requested stays requested, and a
function that was begun stays begun.
-/
import WasmBackend.Diagnostic
import WasmBackend.Library.Compare
import WasmBackend.Lower.Definitions
import WasmBackend.Lower.Scopes
import WasmBackend.Tree.Node
import WasmBackend.Tree.Types

namespace WasmBackend

/-- The library components that code can call into. -/
inductive Feature where
  | allocator
  | tuple
  | environment
  | list
  | float
  | closure
  | matcher
deriving DecidableEq, Repr

namespace Feature

def all : List Feature := [allocator, tuple, environment, list, float, closure, matcher]

def component (pages : Nat) : Feature → Component
  | allocator => Library.allocator pages
  | tuple => Library.tuple pages
  | environment => Library.environment pages
  | list => Library.list pages
  | float => Library.float pages
  | closure => Library.closure pages
  | matcher => Library.matcher pages

def name : Feature → String
  | allocator => "allocator"
  | tuple => "tuple"
  | environment => "environment"
  | list => "list"
  | float => "float"
  | closure => "closure"
  | matcher => "matcher"

/-- A feature and all that it builds on, in an order in which each comes after what it builds on. -/
def needs : Feature → List Feature
  | allocator => [allocator]
  | tuple => [allocator, tuple]
  | environment => [allocator, tuple, environment]
  | list => [allocator, tuple, list]
  | float => [allocator, float]
  | closure => [allocator, tuple, environment, closure]
  | matcher => [allocator, tuple, environment, list, matcher]

end Feature

/-- For each kind of node, the kind whose lowering it is given to, if any. -/
structure Routes where
  target? : NodeKind → Option NodeKind

namespace Routes

def empty : Routes := ⟨fun _ => none⟩

/-- Every kind has its own lowering. -/
def direct : Routes := ⟨some⟩

/-- Gives nodes of one kind to no lowering. -/
def without (r : Routes) (kind : NodeKind) : Routes :=
  ⟨fun k => if k = kind then none else r.target? k⟩

/-- Gives nodes of one kind to the lowering of another. -/
def reroute (r : Routes) (kind target : NodeKind) : Routes :=
  ⟨fun k => if k = kind then some target else r.target? k⟩

end Routes

/-- What does not change during a lowering. -/
structure Setup where
  settings : Settings
  types : TypeMap
  routes : Routes

namespace Setup

def pages (cx : Setup) : Nat := cx.settings.memoryPages.toNat

/-- The type of an occurrence, if types are to be relied on. -/
def typeOf? (cx : Setup) (s : Span) : Option Ty :=
  if cx.settings.dispatchUsingInferredType then cx.types.get? s else none

/-- Whether both operands are known to be words. -/
def areWords (cx : Setup) (left right : Span) : Bool :=
  (cx.typeOf? left).any (·.isWord) && (cx.typeOf? right).any (·.isWord)

end Setup

structure State where
  scopes : Scopes
  functions : Definitions
  matchers : Definitions
  /-- The code of the entry point so far. -/
  code : Code
  /-- The features requested so far, in order. -/
  features : List Feature
  /-- The comparisons requested so far. -/
  comparisons : List Comparison
  /-- How many match expressions there were. -/
  sites : Nat

namespace State

def initial : State where
  scopes := .empty
  functions := .withRoot
  matchers := .empty
  code := []
  features := []
  comparisons := []
  sites := 0

/-- Requests a feature and what it builds on, each once. -/
def use (s : State) (f : Feature) : State :=
  { s with features := s.features ++ f.needs.filter (· ∉ s.features) }

def useComparison (s : State) (c : Comparison) : State :=
  { s with comparisons := c :: s.comparisons }

def declare (s : State) (l : Local) : State := { s with functions := s.functions.declare l }

def emit (s : State) (code : Code) : State := { s with code := s.code ++ code }

/-- The components to link: what was requested, in order, then the comparisons if there are any. -/
def components (cx : Setup) (s : State) : List Component :=
  s.features.map (·.component cx.pages) ++
    if s.comparisons.isEmpty then []
    else [Library.comparator ⟨s.comparisons, .float ∈ s.features, .list ∈ s.features⟩ cx.pages]

/-- The locals and the code of the entry point, which starts in the outermost environment. -/
def closeEntry (s : State) : (List Local × Code) × State :=
  let (locals, functions) := s.functions.close
  let rest := { s with functions := functions, code := [] }
  if .environment ∈ s.features then
    ((.word Library.Env.current :: locals,
      .i32Const Word.rootEnv :: .localSet Library.Env.current :: s.code), rest)
  else ((locals, s.code), rest)

end State

/-- Why a lowering stops: the tree is not accepted, or a node was given to the lowering of
another kind. -/
inductive Fault where
  | rejected (e : CompileError)
  | misrouted (kind target : NodeKind)

abbrev Lower := EStateM Fault State

namespace Lower

def reject {α : Type} (e : CompileError) : Lower α := throw (.rejected e)

def use (f : Feature) : Lower Unit := modify (·.use f)

def useComparison (c : Comparison) : Lower Unit := modify (·.useComparison c)

def declare (name : String) : Lower Unit := modify (·.declare (.word name))

/-- The number of this match expression. -/
def site : Lower Nat := modifyGet fun s => (s.sites, { s with sites := s.sites + 1 })

/-- Runs with more frames in scope and takes them away again, also after a failure. -/
def inScope {α : Type} (frames : List (Option String)) (act : Lower α) : Lower α := fun s =>
  match act { s with scopes := s.scopes.pushAll frames } with
  | .ok a t => .ok a { t with scopes := t.scopes.restore s.scopes.depth }
  | .error e t => .error e { t with scopes := t.scopes.restore s.scopes.depth }

/-- Opens a frame for a function literal. -/
def enterFunction : Lower Unit := modify fun s => { s with functions := s.functions.enter }

/-- Closes the innermost function literal, whose number is the result. -/
def leaveFunction (body : Code) : Lower Nat := modifyGet fun s =>
  (s.functions.funcs.length, { s with functions := s.functions.leave .literals body })

def enterMatcher : Lower Unit := modify fun s => { s with matchers := s.matchers.enter }

def declareInMatcher (name : String) : Lower Unit := modify fun s =>
  { s with matchers := s.matchers.declare (.word name) }

/-- Closes the innermost matcher, whose name is the result. -/
def leaveMatcher (body : Code) : Lower String := modifyGet fun s =>
  (Definitions.Family.matchers.name s.matchers.funcs.length,
    { s with matchers := s.matchers.leave .matchers body })

end Lower

end WasmBackend
