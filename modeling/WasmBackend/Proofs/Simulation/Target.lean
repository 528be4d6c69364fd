/-
Which code stands for which node. `Node.Emits` says it node by node: what the
code of a node is made of, given code for its parts, and which functions of
the module it relies on. Lowering gives such code, and reducing it gives such
code again, where floats between two operations need not be boxed; all that
is said about running code is said of any code that stands for a node.

`Holds` says what memory is like while code runs, and `Ready` what the locals
are like.
-/
import WasmBackend.Lower.Tree
import WasmBackend.Peephole
import WasmBackend.Proofs.Assembly.Names
import WasmBackend.Proofs.Compare.Runs

namespace WasmBackend

open Library

/-- A module that nodes are run in, with what its code can rely on. -/
structure Target where
  ops : FloatOps
  module : Module
  features : List Feature
  comparisons : List Comparison
  /-- Which comparisons are made without looking at tags. -/
  asWords : Span → Span → Bool
  pages : Nat
  /-- Whether its functions are reduced. -/
  reduced : Bool

/-- What code leaves on the stack: a word for a value, or a double in place of its box. -/
inductive Yield where
  | word
  | double
deriving DecidableEq

/-- The end of code that computes a double. -/
def Yield.box : Yield → Code
  | word => [.call Floats.new]
  | double => []

namespace Target

def meaning (T : Target) : Meaning := ⟨T.ops, T.asWords⟩

/-- The size of memory, if there is one. -/
def limit (T : Target) : Nat := T.pages * Module.pageSize

def request (T : Target) : CompareRequest := ⟨T.comparisons, .float ∈ T.features, .list ∈ T.features⟩

/-- What a target promises. -/
structure Sound (T : Target) : Prop where
  needs : ∀ f ∈ T.features, ∀ g ∈ f.needs, g ∈ T.features
  supports : ∀ f ∈ T.features, T.module.Supports f
  compares : T.module.Compares T.request
  limit_le : T.limit ≤ 2 ^ 27

/-- The function literal of a number: its slot in the table, and its function. -/
structure Literal (T : Target) (k : Nat) (f : Func) : Prop where
  lt : k < 2 ^ 32
  slot : T.module.slot? Closures.table k = some f.name
  func : T.module.func? f.name = some f
  type : T.module.signature? Closures.type = some ⟨[.i32], some .i32⟩
  params : f.params = [.word Env.current]
  result : f.result = some .i32
  locals : ∀ l ∈ f.locals, l.ty = .i32
  wellScoped : f.WellScoped

/-- The function of a literal runs code of a kind; where functions are reduced, the environment is
not restored at the end. -/
def Runs (T : Target) (code : Code → Prop) (k : Nat) : Prop :=
  ∃ f body, T.Literal k f ∧ code body ∧ f.body = if T.reduced then Peephole.dropPops body else body

/-- Code for the operand of an operation on doubles. -/
def Unboxed (T : Target) (code : Yield → Code → Prop) (c : Code) : Prop :=
  (∃ c₀, code .word c₀ ∧ c = c₀ ++ [.call Floats.get]) ∨ (T.reduced = true ∧ code .double c)

end Target

/-- The function of a matcher. -/
def matcherFunc (name : String) (locals : List Local) (body : Code) : Func where
  name := name
  params := [.word "env", .word "value"]
  result := some .i32
  locals := locals
  body := body

/-- The functions that match a pattern, the last of this name. -/
def Pattern.Matches (m : Module) : Pattern → String → Prop
  | .wildcard _, f => m.func? f = some (matcherFunc f [] (Emit.matchBy Matchers.wildcard))
  | .nil _, f => m.func? f = some (matcherFunc f [] (Emit.matchBy Matchers.emptyList))
  | .ident _ _, f => m.func? f = some (matcherFunc f [] (Emit.matchBy Matchers.identifier))
  | .cons _ head tail, f => ∃ h t, head.Matches m h ∧ tail.Matches m t ∧
      m.func? f = some (matcherFunc f [.word Emit.next] (Emit.matchCons h t))

namespace Node

mutual

/-- The code stands for a node in a scope of these frames. -/
def Emits (T : Target) : Node → Yield → List (Option String) → Code → Prop
  | .lit _ (.int n), shape, _, code => shape = .word ∧ code = Emit.int n
  | .lit _ (.bool b), shape, _, code => shape = .word ∧ code = Emit.bool b
  | .lit _ .nil, shape, _, code => shape = .word ∧ .list ∈ T.features ∧ code = Emit.emptyList
  | .lit _ (.float x), shape, _, code => .float ∈ T.features ∧ code = .f64Const x :: shape.box
  | .ident _ name, shape, frames, code => shape = .word ∧ .environment ∈ T.features ∧
      ∃ k, frames.findIdx? (· = some name) = some k ∧ code = Emit.lookup k
  | .unary _ .neg operand, shape, frames, code => shape = .word ∧
      ∃ c, operand.Emits T .word frames c ∧ code = Emit.neg c
  | .unary _ .floatNeg operand, shape, frames, code => .float ∈ T.features ∧
      ∃ c, T.Unboxed (fun sh => operand.Emits T sh frames) c ∧ code = c ++ .op .f64Neg :: shape.box
  | .binary _ (.int o) left right, shape, frames, code => shape = .word ∧
      ∃ l r, left.Emits T .word frames l ∧ right.Emits T .word frames r ∧ code = Emit.intOp o l r
  | .binary _ (.float o) left right, shape, frames, code => .float ∈ T.features ∧
      ∃ l r, T.Unboxed (fun sh => left.Emits T sh frames) l ∧
        T.Unboxed (fun sh => right.Emits T sh frames) r ∧
        code = l ++ r ++ .op (Emit.floatInstr o) :: shape.box
  | .binary _ .and left right, shape, frames, code => shape = .word ∧
      ∃ l r, left.Emits T .word frames l ∧ right.Emits T .word frames r ∧ code = Emit.and l r
  | .binary _ .or left right, shape, frames, code => shape = .word ∧
      ∃ l r, left.Emits T .word frames l ∧ right.Emits T .word frames r ∧ code = Emit.or l r
  | .binary _ (.compare c) left right, shape, frames, code => shape = .word ∧
      ∃ l r, left.Emits T .word frames l ∧ right.Emits T .word frames r ∧
        if T.asWords left.span right.span then code = Emit.compareWords c l r
        else c ∈ T.comparisons ∧ code = Emit.compareAny c l r
  | .cond _ test yes no, shape, frames, code => shape = .word ∧
      ∃ t y n, test.Emits T .word frames t ∧ yes.Emits T .word frames y ∧ no.Emits T .word frames n ∧
        code = Emit.cond t y n
  | .letIn _ name value body, shape, frames, code => shape = .word ∧ .environment ∈ T.features ∧
      ∃ v b, value.Emits T .word frames v ∧ body.Emits T .word (some name :: frames) b ∧ code = Emit.bind v b
  | .letRec _ name (.lambda _ param inner) body, shape, frames, code => shape = .word ∧
      .closure ∈ T.features ∧
      ∃ k b, T.Runs (inner.Emits T .word (some param :: some name :: frames)) k ∧
        body.Emits T .word (some name :: frames) b ∧ code = Emit.bind (Emit.closure k) b
  | .letRec _ _ _ _, _, _, _ => False
  | .lambda _ param body, shape, frames, code => shape = .word ∧ .closure ∈ T.features ∧
      ∃ k, T.Runs (body.Emits T .word (some param :: none :: frames)) k ∧ code = Emit.closure k
  | .app _ fn arg, shape, frames, code => shape = .word ∧ .closure ∈ T.features ∧
      ∃ a f, arg.Emits T .word frames a ∧ fn.Emits T .word frames f ∧ code = Emit.app a f
  | .cons _ head tail, shape, frames, code => shape = .word ∧ .list ∈ T.features ∧
      ∃ t h, tail.Emits T .word frames t ∧ head.Emits T .word frames h ∧ code = Emit.cons t h
  | .cases _ scrutinee arms, shape, frames, code => shape = .word ∧ .matcher ∈ T.features ∧
      ∃ k e branches, scrutinee.Emits T .word frames e ∧
        EmitsArms T arms (Emit.Site.ofNumber k) frames branches ∧
        code = Emit.cases (Emit.Site.ofNumber k) e branches
termination_by structural node => node

/-- The branches stand for arms. No body sets the local that keeps the environment around them. -/
def EmitsArms (T : Target) : List (Pattern × Node) → Emit.Site → List (Option String) →
    List (String × Code) → Prop
  | [], _, _, branches => branches = []
  | (pattern, body) :: rest, site, frames, branches => ∃ f c others,
      pattern.Matches T.module f ∧ body.Emits T .word ((pattern.bindings.map some).reverse ++ frames) c ∧
      site.outer ∉ Code.assigns c ∧ EmitsArms T rest site frames others ∧ branches = (f, c) :: others
termination_by structural arms => arms

end

end Node

namespace Target

/-- What memory is like after cells were taken and closures made: one place for each closure, with
its environment and the number of its code, and no more cells in use than were taken. -/
structure Holds (T : Target) (L : Layout) (arena : Arena) (σ : Store) : Prop where
  memory : σ.memory = L.memory
  size : .allocator ∈ T.features → L.memory.size = T.limit
  top : .allocator ∈ T.features → σ.globals Heap.top = some (.ofNat 32 L.top)
  start : .allocator ∈ T.features → 4 ≤ L.top
  cells : .allocator ∈ T.features → L.top ≤ 4 + 8 * arena.cells
  exactly : T.reduced = false → .allocator ∈ T.features → L.top = 4 + 8 * arena.cells
  idle : .allocator ∉ T.features → arena.cells = 0
  floats : L.floats = decide (.float ∈ T.features)
  lists : L.lists = decide (.list ∈ T.features)
  places : L.places.length = arena.closures.length
  closure : ∀ {i : Nat} {c : Closure} {a : Nat}, arena.closures[i]? = some c → L.places[i]? = some a →
    ∃ env k frames, L.PairAt a env (.ofNat 32 k) ∧ L.Chain env frames c.env ∧
      T.Runs (c.body.Emits T .word (some c.param :: c.self :: frames)) k

/-- The locals that code refers to are words, and the current environment is one for this scope. -/
structure Ready (T : Target) (L : Layout) (frames : List (Option String)) (env : Bindings) (code : Code)
    (s : Frame) : Prop where
  words : ∀ x, (Space.locals, x) ∈ Code.refs code → ∃ w, s.locals x = some (.word w)
  env : .environment ∈ T.features → ∃ w, s.locals Env.current = some (.word w) ∧ L.Chain w frames env

end Target

end WasmBackend
