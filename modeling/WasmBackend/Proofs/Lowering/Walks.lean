/-
What a lowering that succeeds is made of. `Node.Walk` says it construct by
construct: in which states the parts are lowered, what becomes of their code,
and which function literals are closed on the way, in order. Every successful
lowering is such a walk, in any state (`Node.exists_walk`).
-/
import WasmBackend.Proofs.Lowering.Brackets

namespace WasmBackend

/-- A function literal of a tree: the name it has for itself, if any, and the frames in scope where it
stands. -/
structure FunctionLiteral where
  self : Option String
  param : String
  body : Node
  scopes : Scopes

/-- A function literal on the way: the state in which it is come to, the code of its body, and the
state in which that is finished. -/
structure LiteralRun where
  self : Option String
  param : String
  node : Node
  before : State
  body : Code
  after : State

namespace LiteralRun

def literal (run : LiteralRun) : FunctionLiteral := ⟨run.self, run.param, run.node, run.before.scopes⟩

/-- The state in which the body is lowered: the closure itself and the parameter are in scope. -/
def start (run : LiteralRun) : State :=
  (run.before.use .closure).inside (run.before.scopes.pushAll [run.self, some run.param])

/-- The function gets the number of those that were finished before it. -/
def number (run : LiteralRun) : Nat := run.after.functions.funcs.length

/-- The code of the literal itself. -/
def code (run : LiteralRun) : Code := Emit.closure run.number

/-- The function that is made of the body. -/
def func (run : LiteralRun) : Func where
  name := Definitions.Family.literals.name run.number
  params := [.word Library.Env.current]
  result := some .i32
  locals := run.after.frame
  body := run.body

def done (run : LiteralRun) : State := run.after.outside run.before.scopes run.body

/-- The body is lowered to its code. -/
def Lowers (cx : Setup) (run : LiteralRun) : Prop := run.node.lower cx run.start = .ok run.body run.after

end LiteralRun

/-- What is requested before the operands are lowered. -/
def BinaryOp.prepare : BinaryOp → State → State
  | .float _, s => s.use .float
  | _, s => s

/-- The code of an operation on two operands, and what it requests. -/
def BinaryOp.conclude (asWords : Bool) (l r : Code) : BinaryOp → State → Code × State
  | .int o, s => (Emit.intOp o l r, s)
  | .float o, s => (Emit.floatOp o l r, s)
  | .and, s => (Emit.and l r, s)
  | .or, s => (Emit.or l r, s)
  | .compare c, s => if asWords then (Emit.compareWords c l r, s) else (Emit.compareAny c l r, s.useComparison c)

theorem BinaryOp.conclude_state (asWords : Bool) (l r : Code) (o : BinaryOp) (s : State) :
    (o.conclude asWords l r s).2 = s ∨ ∃ c, (o.conclude asWords l r s).2 = s.useComparison c := by
  cases o with
  | compare c =>
    cases asWords with
    | false => exact .inr ⟨c, rfl⟩
    | true => exact .inl rfl
  | _ => exact .inl rfl

/-- The state in which the parts of a match expression are lowered. -/
def State.sited (s : State) : State :=
  { s.use .matcher with sites := s.sites + 1 }.declareAll (Emit.Site.ofNumber s.sites).names

/-- The state after the pattern of an arm was lowered, with its names in scope. -/
def State.matched (s : State) (p : Pattern) : State :=
  ((s.use .matcher).matching (p.matchers s.matchers.funcs.length)).under (s.scopes.pushAll (p.bindings.map some))

/-- The state in which the body of a binding is lowered. -/
def State.binding (s : State) (name : String) : State :=
  (s.use .environment).under (s.scopes.pushAll [some name])

namespace Node

mutual

/-- A node is lowered from one state to another, and the function literals in it are closed in order. -/
def Walk (cx : Setup) : Node → State → Code → State → List LiteralRun → Prop
  | .lit _ value, s, code, t, runs => Lower.literal value s = .ok code t ∧ runs = []
  | .ident _ name, s, code, t, runs => ∃ distance, s.scopes.distance? name = some distance ∧
      code = Emit.lookup distance ∧ t = s.use .environment ∧ runs = []
  | .unary _ .neg operand, s, code, t, runs => ∃ e, operand.Walk cx s e t runs ∧ code = Emit.neg e
  | .unary _ .floatNeg operand, s, code, t, runs => ∃ e, operand.Walk cx (s.use .float) e t runs ∧
      code = Emit.floatNeg e
  | .binary _ o left right, s, code, t, runs => ∃ l s₁ ls r s₂ rs, left.Walk cx (o.prepare s) l s₁ ls ∧
      right.Walk cx s₁ r s₂ rs ∧ (code, t) = o.conclude (cx.areWords left.span right.span) l r s₂ ∧ runs = ls ++ rs
  | .cond _ test yes no, s, code, t, runs => ∃ c s₁ cs y s₂ ys n ns, test.Walk cx s c s₁ cs ∧
      yes.Walk cx s₁ y s₂ ys ∧ no.Walk cx s₂ n t ns ∧ code = Emit.cond c y n ∧ runs = cs ++ (ys ++ ns)
  | .letIn _ name value body, s, code, t, runs => ∃ v s₁ vs b s₂ bs, value.Walk cx s v s₁ vs ∧
      body.Walk cx (s₁.binding name) b s₂ bs ∧ code = Emit.bind v b ∧ t = s₂.under s.scopes ∧ runs = vs ++ bs
  | .letRec _ name (.lambda _ param inner) body, s, code, t, runs => ∃ i s₁ is b s₂ bs,
      let run : LiteralRun := ⟨some name, param, inner, s, i, s₁⟩
      run.Lowers cx ∧ inner.Walk cx run.start i s₁ is ∧ body.Walk cx (run.done.binding name) b s₂ bs ∧
        code = Emit.bind run.code b ∧ t = s₂.under s.scopes ∧ runs = is ++ run :: bs
  | .letRec _ _ _ _, _, _, _, _ => False
  | .lambda _ param body, s, code, t, runs => ∃ b s₁ bs,
      let run : LiteralRun := ⟨none, param, body, s, b, s₁⟩
      run.Lowers cx ∧ body.Walk cx run.start b s₁ bs ∧ code = run.code ∧ t = run.done ∧ runs = bs ++ [run]
  | .app _ fn arg, s, code, t, runs => ∃ a s₁ as f fs,
      arg.Walk cx ((s.use .closure).declareAll [Emit.callee, Emit.argument]) a s₁ as ∧ fn.Walk cx s₁ f t fs ∧
      code = Emit.app a f ∧ runs = as ++ fs
  | .cons _ head tail, s, code, t, runs => ∃ l s₁ ls h hs, tail.Walk cx (s.use .list) l s₁ ls ∧
      head.Walk cx s₁ h t hs ∧ code = Emit.cons l h ∧ runs = ls ++ hs
  | .cases _ scrutinee arms, s, code, t, runs => ∃ e s₁ es branches bs, scrutinee.Walk cx s.sited e s₁ es ∧
      WalkArms cx arms s₁ branches t bs ∧ code = Emit.cases (.ofNumber s.sites) e branches ∧ runs = es ++ bs
termination_by structural node => node

def WalkArms (cx : Setup) : List (Pattern × Node) → State → List (String × Code) → State → List LiteralRun → Prop
  | [], s, branches, t, runs => branches = [] ∧ t = s ∧ runs = []
  | (pattern, body) :: rest, s, branches, t, runs => ∃ c s₁ cs others os, body.Walk cx (s.matched pattern) c s₁ cs ∧
      WalkArms cx rest (s₁.under s.scopes) others t os ∧
      branches = (pattern.matcherName s.matchers.funcs.length, c) :: others ∧ runs = cs ++ os
termination_by structural arms => arms

end

end Node

/-! ## Every lowering is a walk -/

section

open Lower

variable {α : Type} {cx : Setup} {s t : State} {code : Code}

/-- A node that is not refused is given to its own lowering, in the same state. -/
theorem Lower.of_route {kind : NodeKind} {span : Span} {act : Lower α} {a : α}
    (h : (do route cx kind span; act) s = .ok a t) : act s = .ok a t := by
  obtain ⟨_, s', hroute, h⟩ := Lower.bind_eq_ok.1 h
  have hsame : s' = s := by
    cases hkind : cx.routes.target? kind with
    | none =>
      simp only [route, hkind] at hroute
      cases hroute
    | some target =>
      by_cases htarget : target = kind
      · simp only [route, hkind, if_pos htarget] at hroute
        exact (pure_eq_ok.1 hroute).2.symm
      · simp only [route, hkind, if_neg htarget] at hroute
        cases hroute
  exact hsame ▸ h

theorem Node.kept {node : Node} (h : node.lower cx s = .ok code t) : s.Kept t := by
  have hkeeps := (node.keeps s.scopes : Lower.Keeps cx _ _ _) s rfl
  rw [h] at hkeeps
  exact hkeeps.2.1

/-- Frames that were in scope for a node are taken away again. -/
theorem Lower.inScope_node {frames : List (Option String)} {node : Node}
    (h : inScope frames (node.lower cx) s = .ok code t) :
    ∃ u, node.lower cx (s.under (s.scopes.pushAll frames)) = .ok code u ∧ t = u.under s.scopes := by
  rw [inScope_apply] at h
  cases hnode : node.lower cx (s.under (s.scopes.pushAll frames)) with
  | error fault u =>
    rw [hnode] at h
    cases h
  | ok c u =>
    rw [hnode] at h
    cases h
    refine ⟨u, rfl, ?_⟩
    rw [(Node.kept hnode).scopes]
    exact congrArg u.under (Scopes.restore_pushAll s.scopes frames)

theorem Lower.withBinding_node {name : String} {value : Code} {body : Node}
    (h : withBinding name value (body.lower cx) s = .ok code t) :
    ∃ b u, body.lower cx (s.binding name) = .ok b u ∧ code = Emit.bind value b ∧ t = u.under s.scopes := by
  obtain ⟨_, _, ⟨⟩, h⟩ := Lower.bind_eq_ok.1 h
  obtain ⟨b, s₁, hscope, h⟩ := Lower.bind_eq_ok.1 h
  obtain ⟨u, hbody, rfl⟩ := inScope_node hscope
  obtain ⟨rfl, rfl⟩ := pure_eq_ok.1 h
  exact ⟨b, u, hbody, rfl, rfl⟩

/-- A function literal that is lowered is one on the way. -/
theorem Lower.function_node {self : Option String} {param : String} {node : Node}
    (h : function self param (node.lower cx) s = .ok code t) :
    ∃ body after, let run : LiteralRun := ⟨self, param, node, s, body, after⟩
      run.Lowers cx ∧ code = run.code ∧ t = run.done := by
  rw [function_apply] at h
  cases hnode : node.lower cx ((s.use .closure).inside (s.scopes.pushAll [self, some param])) with
  | error fault u =>
    rw [hnode] at h
    cases h
  | ok c u =>
    rw [hnode] at h
    cases h
    refine ⟨c, u, hnode, rfl, ?_⟩
    rw [(Node.kept hnode).scopes]
    exact congrArg (u.outside · c) (Scopes.restore_pushAll s.scopes _)

end

namespace Node

open Lower

variable {cx : Setup}

mutual

/-- **A lowering that succeeds is a walk.** -/
theorem exists_walk (node : Node) {s t : State} {code : Code} (h : node.lower cx s = .ok code t) :
    ∃ runs, node.Walk cx s code t runs := by
  cases node with
  | lit span value => exact ⟨[], of_route h, rfl⟩
  | ident span name =>
    have h : reference span name s = .ok code t := of_route h
    rw [reference_eq rfl] at h
    cases hdistance : s.scopes.distance? name with
    | none =>
      rw [hdistance] at h
      cases h
    | some distance =>
      rw [hdistance] at h
      cases h
      exact ⟨[], distance, hdistance, rfl, rfl, rfl⟩
  | unary span o operand =>
    cases o with
    | neg =>
      obtain ⟨e, u, he, h⟩ := Lower.bind_eq_ok.1 (of_route h)
      obtain ⟨rfl, rfl⟩ := pure_eq_ok.1 h
      obtain ⟨runs, hwalk⟩ := exists_walk operand he
      exact ⟨runs, e, hwalk, rfl⟩
    | floatNeg =>
      obtain ⟨_, _, ⟨⟩, h⟩ := Lower.bind_eq_ok.1 (of_route h)
      obtain ⟨e, u, he, h⟩ := Lower.bind_eq_ok.1 h
      obtain ⟨rfl, rfl⟩ := pure_eq_ok.1 h
      obtain ⟨runs, hwalk⟩ := exists_walk operand he
      exact ⟨runs, e, hwalk, rfl⟩
  | binary span o left right =>
    have hparts {conclude : Code → Code → Lower Code} {s' : State}
        (h : (do let l ← left.lower cx; let r ← right.lower cx; conclude l r) s' = .ok code t) :
        ∃ l s₁ ls r s₂ rs, left.Walk cx s' l s₁ ls ∧ right.Walk cx s₁ r s₂ rs ∧ conclude l r s₂ = .ok code t := by
      obtain ⟨l, s₁, hl, h⟩ := Lower.bind_eq_ok.1 h
      obtain ⟨r, s₂, hr, h⟩ := Lower.bind_eq_ok.1 h
      obtain ⟨ls, hls⟩ := exists_walk left hl
      obtain ⟨rs, hrs⟩ := exists_walk right hr
      exact ⟨l, s₁, ls, r, s₂, rs, hls, hrs, h⟩
    cases o with
    | int o | and | or =>
      obtain ⟨l, s₁, ls, r, s₂, rs, hls, hrs, h⟩ := hparts (of_route h)
      cases h
      exact ⟨_, l, s₁, ls, r, _, rs, hls, hrs, rfl, rfl⟩
    | float o =>
      obtain ⟨_, _, ⟨⟩, h⟩ := Lower.bind_eq_ok.1 (of_route h)
      obtain ⟨l, s₁, ls, r, s₂, rs, hls, hrs, h⟩ := hparts h
      cases h
      exact ⟨_, l, s₁, ls, r, _, rs, hls, hrs, rfl, rfl⟩
    | compare c =>
      obtain ⟨l, s₁, ls, r, s₂, rs, hls, hrs, h⟩ := hparts (of_route h)
      refine ⟨_, l, s₁, ls, r, s₂, rs, hls, hrs, ?_, rfl⟩
      by_cases hwords : cx.areWords left.span right.span = true
      · rw [if_pos hwords] at h
        cases h
        simp [BinaryOp.conclude, hwords]
      · rw [if_neg hwords] at h
        cases h
        simp [BinaryOp.conclude, hwords]
  | cond span test yes no =>
    obtain ⟨c, s₁, hc, h⟩ := Lower.bind_eq_ok.1 (of_route h)
    obtain ⟨y, s₂, hy, h⟩ := Lower.bind_eq_ok.1 h
    obtain ⟨n, s₃, hn, h⟩ := Lower.bind_eq_ok.1 h
    obtain ⟨rfl, rfl⟩ := pure_eq_ok.1 h
    obtain ⟨cs, hcs⟩ := exists_walk test hc
    obtain ⟨ys, hys⟩ := exists_walk yes hy
    obtain ⟨ns, hns⟩ := exists_walk no hn
    exact ⟨_, c, s₁, cs, y, s₂, ys, n, ns, hcs, hys, hns, rfl, rfl⟩
  | letIn span name value body =>
    obtain ⟨v, s₁, hv, h⟩ := Lower.bind_eq_ok.1 (of_route h)
    obtain ⟨b, s₂, hb, rfl, rfl⟩ := withBinding_node h
    obtain ⟨vs, hvs⟩ := exists_walk value hv
    obtain ⟨bs, hbs⟩ := exists_walk body hb
    exact ⟨_, v, s₁, vs, b, s₂, bs, hvs, hbs, rfl, by rw [(kept hv).scopes], rfl⟩
  | letRec span name value body =>
    cases value with
    | lambda span' param inner =>
      obtain ⟨v, s₁, hv, h⟩ := Lower.bind_eq_ok.1 (of_route h)
      obtain ⟨i, u, hlowers, rfl, rfl⟩ := function_node hv
      obtain ⟨b, s₂, hb, rfl, rfl⟩ := withBinding_node h
      obtain ⟨is, his⟩ := exists_walk inner hlowers
      obtain ⟨bs, hbs⟩ := exists_walk body hb
      exact ⟨_, i, u, is, b, s₂, bs, hlowers, his, hbs, rfl, rfl, rfl⟩
    | _ => cases of_route h
  | lambda span param body =>
    obtain ⟨b, u, hlowers, rfl, rfl⟩ := function_node (of_route h)
    obtain ⟨bs, hbs⟩ := exists_walk body hlowers
    exact ⟨_, b, u, bs, hlowers, hbs, rfl, rfl, rfl⟩
  | app span fn arg =>
    obtain ⟨_, _, ⟨⟩, h⟩ := Lower.bind_eq_ok.1 (of_route h)
    obtain ⟨_, _, ⟨⟩, h⟩ := Lower.bind_eq_ok.1 h
    obtain ⟨_, _, ⟨⟩, h⟩ := Lower.bind_eq_ok.1 h
    obtain ⟨a, s₁, ha, h⟩ := Lower.bind_eq_ok.1 h
    obtain ⟨f, s₂, hf, h⟩ := Lower.bind_eq_ok.1 h
    obtain ⟨rfl, rfl⟩ := pure_eq_ok.1 h
    obtain ⟨as, has⟩ := exists_walk arg ha
    obtain ⟨fs, hfs⟩ := exists_walk fn hf
    exact ⟨_, a, s₁, as, f, fs, has, hfs, rfl, rfl⟩
  | cons span head tail =>
    obtain ⟨_, _, ⟨⟩, h⟩ := Lower.bind_eq_ok.1 (of_route h)
    obtain ⟨l, s₁, hl, h⟩ := Lower.bind_eq_ok.1 h
    obtain ⟨hd, s₂, hh, h⟩ := Lower.bind_eq_ok.1 h
    obtain ⟨rfl, rfl⟩ := pure_eq_ok.1 h
    obtain ⟨ls, hls⟩ := exists_walk tail hl
    obtain ⟨hs, hhs⟩ := exists_walk head hh
    exact ⟨_, l, s₁, ls, hd, hs, hls, hhs, rfl, rfl⟩
  | cases span scrutinee arms =>
    obtain ⟨_, _, ⟨⟩, h⟩ := Lower.bind_eq_ok.1 (of_route h)
    obtain ⟨_, _, ⟨⟩, h⟩ := Lower.bind_eq_ok.1 h
    obtain ⟨e, s₁, he, h⟩ := Lower.bind_eq_ok.1 h
    obtain ⟨branches, s₂, hb, h⟩ := Lower.bind_eq_ok.1 h
    obtain ⟨rfl, rfl⟩ := pure_eq_ok.1 h
    obtain ⟨es, hes⟩ := exists_walk scrutinee he
    obtain ⟨bs, hbs⟩ := exists_walkArms arms hb
    exact ⟨_, e, s₁, es, branches, bs, hes, hbs, rfl, rfl⟩
termination_by structural node

theorem exists_walkArms (arms : List (Pattern × Node)) {s t : State} {branches : List (String × Code)}
    (h : lowerArms cx arms s = .ok branches t) : ∃ runs, WalkArms cx arms s branches t runs := by
  match arms with
  | [] =>
    cases h
    exact ⟨[], rfl, rfl, rfl⟩
  | (pattern, body) :: rest =>
    obtain ⟨f, s', hf, h⟩ := Lower.bind_eq_ok.1 h
    rw [pattern.lower_eq] at hf
    cases hf
    obtain ⟨c, s₁, hc, h⟩ := Lower.bind_eq_ok.1 h
    obtain ⟨u, hbody, rfl⟩ := inScope_node hc
    obtain ⟨others, s₂, ho, h⟩ := Lower.bind_eq_ok.1 h
    obtain ⟨rfl, rfl⟩ := pure_eq_ok.1 h
    obtain ⟨cs, hcs⟩ := exists_walk body hbody
    obtain ⟨os, hos⟩ := exists_walkArms rest ho
    exact ⟨_, c, u, cs, others, os, hcs, hos, rfl, rfl⟩
termination_by structural arms

end

end Node

end WasmBackend
