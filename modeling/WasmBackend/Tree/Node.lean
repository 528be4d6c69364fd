/-
Expression trees. Every node and every pattern has the span it was read
from.
-/
import WasmBackend.Comparison
import WasmBackend.Source.Span

namespace WasmBackend

inductive Literal where
  | int (n : Word)
  | float (x : Double)
  | bool (b : Bool)
  /-- The empty list. -/
  | nil
deriving DecidableEq, Repr

inductive UnaryOp where
  | neg
  | floatNeg
deriving DecidableEq, Repr

inductive IntOp where
  | add
  | sub
  | mul
  | div
deriving DecidableEq, Repr

inductive FloatOp where
  | add
  | sub
  | mul
  | div
deriving DecidableEq, Repr

inductive BinaryOp where
  | int (o : IntOp)
  | float (o : FloatOp)
  /-- Evaluates the right operand only if the left one is true. -/
  | and
  /-- Evaluates the right operand only if the left one is false. -/
  | or
  | compare (c : Comparison)
deriving DecidableEq, Repr

inductive Pattern where
  | wildcard (span : Span)
  | nil (span : Span)
  | ident (span : Span) (name : String)
  | cons (span : Span) (head tail : Pattern)

namespace Pattern

def span : Pattern → Span
  | wildcard s => s
  | nil s => s
  | ident s _ => s
  | cons s _ _ => s

/-- The names a pattern binds, in the order they are bound. -/
def bindings : Pattern → List String
  | wildcard _ => []
  | nil _ => []
  | ident _ name => [name]
  | cons _ head tail => head.bindings ++ tail.bindings

end Pattern

inductive Node where
  | lit (span : Span) (value : Literal)
  | ident (span : Span) (name : String)
  | unary (span : Span) (op : UnaryOp) (operand : Node)
  | binary (span : Span) (op : BinaryOp) (left right : Node)
  | cond (span : Span) (test yes no : Node)
  | letIn (span : Span) (name : String) (value body : Node)
  /-- Like `letIn`, with a function as its value, which can see its own name. -/
  | letRec (span : Span) (name : String) (value body : Node)
  | lambda (span : Span) (param : String) (body : Node)
  | app (span : Span) (fn arg : Node)
  | cons (span : Span) (head tail : Node)
  | cases (span : Span) (scrutinee : Node) (arms : List (Pattern × Node))

inductive NodeKind where
  | lit
  | ident
  | unary
  | binary
  | cond
  | letIn
  | letRec
  | lambda
  | app
  | cons
  | cases
deriving DecidableEq, Repr

namespace NodeKind

def all : List NodeKind :=
  [lit, ident, unary, binary, cond, letIn, letRec, lambda, app, cons, cases]

def name : NodeKind → String
  | lit => "Lit"
  | ident => "Ident"
  | unary => "Unary"
  | binary => "Binary"
  | cond => "If"
  | letIn => "Let"
  | letRec => "LetRec"
  | lambda => "Fun"
  | app => "App"
  | cons => "Cons"
  | cases => "Match"

end NodeKind

namespace Node

def span : Node → Span
  | lit s _ => s
  | ident s _ => s
  | unary s _ _ => s
  | binary s _ _ _ => s
  | cond s _ _ _ => s
  | letIn s _ _ _ => s
  | letRec s _ _ _ => s
  | lambda s _ _ => s
  | app s _ _ => s
  | cons s _ _ => s
  | cases s _ _ => s

def withSpan (s : Span) : Node → Node
  | lit _ value => lit s value
  | ident _ name => ident s name
  | unary _ op operand => unary s op operand
  | binary _ op left right => binary s op left right
  | cond _ test yes no => cond s test yes no
  | letIn _ name value body => letIn s name value body
  | letRec _ name value body => letRec s name value body
  | lambda _ param body => lambda s param body
  | app _ fn arg => app s fn arg
  | cons _ head tail => cons s head tail
  | cases _ scrutinee arms => cases s scrutinee arms

def kind : Node → NodeKind
  | lit _ _ => .lit
  | ident _ _ => .ident
  | unary _ _ _ => .unary
  | binary _ _ _ _ => .binary
  | cond _ _ _ _ => .cond
  | letIn _ _ _ _ => .letIn
  | letRec _ _ _ _ => .letRec
  | lambda _ _ _ => .lambda
  | app _ _ _ => .app
  | cons _ _ _ => .cons
  | cases _ _ _ => .cases

end Node

end WasmBackend
