/-
Why a tree is not compiled, in words, and shown against its source.
-/
import WasmBackend.Component
import WasmBackend.Settings.Basic
import WasmBackend.Source.Excerpt

namespace WasmBackend

inductive CompileError where
  /-- A name that nothing around it binds. -/
  | unbound (name : Located String)
  /-- A kind of node that is not compiled there. -/
  | unsupported (node : Located String) (hint : String)
  | link (e : LinkError)
  | malformed (e : NameError)
  | settings (e : SettingsError)

namespace CompileError

def message : CompileError → String
  | unbound name => "the identifier `" ++ name.item ++ "` is not bound here"
  | unsupported node _ => "no compiler registered for " ++ node.item ++ " nodes"
  | link e => e.message
  | malformed e => "the linked module is malformed: " ++ e.message
  | settings e => "invalid configuration: " ++ e.message

def span? : CompileError → Option Span
  | unbound name => some name.span
  | unsupported node _ => some node.span
  | _ => none

def hint? : CompileError → Option String
  | unsupported _ hint => some hint
  | _ => none

/-- A hint below an excerpt. -/
def noteText (excerpt : Excerpt) (hint : String) : String :=
  Excerpt.blanks excerpt.gutter ++ " ├─ note: " ++ hint ++ "\n"

/-- The excerpt and the hint, if there are any; none if the span has no excerpt. -/
def context? (e : CompileError) : Option String :=
  match e.span? with
  | none => some ""
  | some span => span.excerpt?.map fun excerpt =>
    excerpt.render ++ match e.hint? with
      | some hint => noteText excerpt hint
      | none => ""

def report? (e : CompileError) : Option String :=
  e.context?.map (· ++ "Compile Error: " ++ e.message)

end CompileError

end WasmBackend
