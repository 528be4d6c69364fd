/-
Components and linking. A component is a named list of fields with the
components it calls into. Linking takes every component once, after those it
requires, and names the first one whose fields do not resolve.
-/
import WasmBackend.Wasm.Image

namespace WasmBackend

structure Component where
  name : String
  fields : List Field
  requires : List Component

/-- Where a link went wrong, and why. -/
structure LinkError where
  component : String
  cause : NameError
deriving DecidableEq, Repr

def LinkError.message (e : LinkError) : String :=
  "the runtime module `" ++ e.component ++ "` does not assemble: " ++ e.cause.message

namespace Component

/-- A component of functions only. -/
def ofFuncs (name : String) (funcs : List Func) (requires : List Component) : Component :=
  ⟨name, funcs.map .func, requires⟩

/-- The names that a traversal has met and the components it has finished. -/
structure Traversal where
  met : List String
  done : List Component

mutual

/-- Finishes a component after those it requires, unless one of its name was met before. -/
def visit (t : Traversal) : Component → Traversal
  | ⟨name, fields, requires⟩ =>
    if name ∈ t.met then t
    else
      let inner := visitAll { t with met := name :: t.met } requires
      { inner with done := inner.done ++ [⟨name, fields, requires⟩] }
termination_by structural c => c

def visitAll (t : Traversal) : List Component → Traversal
  | [] => t
  | c :: cs => visitAll (visit t c) cs
termination_by structural cs => cs

end

/-- Every component that `root` needs, itself last, requirements first, each name once. -/
def order (root : Component) : List Component := (visit ⟨[], []⟩ root).done

/-- Adds a component's fields to those linked before it. -/
def attach (fields : List Field) (c : Component) : Except LinkError (List Field) :=
  match Module.check ⟨fields ++ c.fields⟩ with
  | .ok _ => .ok (fields ++ c.fields)
  | .error cause => .error ⟨c.name, cause⟩

/-- The fields of all components in order, then `extra`, which is not checked. -/
def link (root : Component) (extra : List Field) : Except LinkError Module := do
  let fields ← root.order.foldlM attach []
  return ⟨fields ++ extra⟩

end Component

end WasmBackend
