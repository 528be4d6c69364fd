/-
From a tree to a linked module and its binary form.
-/
import WasmBackend.Lower.Tree
import WasmBackend.Peephole
import WasmBackend.Wasm.Binary
import WasmBackend.Wasm.Text

namespace WasmBackend

structure Compiled where
  module : Module
  bytes : Bytes

namespace Compiled

/-- The name of the entry point, and of the component that requires all others. -/
def entry : String := "main"

/-- The entry point of a lowered tree. -/
def entryFunc (locals : List Local) (body : Code) : Func where
  name := entry
  params := []
  result := some .i32
  locals := locals
  body := body

/-- The module of a tree that is lowered to `code`, which left this state. -/
def assemble (cx : Setup) (code : Code) (s : State) : Except LinkError Module :=
  let ((locals, body), s) := (s.emit code).closeEntry
  let root : Component := ⟨entry, [], s.components cx⟩
  root.link (s.functions.literalFields ++ s.matchers.fields ++ s.functions.tableFields ++
    [.func (entryFunc locals body), .exports cx.settings.exportName .func entry])

def ofModule (cx : Setup) (m : Module) : Except CompileError Compiled :=
  let m := if cx.settings.reduceInstructions then Peephole.optimize m else m
  match m.encode cx.settings.enableNameSection with
  | .ok bytes => .ok ⟨m, bytes⟩
  | .error e => .error (.malformed e)

def text (c : Compiled) : String := c.module.text

end Compiled

/-- Settings are checked first, then the tree is lowered, linked, reduced and encoded. -/
def Setup.compile (cx : Setup) (tree : Node) : Except Fault Compiled :=
  match cx.settings.validate with
  | .error e => .error (.rejected (.settings e))
  | .ok _ =>
    match Node.lower cx tree State.initial with
    | .error fault _ => .error fault
    | .ok code s =>
      match Compiled.assemble cx code s with
      | .error e => .error (.rejected (.link e))
      | .ok m => (Compiled.ofModule cx m).mapError .rejected

def compile (settings : Settings) (types : TypeMap) (tree : Node) : Except Fault Compiled :=
  Setup.compile ⟨settings, types, .direct⟩ tree

end WasmBackend
