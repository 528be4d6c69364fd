/-
Module images: modules in which every name is replaced by the position of
what it names. `Module.resolve` makes one, or says which name is defined
twice or not at all. A name that several types share stands for the last of
them.
-/
import WasmBackend.Wasm.Module

namespace WasmBackend

/-- The kinds of things that instructions and fields refer to. -/
inductive Space where
  | locals
  | globals
  | functions
  | types
  | tables
  | memories
deriving DecidableEq, Repr

def Space.noun : Space → String
  | locals => "local"
  | globals => "global"
  | functions => "function"
  | types => "type"
  | tables => "table"
  | memories => "memory"

inductive NameError where
  | undefined (space : Space) (name : String)
  | duplicate (name : String)
deriving DecidableEq, Repr

def NameError.message : NameError → String
  | undefined space name => "undefined " ++ space.noun ++ " `$" ++ name ++ "`"
  | duplicate name => "`$" ++ name ++ "` is defined twice"

/-- The names that fields define, each space in order; types with the latest first. -/
structure Names where
  types : List (String × Signature)
  funcs : List String
  globals : List String
  memories : List String
  tables : List String

namespace Names

def empty : Names := ⟨[], [], [], [], []⟩

/-- Adds a name at the end of its space. -/
def define (names : List String) (name : String) : Except NameError (List String) :=
  if name ∈ names then .error (.duplicate name) else .ok (names ++ [name])

def position (space : Space) (names : List String) (name : String) : Except NameError Nat :=
  match names.idxOf? name with
  | some i => .ok i
  | none => .error (.undefined space name)

def add (n : Names) : Field → Except NameError Names
  | .type name signature => .ok { n with types := (name, signature) :: n.types }
  | .func f => (define n.funcs f.name).map fun funcs => { n with funcs := funcs }
  | .global name _ _ => (define n.globals name).map fun globals => { n with globals := globals }
  | .memory name _ => (define n.memories name).map fun memories => { n with memories := memories }
  | .table name _ => (define n.tables name).map fun tables => { n with tables := tables }
  | .elem _ _ _ => .ok n
  | .exports _ _ _ => .ok n

def ofFields (fields : List Field) : Except NameError Names := fields.foldlM add empty

/-- The names of a function's parameters and locals. -/
def ofLocals (f : Func) : Except NameError (List String) :=
  (f.params ++ f.locals).foldlM (fun names l => define names l.name) []

def signature (n : Names) (name : String) : Except NameError Signature :=
  match n.types.lookup name with
  | some s => .ok s
  | none => .error (.undefined .types name)

end Names

/-- The distinct signatures of a module: those of its types, then those of its functions. -/
def Module.signatures (m : Module) : List Signature :=
  (m.fields.filterMap (fun | .type _ s => some s | _ => none) ++ m.funcs.map (·.signature)).eraseDups

namespace Instr

mutual

/-- Replaces names by positions, a type by the position of its signature. -/
def resolve (n : Names) (signatures : List Signature) (locals : List String) :
    Instr String → Except NameError (Instr Nat)
  | op o => .ok (.op o)
  | i32Const k => .ok (.i32Const k)
  | f64Const x => .ok (.f64Const x)
  | localGet x => (Names.position .locals locals x).map .localGet
  | localSet x => (Names.position .locals locals x).map .localSet
  | localTee x => (Names.position .locals locals x).map .localTee
  | globalGet x => (Names.position .globals n.globals x).map .globalGet
  | globalSet x => (Names.position .globals n.globals x).map .globalSet
  | call f => (Names.position .functions n.funcs f).map .call
  | callIndirect table type => do
    let s ← n.signature type
    let t ← Names.position .tables n.tables table
    return .callIndirect t (signatures.idxOf s)
  | load ty offset => .ok (.load ty offset)
  | store ty offset => .ok (.store ty offset)
  | cond result thenCode elseCode => do
    let yes ← resolveAll n signatures locals thenCode
    let no ← resolveAll n signatures locals elseCode
    return .cond result yes no
termination_by structural i => i

def resolveAll (n : Names) (signatures : List Signature) (locals : List String) :
    Code → Except NameError (List (Instr Nat))
  | [] => .ok []
  | i :: is => do
    let first ← i.resolve n signatures locals
    let rest ← resolveAll n signatures locals is
    return first :: rest
termination_by structural is => is

end

end Instr

/-- A function with the position of its signature; `names` are those of its parameters and locals. -/
structure Image.Func where
  type : Nat
  locals : List ValType
  body : List (Instr Nat)
  names : List String

structure Image.Export where
  name : String
  kind : ExportKind
  target : Nat

structure Image.Elem where
  table : Nat
  offset : Word
  funcs : List Nat

structure Image where
  signatures : List Signature
  funcs : List Image.Func
  /-- The tables' sizes. -/
  tables : List Nat
  /-- The memories' page counts. -/
  memories : List Nat
  /-- Whether each global is mutable, and its initial value. -/
  globals : List (Bool × Word)
  exports : List Image.Export
  elems : List Image.Elem
  funcNames : List String
  globalNames : List String

namespace Image

def Func.ofFunc (n : Names) (signatures : List Signature) (f : WasmBackend.Func) :
    Except NameError Image.Func := do
  let names ← Names.ofLocals f
  let body ← Instr.resolveAll n signatures names f.body
  return ⟨signatures.idxOf f.signature, f.locals.map (·.ty), body, names⟩

/-- The position of what an export of this kind gives out. -/
def exportTarget (n : Names) (kind : ExportKind) (target : String) : Except NameError Nat :=
  match kind with
  | .func => Names.position .functions n.funcs target
  | .memory => Names.position .memories n.memories target
  | .global => Names.position .globals n.globals target

/-- Adds a field that is neither a type nor a function. -/
def add (n : Names) (image : Image) : Field → Except NameError Image
  | .type _ _ => .ok image
  | .func _ => .ok image
  | .global _ isMutable init => .ok { image with globals := image.globals ++ [(isMutable, init)] }
  | .memory _ pages => .ok { image with memories := image.memories ++ [pages] }
  | .table _ size => .ok { image with tables := image.tables ++ [size] }
  | .elem table offset funcs => do
    let t ← Names.position .tables n.tables table
    let fs ← funcs.mapM (Names.position .functions n.funcs)
    return { image with elems := image.elems ++ [⟨t, offset, fs⟩] }
  | .exports name kind target => do
    let t ← exportTarget n kind target
    return { image with exports := image.exports ++ [⟨name, kind, t⟩] }

end Image

namespace Module

/-- Definitions are checked first, then the functions in order, then the other fields in order. -/
def resolve (m : Module) : Except NameError Image := do
  let n ← Names.ofFields m.fields
  let funcs ← m.funcs.mapM (Image.Func.ofFunc n m.signatures)
  m.fields.foldlM (Image.add n)
    { signatures := m.signatures, funcs := funcs, tables := [], memories := [], globals := []
      exports := [], elems := [], funcNames := n.funcs, globalNames := n.globals }

/-- Whether every name is defined, and once. -/
def check (m : Module) : Except NameError Unit := m.resolve.map fun _ => ()

end Module

end WasmBackend
