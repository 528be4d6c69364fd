/-
The text format, one instruction a line, blocks indented by two blanks.
-/
import WasmBackend.Wasm.Module
import WasmBackend.Double.Text

namespace WasmBackend

def resultClause : Option ValType → String
  | none => ""
  | some ty => " (result " ++ ty.text ++ ")"

def memoryText (verb : String) (ty : ValType) (offset : Nat) : String :=
  ty.text ++ "." ++ verb ++ if offset = 0 then "" else " offset=" ++ toString offset

namespace Instr

/-- The opening line of a conditional. -/
def condText (result : Option ValType) : String := "if" ++ resultClause result

/-- An instruction on one line, which for a block only hints at what is inside. -/
def text : Instr String → String
  | op o => o.mnemonic
  | i32Const n => "i32.const " ++ toString n.toInt
  | f64Const x => "f64.const " ++ x.text "nan"
  | localGet x => "local.get $" ++ x
  | localSet x => "local.set $" ++ x
  | localTee x => "local.tee $" ++ x
  | globalGet x => "global.get $" ++ x
  | globalSet x => "global.set $" ++ x
  | call f => "call $" ++ f
  | callIndirect table type => "call_indirect $" ++ table ++ " (type $" ++ type ++ ")"
  | load ty offset => memoryText "load" ty offset
  | store ty offset => memoryText "store" ty offset
  | cond result _ _ => condText result ++ " ..."

mutual

/-- The lines of an instruction, each after `indent`. An `else` is written if something follows it. -/
def lines (indent : String) : Instr String → List String
  | cond result thenCode elseCode =>
    let elseLines := linesAll (indent ++ "  ") elseCode
    (indent ++ condText result) :: linesAll (indent ++ "  ") thenCode ++
      (if elseCode.isEmpty then [] else (indent ++ "else") :: elseLines) ++ [indent ++ "end"]
  | i => [indent ++ i.text]
termination_by structural i => i

def linesAll (indent : String) : Code → List String
  | [] => []
  | i :: is => i.lines indent ++ linesAll indent is
termination_by structural is => is

end

end Instr

namespace Field

def localClause (word : String) (l : Local) : String :=
  " (" ++ word ++ " $" ++ l.name ++ " " ++ l.ty.text ++ ")"

/-- The line that opens a function, without its indentation. -/
def funcHead (f : Func) : String :=
  "(func $" ++ f.name ++ String.join (f.params.map (localClause "param")) ++ resultClause f.result ++
    String.join (f.locals.map (localClause "local"))

/-- The text of a field as it stands in a module, its first line not indented. -/
def text : Field → String
  | type name signature =>
    "(type $" ++ name ++ " (func" ++
      String.join (signature.params.map fun ty => " (param " ++ ty.text ++ ")") ++
      resultClause signature.result ++ "))"
  | func f => "\n".intercalate (funcHead f :: Instr.linesAll "    " f.body ++ ["  )"])
  | global name isMutable init =>
    "(global $" ++ name ++ (if isMutable then " (mut i32)" else " i32") ++
      " (i32.const " ++ toString init.toInt ++ "))"
  | memory name pages => "(memory $" ++ name ++ " " ++ toString pages ++ ")"
  | table name size => "(table $" ++ name ++ " " ++ toString size ++ " funcref)"
  | elem target offset funcs =>
    "(elem (table $" ++ target ++ ") (i32.const " ++ toString offset.toInt ++ ") func" ++
      String.join (funcs.map (" $" ++ ·)) ++ ")"
  | exports name kind target =>
    "(export \"" ++ name ++ "\" (" ++ kind.text ++ " $" ++ target ++ "))"

end Field

def Module.text (m : Module) : String :=
  "(module\n" ++ String.join (m.fields.map fun field => "  " ++ field.text ++ "\n") ++ ")"

end WasmBackend
