/-
Instructions of the WebAssembly subset in use. An instruction refers to
locals, globals, functions, types and tables by a `Ref`: a name while a
module is being put together, a position once its names are resolved.
-/
import WasmBackend.Word
import WasmBackend.Double.Basic

namespace WasmBackend

inductive ValType where
  | i32
  | f64
deriving DecidableEq, Repr

def ValType.text : ValType → String
  | i32 => "i32"
  | f64 => "f64"

/-- Instructions without immediates. -/
inductive Op where
  | unreachable
  | nop
  | drop
  | select
  | ret
  | i32Eqz
  | i32Eq
  | i32Ne
  | i32LtS
  | i32LeS
  | i32GtS
  | i32GeS
  | i32Add
  | i32Sub
  | i32Mul
  | i32DivS
  | i32And
  | i32Or
  | i32Shl
  | i32ShrS
  | i32ShrU
  | f64Eq
  | f64Ne
  | f64Lt
  | f64Le
  | f64Gt
  | f64Ge
  | f64Neg
  | f64Add
  | f64Sub
  | f64Mul
  | f64Div
deriving DecidableEq, Repr

namespace Op

def mnemonic : Op → String
  | unreachable => "unreachable"
  | nop => "nop"
  | drop => "drop"
  | select => "select"
  | ret => "return"
  | i32Eqz => "i32.eqz"
  | i32Eq => "i32.eq"
  | i32Ne => "i32.ne"
  | i32LtS => "i32.lt_s"
  | i32LeS => "i32.le_s"
  | i32GtS => "i32.gt_s"
  | i32GeS => "i32.ge_s"
  | i32Add => "i32.add"
  | i32Sub => "i32.sub"
  | i32Mul => "i32.mul"
  | i32DivS => "i32.div_s"
  | i32And => "i32.and"
  | i32Or => "i32.or"
  | i32Shl => "i32.shl"
  | i32ShrS => "i32.shr_s"
  | i32ShrU => "i32.shr_u"
  | f64Eq => "f64.eq"
  | f64Ne => "f64.ne"
  | f64Lt => "f64.lt"
  | f64Le => "f64.le"
  | f64Gt => "f64.gt"
  | f64Ge => "f64.ge"
  | f64Neg => "f64.neg"
  | f64Add => "f64.add"
  | f64Sub => "f64.sub"
  | f64Mul => "f64.mul"
  | f64Div => "f64.div"

def all : List Op :=
  [unreachable, nop, drop, select, ret, i32Eqz, i32Eq, i32Ne, i32LtS, i32LeS, i32GtS, i32GeS,
    i32Add, i32Sub, i32Mul, i32DivS, i32And, i32Or, i32Shl, i32ShrS, i32ShrU, f64Eq, f64Ne, f64Lt,
    f64Le, f64Gt, f64Ge, f64Neg, f64Add, f64Sub, f64Mul, f64Div]

def ofMnemonic? (text : String) : Option Op := all.find? (·.mnemonic = text)

end Op

inductive Instr (Ref : Type) where
  | op (o : Op)
  | i32Const (n : Word)
  | f64Const (x : Double)
  | localGet (x : Ref)
  | localSet (x : Ref)
  | localTee (x : Ref)
  | globalGet (x : Ref)
  | globalSet (x : Ref)
  | call (f : Ref)
  /-- Calls through `table` with the signature declared as `type`. -/
  | callIndirect (table type : Ref)
  | load (ty : ValType) (offset : Nat)
  | store (ty : ValType) (offset : Nat)
  | cond (result : Option ValType) (thenCode elseCode : List (Instr Ref))

/-- Instructions that refer to everything by name. -/
abbrev Code := List (Instr String)

namespace Instr

variable {Ref : Type}

/-- A conditional with one word as its result. -/
def condWord (thenCode elseCode : List (Instr Ref)) : Instr Ref :=
  .cond (some .i32) thenCode elseCode

mutual

/-- How many instructions there are, those inside of blocks included. -/
def size : Instr Ref → Nat
  | cond _ thenCode elseCode => 1 + sizeAll thenCode + sizeAll elseCode
  | _ => 1
termination_by structural i => i

def sizeAll : List (Instr Ref) → Nat
  | [] => 0
  | i :: is => i.size + sizeAll is
termination_by structural is => is

end

end Instr

end WasmBackend
