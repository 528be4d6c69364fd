/-
The six comparison operators.
-/
import WasmBackend.Wasm.Instr

namespace WasmBackend

inductive Comparison where
  | lt
  | le
  | gt
  | ge
  | eq
  | ne
deriving DecidableEq, Repr

namespace Comparison

def all : List Comparison := [lt, le, gt, ge, eq, ne]

def suffix : Comparison → String
  | lt => "lt"
  | le => "le"
  | gt => "gt"
  | ge => "ge"
  | eq => "eq"
  | ne => "ne"

/-- The instruction that compares two words. -/
def wordOp : Comparison → Op
  | lt => .i32LtS
  | le => .i32LeS
  | gt => .i32GtS
  | ge => .i32GeS
  | eq => .i32Eq
  | ne => .i32Ne

/-- The instruction that compares two doubles. -/
def floatOp : Comparison → Op
  | lt => .f64Lt
  | le => .f64Le
  | gt => .f64Gt
  | ge => .f64Ge
  | eq => .f64Eq
  | ne => .f64Ne

/-- An ordering without equality. -/
def strict : Comparison → Comparison
  | le => lt
  | ge => gt
  | c => c

end Comparison

end WasmBackend
