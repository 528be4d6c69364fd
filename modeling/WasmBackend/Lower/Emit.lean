/-
The code for each construct, given the code for its parts.
-/
import WasmBackend.Library.Compare
import WasmBackend.Tree.Node

namespace WasmBackend.Emit

open Library

def int (n : Word) : Code := [.i32Const (Word.int n)]

def bool (b : Bool) : Code := [.i32Const (Word.bool b)]

def emptyList : Code := [.call Lists.empty]

def float (x : Double) : Code := [.f64Const x, .call Floats.new]

/-- The value that many frames out. -/
def lookup (distance : Nat) : Code :=
  [.localGet Env.current, .i32Const (.ofNat 32 distance), .call Env.get]

/-- With `2n + 1` for `n`: `2 - (2n + 1) = 2(-n) + 1`. -/
def neg (e : Code) : Code := .i32Const 2 :: e ++ [.op .i32Sub]

def floatNeg (e : Code) : Code := e ++ [.call Floats.get, .op .f64Neg, .call Floats.new]

/-- Takes an integer out of its word. -/
def untag : Code := [.i32Const 1, .op .i32ShrS]

/-- Packs an integer into a word. -/
def retag : Code := [.i32Const 1, .op .i32Shl, .i32Const 1, .op .i32Or]

/-- Sums and differences work on the words themselves. -/
def intOp : IntOp → Code → Code → Code
  | .add, l, r => l ++ r ++ [.op .i32Add, .i32Const 1, .op .i32Sub]
  | .sub, l, r => l ++ r ++ [.op .i32Sub, .i32Const 1, .op .i32Add]
  | .mul, l, r => l ++ untag ++ r ++ untag ++ [.op .i32Mul] ++ retag
  | .div, l, r => l ++ untag ++ r ++ untag ++ [.op .i32DivS] ++ retag

def floatInstr : FloatOp → Op
  | .add => .f64Add
  | .sub => .f64Sub
  | .mul => .f64Mul
  | .div => .f64Div

def floatOp (o : FloatOp) (l r : Code) : Code :=
  l ++ [.call Floats.get] ++ r ++ [.call Floats.get, .op (floatInstr o), .call Floats.new]

/-- Turns one or zero into a boolean. -/
def toBool : Code := [.i32Const Word.trueWord, .op .i32Mul]

/-- A comparison of operands that are words. -/
def compareWords (c : Comparison) (l r : Code) : Code := l ++ r ++ [.op c.wordOp] ++ toBool

def compareAny (c : Comparison) (l r : Code) : Code := l ++ r ++ [.call (Compare.function c)] ++ toBool

def and (l r : Code) : Code := l ++ [.condWord r [.i32Const Word.falseWord]]

def or (l r : Code) : Code := l ++ [.condWord [.i32Const Word.trueWord] r]

def cond (test yes no : Code) : Code := test ++ [.condWord yes no]

/-- Runs a body with one more frame. -/
def bind (value body : Code) : Code :=
  .localGet Env.current :: value ++ [.call Env.new, .localSet Env.current] ++ body ++
    [.localGet Env.current, .call Env.parent, .localSet Env.current]

/-- A closure of the current environment and the function literal of this number. -/
def closure (index : Nat) : Code :=
  [.localGet Env.current, .i32Const (.ofNat 32 index), .call Closures.new]

def callee : String := "callee"

def argument : String := "argument"

/-- Calls a function's code in its environment, extended by the closure itself and the argument. -/
def app (arg fn : Code) : Code :=
  arg ++ fn ++ [
    .localSet callee,
    .localSet argument,
    .localGet callee,
    .call Closures.env,
    .localGet callee,
    .call Env.new,
    .localGet argument,
    .call Env.new,
    .localGet callee,
    .call Closures.index,
    .callIndirect Closures.table Closures.type]

def cons (tail head : Code) : Code := tail ++ head ++ [.call Lists.push]

/-- The locals of a match expression: the value, the environment around it, and the one of the arm. -/
structure Site where
  value : String
  outer : String
  inner : String

def Site.ofNumber (n : Nat) : Site where
  value := "match_" ++ toString n ++ "_value"
  outer := "match_" ++ toString n ++ "_outer"
  inner := "match_" ++ toString n ++ "_env"

/-- Tries matchers in order and runs the body of the first that succeeds; without one it traps. -/
def arms (site : Site) : List (String × Code) → Code
  | [] => [.op .unreachable]
  | (matcher, body) :: rest => [
      .localGet site.outer,
      .localGet site.value,
      .call matcher,
      .localTee site.inner,
      .condWord
        ([.localGet site.inner, .localSet Env.current] ++ body ++
          [.localGet site.outer, .localSet Env.current])
        (arms site rest)]

def cases (site : Site) (scrutinee : Code) (branches : List (String × Code)) : Code :=
  scrutinee ++ [.localSet site.value, .localGet Env.current, .localSet site.outer] ++
    arms site branches

/-- A matcher that leaves it to one of the library. -/
def matchBy (name : String) : Code := [.localGet "env", .localGet "value", .call name]

/-- The local that holds what the head's matcher returned. -/
def next : String := "next"

/-- A matcher for a cell: the head extends the environment first, then the tail. -/
def matchCons (head tail : String) : Code := [
  .localGet "value",
  .call Lists.isEmpty,
  .condWord
    [.i32Const Matchers.failure]
    [.localGet "env",
      .localGet "value",
      .call Lists.head,
      .call head,
      .localTee next,
      .condWord
        [.localGet next, .localGet "value", .call Lists.tail, .call tail]
        [.i32Const Matchers.failure]]]

end WasmBackend.Emit
