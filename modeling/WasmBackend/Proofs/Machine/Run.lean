/-
What a module does when it runs. Code works on a stack of operands, the
locals of its function, and a store of globals and memory. A block runs on a
stack of its own. Calls are bounded by a depth, so that a run is a function:
it goes on, returns, traps, is cut off at the depth, or meets code that no
valid module has.

What doubles add up to and how they compare is left to `FloatOps`.
-/
import Mathlib
import WasmBackend.Tree.Node
import WasmBackend.Value.Decode
import WasmBackend.Wasm.Module

namespace WasmBackend

/-- How two values stand to each other. -/
inductive Verdict where
  | less
  | equal
  | greater
  /-- Neither, as with a double that is not a number. -/
  | unordered
deriving DecidableEq, Repr

/-- Whether a comparison holds of two values that stand so. -/
def Comparison.accepts : Comparison → Verdict → Bool
  | lt, v => v = .less
  | le, v => v = .less || v = .equal
  | gt, v => v = .greater
  | ge, v => v = .greater || v = .equal
  | eq, v => v = .equal
  | ne, v => v ≠ .equal

/-- Arithmetic and comparison of doubles. Only what is not a number is unordered. -/
structure FloatOps where
  neg : Double → Double
  arith : FloatOp → Double → Double → Double
  verdict : Double → Double → Verdict
  ordered : ∀ x y, x.kind ≠ .nan → y.kind ≠ .nan → verdict x y ≠ .unordered

/-- All doubles are equal, and operations give back their first operand. -/
instance : Inhabited FloatOps :=
  ⟨{ neg := id, arith := fun _ x _ => x, verdict := fun _ _ => .equal, ordered := by simp }⟩

inductive Operand where
  | word (w : Word)
  | double (x : Double)
deriving DecidableEq, Repr

namespace Operand

def type : Operand → ValType
  | word _ => .i32
  | double _ => .f64

/-- What a local holds before it is set. -/
def zero : ValType → Operand
  | .i32 => word 0
  | .f64 => double 0

/-- The operand whose bits are those of a number. -/
def ofNumber : ValType → Nat → Operand
  | .i32, n => word (.ofNat 32 n)
  | .f64, n => double (.ofNat 64 n)

/-- One or zero. -/
def ofBool (b : Bool) : Operand := word (if b then 1 else 0)

end Operand

/-- What all functions of a module share. -/
structure Store where
  memory : Memory
  globals : String → Option Word

/-- A function on the way: its operands, the latest first, its locals, and the store. -/
structure Frame where
  stack : List Operand
  locals : String → Option Operand
  store : Store

inductive Trap where
  | unreachable
  | divideByZero
  | divideOverflow
  | loadOutOfBounds
  /-- A write past the end of memory. -/
  | storeOutOfBounds
  | undefinedElement
  | signatureMismatch
deriving DecidableEq, Repr

inductive Outcome (α : Type) where
  | next (a : α)
  /-- A `return`, with the operands at that point. -/
  | returned (stack : List Operand) (store : Store)
  | trap (t : Trap)
  /-- Code that is not valid: an operand or a name is missing, or of another type. -/
  | invalid
  /-- Calls nest deeper than was asked for. -/
  | unfinished

namespace Outcome

def bind {α β : Type} (x : Outcome α) (f : α → Outcome β) : Outcome β :=
  match x with
  | next a => f a
  | returned stack store => returned stack store
  | trap t => trap t
  | invalid => invalid
  | unfinished => unfinished

end Outcome

namespace Memory

/-- Overwrites `count` bytes from an address on with those of a number, the lowest first. -/
def setNumber (m : Memory) (address count n : Nat) : Memory where
  size := m.size
  byte i := if address ≤ i ∧ i < address + count then .ofNat (n / 256 ^ (i - address)) else m.byte i

end Memory

/-- How many bytes an operand takes in memory. -/
def ValType.width : ValType → Nat
  | i32 => 4
  | f64 => 8

namespace Op

/-- The arithmetic of words and doubles; the operands are the latest first. -/
def apply (ops : FloatOps) : Op → List Operand → Outcome (List Operand)
  | unreachable, _ => .trap .unreachable
  | nop, s => .next s
  | drop, _ :: s => .next s
  | select, .word c :: b :: a :: s =>
    if a.type = b.type then .next ((if c ≠ 0 then a else b) :: s) else .invalid
  | i32Eqz, .word a :: s => .next (.ofBool (a = 0) :: s)
  | i32Eq, .word b :: .word a :: s => .next (.ofBool (a = b) :: s)
  | i32Ne, .word b :: .word a :: s => .next (.ofBool (a ≠ b) :: s)
  | i32LtS, .word b :: .word a :: s => .next (.ofBool (a.slt b) :: s)
  | i32LeS, .word b :: .word a :: s => .next (.ofBool (a.sle b) :: s)
  | i32GtS, .word b :: .word a :: s => .next (.ofBool (b.slt a) :: s)
  | i32GeS, .word b :: .word a :: s => .next (.ofBool (b.sle a) :: s)
  | i32Add, .word b :: .word a :: s => .next (.word (a + b) :: s)
  | i32Sub, .word b :: .word a :: s => .next (.word (a - b) :: s)
  | i32Mul, .word b :: .word a :: s => .next (.word (a * b) :: s)
  | i32DivS, .word b :: .word a :: s =>
    if b = 0 then .trap .divideByZero
    else if a = BitVec.intMin 32 ∧ b = -1 then .trap .divideOverflow
    else .next (.word (a.sdiv b) :: s)
  | i32And, .word b :: .word a :: s => .next (.word (a &&& b) :: s)
  | i32Or, .word b :: .word a :: s => .next (.word (a ||| b) :: s)
  | i32Shl, .word b :: .word a :: s => .next (.word (a <<< (b.toNat % 32)) :: s)
  | i32ShrS, .word b :: .word a :: s => .next (.word (a.sshiftRight (b.toNat % 32)) :: s)
  | i32ShrU, .word b :: .word a :: s => .next (.word (a >>> (b.toNat % 32)) :: s)
  | f64Eq, .double y :: .double x :: s => .next (.ofBool (Comparison.eq.accepts (ops.verdict x y)) :: s)
  | f64Ne, .double y :: .double x :: s => .next (.ofBool (Comparison.ne.accepts (ops.verdict x y)) :: s)
  | f64Lt, .double y :: .double x :: s => .next (.ofBool (Comparison.lt.accepts (ops.verdict x y)) :: s)
  | f64Le, .double y :: .double x :: s => .next (.ofBool (Comparison.le.accepts (ops.verdict x y)) :: s)
  | f64Gt, .double y :: .double x :: s => .next (.ofBool (Comparison.gt.accepts (ops.verdict x y)) :: s)
  | f64Ge, .double y :: .double x :: s => .next (.ofBool (Comparison.ge.accepts (ops.verdict x y)) :: s)
  | f64Neg, .double x :: s => .next (.double (ops.neg x) :: s)
  | f64Add, .double y :: .double x :: s => .next (.double (ops.arith .add x y) :: s)
  | f64Sub, .double y :: .double x :: s => .next (.double (ops.arith .sub x y) :: s)
  | f64Mul, .double y :: .double x :: s => .next (.double (ops.arith .mul x y) :: s)
  | f64Div, .double y :: .double x :: s => .next (.double (ops.arith .div x y) :: s)
  | _, _ => .invalid

end Op

namespace Frame

def push (s : Frame) (v : Operand) : Frame := { s with stack := v :: s.stack }

def op (ops : FloatOps) (o : Op) (s : Frame) : Outcome Frame :=
  match o with
  | .ret => .returned s.stack s.store
  | o => (o.apply ops s.stack).bind fun stack => .next { s with stack := stack }

def getLocal (x : String) (s : Frame) : Outcome Frame :=
  match s.locals x with
  | some v => .next (s.push v)
  | none => .invalid

/-- Sets a local to an operand of its type. -/
def assign (x : String) (v : Operand) (stack : List Operand) (s : Frame) : Outcome Frame :=
  match s.locals x with
  | some old =>
    if old.type = v.type then
      .next { s with stack := stack, locals := fun y => if y = x then some v else s.locals y }
    else .invalid
  | none => .invalid

def setLocal (x : String) (s : Frame) : Outcome Frame :=
  match s.stack with
  | v :: stack => s.assign x v stack
  | [] => .invalid

def teeLocal (x : String) (s : Frame) : Outcome Frame :=
  match s.stack with
  | v :: stack => s.assign x v (v :: stack)
  | [] => .invalid

def getGlobal (x : String) (s : Frame) : Outcome Frame :=
  match s.store.globals x with
  | some w => .next (s.push (.word w))
  | none => .invalid

def setGlobal (x : String) (s : Frame) : Outcome Frame :=
  match s.stack, s.store.globals x with
  | .word w :: stack, some _ => .next { s with
      stack := stack
      store := { s.store with globals := fun y => if y = x then some w else s.store.globals y } }
  | _, _ => .invalid

/-- Reads from the address on top of the stack. -/
def load (ty : ValType) (offset : Nat) (s : Frame) : Outcome Frame :=
  match s.stack with
  | .word a :: stack =>
    if a.toNat + offset + ty.width ≤ s.store.memory.size then
      .next { s with stack := .ofNumber ty (s.store.memory.number (a.toNat + offset) ty.width) :: stack }
    else .trap .loadOutOfBounds
  | _ => .invalid

/-- Writes bytes of a number to an address. -/
def write (a : Word) (offset count n : Nat) (stack : List Operand) (s : Frame) : Outcome Frame :=
  if a.toNat + offset + count ≤ s.store.memory.size then
    .next { s with
      stack := stack
      store := { s.store with memory := s.store.memory.setNumber (a.toNat + offset) count n } }
  else .trap .storeOutOfBounds

/-- Writes the operand on top of the stack to the address below it. -/
def storeTo (ty : ValType) (offset : Nat) (s : Frame) : Outcome Frame :=
  match ty, s.stack with
  | .i32, .word w :: .word a :: stack => s.write a offset ValType.i32.width w.toNat stack
  | .f64, .double x :: .word a :: stack => s.write a offset ValType.f64.width x.toNat stack
  | _, _ => .invalid

/-- The operands that a block or function leaves, if they are of the right type. -/
def Leaves (result : Option ValType) (stack : List Operand) : Prop :=
  stack.map (·.type) = result.toList

instance (result : Option ValType) (stack : List Operand) : Decidable (Leaves result stack) :=
  inferInstanceAs (Decidable (_ = _))

/-- Goes on after a block, with what it leaves on top of the operands around it. -/
def leaveBlock (result : Option ValType) (around : List Operand) (s : Frame) : Outcome Frame :=
  if Leaves result s.stack then .next { s with stack := s.stack ++ around } else .invalid

end Frame

/-- What a call by name does to the operands and the store. -/
abbrev Calls := String → List Operand → Store → Outcome (List Operand × Store)

namespace Module

/-- How many slots a table has. -/
def tableSize (m : Module) (table : String) : Nat :=
  (m.fields.findSome? fun
    | .table name size => if name = table then some size else none
    | _ => none).getD 0

/-- The function in a slot of a table, which the last segment that reaches it put there. -/
def slot? (m : Module) (table : String) (i : Nat) : Option String :=
  if i < m.tableSize table then
    m.fields.reverse.findSome? fun
      | .elem name offset funcs =>
        if name = table ∧ offset.toNat ≤ i then funcs[i - offset.toNat]? else none
      | _ => none
  else none

/-- The signature that a type name stands for. -/
def signature? (m : Module) (type : String) : Option Signature :=
  m.fields.reverse.findSome? fun
    | .type name signature => if name = type then some signature else none
    | _ => none

/-- The function that an indirect call with this index and type calls. -/
def target (m : Module) (table type : String) (i : Word) : Outcome String :=
  match m.signature? type, m.slot? table i.toNat with
  | none, _ => .invalid
  | some _, none => .trap .undefinedElement
  | some signature, some name =>
    match m.func? name with
    | none => .invalid
    | some f => if f.signature = signature then .next name else .trap .signatureMismatch

end Module

namespace Frame

def call (calls : Calls) (f : String) (s : Frame) : Outcome Frame :=
  (calls f s.stack s.store).bind fun (stack, store) => .next { s with stack := stack, store := store }

def callIndirect (m : Module) (calls : Calls) (table type : String) (s : Frame) : Outcome Frame :=
  match s.stack with
  | .word i :: stack => (m.target table type i).bind fun f => Frame.call calls f { s with stack := stack }
  | _ => .invalid

end Frame

mutual

/-- One instruction. -/
def Instr.exec (ops : FloatOps) (m : Module) (calls : Calls) : Instr String → Frame → Outcome Frame
  | .op o, s => s.op ops o
  | .i32Const n, s => .next (s.push (.word n))
  | .f64Const x, s => .next (s.push (.double x))
  | .localGet x, s => s.getLocal x
  | .localSet x, s => s.setLocal x
  | .localTee x, s => s.teeLocal x
  | .globalGet x, s => s.getGlobal x
  | .globalSet x, s => s.setGlobal x
  | .call f, s => s.call calls f
  | .callIndirect table type, s => s.callIndirect m calls table type
  | .load ty offset, s => s.load ty offset
  | .store ty offset, s => s.storeTo ty offset
  | .cond result thenCode elseCode, s =>
    match s.stack with
    | .word c :: around =>
      (if c ≠ 0 then Code.exec ops m calls thenCode { s with stack := [] }
        else Code.exec ops m calls elseCode { s with stack := [] }).bind (Frame.leaveBlock result around)
    | _ => .invalid
termination_by structural i => i

/-- Instructions one after the other. -/
def Code.exec (ops : FloatOps) (m : Module) (calls : Calls) : Code → Frame → Outcome Frame
  | [], s => .next s
  | i :: is, s => (i.exec ops m calls s).bind fun t => Code.exec ops m calls is t
termination_by structural is => is

end

namespace Func

/-- The locals of a call, its arguments taken off the stack and the other ones zero, and the
operands below the arguments. -/
def enter (f : Func) (stack : List Operand) : Option ((String → Option Operand) × List Operand) :=
  let args := (stack.take f.params.length).reverse
  if args.map (·.type) = f.params.map (·.ty) then
    let bindings := (f.params.map (·.name)).zip args ++ f.locals.map fun l => (l.name, .zero l.ty)
    some (fun x => bindings.lookup x, stack.drop f.params.length)
  else none

/-- What a caller is left with. -/
def finish (f : Func) (below : List Operand) : Outcome Frame → Outcome (List Operand × Store)
  | .next s => if Frame.Leaves f.result s.stack then .next (s.stack ++ below, s.store) else .invalid
  | .returned stack store =>
    let results := stack.take f.result.toList.length
    if Frame.Leaves f.result results then .next (results ++ below, store) else .invalid
  | .trap t => .trap t
  | .invalid => .invalid
  | .unfinished => .unfinished

end Func

namespace Module

/-- Calls a function, with calls in it nested at most `depth` deep, itself included. -/
def invoke (ops : FloatOps) (m : Module) : Nat → Calls
  | 0, _, _, _ => .unfinished
  | depth + 1, name, stack, store =>
    match m.func? name with
    | none => .invalid
    | some f =>
      match f.enter stack with
      | none => .invalid
      | some (locals, below) => f.finish below (f.body.exec ops m (m.invoke ops depth) ⟨[], locals, store⟩)

/-- The bytes of a page of memory. -/
def pageSize : Nat := 65536

/-- The store that a module starts with. -/
def initial (m : Module) : Store where
  memory := .zeros ((m.fields.findSome? fun
    | .memory _ pages => some (pages * pageSize)
    | _ => none).getD 0)
  globals x := m.fields.findSome? fun
    | .global name _ init => if name = x then some init else none
    | _ => none

end Module

end WasmBackend
