/-
Two peephole passes over the functions of a module: a float that is boxed
only to be unboxed by the next instruction stays unboxed, and restoring the
environment as the last thing a function does is dropped, since nothing
reads it afterwards.
-/
import WasmBackend.Wasm.Module
import WasmBackend.Library.Names

namespace WasmBackend.Peephole

def isCall (name : String) : Instr String → Bool
  | .call f => f = name
  | _ => false

/-- Puts an instruction on top of those before it, where unboxing cancels boxing. -/
def push (stack : Code) (i : Instr String) : Code :=
  match stack with
  | [] => [i]
  | top :: rest =>
    if isCall Library.Floats.new top && isCall Library.Floats.get i then rest else i :: top :: rest

mutual

/-- Cancels inside of a block. -/
def inner : Instr String → Instr String
  | .cond result thenCode elseCode => .cond result (cancelOnto [] thenCode) (cancelOnto [] elseCode)
  | i => i
termination_by structural i => i

/-- Cancels boxing and unboxing, given the instructions before, the latest first. -/
def cancelOnto (stack : Code) : Code → Code
  | [] => stack.reverse
  | i :: is => cancelOnto (push stack (inner i)) is
termination_by structural is => is

end

def cancel (code : Code) : Code := cancelOnto [] code

/-- Cancels until nothing more goes away. -/
def cancelAll (code : Code) : Code :=
  if Instr.sizeAll (cancel code) < Instr.sizeAll code then cancelAll (cancel code) else cancel code
termination_by Instr.sizeAll code

/-- Drops pops of the environment from the front of reversed code. -/
def dropPopsReversed : Code → Code
  | .localSet set :: .call f :: .localGet get :: rest =>
    if get = Library.Env.current ∧ f = Library.Env.parent ∧ set = Library.Env.current then
      dropPopsReversed rest
    else .localSet set :: .call f :: .localGet get :: rest
  | code => code

def dropPops (code : Code) : Code := (dropPopsReversed code.reverse).reverse

def optimize (m : Module) : Module := ⟨m.fields.map (·.mapBody (dropPops ∘ cancelAll))⟩

end WasmBackend.Peephole
