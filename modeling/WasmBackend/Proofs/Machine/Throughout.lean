/-
What holds throughout a run: of every instruction that is come to, with the
frame at that point, also in the functions that are called on the way.
-/
import WasmBackend.Proofs.Machine.Steps

namespace WasmBackend

/-- The function that an instruction calls, and the operands that it finds on the stack. -/
def Module.callee? (m : Module) : Instr String → Frame → Option (String × List Operand)
  | .call f, s => some (f, s.stack)
  | .callIndirect table type, s =>
    match s.stack with
    | .word i :: stack =>
      match m.target table type i with
      | .next f => some (f, stack)
      | _ => none
    | _ => none
  | _, _ => none

mutual

/-- `P` holds of an instruction, and of those that are come to in its blocks. -/
def Instr.Throughout (ops : FloatOps) (m : Module) (calls : Calls) (P : Instr String → Frame → Prop) :
    Instr String → Frame → Prop
  | .cond result yes no, s => P (.cond result yes no) s ∧
    match s.stack with
    | .word c :: _ =>
      if c ≠ 0 then Code.Throughout ops m calls P yes { s with stack := [] }
      else Code.Throughout ops m calls P no { s with stack := [] }
    | _ => True
  | i, s => P i s
termination_by structural i => i

/-- `P` holds of the instructions that are come to. -/
def Code.Throughout (ops : FloatOps) (m : Module) (calls : Calls) (P : Instr String → Frame → Prop) :
    Code → Frame → Prop
  | [], _ => True
  | i :: c, s => i.Throughout ops m calls P s ∧ ∀ t, i.exec ops m calls s = .next t → Code.Throughout ops m calls P c t
termination_by structural c => c

end

/-- `P` holds of the instructions that are come to in a call, each with the function that it is part
of, and in the calls that are made on the way, nested at most `depth` deep. -/
def Module.Throughout (ops : FloatOps) (m : Module) (P : Func → Instr String → Frame → Prop) :
    Nat → String → List Operand → Store → Prop
  | 0, _, _, _ => True
  | depth + 1, name, stack, store =>
    match m.func? name with
    | none => True
    | some f =>
      match f.enter stack with
      | none => True
      | some (locals, _) =>
        f.body.Throughout ops m (m.invoke ops depth) (fun i s => P f i s ∧
          ∀ g args, m.callee? i s = some (g, args) → Throughout ops m P depth g args s.store) ⟨[], locals, store⟩

section

variable {ops : FloatOps} {m : Module} {calls : Calls} {P : Instr String → Frame → Prop} {i : Instr String} {s : Frame}

theorem Instr.Throughout.here (h : i.Throughout ops m calls P s) : P i s := by
  cases i with
  | cond result yes no =>
    rw [Instr.Throughout] at h
    exact h.1
  | _ => simpa only [Instr.Throughout] using h

theorem Instr.Throughout.branch {result : Option ValType} {yes no : Code} {w : Word} {around : List Operand}
    (h : (Instr.cond result yes no).Throughout ops m calls P s) (hs : s.stack = .word w :: around) :
    Code.Throughout ops m calls P (if w ≠ 0 then yes else no) { s with stack := [] } := by
  rw [Instr.Throughout, hs] at h
  have hbranch := h.2
  simp only at hbranch
  by_cases hw : w ≠ 0
  · rw [if_pos hw] at hbranch ⊢
    exact hbranch
  · rw [if_neg hw] at hbranch ⊢
    exact hbranch

theorem Code.Throughout.cons {c : Code} {t : Frame} (hi : i.Throughout ops m calls P s)
    (hexec : i.exec ops m calls s = .next t) (hc : Code.Throughout ops m calls P c t) :
    Code.Throughout ops m calls P (i :: c) s := by
  refine ⟨hi, fun u hu => ?_⟩
  rw [hexec] at hu
  cases hu
  exact hc

end

end WasmBackend
