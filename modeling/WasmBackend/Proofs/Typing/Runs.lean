/-
Typed code keeps to its types when it runs (`Code.Typed.exec`): from a stack
with operands of the types that it takes on top, it comes to one with operands
of the types that it leaves there instead, and what lies below is the same. A
call finds its arguments and leaves its results whatever the function does in
between (`Module.invoke_goesOn`), as the machine checks both.
-/
import WasmBackend.Proofs.Heap.Growth
import WasmBackend.Proofs.Typing.Rules

namespace WasmBackend

namespace Outcome

variable {α β : Type} {P Q : α → Prop} {R : β → Prop} {x : Outcome α}

/-- A computation does not return, and if it goes on, then with something of a kind. -/
def GoesOn (P : α → Prop) : Outcome α → Prop
  | next a => P a
  | returned _ _ => False
  | _ => True

theorem GoesOn.mono (hx : x.GoesOn P) (h : ∀ a, x = next a → P a → Q a) : x.GoesOn Q := by
  cases x with
  | next a => exact h a rfl hx
  | returned => exact hx
  | _ => trivial

theorem GoesOn.bind {k : α → Outcome β} (hx : x.GoesOn P) (hk : ∀ a, x = next a → P a → (k a).GoesOn R) :
    (x.bind k).GoesOn R := by
  cases x with
  | next a => exact hk a rfl hx
  | returned => exact hx
  | _ => trivial

end Outcome

mutual

/-- An instruction does not return. -/
def Instr.straight : Instr String → Bool
  | .op o => o ≠ .ret
  | .cond _ yes no => Code.straight yes && Code.straight no
  | _ => true
termination_by structural i => i

def Code.straight : Code → Bool
  | [] => true
  | i :: c => i.straight && Code.straight c
termination_by structural c => c

end

section

variable {ops : FloatOps} {m : Module}

theorem Code.goesOn_append {calls : Calls} {a b : Code} {s : Frame} {P Q : Frame → Prop}
    (ha : (a.exec ops m calls s).GoesOn P)
    (hb : ∀ t, a.exec ops m calls s = .next t → P t → (b.exec ops m calls t).GoesOn Q) :
    ((a ++ b).exec ops m calls s).GoesOn Q := by
  rw [Code.exec_append]
  exact ha.bind hb

/-! ## Operations -/

section

variable {top rest : List Operand} {a takes leaves : List ValType}

theorem exists_word (h : top.map (·.type) = .i32 :: a) :
    ∃ w below, top = .word w :: below ∧ below.map (·.type) = a := by
  obtain ⟨v, below, rfl, hv, hbelow⟩ := List.map_eq_cons_iff.1 h
  cases v with
  | word w => exact ⟨w, below, rfl, hbelow⟩
  | double x => cases hv

theorem exists_double (h : top.map (·.type) = .f64 :: a) :
    ∃ x below, top = .double x :: below ∧ below.map (·.type) = a := by
  obtain ⟨v, below, rfl, hv, hbelow⟩ := List.map_eq_cons_iff.1 h
  cases v with
  | word w => cases hv
  | double x => exact ⟨x, below, rfl, hbelow⟩

theorem Op.apply_typed {o : Op} (h : o.type? = some (takes, leaves)) (htop : top.map (·.type) = takes ++ a) :
    (o.apply ops (top ++ rest)).GoesOn fun out => ∃ top', top'.map (·.type) = leaves ++ a ∧ out = top' ++ rest := by
  cases o with
  | unreachable | ret | drop | select => cases h
  | nop =>
    cases h
    exact ⟨top, htop, rfl⟩
  | i32Eqz =>
    cases h
    obtain ⟨w, below, rfl, hbelow⟩ := exists_word htop
    exact ⟨_ :: below, by rw [List.map_cons, hbelow]; rfl, rfl⟩
  | i32Eq | i32Ne | i32LtS | i32LeS | i32GtS | i32GeS | i32Add | i32Sub | i32Mul | i32And | i32Or | i32Shl | i32ShrS
  | i32ShrU =>
    cases h
    obtain ⟨w, below, rfl, hbelow⟩ := exists_word htop
    obtain ⟨w', below, rfl, hbelow'⟩ := exists_word hbelow
    exact ⟨_ :: below, by rw [List.map_cons, hbelow']; rfl, rfl⟩
  | i32DivS =>
    cases h
    obtain ⟨w, below, rfl, hbelow⟩ := exists_word htop
    obtain ⟨w', below, rfl, hbelow'⟩ := exists_word hbelow
    simp only [List.cons_append, Op.apply]
    split
    · trivial
    · split
      · trivial
      · exact ⟨_ :: below, by rw [List.map_cons, hbelow']; rfl, rfl⟩
  | f64Neg =>
    cases h
    obtain ⟨x, below, rfl, hbelow⟩ := exists_double htop
    exact ⟨_ :: below, by rw [List.map_cons, hbelow]; rfl, rfl⟩
  | f64Eq | f64Ne | f64Lt | f64Le | f64Gt | f64Ge =>
    cases h
    obtain ⟨x, below, rfl, hbelow⟩ := exists_double htop
    obtain ⟨y, below, rfl, hbelow'⟩ := exists_double hbelow
    exact ⟨_ :: below, by rw [List.map_cons, hbelow']; rfl, rfl⟩
  | f64Add | f64Sub | f64Mul | f64Div =>
    cases h
    obtain ⟨x, below, rfl, hbelow⟩ := exists_double htop
    obtain ⟨y, below, rfl, hbelow'⟩ := exists_double hbelow
    exact ⟨_ :: below, by rw [List.map_cons, hbelow']; rfl, rfl⟩

end

/-! ## Calls -/

/-- A call takes its arguments from the stack, and puts its results there. -/
def Func.Exchanges (f : Func) (before after : List Operand) : Prop :=
  ∃ args results rest, before = args ++ rest ∧ args.map (·.type) = f.signature.params.reverse ∧
    results.map (·.type) = f.signature.result.toList ∧ after = results ++ rest

theorem Module.invoke_goesOn (m : Module) (n : Nat) (f : String) (stack : List Operand) (σ : Store) :
    (m.invoke ops n f stack σ).GoesOn fun r => ∃ fn, m.func? f = some fn ∧ fn.Exchanges stack r.1 := by
  cases n with
  | zero => trivial
  | succ n =>
    rw [Module.invoke]
    cases hf : m.func? f with
    | none => trivial
    | some fn =>
      simp only [Func.enter]
      split
      · trivial
      · rename_i locals below henter
        split at henter
        · rename_i hargs
          obtain ⟨-, rfl⟩ := Prod.mk.inj (Option.some.inj henter)
          have htypes : (stack.take fn.params.length).map (·.type) = fn.signature.params.reverse := by
            rw [List.map_reverse] at hargs
            exact List.reverse_eq_iff.1 hargs
          have hresults (results : List Operand) (hleaves : Frame.Leaves fn.result results) :
              fn.Exchanges stack (results ++ stack.drop fn.params.length) :=
            ⟨_, results, _, (List.take_append_drop _ _).symm, htypes, hleaves, rfl⟩
          cases fn.body.exec ops m (m.invoke ops n) ⟨[], locals, σ⟩ with
          | next s =>
            rw [Func.finish_next]
            split
            · rename_i hleaves
              exact ⟨fn, rfl, hresults _ hleaves⟩
            · trivial
          | returned results τ =>
            simp only [Func.finish]
            split
            · rename_i hleaves
              exact ⟨fn, rfl, hresults _ hleaves⟩
            · trivial
          | _ => trivial
        · cases henter

/-- With arguments on top, a call leaves what is below them. -/
theorem Func.Exchanges.of_append {f : Func} {top rest after : List Operand} {a : List ValType}
    (h : f.Exchanges (top ++ rest) after) (htop : top.map (·.type) = f.signature.params.reverse ++ a) :
    ∃ top', top'.map (·.type) = f.signature.result.toList ++ a ∧ after = top' ++ rest := by
  obtain ⟨args, results, others, heq, hargs, hresults, rfl⟩ := h
  obtain ⟨args', below, rfl, hargs', hbelow⟩ := List.map_eq_append_iff.1 htop
  have hlength : args'.length = args.length := by
    rw [← List.length_map (·.type), hargs', ← hargs, List.length_map]
  rw [List.append_assoc] at heq
  obtain ⟨rfl, rfl⟩ := List.append_inj heq hlength
  exact ⟨results ++ below, by rw [List.map_append, hresults, hbelow], (List.append_assoc _ _ _).symm⟩

/-! ## Typed code -/

/-- The functions and types of a module are those of a context, where they are referred to. -/
structure Context.Describes (Γ : Context) (m : Module) (refs : List (Space × String)) : Prop where
  funcs : ∀ f fn, (.functions, f) ∈ refs → m.func? f = some fn → Γ.funcs f = some fn.signature
  types : ∀ x signature, (.types, x) ∈ refs → m.signature? x = some signature → Γ.types x = some signature

theorem Context.Describes.of_subset {Γ : Context} {refs refs' : List (Space × String)} (h : Γ.Describes m refs)
    (hsub : refs' ⊆ refs) : Γ.Describes m refs' where
  funcs f fn hf := h.funcs f fn (hsub hf)
  types x signature hx := h.types x signature (hsub hx)

/-- Locals have the types of a context, where they are referred to. -/
def Context.Allows (Γ : Context) (refs : List (Space × String)) (l : String → Option Operand) : Prop :=
  ∀ x v, (.locals, x) ∈ refs → l x = some v → Γ.locals x = some v.type

theorem Context.Allows.of_subset {Γ : Context} {refs refs' : List (Space × String)} {l : String → Option Operand}
    (h : Γ.Allows refs l) (hsub : refs' ⊆ refs) : Γ.Allows refs' l :=
  fun x v hx => h x v (hsub hx)

theorem Context.Allows.of_kept {Γ : Context} {refs : List (Space × String)} {assigned : List String}
    {l l' : String → Option Operand} (h : Γ.Allows refs l) (hkept : LocalsKept assigned l l') : Γ.Allows refs l' := by
  intro x v hx hv
  have htype : (l x).map Operand.type = some v.type := by rw [← hkept.types x, hv, Option.map_some]
  obtain ⟨old, hold, hsame⟩ := Option.map_eq_some_iff.1 htype
  rw [h x old hx hold, hsame]

/-- A run goes on with operands of these types in place of those on top. -/
def Outcome.Leaves (rest : List Operand) (b : List ValType) : Outcome Frame → Prop :=
  GoesOn fun t => ∃ top, top.map (·.type) = b ∧ t.stack = top ++ rest

section

variable {Γ : Context} {n : Nat} {l : String → Option Operand} {σ : Store} {top rest : List Operand}
  {a b : List ValType}

theorem Frame.op_typed {o : Op} (h : (Instr.op o).Typed Γ a b) (ho : o ≠ .ret) (htop : top.map (·.type) = a) :
    (Frame.op ops o ⟨top ++ rest, l, σ⟩).Leaves rest b := by
  rw [Frame.op_eq ho]
  suffices happly : (o.apply ops (top ++ rest)).GoesOn fun out => ∃ top', top'.map (·.type) = b ∧ out = top' ++ rest from
    happly.bind fun out _ hout => hout
  cases h with
  | plain h => exact Op.apply_typed h htop
  | drop =>
    obtain ⟨v, below, rfl, -, hbelow⟩ := List.map_eq_cons_iff.1 htop
    exact ⟨below, hbelow, rfl⟩
  | select =>
    obtain ⟨w, below, rfl, hbelow⟩ := exists_word htop
    obtain ⟨y, below, rfl, hy, hbelow⟩ := List.map_eq_cons_iff.1 hbelow
    obtain ⟨x, below, rfl, hx, hbelow⟩ := List.map_eq_cons_iff.1 hbelow
    simp only [List.cons_append, Op.apply]
    rw [if_pos (hx.trans hy.symm)]
    refine ⟨_ :: below, ?_, rfl⟩
    split <;> simp [hx, hy, hbelow]
  | unreachable => trivial
  | ret => exact absurd rfl ho

theorem Frame.assign_leaves {x : String} {v : Operand} {stack : List Operand} {s : Frame}
    (h : ∃ top, top.map (·.type) = b ∧ stack = top ++ rest) : (s.assign x v stack).Leaves rest b := by
  unfold Frame.assign
  split
  · split
    · exact h
    · trivial
  · trivial

theorem Frame.write_leaves {address : Word} {offset count k : Nat} {stack : List Operand} {s : Frame}
    (h : ∃ top, top.map (·.type) = b ∧ stack = top ++ rest) : (s.write address offset count k stack).Leaves rest b := by
  unfold Frame.write
  split
  · exact h
  · trivial

theorem Frame.call_typed {f : String} {signature : Signature}
    (hsignature : ∀ fn, m.func? f = some fn → fn.signature = signature)
    (htop : top.map (·.type) = signature.params.reverse ++ a) :
    (Frame.call (m.invoke ops n) f ⟨top ++ rest, l, σ⟩).Leaves rest (signature.result.toList ++ a) := by
  refine (m.invoke_goesOn n f (top ++ rest) σ).bind fun r _ hr => ?_
  obtain ⟨fn, hfn, hexchanges⟩ := hr
  obtain rfl := hsignature fn hfn
  exact hexchanges.of_append htop

theorem Operand.type_ofNumber (ty : ValType) (k : Nat) : (Operand.ofNumber ty k).type = ty := by
  cases ty <;> rfl

mutual

theorem Instr.Typed.exec : ∀ (i : Instr String) (top rest : List Operand) {l : String → Option Operand} {σ : Store}
    {a b : List ValType}, i.Typed Γ a b → i.straight = true → Γ.Describes m i.refs → Γ.Allows i.refs l →
    top.map (·.type) = a → (i.exec ops m (m.invoke ops n) ⟨top ++ rest, l, σ⟩).Leaves rest b
  | .op o, top, rest, l, σ, a, b, h, hstraight, _, _, htop => by
    rw [Instr.exec]
    rw [Instr.straight, decide_eq_true_eq] at hstraight
    exact Frame.op_typed h hstraight htop
  | .i32Const w, top, rest, l, σ, a, b, h, _, _, _, htop => by
    obtain ⟨r, rfl, rfl⟩ := (Instr.typed_iff rfl).1 h
    exact ⟨.word w :: top, congrArg (ValType.i32 :: ·) htop, rfl⟩
  | .f64Const x, top, rest, l, σ, a, b, h, _, _, _, htop => by
    obtain ⟨r, rfl, rfl⟩ := (Instr.typed_iff rfl).1 h
    exact ⟨.double x :: top, congrArg (ValType.f64 :: ·) htop, rfl⟩
  | .localGet x, top, rest, l, σ, a, b, h, _, _, hl, htop => by
    obtain ⟨ty, hty, rfl⟩ := h.localGet
    rw [Instr.exec, Frame.getLocal]
    split
    · rename_i v hv
      have hvty : v.type = ty := Option.some.inj ((hl x v (.head _) hv).symm.trans hty)
      exact ⟨v :: top, by rw [List.map_cons, hvty, htop], rfl⟩
    · trivial
  | .localSet x, top, rest, l, σ, a, b, h, _, _, _, htop => by
    obtain ⟨ty, -, rfl⟩ := h.localSet
    obtain ⟨v, below, rfl, -, hbelow⟩ := List.map_eq_cons_iff.1 htop
    rw [Instr.exec]
    exact Frame.assign_leaves ⟨below, hbelow, rfl⟩
  | .localTee x, top, rest, l, σ, a, b, h, _, _, _, htop => by
    cases h with
    | plain h =>
      obtain ⟨ty, -, heq⟩ := Option.map_eq_some_iff.1 h
      cases heq
      obtain ⟨v, below, rfl, -, -⟩ := List.map_eq_cons_iff.1 htop
      rw [Instr.exec]
      exact Frame.assign_leaves ⟨v :: below, htop, rfl⟩
  | .globalGet x, top, rest, l, σ, a, b, h, _, _, _, htop => by
    cases h with
    | plain h =>
      obtain ⟨-, -, heq⟩ := Option.map_eq_some_iff.1 h
      cases heq
      rw [Instr.exec, Frame.getGlobal]
      split
      · rename_i w _
        exact ⟨.word w :: top, congrArg (ValType.i32 :: ·) htop, rfl⟩
      · trivial
  | .globalSet x, top, rest, l, σ, a, b, h, _, _, _, htop => by
    cases h with
    | plain h =>
      simp only [Instr.type?, Option.ite_none_right_eq_some, Option.some.injEq, Prod.mk.injEq] at h
      obtain ⟨-, rfl, rfl⟩ := h
      obtain ⟨w, below, rfl, hbelow⟩ := exists_word htop
      rw [Instr.exec, Frame.setGlobal]
      split
      · rename_i heq _
        cases heq
        exact ⟨below, hbelow, rfl⟩
      · trivial
  | .call f, top, rest, l, σ, a, b, h, _, hΓ, _, htop => by
    cases h with
    | plain h =>
      obtain ⟨signature, hsignature, heq⟩ := Option.map_eq_some_iff.1 h
      cases heq
      rw [Instr.exec]
      exact Frame.call_typed (fun fn hfn => Option.some.inj ((hΓ.funcs f fn (.head _) hfn).symm.trans hsignature)) htop
  | .callIndirect table type, top, rest, l, σ, a, b, h, _, hΓ, _, htop => by
    cases h with
    | plain h =>
      simp only [Instr.type?, Option.ite_none_right_eq_some] at h
      obtain ⟨-, h⟩ := h
      obtain ⟨signature, hsignature, heq⟩ := Option.map_eq_some_iff.1 h
      cases heq
      obtain ⟨w, below, rfl, hbelow⟩ := exists_word htop
      rw [Instr.exec]
      show ((m.target table type w).bind _).Leaves _ _
      obtain ⟨f, fn, htarget, htype, -, hfn⟩ | ⟨t, htarget⟩ | htarget := m.target_cases table type w
      · have hsame : fn.signature = signature :=
          Option.some.inj ((hΓ.types type _ (by simp [Instr.refs]) htype).symm.trans hsignature)
        rw [htarget]
        exact Frame.call_typed (fun fn' hfn' => Option.some.inj (hfn'.symm.trans hfn) ▸ hsame) hbelow
      · rw [htarget]
        trivial
      · rw [htarget]
        trivial
  | .load ty offset, top, rest, l, σ, a, b, h, _, _, _, htop => by
    cases h with
    | plain h =>
      simp only [Instr.type?, Option.ite_none_right_eq_some, Option.some.injEq, Prod.mk.injEq] at h
      obtain ⟨-, rfl, rfl⟩ := h
      obtain ⟨w, below, rfl, hbelow⟩ := exists_word htop
      rw [Instr.exec]
      simp only [List.cons_append, Frame.load]
      split
      · exact ⟨_ :: below, by rw [List.map_cons, Operand.type_ofNumber, hbelow]; rfl, rfl⟩
      · trivial
  | .store ty offset, top, rest, l, σ, a, b, h, _, _, _, htop => by
    cases h with
    | plain h =>
      simp only [Instr.type?, Option.ite_none_right_eq_some, Option.some.injEq, Prod.mk.injEq] at h
      obtain ⟨-, rfl, rfl⟩ := h
      obtain ⟨v, below, rfl, hv, hbelow⟩ := List.map_eq_cons_iff.1 htop
      obtain ⟨w, below, rfl, hbelow'⟩ := exists_word hbelow
      rw [Instr.exec]
      cases v with
      | word x =>
        obtain rfl : ty = .i32 := hv.symm
        exact Frame.write_leaves ⟨below, hbelow', rfl⟩
      | double x =>
        obtain rfl : ty = .f64 := hv.symm
        exact Frame.write_leaves ⟨below, hbelow', rfl⟩
  | .cond result yes no, top, rest, l, σ, a, b, h, hstraight, hΓ, hl, htop => by
    obtain ⟨hyes, hno, r, rfl, rfl⟩ := Instr.typed_cond.1 h
    obtain ⟨w, below, rfl, hbelow⟩ := exists_word htop
    rw [Instr.straight, Bool.and_eq_true] at hstraight
    rw [Instr.refs] at hΓ hl
    rw [Instr.exec]
    simp only [List.cons_append]
    have hblock : (if w ≠ 0 then Code.exec ops m (m.invoke ops n) yes ⟨[], l, σ⟩
        else Code.exec ops m (m.invoke ops n) no ⟨[], l, σ⟩).Leaves [] result.toList := by
      split
      · exact Code.Typed.exec yes [] [] hyes hstraight.1 (hΓ.of_subset (List.subset_append_left _ _))
          (hl.of_subset (List.subset_append_left _ _)) rfl
      · exact Code.Typed.exec no [] [] hno hstraight.2 (hΓ.of_subset (List.subset_append_right _ _))
          (hl.of_subset (List.subset_append_right _ _)) rfl
    refine hblock.bind fun t _ ⟨top', htop', hstack⟩ => ?_
    unfold Frame.leaveBlock
    split
    · exact ⟨top' ++ below, by rw [List.map_append, htop', hbelow], by simp [hstack]⟩
    · trivial
termination_by structural i => i

/-- **Typed code keeps to its types**, unless it traps. -/
theorem Code.Typed.exec : ∀ (c : Code) (top rest : List Operand) {l : String → Option Operand} {σ : Store}
    {a b : List ValType}, Code.Typed Γ c a b → c.straight = true → Γ.Describes m (Code.refs c) →
    Γ.Allows (Code.refs c) l → top.map (·.type) = a →
    (c.exec ops m (m.invoke ops n) ⟨top ++ rest, l, σ⟩).Leaves rest b
  | [], top, rest, l, σ, a, b, h, _, _, _, htop => by
    obtain rfl := Code.typed_nil.1 h
    exact ⟨top, htop, rfl⟩
  | i :: c, top, rest, l, σ, a, b, h, hstraight, hΓ, hl, htop => by
    obtain ⟨b', hi, hc⟩ := Code.typed_cons.1 h
    rw [Code.straight, Bool.and_eq_true] at hstraight
    rw [Code.refs_cons] at hΓ hl
    rw [Code.exec]
    have hfirst := Instr.Typed.exec (σ := σ) i top rest hi hstraight.1 (hΓ.of_subset (List.subset_append_left _ _))
      (hl.of_subset (List.subset_append_left _ _)) htop
    refine hfirst.bind fun ⟨stack, l', τ⟩ hexec ⟨top', htop', hstack⟩ => ?_
    obtain rfl : stack = top' ++ rest := hstack
    exact Code.Typed.exec c top' rest hc hstraight.2 (hΓ.of_subset (List.subset_append_right _ _))
      ((hl.of_subset (List.subset_append_right _ _)).of_kept (i.exec_locals hexec)) htop'
termination_by structural c => c

end

end

end

end WasmBackend
