/-
Stack typing. An instruction takes operands of some types from the stack and
leaves others; which ones depends on what its names stand for (`Context`).
What comes after an instruction that never ends normally can have any stack.
Typing can be decided where that stands only at the end of a block
(`Code.leads`), which is all that fixed functions need.
-/
import WasmBackend.Proofs.Assembly.Names
import WasmBackend.Proofs.Machine.Run

namespace WasmBackend

/-- What the names in the body of a function stand for. -/
structure Context where
  locals : String → Option ValType
  /-- Globals are words; some can be set. -/
  globals : String → Option Bool
  funcs : String → Option Signature
  types : String → Option Signature
  tables : String → Bool
  /-- Whether there is a memory. -/
  memory : Bool
  /-- The result of the function. -/
  result : Option ValType

/-- What an operation takes from the stack, the top first, and what it leaves, where both are fixed. -/
def Op.type? : Op → Option (List ValType × List ValType)
  | .unreachable | .ret | .drop | .select => none
  | .nop => some ([], [])
  | .i32Eqz => some ([.i32], [.i32])
  | .i32Eq | .i32Ne | .i32LtS | .i32LeS | .i32GtS | .i32GeS | .i32Add | .i32Sub | .i32Mul | .i32DivS | .i32And
  | .i32Or | .i32Shl | .i32ShrS | .i32ShrU => some ([.i32, .i32], [.i32])
  | .f64Eq | .f64Ne | .f64Lt | .f64Le | .f64Gt | .f64Ge => some ([.f64, .f64], [.i32])
  | .f64Neg => some ([.f64], [.f64])
  | .f64Add | .f64Sub | .f64Mul | .f64Div => some ([.f64, .f64], [.f64])

/-- What an instruction without blocks takes and leaves, where both are fixed. -/
def Instr.type? (Γ : Context) : Instr String → Option (List ValType × List ValType)
  | .op o => o.type?
  | .i32Const _ => some ([], [.i32])
  | .f64Const _ => some ([], [.f64])
  | .localGet x => (Γ.locals x).map fun ty => ([], [ty])
  | .localSet x => (Γ.locals x).map fun ty => ([ty], [])
  | .localTee x => (Γ.locals x).map fun ty => ([ty], [ty])
  | .globalGet x => (Γ.globals x).map fun _ => ([], [.i32])
  | .globalSet x => if Γ.globals x = some true then some ([.i32], []) else none
  | .call f => (Γ.funcs f).map fun sig => (sig.params.reverse, sig.result.toList)
  | .callIndirect table type =>
    if Γ.tables table then (Γ.types type).map fun sig => (.i32 :: sig.params.reverse, sig.result.toList) else none
  | .load ty _ => if Γ.memory then some ([.i32], [ty]) else none
  | .store ty _ => if Γ.memory then some ([ty, .i32], []) else none
  | .cond _ _ _ => none

mutual

/-- An instruction takes one stack to another. -/
inductive Instr.Typed (Γ : Context) : Instr String → List ValType → List ValType → Prop
  | plain {i : Instr String} {takes leaves s : List ValType} (h : i.type? Γ = some (takes, leaves)) :
    Instr.Typed Γ i (takes ++ s) (leaves ++ s)
  | drop {a : ValType} {s : List ValType} : Instr.Typed Γ (.op .drop) (a :: s) s
  | select {a : ValType} {s : List ValType} : Instr.Typed Γ (.op .select) (.i32 :: a :: a :: s) (a :: s)
  | unreachable {s t : List ValType} : Instr.Typed Γ (.op .unreachable) s t
  | ret {s t : List ValType} : Instr.Typed Γ (.op .ret) (Γ.result.toList ++ s) t
  | cond {result : Option ValType} {yes no : Code} {s : List ValType} (hyes : Code.Typed Γ yes [] result.toList)
    (hno : Code.Typed Γ no [] result.toList) : Instr.Typed Γ (.cond result yes no) (.i32 :: s) (result.toList ++ s)

/-- Code takes one stack to another. -/
inductive Code.Typed (Γ : Context) : Code → List ValType → List ValType → Prop
  | nil {s : List ValType} : Code.Typed Γ [] s s
  | cons {i : Instr String} {c : Code} {s t u : List ValType} (hi : i.Typed Γ s t) (hc : Code.Typed Γ c t u) :
    Code.Typed Γ (i :: c) s u

end

/-- The type of a parameter or local. -/
def Func.typeOf? (f : Func) (x : String) : Option ValType :=
  ((f.params ++ f.locals).find? (·.name = x)).map (·.ty)

/-- A context for the body of a function. -/
def Context.inside (Γ : Context) (f : Func) : Context := { Γ with locals := f.typeOf?, result := f.result }

namespace Module

def global? (m : Module) (x : String) : Option Bool :=
  m.fields.findSome? fun
    | .global name isMutable _ => if name = x then some isMutable else none
    | _ => none

/-- What names stand for in a module, outside of its functions. -/
def context (m : Module) : Context where
  locals _ := none
  globals := m.global?
  funcs name := (m.func? name).map (·.signature)
  types := m.signature?
  tables name := name ∈ declared m.fields .tables
  memory := !(declared m.fields .memories).isEmpty
  result := none

end Module

/-- The body of a function leaves its result, and nothing else. -/
def Func.Typed (Γ : Context) (f : Func) : Prop := Code.Typed (Γ.inside f) f.body [] f.result.toList

/-- Every function of a module is typed. -/
def Module.WellTyped (m : Module) : Prop := ∀ f ∈ m.funcs, f.Typed m.context

/-! ## Sequences and stacks -/

section

variable {Γ Δ : Context} {i : Instr String} {a b c : Code} {s t u : List ValType}

theorem Instr.Typed.code (h : i.Typed Γ s t) : Code.Typed Γ [i] s t := .cons h .nil

theorem Instr.typed_cond {result : Option ValType} {yes no : Code} :
    (Instr.cond result yes no).Typed Γ s t ↔ Code.Typed Γ yes [] result.toList ∧ Code.Typed Γ no [] result.toList ∧
      ∃ r, s = .i32 :: r ∧ t = result.toList ++ r := by
  constructor
  · intro h
    cases h with
    | plain h => simp [Instr.type?] at h
    | cond hyes hno => exact ⟨hyes, hno, _, rfl, rfl⟩
  · rintro ⟨hyes, hno, r, rfl, rfl⟩
    exact .cond hyes hno

/-- Instructions whose type is fixed have that type only. -/
theorem Instr.typed_iff {takes leaves : List ValType} (h : i.type? Γ = some (takes, leaves)) :
    i.Typed Γ s t ↔ ∃ r, s = takes ++ r ∧ t = leaves ++ r := by
  constructor
  · intro hi
    cases hi with
    | plain h' =>
      obtain ⟨rfl, rfl⟩ := Prod.mk.inj (Option.some.inj (h.symm.trans h'))
      exact ⟨_, rfl, rfl⟩
    | drop | select | unreachable | ret | cond => simp [Instr.type?, Op.type?] at h
  · rintro ⟨r, rfl, rfl⟩
    exact .plain h

theorem Instr.Typed.localGet {x : String} (h : (Instr.localGet x).Typed Γ s t) :
    ∃ ty, Γ.locals x = some ty ∧ t = ty :: s := by
  cases h with
  | plain h =>
    obtain ⟨ty, hty, heq⟩ := Option.map_eq_some_iff.1 h
    cases heq
    exact ⟨ty, hty, rfl⟩

theorem Instr.Typed.localSet {x : String} (h : (Instr.localSet x).Typed Γ s t) :
    ∃ ty, Γ.locals x = some ty ∧ s = ty :: t := by
  cases h with
  | plain h =>
    obtain ⟨ty, hty, heq⟩ := Option.map_eq_some_iff.1 h
    cases heq
    exact ⟨ty, hty, rfl⟩

theorem Code.typed_nil : Code.Typed Γ [] s t ↔ s = t := by
  constructor
  · intro h
    cases h
    rfl
  · rintro rfl
    exact .nil

theorem Code.typed_cons : Code.Typed Γ (i :: c) s u ↔ ∃ t, i.Typed Γ s t ∧ Code.Typed Γ c t u := by
  constructor
  · intro h
    cases h with
    | cons hi hc => exact ⟨_, hi, hc⟩
  · rintro ⟨t, hi, hc⟩
    exact .cons hi hc

theorem Code.typed_append : Code.Typed Γ (a ++ b) s u ↔ ∃ t, Code.Typed Γ a s t ∧ Code.Typed Γ b t u := by
  induction a generalizing s with
  | nil => simp [Code.typed_nil]
  | cons i a ih =>
    simp only [List.cons_append, Code.typed_cons, ih]
    constructor
    · rintro ⟨v, hi, t, ha, hb⟩
      exact ⟨t, ⟨v, hi, ha⟩, hb⟩
    · rintro ⟨t, ⟨v, hi, ha⟩, hb⟩
      exact ⟨v, hi, t, ha, hb⟩

theorem Code.Typed.append (ha : Code.Typed Γ a s t) (hb : Code.Typed Γ b t u) : Code.Typed Γ (a ++ b) s u :=
  Code.typed_append.2 ⟨t, ha, hb⟩

/-- What lies deeper on the stack does not matter. -/
theorem Instr.Typed.frame (h : i.Typed Γ s t) (r : List ValType) : i.Typed Γ (s ++ r) (t ++ r) := by
  cases h with
  | plain h =>
    simp only [List.append_assoc]
    exact .plain h
  | drop => exact .drop
  | select => exact .select
  | unreachable => exact .unreachable
  | ret =>
    rw [List.append_assoc]
    exact .ret
  | cond hyes hno =>
    rw [List.append_assoc]
    exact .cond hyes hno

theorem Code.Typed.frame (h : Code.Typed Γ c s t) (r : List ValType) : Code.Typed Γ c (s ++ r) (t ++ r) := by
  induction c generalizing s with
  | nil =>
    rw [Code.typed_nil] at h ⊢
    rw [h]
  | cons i c ih =>
    obtain ⟨u, hi, hc⟩ := Code.typed_cons.1 h
    exact .cons (hi.frame r) (ih hc)

/-! ## Other contexts -/

/-- In `Δ`, what is referred to stands for the same as in `Γ`. -/
structure Context.Agrees (Γ Δ : Context) (refs : List (Space × String)) : Prop where
  locals : ∀ x, (.locals, x) ∈ refs → Δ.locals x = Γ.locals x
  globals : ∀ x, (.globals, x) ∈ refs → Δ.globals x = Γ.globals x
  funcs : ∀ x, (.functions, x) ∈ refs → Δ.funcs x = Γ.funcs x
  types : ∀ x, (.types, x) ∈ refs → Δ.types x = Γ.types x
  tables : ∀ x, (.tables, x) ∈ refs → Δ.tables x = Γ.tables x
  memory : Δ.memory = Γ.memory
  result : Δ.result = Γ.result

theorem Context.Agrees.of_subset {refs refs' : List (Space × String)} (h : Γ.Agrees Δ refs) (hsub : refs' ⊆ refs) :
    Γ.Agrees Δ refs' where
  locals x hx := h.locals x (hsub hx)
  globals x hx := h.globals x (hsub hx)
  funcs x hx := h.funcs x (hsub hx)
  types x hx := h.types x (hsub hx)
  tables x hx := h.tables x (hsub hx)
  memory := h.memory
  result := h.result

theorem Instr.type_agrees (h : Γ.Agrees Δ i.refs) : i.type? Δ = i.type? Γ := by
  cases i with
  | localGet x | localSet x | localTee x => simp [Instr.type?, h.locals x (by simp [Instr.refs])]
  | globalGet x | globalSet x => simp [Instr.type?, h.globals x (by simp [Instr.refs])]
  | call f => simp [Instr.type?, h.funcs f (by simp [Instr.refs])]
  | callIndirect table type =>
    simp [Instr.type?, h.types type (by simp [Instr.refs]), h.tables table (by simp [Instr.refs])]
  | load | store => simp [Instr.type?, h.memory]
  | op | i32Const | f64Const | cond => rfl

mutual

theorem Instr.Typed.agrees {i : Instr String} {s t : List ValType} : i.Typed Γ s t → Γ.Agrees Δ i.refs → i.Typed Δ s t
  | .plain h, hΔ => .plain ((Instr.type_agrees hΔ).trans h)
  | .drop, _ => .drop
  | .select, _ => .select
  | .unreachable, _ => .unreachable
  | .ret, hΔ => by
    rw [← hΔ.result]
    exact .ret
  | .cond hyes hno, hΔ => by
    rw [Instr.refs] at hΔ
    exact .cond (hyes.agrees (hΔ.of_subset (List.subset_append_left _ _)))
      (hno.agrees (hΔ.of_subset (List.subset_append_right _ _)))

/-- Typing depends only on what the names in the code stand for. -/
theorem Code.Typed.agrees {c : Code} {s t : List ValType} : Code.Typed Γ c s t → Γ.Agrees Δ (Code.refs c) →
    Code.Typed Δ c s t
  | .nil, _ => .nil
  | .cons hi hc, hΔ => by
    rw [Code.refs_cons] at hΔ
    exact .cons (hi.agrees (hΔ.of_subset (List.subset_append_left _ _)))
      (hc.agrees (hΔ.of_subset (List.subset_append_right _ _)))

end

end

/-! ## Checking -/

def Instr.isUnreachable : Instr String → Bool
  | .op .unreachable => true
  | _ => false

mutual

/-- The stack after an instruction, given the one before. -/
def Instr.next? (Γ : Context) : Instr String → List ValType → Option (List ValType)
  | .cond result yes no, s =>
    if Code.leads Γ yes [] result.toList && Code.leads Γ no [] result.toList then
      ([ValType.i32].isPrefixOf? s).map (result.toList ++ ·)
    else none
  | i, s => (i.type? Γ).bind fun ty => (ty.1.isPrefixOf? s).map (ty.2 ++ ·)
termination_by structural i => i

/-- Whether code leads from one stack to another, where an instruction after which every stack is
possible stands only at the end of a block. -/
def Code.leads (Γ : Context) : Code → List ValType → List ValType → Bool
  | [], s, t => s = t
  | i :: c, s, t => i.isUnreachable && c.isEmpty || (i.next? Γ s).any fun u => Code.leads Γ c u t
termination_by structural c => c

end

section

variable {Γ : Context}

theorem Instr.isUnreachable_iff {i : Instr String} : i.isUnreachable = true ↔ i = .op .unreachable := by
  cases i with
  | op o => cases o <;> simp [Instr.isUnreachable]
  | _ => simp [Instr.isUnreachable]

theorem isPrefixOf_eq_some {takes s r : List ValType} (h : takes.isPrefixOf? s = some r) : s = takes ++ r := by
  induction takes generalizing s with
  | nil => simpa [List.isPrefixOf?] using h
  | cons a takes ih =>
    cases s with
    | nil => cases h
    | cons b s =>
      simp only [List.isPrefixOf?, beq_iff_eq] at h
      split at h
      · rename_i heq
        rw [heq, List.cons_append, ih h]
      · cases h

mutual

theorem Instr.typed_of_next : ∀ {i : Instr String} {s t : List ValType}, i.next? Γ s = some t → i.Typed Γ s t
  | .cond result yes no, s, t, h => by
    rw [Instr.next?] at h
    split at h
    · rename_i hboth
      obtain ⟨hyes, hno⟩ := Bool.and_eq_true_iff.1 hboth
      obtain ⟨r, hr, rfl⟩ := Option.map_eq_some_iff.1 h
      rw [isPrefixOf_eq_some hr]
      exact .cond (Code.typed_of_leads hyes) (Code.typed_of_leads hno)
    · cases h
  | .op _, s, t, h | .i32Const _, s, t, h | .f64Const _, s, t, h | .localGet _, s, t, h | .localSet _, s, t, h
  | .localTee _, s, t, h | .globalGet _, s, t, h | .globalSet _, s, t, h | .call _, s, t, h
  | .callIndirect _ _, s, t, h | .load _ _, s, t, h | .store _ _, s, t, h => by
    simp only [Instr.next?] at h
    obtain ⟨ty, hty, h⟩ := Option.bind_eq_some_iff.1 h
    obtain ⟨r, hr, rfl⟩ := Option.map_eq_some_iff.1 h
    rw [isPrefixOf_eq_some hr]
    exact .plain hty
termination_by structural i => i

theorem Code.typed_of_leads : ∀ {c : Code} {s t : List ValType}, Code.leads Γ c s t = true → Code.Typed Γ c s t
  | [], s, t, h => Code.typed_nil.2 (of_decide_eq_true h)
  | i :: c, s, t, h => by
    rw [Code.leads, Bool.or_eq_true, Bool.and_eq_true, Option.any_eq_true] at h
    rcases h with ⟨hi, hc⟩ | ⟨u, hi, hc⟩
    · rw [List.isEmpty_iff.1 hc, Instr.isUnreachable_iff.1 hi]
      exact Instr.Typed.code .unreachable
    · exact .cons (Instr.typed_of_next hi) (Code.typed_of_leads hc)
termination_by structural c => c

end

end

end WasmBackend
