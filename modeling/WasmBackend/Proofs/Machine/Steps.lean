/-
Facts about runs: code put together runs one part after the other
(`Code.exec_append`), a deeper bound never changes an outcome
(`Code.exec_mono`), and code leaves all locals alone but those it assigns
(`Code.exec_locals`). `Settles` is the outcome of code at every depth that is
deep enough.
-/
import WasmBackend.Proofs.Machine.Run

namespace WasmBackend

namespace Outcome

variable {α β γ : Type}

@[simp] theorem next_bind (a : α) (f : α → Outcome β) : (next a).bind f = f a := rfl
@[simp] theorem returned_bind (stack : List Operand) (store : Store) (f : α → Outcome β) :
    (returned stack store).bind f = returned stack store := rfl
@[simp] theorem trap_bind (t : Trap) (f : α → Outcome β) : (trap t).bind f = trap t := rfl
@[simp] theorem invalid_bind (f : α → Outcome β) : invalid.bind f = invalid := rfl
@[simp] theorem unfinished_bind (f : α → Outcome β) : unfinished.bind f = unfinished := rfl

@[simp] theorem bind_next (x : Outcome α) : (x.bind fun a => next a) = x := by
  cases x <;> rfl

theorem bind_assoc (x : Outcome α) (f : α → Outcome β) (g : β → Outcome γ) :
    (x.bind f).bind g = x.bind fun a => (f a).bind g := by
  cases x <;> rfl

theorem bind_eq_next {x : Outcome α} {f : α → Outcome β} {b : β} :
    x.bind f = next b ↔ ∃ a, x = next a ∧ f a = next b := by
  cases x <;> simp

/-- A computation goes on or returns. -/
def Ends : Outcome α → Prop
  | next _ => True
  | returned _ _ => True
  | _ => False

theorem Ends.of_bind {x : Outcome α} {f : α → Outcome β} (h : (x.bind f).Ends) : x.Ends := by
  cases x <;> trivial

/-- One outcome is another, or was cut off. -/
def Within (x y : Outcome α) : Prop := x = unfinished ∨ x = y

theorem Within.refl (x : Outcome α) : Within x x := .inr rfl

theorem Within.bind {x y : Outcome α} {f g : α → Outcome β} (h : Within x y)
    (hf : ∀ a, Within (f a) (g a)) : Within (x.bind f) (y.bind g) := by
  rcases h with rfl | rfl
  · exact .inl rfl
  · cases x with
    | next a => exact hf a
    | _ => exact .refl _

theorem Within.eq_of_ne {x y : Outcome α} (h : Within x y) (hx : x ≠ unfinished) : y = x :=
  (h.resolve_left hx).symm

end Outcome

open Outcome (Within)

variable {ops : FloatOps} {m : Module} {calls calls' : Calls}

@[simp] theorem Code.exec_nil (s : Frame) : Code.exec ops m calls [] s = .next s := by
  rw [Code.exec]

theorem Code.exec_cons (i : Instr String) (c : Code) (s : Frame) :
    Code.exec ops m calls (i :: c) s = (i.exec ops m calls s).bind (Code.exec ops m calls c) := by
  rw [Code.exec]

theorem Code.exec_append (a b : Code) (s : Frame) :
    Code.exec ops m calls (a ++ b) s = (Code.exec ops m calls a s).bind (Code.exec ops m calls b) := by
  induction a generalizing s with
  | nil => simp
  | cons i a ih =>
    simp only [List.cons_append, Code.exec_cons, Outcome.bind_assoc]
    congr 1
    funext t
    exact ih t

@[simp] theorem Code.exec_singleton (i : Instr String) (s : Frame) :
    Code.exec ops m calls [i] s = i.exec ops m calls s := by
  rw [Code.exec_cons]
  cases i.exec ops m calls s <;> simp

/-- An indirect call is one of a function in the table that has the signature of the type. -/
theorem Module.target_cases (m : Module) (table type : String) (i : Word) :
    (∃ f fn, m.target table type i = .next f ∧ m.signature? type = some fn.signature ∧
      m.slot? table i.toNat = some f ∧ m.func? f = some fn) ∨
    (∃ t, m.target table type i = .trap t) ∨ m.target table type i = .invalid := by
  unfold target
  split
  · exact .inr (.inr rfl)
  · exact .inr (.inl ⟨_, rfl⟩)
  · rename_i signature f hsignature hslot
    split
    · exact .inr (.inr rfl)
    · rename_i fn hfn
      split
      · rename_i hsame
        exact .inl ⟨f, fn, rfl, hsame ▸ hsignature, hslot, hfn⟩
      · exact .inr (.inl ⟨_, rfl⟩)

theorem Module.target_next {table type f : String} {i : Word} (h : m.target table type i = .next f) :
    ∃ fn, m.signature? type = some fn.signature ∧ m.slot? table i.toNat = some f ∧ m.func? f = some fn := by
  obtain ⟨_, fn, hf, hfn⟩ | ⟨t, ht⟩ | hinvalid := m.target_cases table type i
  · cases hf.symm.trans h
    exact ⟨fn, hfn⟩
  · cases ht.symm.trans h
  · cases hinvalid.symm.trans h

/-! ## Deeper bounds -/

theorem Frame.call_mono (h : ∀ f stack store, Within (calls f stack store) (calls' f stack store))
    (f : String) (s : Frame) : Within (s.call calls f) (s.call calls' f) :=
  (h f _ _).bind fun _ => .refl _

theorem Frame.callIndirect_mono
    (h : ∀ f stack store, Within (calls f stack store) (calls' f stack store)) (table type : String)
    (s : Frame) : Within (s.callIndirect m calls table type) (s.callIndirect m calls' table type) := by
  unfold Frame.callIndirect
  split
  · exact (Within.refl _).bind fun f => Frame.call_mono h f _
  · exact .refl _

mutual

theorem Instr.exec_mono (h : ∀ f stack store, Within (calls f stack store) (calls' f stack store)) :
    ∀ (i : Instr String) (s : Frame), Within (i.exec ops m calls s) (i.exec ops m calls' s)
  | .op _, _ | .i32Const _, _ | .f64Const _, _ | .localGet _, _ | .localSet _, _ | .localTee _, _
  | .globalGet _, _ | .globalSet _, _ | .load _ _, _ | .store _ _, _ => by
    simp only [Instr.exec]
    exact .refl _
  | .call f, s => by
    simp only [Instr.exec]
    exact Frame.call_mono h f s
  | .callIndirect table type, s => by
    simp only [Instr.exec]
    exact Frame.callIndirect_mono h table type s
  | .cond result thenCode elseCode, s => by
    simp only [Instr.exec]
    split
    · refine Within.bind ?_ fun _ => .refl _
      split
      · exact Code.exec_mono h thenCode _
      · exact Code.exec_mono h elseCode _
    · exact .refl _
termination_by structural i => i

/-- **A deeper bound never changes an outcome** that is not cut off. -/
theorem Code.exec_mono (h : ∀ f stack store, Within (calls f stack store) (calls' f stack store)) :
    ∀ (c : Code) (s : Frame), Within (c.exec ops m calls s) (c.exec ops m calls' s)
  | [], _ => by
    simp only [Code.exec_nil]
    exact .refl _
  | i :: c, s => by
    simp only [Code.exec_cons]
    exact (Instr.exec_mono h i s).bind fun t => Code.exec_mono h c t
termination_by structural c => c

end

theorem Func.finish_mono {x y : Outcome Frame} (h : Within x y) (f : Func) (below : List Operand) :
    Within (f.finish below x) (f.finish below y) := by
  rcases h with rfl | rfl
  · exact .inl rfl
  · exact .refl _

theorem Module.invoke_succ (n : Nat) (f : String) (stack : List Operand) (store : Store) :
    Within (m.invoke ops n f stack store) (m.invoke ops (n + 1) f stack store) := by
  induction n generalizing f stack store with
  | zero => exact .inl rfl
  | succ n ih =>
    rw [Module.invoke, Module.invoke]
    split
    · exact .refl _
    · split
      · exact .refl _
      · exact Func.finish_mono (Code.exec_mono ih _ _) _ _

theorem Module.invoke_mono {n k : Nat} (h : n ≤ k) (f : String) (stack : List Operand)
    (store : Store) : Within (m.invoke ops n f stack store) (m.invoke ops k f stack store) := by
  induction h with
  | refl => exact .refl _
  | step _ ih =>
    rcases ih with ih | ih
    · exact .inl ih
    · rw [ih]
      exact Module.invoke_succ _ f stack store

/-- A call that ends at one depth ends alike at every deeper one. -/
theorem Module.invoke_eq {n k : Nat} {f : String} {stack : List Operand} {store : Store}
    {out : Outcome (List Operand × Store)} (h : n ≤ k) (hn : m.invoke ops n f stack store = out)
    (hout : out ≠ .unfinished) : m.invoke ops k f stack store = out := by
  rw [← hn]
  exact (Module.invoke_mono h f stack store).eq_of_ne (hn ▸ hout)

/-- A call has one outcome, at whatever depths it ends. -/
theorem Module.invoke_det {n k : Nat} {f : String} {stack : List Operand} {store : Store}
    {out out' : Outcome (List Operand × Store)} (hn : m.invoke ops n f stack store = out)
    (hk : m.invoke ops k f stack store = out') (hout : out ≠ .unfinished) (hout' : out' ≠ .unfinished) :
    out = out' := by
  rw [← Module.invoke_eq (Nat.le_max_left n k) hn hout]
  exact Module.invoke_eq (Nat.le_max_right n k) hk hout'

/-! ## Outcomes at every depth -/

/-- The outcome of code at every depth from some depth on. -/
def Code.Settles (ops : FloatOps) (m : Module) (c : Code) (s : Frame) (out : Outcome Frame) : Prop :=
  ∃ d, ∀ n, d ≤ n → c.exec ops m (m.invoke ops n) s = out

/-- The outcome of a call at every depth from some depth on. -/
def Module.Answers (ops : FloatOps) (m : Module) (f : String) (stack : List Operand) (store : Store)
    (out : Outcome (List Operand × Store)) : Prop :=
  ∃ d, ∀ n, d ≤ n → m.invoke ops n f stack store = out

theorem Module.Answers.of_invoke {n : Nat} {f : String} {stack : List Operand} {store : Store}
    {out : Outcome (List Operand × Store)} (h : m.invoke ops n f stack store = out)
    (hout : out ≠ .unfinished) : m.Answers ops f stack store out :=
  ⟨n, fun _ hk => Module.invoke_eq hk h hout⟩

theorem Module.Answers.unique {f : String} {stack : List Operand} {store : Store}
    {out out' : Outcome (List Operand × Store)} (h : m.Answers ops f stack store out)
    (h' : m.Answers ops f stack store out') : out = out' := by
  obtain ⟨d, hd⟩ := h
  obtain ⟨d', hd'⟩ := h'
  rw [← hd (max d d') (Nat.le_max_left d d'), hd' (max d d') (Nat.le_max_right d d')]

/-- An equation at all depths from `d` on, as the facts about library functions are. -/
theorem Module.Answers.of_eq (d : Nat) {f : String} {stack : List Operand} {store : Store}
    {out : Outcome (List Operand × Store)} (h : ∀ n, m.invoke ops (n + d) f stack store = out) :
    m.Answers ops f stack store out :=
  ⟨d, fun n hn => by
    obtain ⟨k, rfl⟩ := Nat.exists_eq_add_of_le' hn
    exact h k⟩

namespace Code

theorem Settles.of_eq (d : Nat) {c : Code} {s : Frame} {out : Outcome Frame}
    (h : ∀ n, c.exec ops m (m.invoke ops (n + d)) s = out) : c.Settles ops m s out :=
  ⟨d, fun n hn => by
    obtain ⟨k, rfl⟩ := Nat.exists_eq_add_of_le' hn
    exact h k⟩

theorem Settles.append {a b : Code} {s t : Frame} {out : Outcome Frame}
    (ha : a.Settles ops m s (.next t)) (hb : b.Settles ops m t out) : Settles ops m (a ++ b) s out := by
  obtain ⟨d, hd⟩ := ha
  obtain ⟨e, he⟩ := hb
  refine ⟨max d e, fun n hn => ?_⟩
  rw [exec_append, hd n (by omega)]
  exact he n (by omega)

theorem Settles.append_trap {a : Code} (b : Code) {s : Frame} {t : Trap}
    (ha : a.Settles ops m s (.trap t)) : Settles ops m (a ++ b) s (.trap t) := by
  obtain ⟨d, hd⟩ := ha
  refine ⟨d, fun n hn => ?_⟩
  rw [exec_append, hd n hn]
  rfl

/-- What code comes to at one depth, it comes to at every deeper one. -/
theorem Settles.of_exec {c : Code} {s : Frame} {n : Nat} {out : Outcome Frame}
    (h : c.exec ops m (m.invoke ops n) s = out) (hout : out ≠ .unfinished) : c.Settles ops m s out := by
  refine ⟨n, fun k hk => ?_⟩
  rw [← h]
  exact (exec_mono (Module.invoke_mono hk) c s).eq_of_ne (h ▸ hout)

/-- At any one depth, code comes to what it settles to or is cut off. -/
theorem Settles.within {c : Code} {s : Frame} {out : Outcome Frame} (h : c.Settles ops m s out) (n : Nat) :
    Within (c.exec ops m (m.invoke ops n) s) out := by
  obtain ⟨d, hd⟩ := h
  rw [← hd _ (Nat.le_max_left d n)]
  exact exec_mono (Module.invoke_mono (Nat.le_max_right d n)) c s

/-- A call whose outcome is known. -/
theorem Settles.call {f : String} {s : Frame} {out : Outcome (List Operand × Store)}
    (h : m.Answers ops f s.stack s.store out) :
    Settles ops m [.call f] s (out.bind fun r => .next { s with stack := r.1, store := r.2 }) := by
  obtain ⟨d, hd⟩ := h
  refine ⟨d, fun n hn => ?_⟩
  simp only [exec_singleton, Instr.exec, Frame.call, hd n hn]

theorem Settles.call_next {f : String} {stk stk' : List Operand} {l : String → Option Operand} {σ σ' : Store}
    (h : m.Answers ops f stk σ (.next (stk', σ'))) :
    Settles ops m [.call f] ⟨stk, l, σ⟩ (.next ⟨stk', l, σ'⟩) :=
  Settles.call (s := ⟨stk, l, σ⟩) h

end Code

/-- A call comes to what its body comes to. -/
theorem Module.Answers.of_body {f : String} {g : Func} {stack below : List Operand} {store : Store}
    {locals : String → Option Operand} {out : Outcome Frame} (hf : m.func? f = some g)
    (he : g.enter stack = some (locals, below)) (hb : Code.Settles ops m g.body ⟨[], locals, store⟩ out) :
    m.Answers ops f stack store (g.finish below out) := by
  obtain ⟨d, hd⟩ := hb
  refine ⟨d + 1, fun n hn => ?_⟩
  obtain ⟨n, rfl⟩ : ∃ k, n = k + 1 := ⟨n - 1, by omega⟩
  rw [Module.invoke]
  simp only [hf, he]
  rw [hd n (by omega)]

/-! ## Single steps

The machine's own functions, unfolded where an instruction and the operands it
takes are known. -/

attribute [simp] Code.exec Instr.exec Frame.push Frame.op Frame.getLocal Frame.setLocal
  Frame.teeLocal Frame.assign Frame.getGlobal Frame.setGlobal Frame.call Frame.leaveBlock
  Frame.Leaves Func.enter

@[simp] theorem Operand.type_word (w : Word) : (Operand.word w).type = .i32 := rfl
@[simp] theorem Operand.type_double (x : Double) : (Operand.double x).type = .f64 := rfl
@[simp] theorem Operand.type_ofBool (b : Bool) : (Operand.ofBool b).type = .i32 := rfl
@[simp] theorem Operand.zero_i32 : Operand.zero .i32 = .word 0 := rfl

namespace Op

variable {a b : Word} {x y : Double} {s : List Operand}

@[simp] theorem apply_unreachable : apply ops .unreachable s = .trap .unreachable := rfl
@[simp] theorem apply_i32Eqz : apply ops .i32Eqz (.word a :: s) = .next (.ofBool (a = 0) :: s) := rfl
@[simp] theorem apply_i32Eq : apply ops .i32Eq (.word b :: .word a :: s) = .next (.ofBool (a = b) :: s) := rfl
@[simp] theorem apply_i32Add : apply ops .i32Add (.word b :: .word a :: s) = .next (.word (a + b) :: s) := rfl
@[simp] theorem apply_i32Sub : apply ops .i32Sub (.word b :: .word a :: s) = .next (.word (a - b) :: s) := rfl
@[simp] theorem apply_i32Mul : apply ops .i32Mul (.word b :: .word a :: s) = .next (.word (a * b) :: s) := rfl
@[simp] theorem apply_i32And : apply ops .i32And (.word b :: .word a :: s) = .next (.word (a &&& b) :: s) := rfl
@[simp] theorem apply_i32Or : apply ops .i32Or (.word b :: .word a :: s) = .next (.word (a ||| b) :: s) := rfl
@[simp] theorem apply_i32Shl :
    apply ops .i32Shl (.word b :: .word a :: s) = .next (.word (a <<< (b.toNat % 32)) :: s) := rfl
@[simp] theorem apply_i32ShrS :
    apply ops .i32ShrS (.word b :: .word a :: s) = .next (.word (a.sshiftRight (b.toNat % 32)) :: s) := rfl
@[simp] theorem apply_i32ShrU :
    apply ops .i32ShrU (.word b :: .word a :: s) = .next (.word (a >>> (b.toNat % 32)) :: s) := rfl
@[simp] theorem apply_f64Neg : apply ops .f64Neg (.double x :: s) = .next (.double (ops.neg x) :: s) := rfl

end Op

theorem Frame.op_eq {o : Op} (h : o ≠ .ret) (s : Frame) :
    s.op ops o = (o.apply ops s.stack).bind fun stack => .next { s with stack := stack } := by
  cases o <;> first | rfl | exact absurd rfl h

@[simp] theorem Func.finish_next (f : Func) (below : List Operand) (s : Frame) :
    f.finish below (.next s) =
      if Frame.Leaves f.result s.stack then .next (s.stack ++ below, s.store) else .invalid := rfl
@[simp] theorem Func.finish_trap (f : Func) (below : List Operand) (t : Trap) :
    f.finish below (.trap t) = .trap t := rfl
@[simp] theorem Func.finish_unfinished (f : Func) (below : List Operand) :
    f.finish below .unfinished = .unfinished := rfl

theorem Frame.load_word {a x : Word} (offset : Nat) {stack : List Operand}
    {locals : String → Option Operand} {store : Store}
    (h : store.memory.loadWord (a.toNat + offset) = .ok x) :
    Frame.load .i32 offset ⟨.word a :: stack, locals, store⟩ = .next ⟨.word x :: stack, locals, store⟩ := by
  unfold Memory.loadWord at h
  split at h
  · rename_i hb
    simp only [Except.ok.injEq] at h
    subst h
    simp [Frame.load, ValType.width, Operand.ofNumber, hb]
  · cases h

theorem Frame.load_double {a : Word} {x : Double} (offset : Nat) {stack : List Operand}
    {locals : String → Option Operand} {store : Store}
    (h : store.memory.loadDouble (a.toNat + offset) = .ok x) :
    Frame.load .f64 offset ⟨.word a :: stack, locals, store⟩ =
      .next ⟨.double x :: stack, locals, store⟩ := by
  unfold Memory.loadDouble at h
  split at h
  · rename_i hb
    simp only [Except.ok.injEq] at h
    subst h
    simp [Frame.load, ValType.width, Operand.ofNumber, hb]
  · cases h

/-! ## Locals -/

mutual

/-- The locals that an instruction assigns. -/
def Instr.assigns : Instr String → List String
  | .localSet x => [x]
  | .localTee x => [x]
  | .cond _ thenCode elseCode => Code.assigns thenCode ++ Code.assigns elseCode
  | _ => []
termination_by structural i => i

def Code.assigns : Code → List String
  | [] => []
  | i :: c => i.assigns ++ Code.assigns c
termination_by structural c => c

end

@[simp] theorem Code.assigns_nil : Code.assigns [] = [] := by
  rw [Code.assigns]

@[simp] theorem Code.assigns_cons (i : Instr String) (c : Code) :
    Code.assigns (i :: c) = i.assigns ++ Code.assigns c := by
  rw [Code.assigns]

@[simp] theorem Code.assigns_append (a b : Code) : Code.assigns (a ++ b) = a.assigns ++ b.assigns := by
  induction a with
  | nil => simp
  | cons i a ih => simp [ih]

/-- Locals are those before, up to the named ones, and keep their types. -/
structure LocalsKept (assigned : List String) (before after : String → Option Operand) : Prop where
  same : ∀ x, x ∉ assigned → after x = before x
  types : ∀ x, (after x).map Operand.type = (before x).map Operand.type

theorem LocalsKept.refl (l : String → Option Operand) : LocalsKept [] l l :=
  ⟨fun _ _ => rfl, fun _ => rfl⟩

theorem LocalsKept.trans {a b : List String} {l₁ l₂ l₃ : String → Option Operand}
    (h₁ : LocalsKept a l₁ l₂) (h₂ : LocalsKept b l₂ l₃) : LocalsKept (a ++ b) l₁ l₃ where
  same x hx := by
    simp only [List.mem_append, not_or] at hx
    rw [h₂.same x hx.2, h₁.same x hx.1]
  types x := by rw [h₂.types x, h₁.types x]

theorem LocalsKept.mono {a b : List String} {l₁ l₂ : String → Option Operand}
    (h : LocalsKept a l₁ l₂) (hab : ∀ x ∈ a, x ∈ b) : LocalsKept b l₁ l₂ :=
  ⟨fun x hx => h.same x fun ha => hx (hab x ha), h.types⟩

/-- Code that assigns nothing keeps all locals. -/
theorem LocalsKept.of_eq {a : List String} {l₁ l₂ : String → Option Operand} (h : l₂ = l₁) :
    LocalsKept a l₁ l₂ :=
  h ▸ ⟨fun _ _ => rfl, fun _ => rfl⟩

theorem Frame.assign_locals {x : String} {v : Operand} {stack : List Operand} {s t : Frame}
    (h : s.assign x v stack = .next t) : LocalsKept [x] s.locals t.locals := by
  unfold Frame.assign at h
  split at h
  · rename_i old hold
    split at h
    · rename_i hty
      cases h
      refine ⟨fun y hy => ?_, fun y => ?_⟩
      · simp only [List.mem_singleton] at hy
        simp [hy]
      · by_cases hyx : y = x
        · subst hyx
          simp [hold, hty]
        · simp [hyx]
    · cases h
  · cases h

theorem Frame.op_locals {o : Op} {s t : Frame} (h : s.op ops o = .next t) : t.locals = s.locals := by
  unfold Frame.op at h
  split at h
  · cases h
  · obtain ⟨stack, -, h⟩ := Outcome.bind_eq_next.1 h
    cases h
    rfl

theorem Frame.call_locals {f : String} {s t : Frame} (h : s.call calls f = .next t) :
    t.locals = s.locals := by
  obtain ⟨r, -, h⟩ := Outcome.bind_eq_next.1 h
  cases h
  rfl

theorem Frame.write_locals {a : Word} {offset count n : Nat} {stack : List Operand} {s t : Frame}
    (h : s.write a offset count n stack = .next t) : t.locals = s.locals := by
  unfold Frame.write at h
  split at h
  · cases h
    rfl
  · cases h

mutual

theorem Instr.exec_locals : ∀ (i : Instr String) {s t : Frame}, i.exec ops m calls s = .next t →
    LocalsKept i.assigns s.locals t.locals
  | .op o, s, t, h => by
    simp only [Instr.exec] at h
    exact .of_eq (Frame.op_locals h)
  | .i32Const _, s, t, h | .f64Const _, s, t, h => by
    simp only [Instr.exec, Outcome.next.injEq] at h
    subst h
    exact .of_eq rfl
  | .localGet x, s, t, h => by
    simp only [Instr.exec, Frame.getLocal] at h
    split at h
    · cases h
      exact .of_eq rfl
    · cases h
  | .localSet x, s, t, h => by
    simp only [Instr.exec, Frame.setLocal] at h
    simp only [Instr.assigns]
    split at h
    · exact Frame.assign_locals h
    · cases h
  | .localTee x, s, t, h => by
    simp only [Instr.exec, Frame.teeLocal] at h
    simp only [Instr.assigns]
    split at h
    · exact Frame.assign_locals h
    · cases h
  | .globalGet x, s, t, h => by
    simp only [Instr.exec, Frame.getGlobal] at h
    split at h
    · cases h
      exact .of_eq rfl
    · cases h
  | .globalSet x, s, t, h => by
    simp only [Instr.exec, Frame.setGlobal] at h
    split at h
    · cases h
      exact .of_eq rfl
    · cases h
  | .call f, s, t, h => by
    simp only [Instr.exec] at h
    exact .of_eq (Frame.call_locals h)
  | .callIndirect table type, s, t, h => by
    simp only [Instr.exec, Frame.callIndirect] at h
    split at h
    · obtain ⟨f, -, h⟩ := Outcome.bind_eq_next.1 h
      have hl := Frame.call_locals h
      exact .of_eq hl
    · cases h
  | .load ty offset, s, t, h => by
    simp only [Instr.exec, Frame.load] at h
    split at h
    · split at h
      · cases h
        exact .of_eq rfl
      · cases h
    · cases h
  | .store ty offset, s, t, h => by
    simp only [Instr.exec, Frame.storeTo] at h
    split at h
    · exact .of_eq (Frame.write_locals h)
    · exact .of_eq (Frame.write_locals h)
    · cases h
  | .cond result thenCode elseCode, s, t, h => by
    simp only [Instr.exec] at h
    simp only [Instr.assigns]
    split at h
    · obtain ⟨u, hu, h⟩ := Outcome.bind_eq_next.1 h
      have hut : t.locals = u.locals := by
        unfold Frame.leaveBlock at h
        split at h
        · cases h
          rfl
        · cases h
      rw [hut]
      split at hu
      · exact (Code.exec_locals thenCode hu).mono fun x hx => List.mem_append_left _ hx
      · exact (Code.exec_locals elseCode hu).mono fun x hx => List.mem_append_right _ hx
    · cases h
termination_by structural i => i

/-- **Code leaves all locals alone** but those it assigns, and these keep their types. -/
theorem Code.exec_locals : ∀ (c : Code) {s t : Frame}, c.exec ops m calls s = .next t →
    LocalsKept c.assigns s.locals t.locals
  | [], s, t, h => by
    simp only [Code.exec_nil, Outcome.next.injEq] at h
    subst h
    exact .of_eq rfl
  | i :: c, s, t, h => by
    simp only [Code.exec_cons] at h
    obtain ⟨u, hu, h⟩ := Outcome.bind_eq_next.1 h
    rw [Code.assigns_cons]
    exact (Instr.exec_locals i hu).trans (Code.exec_locals c h)
termination_by structural c => c

end

end WasmBackend
