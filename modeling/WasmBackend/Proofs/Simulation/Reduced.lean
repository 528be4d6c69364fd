/-
Reducing code. Cancelling goes through constructs part by part, since the
code of every node starts with an instruction that neither boxes nor unboxes
a float (`Node.Emits.fresh`). So code that stands for a node still stands for
it after it was reduced (`Node.Emits.cancelAll`), and code that makes no
floats and leaves no scope is not changed (`Peephole.reduce_eq`).
-/
import WasmBackend.Proofs.Simulation.Target

namespace WasmBackend

open Library

namespace Peephole

/-! ## Cancelling -/

theorem isCall_eq_true {name : String} {i : Instr String} : isCall name i = true ↔ i = .call name := by
  cases i <;> simp [isCall]

theorem push_of_ne_get {i : Instr String} (h : i ≠ .call Floats.get) (stack : Code) : push stack i = i :: stack := by
  cases stack with
  | nil => rfl
  | cons top rest =>
    have hget : ¬ isCall Floats.get i = true := fun hi => h (isCall_eq_true.1 hi)
    simp [push, hget]

theorem inner_ne_call {i : Instr String} {f : String} (h : i ≠ .call f) : inner i ≠ .call f := by
  cases i <;> simp [inner] at h ⊢
  exact h

theorem cancelOnto_append (stack a b : Code) :
    cancelOnto stack (a ++ b) = cancelOnto (cancelOnto stack a).reverse b := by
  induction a generalizing stack with
  | nil => simp [cancelOnto]
  | cons i a ih =>
    rw [List.cons_append, cancelOnto, cancelOnto]
    exact ih _

/-- What does not box a float stays, with all below it. -/
theorem cancelOnto_above {i : Instr String} (hi : i ≠ .call Floats.new) (stack below c : Code) :
    cancelOnto (stack ++ i :: below) c = (i :: below).reverse ++ cancelOnto stack c := by
  have hpush (j : Instr String) (stack : Code) : push (stack ++ i :: below) j = push stack j ++ i :: below := by
    cases stack with
    | nil =>
      have hnew : ¬ isCall Floats.new i = true := fun h => hi (isCall_eq_true.1 h)
      simp [push, hnew]
    | cons top rest =>
      simp only [List.cons_append, push]
      split <;> simp
  induction c generalizing stack with
  | nil => simp [cancelOnto]
  | cons j c ih =>
    rw [cancelOnto, cancelOnto, hpush]
    exact ih _

@[simp] theorem cancel_nil : cancel [] = [] := by
  simp [cancel, cancelOnto]

theorem cancel_cons {i : Instr String} (hi : i ≠ .call Floats.new) (c : Code) :
    cancel (i :: c) = inner i :: cancel c := by
  have habove := cancelOnto_above (inner_ne_call hi) [] [] c
  rw [cancel, cancelOnto]
  exact habove

/-- Code that starts with an instruction that neither boxes nor unboxes a float. -/
def Fresh (c : Code) : Prop := ∃ i b, c = i :: b ∧ i ≠ .call Floats.new ∧ i ≠ .call Floats.get

theorem Fresh.append {a : Code} (h : Fresh a) (b : Code) : Fresh (a ++ b) := by
  obtain ⟨i, a, rfl, hi⟩ := h
  exact ⟨i, a ++ b, rfl, hi⟩

/-- Nothing cancels where one part ends and a fresh one starts. -/
theorem cancel_append {b : Code} (h : Fresh b) (a : Code) : cancel (a ++ b) = cancel a ++ cancel b := by
  obtain ⟨i, b, rfl, hnew, hget⟩ := h
  have habove := cancelOnto_above (inner_ne_call hnew) [] (cancelOnto [] a).reverse b
  rw [cancel_cons hnew, cancel, cancelOnto_append, cancelOnto, push_of_ne_get (inner_ne_call hget)]
  rw [List.nil_append, List.reverse_cons, List.reverse_reverse] at habove
  simpa [cancel] using habove

/-- An operand that is unboxed: boxing and unboxing go away together. -/
theorem cancel_get (c : Code) :
    (∃ c', cancel c = c' ++ [Instr.call Floats.new] ∧ cancel (c ++ [Instr.call Floats.get]) = c') ∨
      cancel (c ++ [Instr.call Floats.get]) = cancel c ++ [Instr.call Floats.get] := by
  have hcancel : cancel (c ++ [Instr.call Floats.get]) = (push (cancel c).reverse (.call Floats.get)).reverse := by
    rw [cancel, cancelOnto_append, cancelOnto, cancelOnto]
    simp [inner, cancel]
  rw [hcancel]
  cases hr : (cancel c).reverse with
  | nil =>
    rw [List.reverse_eq_nil_iff] at hr
    exact .inr (by simp [push, hr])
  | cons top rest =>
    have hc : cancel c = rest.reverse ++ [top] := by
      rw [← List.reverse_reverse (cancel c), hr, List.reverse_cons]
    by_cases htop : top = .call Floats.new
    · exact .inl ⟨rest.reverse, by rw [hc, htop], by simp [push, isCall, htop]⟩
    · have hnew : ¬ isCall Floats.new top = true := fun h => htop (isCall_eq_true.1 h)
      exact .inr (by simp [push, hnew, hc])

section

variable (c : Code)

@[simp] theorem cancel_op (o : Op) : cancel (.op o :: c) = .op o :: cancel c := cancel_cons (by simp) c
@[simp] theorem cancel_i32Const (n : Word) : cancel (.i32Const n :: c) = .i32Const n :: cancel c :=
  cancel_cons (by simp) c
@[simp] theorem cancel_f64Const (x : Double) : cancel (.f64Const x :: c) = .f64Const x :: cancel c :=
  cancel_cons (by simp) c
@[simp] theorem cancel_localGet (x : String) : cancel (.localGet x :: c) = .localGet x :: cancel c :=
  cancel_cons (by simp) c
@[simp] theorem cancel_localSet (x : String) : cancel (.localSet x :: c) = .localSet x :: cancel c :=
  cancel_cons (by simp) c
@[simp] theorem cancel_localTee (x : String) : cancel (.localTee x :: c) = .localTee x :: cancel c :=
  cancel_cons (by simp) c
@[simp] theorem cancel_callIndirect (table type : String) :
    cancel (.callIndirect table type :: c) = .callIndirect table type :: cancel c :=
  cancel_cons (by simp) c
@[simp] theorem cancel_condWord (a b : Code) :
    cancel (.condWord a b :: c) = .condWord (cancel a) (cancel b) :: cancel c :=
  cancel_cons (by simp [Instr.condWord]) c

theorem cancel_call {f : String} (h : f ≠ Floats.new) : cancel (.call f :: c) = .call f :: cancel c :=
  cancel_cons (by simpa using h) c

@[simp] theorem cancel_box (shape : Yield) : cancel shape.box = shape.box := by
  cases shape <;> rfl

end

@[simp] theorem fresh_op (o : Op) (c : Code) : Fresh (.op o :: c) := ⟨_, _, rfl, by simp, by simp⟩
@[simp] theorem fresh_i32Const (n : Word) (c : Code) : Fresh (.i32Const n :: c) := ⟨_, _, rfl, by simp, by simp⟩
@[simp] theorem fresh_f64Const (x : Double) (c : Code) : Fresh (.f64Const x :: c) := ⟨_, _, rfl, by simp, by simp⟩
@[simp] theorem fresh_localGet (x : String) (c : Code) : Fresh (.localGet x :: c) := ⟨_, _, rfl, by simp, by simp⟩
@[simp] theorem fresh_localSet (x : String) (c : Code) : Fresh (.localSet x :: c) := ⟨_, _, rfl, by simp, by simp⟩
@[simp] theorem fresh_condWord (a b c : Code) : Fresh (.condWord a b :: c) :=
  ⟨_, _, rfl, by simp [Instr.condWord], by simp [Instr.condWord]⟩
theorem fresh_call {f : String} (hnew : f ≠ Floats.new) (hget : f ≠ Floats.get) (c : Code) : Fresh (.call f :: c) :=
  ⟨_, _, rfl, by simpa using hnew, by simpa using hget⟩

/-! ## Constructs -/

/-- The library functions that constructs call beside those for floats. -/
theorem library_ne {f : String} (hf : f ∈ [Env.new, Env.get, Env.parent, Lists.empty, Lists.push, Closures.new,
    Closures.env, Closures.index]) : f ≠ Floats.new ∧ f ≠ Floats.get := by
  revert f
  decide

theorem cancel_library (c : Code) {f : String} (hf : f ∈ [Env.new, Env.get, Env.parent, Lists.empty, Lists.push,
    Closures.new, Closures.env, Closures.index]) : cancel (.call f :: c) = .call f :: cancel c :=
  cancel_call c (library_ne hf).1

theorem fresh_library (c : Code) {f : String} (hf : f ∈ [Env.new, Env.get, Env.parent, Lists.empty, Lists.push,
    Closures.new, Closures.env, Closures.index]) : Fresh (.call f :: c) :=
  fresh_call (library_ne hf).1 (library_ne hf).2 c

theorem cancel_bind (v b : Code) : cancel (Emit.bind v b) = Emit.bind (cancel v) (cancel b) := by
  have hnew (c : Code) : Fresh (.call Env.new :: c) := fresh_library c (by simp)
  simp [Emit.bind, cancel_append, hnew, cancel_library]

theorem cancel_closure (k : Nat) : cancel (Emit.closure k) = Emit.closure k := by
  simp [Emit.closure, cancel_library]

/-- Whatever matchers are called, a local is set right after. -/
theorem cancel_call_tee (f x : String) (c : Code) :
    cancel (.call f :: .localTee x :: c) = .call f :: .localTee x :: cancel c := by
  have hone : cancel [.call f] = [.call f] := by simp [cancel, cancelOnto, push, inner]
  have htee : Fresh (.localTee x :: c) := ⟨_, _, rfl, by simp, by simp⟩
  rw [← List.singleton_append, cancel_append htee, hone]
  simp

theorem cancel_arms (site : Emit.Site) (branches : List (String × Code)) :
    cancel (Emit.arms site branches) = Emit.arms site (branches.map fun b => (b.1, cancel b.2)) := by
  induction branches with
  | nil => simp [Emit.arms]
  | cons b rest ih =>
    obtain ⟨f, body⟩ := b
    simp [Emit.arms, ih, cancel_call_tee, cancel_append]

/-! ## What reducing leaves -/

/-- Code with some instructions left out, also inside of blocks. -/
inductive Thinner : Code → Code → Prop
  | nil : Thinner [] []
  | drop {a b : Code} (i : Instr String) : Thinner a b → Thinner a (i :: b)
  | keep {a b : Code} (i : Instr String) : Thinner a b → Thinner (i :: a) (i :: b)
  | cond {y y' n n' a b : Code} (result : Option ValType) : Thinner y y' → Thinner n n' → Thinner a b →
      Thinner (.cond result y n :: a) (.cond result y' n' :: b)

namespace Thinner

variable {a b c d : Code}

theorem refl (a : Code) : Thinner a a := by
  induction a with
  | nil => exact .nil
  | cons i a ih => exact .keep i ih

theorem append (h : Thinner a b) (h' : Thinner c d) : Thinner (a ++ c) (b ++ d) := by
  induction h with
  | nil => exact h'
  | drop i _ ih => exact .drop i ih
  | keep i _ ih => exact .keep i ih
  | cond result hy hn _ _ _ ih => exact .cond result hy hn ih

theorem nil_left (b : Code) : Thinner [] b := by
  induction b with
  | nil => exact .nil
  | cons i b ih => exact .drop i ih

theorem left (h : Thinner (a ++ c) b) : Thinner a b := by
  generalize hac : a ++ c = ac at h
  induction h generalizing a with
  | nil =>
    obtain ⟨rfl, rfl⟩ := List.append_eq_nil_iff.1 hac
    exact .nil
  | drop i _ ih => exact .drop i (ih hac)
  | keep i _ ih =>
    cases a with
    | nil => exact nil_left _
    | cons j a =>
      cases hac
      exact .keep _ (ih rfl)
  | cond result hy hn _ _ _ ih =>
    cases a with
    | nil => exact nil_left _
    | cons j a =>
      cases hac
      exact .cond result hy hn (ih rfl)

theorem trans (h : Thinner a b) (h' : Thinner b c) : Thinner a c := by
  induction h' generalizing a with
  | nil => exact h
  | drop i _ ih => exact .drop i (ih h)
  | keep i _ ih =>
    cases h with
    | drop _ h => exact .drop i (ih h)
    | keep _ h => exact .keep i (ih h)
    | cond result hy hn h => exact .cond result hy hn (ih h)
  | cond result hy' hn' _ ihy ihn ih =>
    cases h with
    | drop _ h => exact .drop _ (ih h)
    | keep _ h => exact .cond result hy' hn' (ih h)
    | cond _ hy hn h => exact .cond result (ihy hy) (ihn hn) (ih h)

theorem refs (h : Thinner a b) : Code.refs a ⊆ Code.refs b := by
  induction h with
  | nil => exact fun _ => id
  | drop i _ ih => exact fun d hd => by simp [ih hd]
  | keep i _ ih =>
    simp only [Code.refs_cons]
    exact List.append_subset.2 ⟨List.subset_append_left _ _, fun d hd => List.mem_append_right _ (ih hd)⟩
  | cond result _ _ _ ihy ihn ih =>
    intro d hd
    simp only [Code.refs_cons, Instr.refs, List.mem_append] at hd ⊢
    exact hd.imp (Or.imp (ihy ·) (ihn ·)) (ih ·)

theorem assigns (h : Thinner a b) : Code.assigns a ⊆ Code.assigns b := by
  induction h with
  | nil => exact fun _ => id
  | drop i _ ih => exact fun d hd => by simp [ih hd]
  | keep i _ ih =>
    simp only [Code.assigns_cons]
    exact List.append_subset.2 ⟨List.subset_append_left _ _, fun d hd => List.mem_append_right _ (ih hd)⟩
  | cond result _ _ _ ihy ihn ih =>
    intro d hd
    simp only [Code.assigns_cons, Instr.assigns, List.mem_append] at hd ⊢
    exact hd.imp (Or.imp (ihy ·) (ihn ·)) (ih ·)

end Thinner

theorem thinner_push {stack before : Code} {i j : Instr String} (h : Thinner stack.reverse before)
    (hi : Thinner [i] [j]) : Thinner (push stack i).reverse (before ++ [j]) := by
  cases stack with
  | nil => exact h.append hi
  | cons top rest =>
    rw [push]
    split
    · rw [List.reverse_cons] at h
      have hrest := h.left.append (Thinner.nil_left [j])
      simpa using hrest
    · rw [List.reverse_cons]
      exact h.append hi

mutual

theorem thinner_inner : ∀ i : Instr String, Thinner [inner i] [i]
  | .cond result thenCode elseCode => by
    rw [inner]
    exact .cond result (thinner_cancelOnto thenCode [] [] .nil) (thinner_cancelOnto elseCode [] [] .nil) .nil
  | .op _ | .i32Const _ | .f64Const _ | .localGet _ | .localSet _ | .localTee _ | .globalGet _ | .globalSet _
  | .call _ | .callIndirect _ _ | .load _ _ | .store _ _ => by
    simp only [inner]
    exact .refl _
termination_by structural i => i

theorem thinner_cancelOnto : ∀ c stack before : Code, Thinner stack.reverse before →
    Thinner (cancelOnto stack c) (before ++ c)
  | [], stack, before, h => by
    rw [cancelOnto, List.append_nil]
    exact h
  | i :: c, stack, before, h => by
    have hc := thinner_cancelOnto c _ _ (thinner_push h (thinner_inner i))
    rw [cancelOnto]
    simpa using hc
termination_by structural c => c

end

theorem thinner_cancel (c : Code) : Thinner (cancel c) c := thinner_cancelOnto c [] [] .nil

/-- What cancelling keeps, cancelling until nothing goes away keeps. -/
theorem cancelAll_induction {P : Code → Prop} (h : ∀ c, P c → P (cancel c)) (c : Code) (hc : P c) :
    P (cancelAll c) := by
  fun_induction cancelAll c with
  | case1 c _ ih => exact ih (h c hc)
  | case2 c _ => exact h c hc

theorem thinner_cancelAll (c : Code) : Thinner (cancelAll c) c :=
  cancelAll_induction (fun a h => (thinner_cancel a).trans h) c (.refl c)

/-! ## Pops at the end of a function -/

/-- The code that leaves a scope. -/
def popCode : Code := [.localGet Env.current, .call Env.parent, .localSet Env.current]

/-- Code, and the same with pops at its end. -/
inductive Popped (code : Code) : Code → Prop
  | refl : Popped code code
  | pop {c : Code} : Popped code c → Popped code (c ++ popCode)

theorem popped_reverse (code : Code) : Popped (dropPopsReversed code).reverse code.reverse := by
  fun_induction dropPopsReversed code with
  | case1 set f get rest h ih =>
    obtain ⟨rfl, rfl, rfl⟩ := h
    have hpop := ih.pop
    simpa [popCode] using hpop
  | case2 | case3 => exact .refl

theorem popped_dropPops (code : Code) : Popped (dropPops code) code := by
  have h := popped_reverse code.reverse
  rwa [List.reverse_reverse] at h

/-- Pops refer to no local but the environment. -/
theorem Popped.locals {a b : Code} (h : Popped a b) {x : String} (hx : (Space.locals, x) ∈ Code.refs b) :
    (Space.locals, x) ∈ Code.refs a ∨ x = Env.current := by
  induction h with
  | refl => exact .inl hx
  | pop _ ih =>
    simp only [popCode, Code.refs_append, Code.refs_cons, Code.refs_nil, Instr.refs, List.append_nil,
      List.mem_append, List.mem_singleton, Prod.mk.injEq, reduceCtorEq, false_and, true_and, false_or, or_self] at hx
    rcases hx with hx | hx
    · exact ih hx
    · exact .inr hx

theorem Popped.thinner {a b : Code} (h : Popped a b) : Thinner a b := by
  induction h with
  | refl => exact .refl _
  | pop _ ih =>
    have hpop := ih.append (Thinner.nil_left popCode)
    rwa [List.append_nil] at hpop

/-- The reduced body of a function. -/
def reduce (c : Code) : Code := dropPops (cancelAll c)

theorem thinner_reduce (c : Code) : Thinner (reduce c) c :=
  (popped_dropPops (cancelAll c)).thinner.trans (thinner_cancelAll c)

/-! ## Code that stays as it is -/

mutual

theorem inner_eq : ∀ i : Instr String, (.functions, Floats.new) ∉ i.refs → inner i = i
  | .cond result thenCode elseCode, h => by
    simp only [Instr.refs, List.mem_append, not_or] at h
    rw [inner, cancelOnto_eq thenCode [] h.1 (by simp), cancelOnto_eq elseCode [] h.2 (by simp)]
    rfl
  | .op _, _ | .i32Const _, _ | .f64Const _, _ | .localGet _, _ | .localSet _, _ | .localTee _, _
  | .globalGet _, _ | .globalSet _, _ | .call _, _ | .callIndirect _ _, _ | .load _ _, _ | .store _ _, _ => by
    simp only [inner]
termination_by structural i => i

theorem cancelOnto_eq : ∀ c stack : Code, (.functions, Floats.new) ∉ Code.refs c →
    (∀ i ∈ stack, i ≠ .call Floats.new) → cancelOnto stack c = stack.reverse ++ c
  | [], stack, _, _ => by simp [cancelOnto]
  | i :: c, stack, hc, hstack => by
    simp only [Code.refs_cons, List.mem_append, not_or] at hc
    have hi : i ≠ .call Floats.new := by
      rintro rfl
      exact hc.1 (by simp [Instr.refs])
    have hpush : push stack i = i :: stack := by
      cases stack with
      | nil => rfl
      | cons top rest =>
        have hnew : ¬ isCall Floats.new top = true := fun h => hstack top (.head _) (isCall_eq_true.1 h)
        simp [push, hnew]
    rw [cancelOnto, inner_eq i hc.1, hpush, cancelOnto_eq c (i :: stack) hc.2 (List.forall_mem_cons.2 ⟨hi, hstack⟩)]
    simp
termination_by structural c => c

end

theorem dropPops_eq {c : Code} (h : (.functions, Env.parent) ∉ Code.refs c) : dropPops c = c := by
  generalize hd : dropPops c = d
  have hpopped : Popped d c := hd ▸ popped_dropPops c
  cases hpopped with
  | refl => rfl
  | pop _ => exact absurd (by simp [popCode, Instr.refs]) h

/-- Code from which nothing is cancelled is as reduced as it gets. -/
theorem cancelAll_of_cancel {c : Code} (h : cancel c = c) : cancelAll c = c := by
  rw [cancelAll, h, if_neg (Nat.lt_irrefl _)]

/-- Code that makes no floats and leaves no scope is not changed. -/
theorem reduce_eq {c : Code} (hnew : (.functions, Floats.new) ∉ Code.refs c)
    (hparent : (.functions, Env.parent) ∉ Code.refs c) : reduce c = c := by
  rw [reduce, cancelAll_of_cancel (cancelOnto_eq c [] hnew (by simp)), dropPops_eq hparent]

theorem reduce_matchBy {f : String} (hf : f ∈ [Matchers.wildcard, Matchers.emptyList, Matchers.identifier]) :
    reduce (Emit.matchBy f) = Emit.matchBy f := by
  have hne : f ≠ Floats.new ∧ f ≠ Env.parent := by
    revert f
    decide
  exact reduce_eq (by simpa [Emit.matchBy, Instr.refs] using hne.1.symm)
    (by simpa [Emit.matchBy, Instr.refs] using hne.2.symm)

theorem reduce_matchCons (h t : String) : reduce (Emit.matchCons h t) = Emit.matchCons h t := by
  have hlast : cancel [.call t] = [.call t] := by simp [cancel, cancelOnto, push, inner]
  have hlists (c : Code) : cancel (.call Lists.isEmpty :: c) = .call Lists.isEmpty :: cancel c ∧
      cancel (.call Lists.head :: c) = .call Lists.head :: cancel c ∧
      cancel (.call Lists.tail :: c) = .call Lists.tail :: cancel c :=
    ⟨cancel_call c (by decide), cancel_call c (by decide), cancel_call c (by decide)⟩
  have hcancel : cancel (Emit.matchCons h t) = Emit.matchCons h t := by
    simp [Emit.matchCons, hlists, hlast, cancel_call_tee]
  rw [reduce, cancelAll_of_cancel hcancel]
  rfl

end Peephole

open Peephole (Fresh cancel)

/-! ## Nodes -/

variable {T : Target} {shape : Yield} {frames : List (Option String)} {c : Code}

theorem Target.Unboxed.fresh {code : Yield → Code → Prop} (h : T.Unboxed code c)
    (hcode : ∀ shape c, code shape c → Fresh c) : Fresh c := by
  rcases h with ⟨c, h, rfl⟩ | ⟨-, h⟩
  · exact (hcode _ _ h).append _
  · exact hcode _ _ h

namespace Node

/-- The code of a node starts with an instruction that neither boxes nor unboxes a float. -/
theorem Emits.fresh : ∀ (node : Node) {shape : Yield} {frames : List (Option String)} {c : Code},
    node.Emits T shape frames c → Fresh c
  | .lit _ (.int _), _, _, _, ⟨_, rfl⟩ => Peephole.fresh_i32Const _ _
  | .lit _ (.bool _), _, _, _, ⟨_, rfl⟩ => Peephole.fresh_i32Const _ _
  | .lit _ .nil, _, _, _, ⟨_, _, rfl⟩ => Peephole.fresh_call (by decide) (by decide) _
  | .lit _ (.float _), _, _, _, ⟨_, rfl⟩ => Peephole.fresh_f64Const _ _
  | .ident _ _, _, _, _, ⟨_, _, _, _, rfl⟩ => Peephole.fresh_localGet _ _
  | .unary _ .neg _, _, _, _, ⟨_, _, _, rfl⟩ => Peephole.fresh_i32Const _ _
  | .unary _ .floatNeg operand, _, _, _, ⟨_, _, h, rfl⟩ => (h.fresh fun _ _ => Emits.fresh operand).append _
  | .binary _ (.int o) left right, _, _, _, ⟨_, l, r, hl, _, rfl⟩ => by
    cases o <;> simp [Emit.intOp, (Emits.fresh left hl).append]
  | .binary _ (.float _) left _, _, _, _, ⟨_, _, _, h, _, rfl⟩ =>
    ((h.fresh fun _ _ => Emits.fresh left).append _).append _
  | .binary _ .and left _, _, _, _, ⟨_, _, _, hl, _, rfl⟩ => (Emits.fresh left hl).append _
  | .binary _ .or left _, _, _, _, ⟨_, _, _, hl, _, rfl⟩ => (Emits.fresh left hl).append _
  | .binary _ (.compare _) left right, _, _, _, ⟨_, l, r, hl, _, h⟩ => by
    split at h
    · subst h
      exact (((Emits.fresh left hl).append _).append _).append _
    · obtain ⟨-, rfl⟩ := h
      exact (((Emits.fresh left hl).append _).append _).append _
  | .cond _ test _ _, _, _, _, ⟨_, _, _, _, ht, _, _, rfl⟩ => (Emits.fresh test ht).append _
  | .letIn _ _ _ _, _, _, _, ⟨_, _, _, _, _, _, rfl⟩ => Peephole.fresh_localGet _ _
  | .letRec _ _ (.lambda _ _ _) _, _, _, _, ⟨_, _, _, _, _, _, rfl⟩ => Peephole.fresh_localGet _ _
  | .lambda _ _ _, _, _, _, ⟨_, _, _, _, rfl⟩ => Peephole.fresh_localGet _ _
  | .app _ _ arg, _, _, _, ⟨_, _, _, _, ha, _, rfl⟩ => ((Emits.fresh arg ha).append _).append _
  | .cons _ _ tail, _, _, _, ⟨_, _, _, _, ht, _, rfl⟩ => ((Emits.fresh tail ht).append _).append _
  | .cases _ scrutinee _, _, _, _, ⟨_, _, _, _, _, he, _, rfl⟩ => ((Emits.fresh scrutinee he).append _).append _
termination_by structural node => node

/-- Code for a boxed float makes the float before it boxes it. -/
theorem Emits.unbox (node : Node) (h : node.Emits T .word frames (c ++ [Instr.call Floats.new])) :
    node.Emits T .double frames c := by
  generalize hcode : c ++ [Instr.call Floats.new] = code at h
  have hlast : code.getLast? = some (.call Floats.new) := by simp [← hcode]
  have hinit {a : Code} (ha : code = a ++ [Instr.call Floats.new]) : c = a :=
    List.append_cancel_right (hcode.trans ha)
  cases node with
  | lit span value =>
    cases value with
    | float x =>
      obtain ⟨hf, h⟩ := h
      exact ⟨hf, hinit (a := [.f64Const x]) h⟩
    | int n | bool b =>
      obtain ⟨-, rfl⟩ := h
      simp [Emit.int, Emit.bool] at hlast
    | nil =>
      obtain ⟨-, -, rfl⟩ := h
      simp [Emit.emptyList] at hlast
      exact absurd hlast (by decide)
  | unary span o operand =>
    cases o with
    | floatNeg =>
      obtain ⟨hf, e, he, h⟩ := h
      exact ⟨hf, e, he, hinit (by simpa [Yield.box] using h)⟩
    | neg =>
      obtain ⟨-, e, -, rfl⟩ := h
      simp [Emit.neg, List.getLast?_cons] at hlast
  | binary span o left right =>
    cases o with
    | float o =>
      obtain ⟨hf, l, r, hl, hr, h⟩ := h
      exact ⟨hf, l, r, hl, hr, hinit (by simpa [Yield.box] using h)⟩
    | int o =>
      obtain ⟨-, l, r, -, -, rfl⟩ := h
      cases o <;> simp [Emit.intOp, Emit.retag] at hlast
    | and | or =>
      obtain ⟨-, l, r, -, -, rfl⟩ := h
      simp [Emit.and, Emit.or, Instr.condWord] at hlast
    | compare o =>
      obtain ⟨-, l, r, -, -, h⟩ := h
      split at h
      · subst h
        simp [Emit.compareWords, Emit.toBool] at hlast
      · obtain ⟨-, rfl⟩ := h
        simp [Emit.compareAny, Emit.toBool] at hlast
  | ident span name =>
    obtain ⟨-, -, k, -, rfl⟩ := h
    simp [Emit.lookup] at hlast
    exact absurd hlast (by decide)
  | cond span test yes no =>
    obtain ⟨-, t, y, n, -, -, -, rfl⟩ := h
    simp [Emit.cond, Instr.condWord] at hlast
  | letIn span name value body =>
    obtain ⟨-, -, v, b, -, -, rfl⟩ := h
    simp [Emit.bind, List.getLast?_cons] at hlast
  | letRec span name value body =>
    cases value with
    | lambda span' param inner =>
      obtain ⟨-, -, k, b, -, -, rfl⟩ := h
      simp [Emit.bind, List.getLast?_cons] at hlast
    | _ => exact h.elim
  | lambda span param body =>
    obtain ⟨-, -, k, -, rfl⟩ := h
    simp [Emit.closure] at hlast
    exact absurd hlast (by decide)
  | app span fn arg =>
    obtain ⟨-, -, a, f, -, -, rfl⟩ := h
    simp [Emit.app] at hlast
  | cons span head tail =>
    obtain ⟨-, -, t, h, -, -, rfl⟩ := h
    simp [Emit.cons] at hlast
    exact absurd hlast (by decide)
  | cases span scrutinee arms =>
    obtain ⟨-, -, k, e, branches, -, -, rfl⟩ := h
    cases branches <;> simp [Emit.cases, Emit.arms, Instr.condWord] at hlast

end Node

theorem Comparison.function_ne (c : Comparison) :
    Compare.function c ≠ Floats.new ∧ Compare.function c ≠ Floats.get := by
  cases c <;> decide

/-- An operand of an operation on doubles, where boxing may have gone away. -/
theorem Target.Unboxed.cancel {operand : Node} (hr : T.reduced = true)
    (hcancel : ∀ {shape c}, operand.Emits T shape frames c → operand.Emits T shape frames (cancel c))
    (h : T.Unboxed (fun shape => operand.Emits T shape frames) c) :
    T.Unboxed (fun shape => operand.Emits T shape frames) (Peephole.cancel c) := by
  rcases h with ⟨c₀, h, rfl⟩ | ⟨-, h⟩
  · rcases Peephole.cancel_get c₀ with ⟨c', hnew, hget⟩ | hget
    · rw [hget]
      exact .inr ⟨hr, Node.Emits.unbox operand (hnew ▸ hcancel h)⟩
    · rw [hget]
      exact .inl ⟨_, hcancel h, rfl⟩
  · exact .inr ⟨hr, hcancel h⟩

namespace Node

mutual

/-- **Code that stands for a node stands for it after cancelling**, where doubles need not be boxed. -/
theorem Emits.cancel (hr : T.reduced = true) : ∀ (node : Node) {shape : Yield} {frames : List (Option String)}
    {c : Code}, node.Emits T shape frames c → node.Emits T shape frames (Peephole.cancel c)
  | .lit _ (.int n), _, _, _, ⟨hs, rfl⟩ => ⟨hs, by simp [Emit.int]⟩
  | .lit _ (.bool b), _, _, _, ⟨hs, rfl⟩ => ⟨hs, by simp [Emit.bool]⟩
  | .lit _ .nil, _, _, _, ⟨hs, hf, rfl⟩ =>
    ⟨hs, hf, by simp [Emit.emptyList, Peephole.cancel_library]⟩
  | .lit _ (.float x), _, _, _, ⟨hf, rfl⟩ => ⟨hf, by simp⟩
  | .ident _ name, _, _, _, ⟨hs, hf, k, hk, rfl⟩ =>
    ⟨hs, hf, k, hk, by simp [Emit.lookup, Peephole.cancel_library]⟩
  | .unary _ .neg operand, _, _, _, ⟨hs, e, he, rfl⟩ =>
    ⟨hs, _, Emits.cancel hr operand he, by simp [Emit.neg, Peephole.cancel_append]⟩
  | .unary _ .floatNeg operand, _, _, _, ⟨hf, e, he, rfl⟩ =>
    ⟨hf, _, he.cancel hr (Emits.cancel hr operand), by simp [Peephole.cancel_append]⟩
  | .binary _ (.int o) left right, _, _, _, ⟨hs, l, r, hl, hr', rfl⟩ => by
    have hfresh := Emits.fresh right hr'
    refine ⟨hs, _, _, Emits.cancel hr left hl, Emits.cancel hr right hr', ?_⟩
    cases o <;> simp [Emit.intOp, Emit.untag, Emit.retag, Peephole.cancel_append, hfresh.append]
  | .binary _ (.float o) left right, _, _, _, ⟨hf, l, r, hl, hr', rfl⟩ => by
    have hfresh := hr'.fresh fun _ _ => Emits.fresh right
    refine ⟨hf, _, _, hl.cancel hr (Emits.cancel hr left), hr'.cancel hr (Emits.cancel hr right), ?_⟩
    simp [Peephole.cancel_append, hfresh.append]
  | .binary _ .and left right, _, _, _, ⟨hs, l, r, hl, hr', rfl⟩ =>
    ⟨hs, _, _, Emits.cancel hr left hl, Emits.cancel hr right hr', by simp [Emit.and, Peephole.cancel_append]⟩
  | .binary _ .or left right, _, _, _, ⟨hs, l, r, hl, hr', rfl⟩ =>
    ⟨hs, _, _, Emits.cancel hr left hl, Emits.cancel hr right hr', by simp [Emit.or, Peephole.cancel_append]⟩
  | .binary _ (.compare c) left right, _, _, _, ⟨hs, l, r, hl, hr', h⟩ => by
    have hfresh := Emits.fresh right hr'
    refine ⟨hs, _, _, Emits.cancel hr left hl, Emits.cancel hr right hr', ?_⟩
    by_cases hwords : T.asWords left.span right.span = true
    · rw [if_pos hwords] at h ⊢
      rw [h]
      simp [Emit.compareWords, Emit.toBool, Peephole.cancel_append, hfresh.append]
    · rw [if_neg hwords] at h ⊢
      obtain ⟨hc, rfl⟩ := h
      obtain ⟨hnew, hget⟩ := c.function_ne
      exact ⟨hc, by simp [Emit.compareAny, Emit.toBool, Peephole.cancel_append, hfresh.append, Peephole.fresh_call,
        Peephole.cancel_call, hnew, hget]⟩
  | .cond _ test yes no, _, _, _, ⟨hs, t, y, n, ht, hy, hn, rfl⟩ =>
    ⟨hs, _, _, _, Emits.cancel hr test ht, Emits.cancel hr yes hy, Emits.cancel hr no hn,
      by simp [Emit.cond, Peephole.cancel_append]⟩
  | .letIn _ name value body, _, _, _, ⟨hs, hf, v, b, hv, hb, rfl⟩ =>
    ⟨hs, hf, _, _, Emits.cancel hr value hv, Emits.cancel hr body hb,
      Peephole.cancel_bind v b⟩
  | .letRec _ name (.lambda _ param inner) body, _, _, _, ⟨hs, hf, k, b, hk, hb, rfl⟩ => by
    refine ⟨hs, hf, k, _, hk, Emits.cancel hr body hb, ?_⟩
    rw [Peephole.cancel_bind, Peephole.cancel_closure]
  | .lambda _ param body, _, _, _, ⟨hs, hf, k, hk, rfl⟩ => ⟨hs, hf, k, hk, Peephole.cancel_closure k⟩
  | .app _ fn arg, _, _, _, ⟨hs, hf, a, f, ha, hf', rfl⟩ => by
    have hfresh := Emits.fresh fn hf'
    refine ⟨hs, hf, _, _, Emits.cancel hr arg ha, Emits.cancel hr fn hf', ?_⟩
    simp [Emit.app, Peephole.cancel_append, hfresh.append, Peephole.cancel_library]
  | .cons _ head tail, _, _, _, ⟨hs, hf, t, h, ht, hh, rfl⟩ => by
    have hfresh := Emits.fresh head hh
    refine ⟨hs, hf, _, _, Emits.cancel hr tail ht, Emits.cancel hr head hh, ?_⟩
    have hpush : Fresh [.call Lists.push] := Peephole.fresh_library [] (by simp)
    simp [Emit.cons, Peephole.cancel_append, hfresh.append, hpush, Peephole.cancel_library]
  | .cases _ scrutinee arms, _, _, _, ⟨hs, hf, k, e, branches, he, ha, rfl⟩ =>
    ⟨hs, hf, k, _, _, Emits.cancel hr scrutinee he, EmitsArms.cancel hr arms ha, by
      simp [Emit.cases, Peephole.cancel_append, Peephole.cancel_arms]⟩
termination_by structural node => node

theorem EmitsArms.cancel (hr : T.reduced = true) : ∀ (arms : List (Pattern × Node)) {site : Emit.Site}
    {frames : List (Option String)} {branches : List (String × Code)}, EmitsArms T arms site frames branches →
    EmitsArms T arms site frames (branches.map fun b => (b.1, Peephole.cancel b.2))
  | [], _, _, _, rfl => rfl
  | (_, body) :: rest, _, _, _, ⟨f, c, others, hp, hb, houter, ho, rfl⟩ =>
    ⟨f, _, _, hp, Emits.cancel hr body hb, fun h => houter ((Peephole.thinner_cancel c).assigns h),
      EmitsArms.cancel hr rest ho, rfl⟩
termination_by structural arms => arms

end

/-- The same of code from which all is cancelled. -/
theorem Emits.cancelAll (hr : T.reduced = true) (node : Node) (h : node.Emits T shape frames c) :
    node.Emits T shape frames (Peephole.cancelAll c) :=
  Peephole.cancelAll_induction (P := node.Emits T shape frames) (fun _ => Emits.cancel hr node) c h

end Node

/-- What becomes of the body of a function. -/
def Target.reduce (T : Target) (c : Code) : Code := if T.reduced then Peephole.reduce c else c

theorem Target.reduce_of_eq (T : Target) (h : Peephole.reduce c = c) : T.reduce c = c := by
  simp [Target.reduce, h]

/-- The function of a literal whose body was lowered to code for a node. -/
theorem Target.Literal.runs {k : Nat} {f : Func} {node : Node} (hf : T.Literal k { f with body := T.reduce f.body })
    (h : node.Emits T .word frames f.body) : T.Runs (node.Emits T .word frames) k := by
  cases hr : T.reduced with
  | true =>
    refine ⟨_, _, hf, Node.Emits.cancelAll hr node h, ?_⟩
    simp [hr, Target.reduce, Peephole.reduce]
  | false => exact ⟨_, _, hf, h, by simp [hr, Target.reduce]⟩

end WasmBackend
