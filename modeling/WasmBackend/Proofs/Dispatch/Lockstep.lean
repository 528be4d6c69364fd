/-
Two modules that differ in how they compare. In one, code compares words by
an instruction; in the other it calls the comparator there (`Code.general`).
As long as the words are odd or zero, a call in the second module comes to
what it comes to in the first, and is cut off where that is cut off
(`Dispatches.follows`).
-/
import WasmBackend.Proofs.Assembly.Linking
import WasmBackend.Proofs.Machine.Throughout

namespace WasmBackend

open Library

/-! ## Comparing by calls -/

/-- The comparison that an instruction makes on words. -/
def Op.comparison? : Op → Option Comparison
  | .i32LtS => some .lt
  | .i32LeS => some .le
  | .i32GtS => some .gt
  | .i32GeS => some .ge
  | .i32Eq => some .eq
  | .i32Ne => some .ne
  | _ => none

theorem Op.comparison_eq_some {o : Op} {c : Comparison} : o.comparison? = some c ↔ o = c.wordOp := by
  constructor
  · intro h
    cases o <;> cases h <;> rfl
  · rintro rfl
    cases c <;> rfl

mutual

/-- Calls the comparator in place of instructions that compare words, if `own` says so. -/
def Instr.general (own : Bool) : Instr String → Instr String
  | .op o =>
    match own, o.comparison? with
    | true, some c => .call (Compare.function c)
    | _, _ => .op o
  | .cond result yes no => .cond result (Code.general own yes) (Code.general own no)
  | i => i
termination_by structural i => i

def Code.general (own : Bool) : Code → Code
  | [] => []
  | i :: c => i.general own :: Code.general own c
termination_by structural c => c

end

/-- All functions but those of the comparator call it. -/
def Func.general (f : Func) : Func := { f with body := Code.general (f.name ∉ Compare.names) f.body }

section

variable {own : Bool}

@[simp] theorem Code.general_nil : Code.general own [] = [] := by
  rw [Code.general]

@[simp] theorem Code.general_cons (i : Instr String) (c : Code) :
    Code.general own (i :: c) = i.general own :: Code.general own c := by
  rw [Code.general]

@[simp] theorem Code.general_append (a b : Code) :
    Code.general own (a ++ b) = Code.general own a ++ Code.general own b := by
  induction a with
  | nil => simp
  | cons i a ih => simp [ih]

end

/-! ## Odd and zero words -/

/-- A word that is compared as a number. -/
def Word.Immediate (w : Word) : Prop := w.toNat % 2 = 1 ∨ w = 0

instance (w : Word) : Decidable w.Immediate := inferInstanceAs (Decidable (_ ∨ _))

theorem Word.Immediate.unboxed {w : Word} (h : w.Immediate) : w &&& Word.intFlag ≠ 0#32 ∨ w = 0#32 := by
  refine h.imp_left fun hodd hzero => ?_
  have hbit := congrArg BitVec.toNat hzero
  simp [Word.intFlag, Nat.and_one_is_mod] at hbit
  omega

/-- The comparator compares such words as the instructions do. -/
theorem Module.Compares.immediate {ops : FloatOps} {m : Module} {r : CompareRequest} {c : Comparison} {a b : Word}
    {σ : Store} (hm : m.Compares r) (hc : c ∈ Compare.closure r) (ha : a.Immediate) :
    m.Decides ops σ (Compare.function c) a b (c.accepts (a.verdict b)) := by
  by_cases hne : c = .ne
  · subst hne
    have heq : m.Decides ops σ (Compare.function .eq) a b (Comparison.eq.accepts (a.verdict b)) :=
      .unboxed (hm.any .eq (Comparison.eq_mem_closure_of_ne hc)) (by decide) ha.unboxed
    have hnot : Comparison.ne.accepts (a.verdict b) = !Comparison.eq.accepts (a.verdict b) := by
      cases a.verdict b <;> rfl
    rw [hnot]
    exact .ne (hm.any .ne hc) heq
  · exact .unboxed (hm.any c hc) hne ha.unboxed

/-! ## Following a run -/

/-- Code comes to an outcome, and is cut off at this depth if the outcome is. -/
structure Code.Follows (ops : FloatOps) (m : Module) (n : Nat) (c : Code) (s : Frame) (x : Outcome Frame) : Prop where
  cut : x = .unfinished → c.exec ops m (m.invoke ops n) s = .unfinished
  settles : x ≠ .unfinished → c.Settles ops m s x

/-- A call comes to an outcome, and is cut off at this depth if the outcome is. -/
structure Module.Follows (ops : FloatOps) (m : Module) (n : Nat) (f : String) (stack : List Operand) (store : Store)
    (x : Outcome (List Operand × Store)) : Prop where
  cut : x = .unfinished → m.invoke ops n f stack store = .unfinished
  answers : x ≠ .unfinished → m.Answers ops f stack store x

namespace Code

variable {ops : FloatOps} {m : Module} {n : Nat} {i : Instr String} {c : Code} {s : Frame} {x : Outcome Frame}

/-- Code that makes no calls. -/
theorem Follows.of_eq (h : ∀ calls, c.exec ops m calls s = x) : Follows ops m n c s x where
  cut hx := (h _).trans hx
  settles _ := ⟨0, fun _ _ => h _⟩

theorem Follows.cons {f : Frame → Outcome Frame} (hi : Follows ops m n [i] s x)
    (hc : ∀ t, x = .next t → Follows ops m n c t (f t)) : Follows ops m n (i :: c) s (x.bind f) := by
  have hexec (calls : Calls) : exec ops m calls (i :: c) s = (exec ops m calls [i] s).bind (exec ops m calls c) := by
    rw [exec_cons, exec_singleton]
  cases x with
  | unfinished =>
    refine ⟨fun _ => ?_, fun h => absurd rfl h⟩
    rw [hexec, hi.cut rfl]
    rfl
  | next t =>
    have hsettles := hi.settles (by simp)
    refine ⟨fun hx => ?_, fun hx => hsettles.append ((hc t rfl).settles hx)⟩
    rw [hexec]
    rcases hsettles.within n with hcut | hnext
    · rw [hcut]
      rfl
    · rw [hnext]
      exact (hc t rfl).cut hx
  | returned | trap | invalid =>
    obtain ⟨d, hd⟩ := hi.settles (by simp)
    refine ⟨nofun, fun _ => ⟨d, fun k hk => ?_⟩⟩
    rw [hexec, hd k hk]
    rfl

/-- An instruction that is one call, and what is done with its outcome. -/
theorem Follows.of_call {f : String} {stack : List Operand} {store : Store} {y : Outcome (List Operand × Store)}
    {g : List Operand × Store → Outcome Frame} (h : m.Follows ops n f stack store y) (hg : ∀ r, g r ≠ .unfinished)
    (hexec : ∀ k, exec ops m (m.invoke ops k) c s = (m.invoke ops k f stack store).bind g) :
    Follows ops m n c s (y.bind g) := by
  have hcut : y.bind g = .unfinished → y = .unfinished := by
    cases y with
    | next r => exact fun h => absurd h (hg r)
    | _ => simp
  refine ⟨fun hx => ?_, fun hx => ?_⟩
  · rw [hexec, h.cut (hcut hx)]
    rfl
  · obtain ⟨d, hd⟩ := h.answers fun hy => hx (by rw [hy]; rfl)
    exact ⟨d, fun k hk => by rw [hexec, hd k hk]⟩

/-- A conditional follows where the branch that is taken does. -/
theorem Follows.cond {result : Option ValType} {yes no : Code} {w : Word} {around : List Operand}
    (hs : s.stack = .word w :: around) (h : Follows ops m n (if w ≠ 0 then yes else no) { s with stack := [] } x) :
    Follows ops m n [.cond result yes no] s (x.bind (Frame.leaveBlock result around)) := by
  have hexec (calls : Calls) : exec ops m calls [.cond result yes no] s =
      (exec ops m calls (if w ≠ 0 then yes else no) { s with stack := [] }).bind (Frame.leaveBlock result around) := by
    rw [exec_singleton, Instr.exec, hs]
    simp only
    split <;> rfl
  have hcut : x.bind (Frame.leaveBlock result around) = .unfinished → x = .unfinished := by
    cases x with
    | next t =>
      simp only [Outcome.next_bind, Frame.leaveBlock]
      split <;> exact fun h => nomatch h
    | _ => simp
  refine ⟨fun hx => ?_, fun hx => ?_⟩
  · rw [hexec, h.cut (hcut hx)]
    rfl
  · obtain ⟨d, hd⟩ := h.settles fun hy => hx (by rw [hy]; rfl)
    exact ⟨d, fun k hk => by rw [hexec, hd k hk]⟩

end Code

/-! ## Modules -/

/-- Module `b` is module `a` with calls of the comparator in place of comparing words. -/
structure Module.Dispatches (a b : Module) (r : CompareRequest) : Prop where
  func : ∀ {x f}, a.func? x = some f → b.func? x = some f.general
  target : ∀ table type i, b.target table type i = a.target table type i
  closed : ∀ {x f}, a.func? x = some f → ∀ y, (.functions, y) ∈ Code.refs f.body → (a.func? y).isSome
  compares : b.Compares r
  requests : ∀ {x f}, a.func? x = some f → ∀ c, (.functions, Compare.function c) ∈ Code.refs f.general.body →
    c ∈ Compare.closure r

/-- Operands that are words are odd or zero where an instruction outside of the comparator
compares words. -/
def Frame.Immediate (f : Func) (i : Instr String) (s : Frame) : Prop :=
  f.name ∉ Compare.names → ∀ c x y stack, i = .op (Comparison.wordOp c) → s.stack = .word y :: .word x :: stack →
    x.Immediate ∧ y.Immediate

section

variable {ops : FloatOps} {a b : Module} {r : CompareRequest} {n : Nat}

theorem Op.apply_wordOp_invalid (c : Comparison) {stack : List Operand}
    (h : ∀ x y rest, stack ≠ .word y :: .word x :: rest) : c.wordOp.apply ops stack = .invalid := by
  match stack with
  | [] | [.word _] | .double _ :: _ | .word _ :: .double _ :: _ => cases c <;> rfl
  | .word y :: .word x :: rest => exact absurd rfl (h x y rest)

/-- The comparator takes two words. -/
theorem Module.Compares.invalid {c : Comparison} (hb : b.Compares r) (hc : c ∈ Compare.closure r) {stack : List Operand}
    (h : ∀ x y rest, stack ≠ .word y :: .word x :: rest) (store : Store) :
    b.Answers ops (Compare.function c) stack store .invalid := by
  have henter : (Compare.anyFunc r c).enter stack = none := by
    have hparams : (Compare.anyFunc r c).params = [.word "left", .word "right"] := by
      unfold Compare.anyFunc
      split <;> rfl
    match stack with
    | [] | [_] | .double _ :: _ :: _ | .word _ :: .double _ :: _ => simp [Func.enter, hparams, Local.word, Operand.type]
    | .word y :: .word x :: rest => exact absurd rfl (h x y rest)
  refine ⟨1, fun k hk => ?_⟩
  obtain ⟨k, rfl⟩ := Nat.exists_eq_add_of_le' hk
  rw [Module.invoke, hb.any c hc]
  simp only [henter]

/-- Where words are compared, the comparator gives the same answer. -/
theorem Module.Compares.follows {c : Comparison} (hb : b.Compares r) (hc : c ∈ Compare.closure r) {s : Frame}
    (hs : ∀ x y stack, s.stack = .word y :: .word x :: stack → x.Immediate) :
    Code.Follows ops b n [.call (Compare.function c)] s (s.op ops c.wordOp) := by
  have hret : c.wordOp ≠ .ret := by cases c <;> decide
  rw [Frame.op_eq hret]
  by_cases hshape : ∃ x y stack, s.stack = .word y :: .word x :: stack
  · obtain ⟨x, y, stack, hstack⟩ := hshape
    rw [hstack, Op.apply_wordOp]
    refine ⟨nofun, fun _ => ?_⟩
    have hanswers : b.Answers ops (Compare.function c) (.word y :: .word x :: stack) s.store _ :=
      hb.immediate hc (hs x y stack hstack) stack
    rw [← hstack] at hanswers
    exact Code.Settles.call hanswers
  · have hne : ∀ x y rest, s.stack ≠ .word y :: .word x :: rest := fun x y rest h => hshape ⟨x, y, rest, h⟩
    rw [Op.apply_wordOp_invalid c hne]
    exact ⟨nofun, fun _ => Code.Settles.call (hb.invalid hc hne s.store)⟩

/-- What code of a function runs with, in both modules, at some depth: `Q` holds of what it comes to. -/
structure Module.Paired (ops : FloatOps) (a b : Module) (r : CompareRequest) (n : Nat) (own : Bool)
    (Q : Instr String → Frame → Prop) : Prop where
  target : ∀ table type i, b.target table type i = a.target table type i
  compares : b.Compares r
  words : ∀ i s, Q i s → own = true → ∀ c x y stack, i = .op (Comparison.wordOp c) →
    s.stack = .word y :: .word x :: stack → x.Immediate
  calls : ∀ i s, Q i s → ∀ g args, a.callee? i s = some (g, args) → (a.func? g).isSome →
    b.Follows ops n g args s.store (a.invoke ops n g args s.store)

variable {own : Bool} {Q : Instr String → Frame → Prop}

theorem Module.Paired.op (hpair : Paired ops a b r n own Q) (o : Op) {s : Frame} (h : Q (.op o) s)
    (hc : ∀ c, (.functions, Compare.function c) ∈ ((Instr.op o).general own).refs → c ∈ Compare.closure r) :
    Code.Follows ops b n [(Instr.op o).general own] s (s.op ops o) := by
  have hsame : Code.Follows ops b n [.op o] s (s.op ops o) := by
    refine .of_eq fun calls => ?_
    rw [Code.exec_singleton, Instr.exec]
  cases hown : own with
  | false => simpa only [Instr.general] using hsame
  | true =>
    cases ho : o.comparison? with
    | none => simpa only [Instr.general, ho] using hsame
    | some c =>
      obtain rfl := Op.comparison_eq_some.1 ho
      have hmem : c ∈ Compare.closure r := hc c (by simp [Instr.general, hown, ho, Instr.refs])
      simp only [Instr.general, ho]
      exact hpair.compares.follows hmem fun x y stack hs => hpair.words _ _ h hown c x y stack rfl hs

theorem Module.Paired.callIndirect (hpair : Paired ops a b r n own Q) {table type : String} {s : Frame}
    (h : Q (.callIndirect table type) s) :
    Code.Follows ops b n [.callIndirect table type] s (s.callIndirect a (a.invoke ops n) table type) := by
  have hexec (calls : Calls) : Code.exec ops b calls [.callIndirect table type] s =
      s.callIndirect b calls table type := by
    rw [Code.exec_singleton, Instr.exec]
  unfold Frame.callIndirect at hexec ⊢
  match hs : s.stack with
  | [] | .double _ :: _ =>
    simp only [hs] at hexec ⊢
    exact .of_eq hexec
  | .word i :: stack =>
    simp only [hs, hpair.target] at hexec ⊢
    cases ht : a.target table type i with
    | next f =>
      have hcallee : a.callee? (.callIndirect table type) s = some (f, stack) := by simp [Module.callee?, hs, ht]
      obtain ⟨fn, -, -, hfn⟩ := Module.target_next ht
      have hfollows := hpair.calls _ _ h f stack hcallee (Option.isSome_of_eq_some hfn)
      refine .of_call hfollows (fun _ => nofun) fun k => ?_
      rw [hexec, ht]
      rfl
    | returned | trap | invalid | unfinished =>
      refine .of_eq fun calls => ?_
      rw [hexec, ht]
      rfl

mutual

theorem Instr.follows (hpair : Module.Paired ops a b r n own Q) : ∀ (i : Instr String) (s : Frame),
    i.Throughout ops a (a.invoke ops n) Q s → (∀ y, (.functions, y) ∈ i.refs → (a.func? y).isSome) →
    (∀ c, (.functions, Compare.function c) ∈ (i.general own).refs → c ∈ Compare.closure r) →
    Code.Follows ops b n [i.general own] s (i.exec ops a (a.invoke ops n) s)
  | .op o, s, h, _, hc => by
    rw [Instr.exec]
    exact hpair.op o h.here hc
  | .call f, s, h, hrefs, _ => by
    have hfollows := hpair.calls _ _ h.here f s.stack rfl (hrefs f (by simp [Instr.refs]))
    simp only [Instr.general, Instr.exec]
    refine .of_call hfollows (fun _ => nofun) fun k => ?_
    rw [Code.exec_singleton, Instr.exec]
    rfl
  | .callIndirect table type, s, h, _, _ => by
    simp only [Instr.general, Instr.exec]
    exact hpair.callIndirect h.here
  | .cond result yes no, s, h, hrefs, hc => by
    simp only [Instr.refs, List.mem_append] at hrefs
    simp only [Instr.general, Instr.refs, List.mem_append] at hc ⊢
    rw [Instr.exec]
    match hs : s.stack with
    | [] | .double _ :: _ =>
      refine .of_eq fun calls => ?_
      rw [Code.exec_singleton, Instr.exec, hs]
    | .word w :: around =>
      have hbranch := h.branch hs
      simp only
      by_cases hw : w ≠ 0
      · rw [if_pos hw] at hbranch ⊢
        have hyes := Code.follows hpair yes _ hbranch (fun y hy => hrefs y (.inl hy)) fun c hmem => hc c (.inl hmem)
        exact .cond hs (by rwa [if_pos hw])
      · rw [if_neg hw] at hbranch ⊢
        have hno := Code.follows hpair no _ hbranch (fun y hy => hrefs y (.inr hy)) fun c hmem => hc c (.inr hmem)
        exact .cond hs (by rwa [if_neg hw])
  | .i32Const _, s, h, _, _ | .f64Const _, s, h, _, _ | .localGet _, s, h, _, _ | .localSet _, s, h, _, _
  | .localTee _, s, h, _, _ | .globalGet _, s, h, _, _ | .globalSet _, s, h, _, _ | .load _ _, s, h, _, _
  | .store _ _, s, h, _, _ => by
    refine .of_eq fun calls => ?_
    simp only [Instr.general, Code.exec_singleton, Instr.exec]
termination_by structural i => i

/-- Code that compares by calls follows code that compares words. -/
theorem Code.follows (hpair : Module.Paired ops a b r n own Q) : ∀ (c : Code) (s : Frame),
    c.Throughout ops a (a.invoke ops n) Q s → (∀ y, (.functions, y) ∈ Code.refs c → (a.func? y).isSome) →
    (∀ d, (.functions, Compare.function d) ∈ Code.refs (c.general own) → d ∈ Compare.closure r) →
    Code.Follows ops b n (c.general own) s (c.exec ops a (a.invoke ops n) s)
  | [], s, _, _, _ => by
    simp only [Code.general_nil, Code.exec_nil]
    exact .of_eq fun _ => Code.exec_nil s
  | i :: c, s, h, hrefs, hc => by
    rw [Code.Throughout] at h
    simp only [Code.refs_cons, List.mem_append] at hrefs
    simp only [Code.general_cons, Code.refs_cons, List.mem_append] at hc ⊢
    rw [Code.exec_cons]
    refine .cons (Instr.follows hpair i s h.1 (fun y hy => hrefs y (.inl hy)) fun d hd => hc d (.inl hd)) fun t ht => ?_
    exact Code.follows hpair c t (h.2 t ht) (fun y hy => hrefs y (.inr hy)) fun d hd => hc d (.inr hd)
termination_by structural c => c

end

theorem Func.finish_eq_unfinished {f : Func} {below : List Operand} {x : Outcome Frame} :
    f.finish below x = .unfinished ↔ x = .unfinished := by
  cases x with
  | next s =>
    simp only [Func.finish]
    split <;> simp
  | returned stack store =>
    simp only [Func.finish]
    split <;> simp
  | _ => simp [Func.finish]

/-- **Calls in lockstep.** As long as only odd and zero words are compared as words, a call comes to
the same in both modules, and it is cut off in one where it is in the other. -/
theorem Module.Dispatches.follows (h : a.Dispatches b r) : ∀ {n : Nat} {x : String} {stack : List Operand} {store : Store},
    (a.func? x).isSome → a.Throughout ops Frame.Immediate n x stack store →
      b.Follows ops n x stack store (a.invoke ops n x stack store)
  | 0, x, stack, store, _, _ => ⟨fun _ => rfl, fun hne => absurd rfl hne⟩
  | n + 1, x, stack, store, hx, hrun => by
    obtain ⟨f, hf⟩ := Option.isSome_iff_exists.1 hx
    have hgeneral := h.func hf
    rw [Module.Throughout] at hrun
    rw [Module.invoke]
    simp only [hf] at hrun ⊢
    cases henter : f.enter stack with
    | none =>
      refine ⟨by simp, fun _ => ⟨1, fun k hk => ?_⟩⟩
      obtain ⟨k, rfl⟩ := Nat.exists_eq_add_of_le' hk
      have hnone : f.general.enter stack = none := henter
      rw [Module.invoke, hgeneral]
      simp only [hnone]
    | some entered =>
      obtain ⟨locals, below⟩ := entered
      have hentered : f.general.enter stack = some (locals, below) := henter
      simp only [henter] at hrun ⊢
      have hpair : Module.Paired ops a b r n (f.name ∉ Compare.names) fun i s => Frame.Immediate f i s ∧
          ∀ g args, a.callee? i s = some (g, args) → a.Throughout ops Frame.Immediate n g args s.store := {
        target := h.target
        compares := h.compares
        words := fun i s hQ hown c x y stack hi hs => (hQ.1 (of_decide_eq_true hown) c x y stack hi hs).1
        calls := fun i s hQ g args hcallee hg => h.follows hg (hQ.2 g args hcallee) }
      have hbody := Code.follows hpair f.body _ hrun (h.closed hf) (h.requests hf)
      refine ⟨fun hcut => ?_, fun hne => ?_⟩
      · have hunfinished := hbody.cut (Func.finish_eq_unfinished.1 hcut)
        rw [Module.invoke, hgeneral]
        simp only [hentered]
        exact Func.finish_eq_unfinished.2 hunfinished
      · have hsettles := hbody.settles fun hx => hne (Func.finish_eq_unfinished.2 hx)
        have hanswers := Module.Answers.of_body hgeneral hentered hsettles
        exact hanswers

/-- A call has the same outcomes in both modules. -/
theorem Module.Dispatches.answers_iff (h : a.Dispatches b r) {x : String} {stack : List Operand} {store : Store}
    {out : Outcome (List Operand × Store)} (hx : (a.func? x).isSome)
    (hrun : ∀ n, a.Throughout ops Frame.Immediate n x stack store) (hout : out ≠ .unfinished) :
    a.Answers ops x stack store out ↔ b.Answers ops x stack store out := by
  constructor
  · rintro ⟨d, hd⟩
    have hfollows := h.follows hx (hrun d)
    rw [hd d (Nat.le_refl d)] at hfollows
    exact hfollows.answers hout
  · rintro ⟨d, hd⟩
    have hfollows := h.follows hx (hrun d)
    have hne : a.invoke ops d x stack store ≠ .unfinished := by
      intro hcut
      have hb := hfollows.cut hcut
      rw [hd d (Nat.le_refl d)] at hb
      exact hout hb
    exact .of_invoke ((hfollows.answers hne).unique ⟨d, hd⟩) hout

end

end WasmBackend
