/-
**Reducing code reaches its normal form in one round**
(`optimize_normalizes`). Cancelling is invariant under deleting any one pair
of boxing and unboxing (`cancel_eq_of_deletes`), and is itself a sequence of
such deletions (`deletes_cancel`) that leaves no pair (`unpaired_cancel`). So
in whatever order pairs are deleted, the end is what one pass gives, and a
second pass finds nothing.

Dropping pops at the end of a function takes away a suffix, which makes no
new pairs, so the two passes do not interfere.
-/
import WasmBackend.Proofs.Simulation.Reduced

namespace WasmBackend

namespace Peephole

open Library Relation

/-! ## Pairs -/

mutual

/-- Inside of an instruction no boxing is directly followed by unboxing. -/
def UnpairedIn : Instr String → Prop
  | .cond _ yes no => Unpaired yes ∧ Unpaired no
  | _ => True
termination_by structural i => i

/-- No boxing is directly followed by unboxing, at any level. -/
def Unpaired : Code → Prop
  | [] => True
  | i :: c => UnpairedIn i ∧ (i = .call Floats.new → c.head? ≠ some (.call Floats.get)) ∧ Unpaired c
termination_by structural c => c

end

/-- One boxing that is directly followed by unboxing is deleted with it, at any level. -/
inductive Deletes : Code → Code → Prop
  | pair (a b : Code) : Deletes (a ++ .call Floats.new :: .call Floats.get :: b) (a ++ b)
  | yes (a b : Code) (result : Option ValType) {yes yes' : Code} (no : Code) : Deletes yes yes' →
      Deletes (a ++ .cond result yes no :: b) (a ++ .cond result yes' no :: b)
  | no (a b : Code) (result : Option ValType) (yes : Code) {no no' : Code} : Deletes no no' →
      Deletes (a ++ .cond result yes no :: b) (a ++ .cond result yes no' :: b)

@[simp] theorem unpaired_nil : Unpaired [] := by
  simp [Unpaired]

theorem unpaired_cons {i : Instr String} {c : Code} : Unpaired (i :: c) ↔
    UnpairedIn i ∧ (i = .call Floats.new → c.head? ≠ some (.call Floats.get)) ∧ Unpaired c := by
  rw [Unpaired]

theorem unpaired_append {a b : Code} : Unpaired (a ++ b) ↔ Unpaired a ∧ Unpaired b ∧
    (a.getLast? = some (.call Floats.new) → b.head? ≠ some (.call Floats.get)) := by
  induction a with
  | nil => simp
  | cons i a ih =>
    cases a with
    | nil => simp [unpaired_cons, and_left_comm, and_comm]
    | cons j a =>
      have hlast : (i :: j :: a).getLast? = (j :: a).getLast? := rfl
      rw [List.cons_append, unpaired_cons, ih, unpaired_cons (c := j :: a), hlast]
      simp [and_assoc]

theorem unpaired_singleton {i : Instr String} : Unpaired [i] ↔ UnpairedIn i := by
  simp [unpaired_cons]

/-- What follows code does not matter to it. -/
theorem Unpaired.left {a b : Code} (h : Unpaired (a ++ b)) : Unpaired a := (unpaired_append.1 h).1

/-! ## One pass leaves no pair -/

theorem unpaired_push {stack : Code} {i : Instr String} (hstack : Unpaired stack.reverse) (hi : UnpairedIn i) :
    Unpaired (push stack i).reverse := by
  cases stack with
  | nil => simpa [push, unpaired_singleton] using hi
  | cons top rest =>
    rw [push]
    split
    · rw [List.reverse_cons] at hstack
      exact hstack.left
    · rename_i hpair
      rw [List.reverse_cons]
      refine unpaired_append.2 ⟨hstack, unpaired_singleton.2 hi, fun htop hget => hpair ?_⟩
      simp only [List.getLast?_reverse, List.head?_cons, Option.some.injEq] at htop hget
      simp [isCall, htop, hget]

mutual

theorem unpaired_inner : ∀ i : Instr String, UnpairedIn (inner i)
  | .cond result yes no => by
    rw [inner, UnpairedIn]
    exact ⟨unpaired_cancelOnto yes [] unpaired_nil, unpaired_cancelOnto no [] unpaired_nil⟩
  | .op _ | .i32Const _ | .f64Const _ | .localGet _ | .localSet _ | .localTee _ | .globalGet _ | .globalSet _
  | .call _ | .callIndirect _ _ | .load _ _ | .store _ _ => by
    simp only [inner, UnpairedIn]
termination_by structural i => i

theorem unpaired_cancelOnto : ∀ c stack : Code, Unpaired stack.reverse → Unpaired (cancelOnto stack c)
  | [], stack, h => by
    rw [cancelOnto]
    exact h
  | i :: c, stack, h => by
    rw [cancelOnto]
    exact unpaired_cancelOnto c _ (unpaired_push h (unpaired_inner i))
termination_by structural c => c

end

/-- **One pass leaves no pair**, at any level. -/
theorem unpaired_cancel (c : Code) : Unpaired (cancel c) := unpaired_cancelOnto c [] unpaired_nil

/-! ## Code without pairs stays as it is -/

mutual

theorem inner_of_unpaired : ∀ i : Instr String, UnpairedIn i → inner i = i
  | .cond result yes no, h => by
    rw [UnpairedIn] at h
    rw [inner, cancelOnto_of_unpaired yes [] h.1, cancelOnto_of_unpaired no [] h.2]
    rfl
  | .op _, _ | .i32Const _, _ | .f64Const _, _ | .localGet _, _ | .localSet _, _ | .localTee _, _
  | .globalGet _, _ | .globalSet _, _ | .call _, _ | .callIndirect _ _, _ | .load _ _, _ | .store _ _, _ => by
    simp only [inner]
termination_by structural i => i

theorem cancelOnto_of_unpaired : ∀ c stack : Code, Unpaired (stack.reverse ++ c) →
    cancelOnto stack c = stack.reverse ++ c
  | [], stack, _ => by simp [cancelOnto]
  | i :: c, stack, h => by
    obtain ⟨-, hic, hpair⟩ := unpaired_append.1 h
    have hpush : push stack i = i :: stack := by
      cases stack with
      | nil => rfl
      | cons top rest =>
        have hne : ¬ (isCall Floats.new top && isCall Floats.get i) = true := by
          intro hboth
          rw [Bool.and_eq_true, isCall_eq_true, isCall_eq_true] at hboth
          exact hpair (by simp [hboth.1]) (by simp [hboth.2])
        rw [push, if_neg hne]
    rw [cancelOnto, inner_of_unpaired i (unpaired_cons.1 hic).1, hpush,
      cancelOnto_of_unpaired c (i :: stack) (by simpa using h)]
    simp
termination_by structural c => c

end

theorem cancel_of_unpaired {c : Code} (h : Unpaired c) : cancel c = c := cancelOnto_of_unpaired c [] h

theorem cancel_cancel (c : Code) : cancel (cancel c) = cancel c := cancel_of_unpaired (unpaired_cancel c)

theorem cancelAll_eq_cancel (c : Code) : cancelAll c = cancel c := by
  rw [cancelAll]
  split
  · exact cancelAll_of_cancel (cancel_cancel c)
  · rfl

/-! ## Deleting pairs one at a time -/

/-- The instructions before code and the code after it stay out of what happens inside. -/
theorem cancel_congr {i j : Instr String} (h : inner i = inner j) (a b : Code) :
    cancel (a ++ i :: b) = cancel (a ++ j :: b) := by
  rw [cancel, cancel, cancelOnto_append, cancelOnto_append, cancelOnto, cancelOnto, h]

/-- **Deleting a pair does not change what cancelling gives.** -/
theorem cancel_eq_of_deletes {c d : Code} (h : Deletes c d) : cancel c = cancel d := by
  induction h with
  | pair a b =>
    have hnew (stack : Code) : push stack (.call Floats.new) = .call Floats.new :: stack :=
      push_of_ne_get (by simp [Floats.new, Floats.get]) stack
    rw [cancel, cancel, cancelOnto_append, cancelOnto_append, cancelOnto, cancelOnto]
    simp only [inner, hnew]
    rfl
  | yes a b result no _ ih =>
    refine cancel_congr ?_ a b
    rw [inner, inner]
    exact congrArg (Instr.cond result · _) ih
  | no a b result yes _ ih =>
    refine cancel_congr ?_ a b
    rw [inner, inner]
    exact congrArg (Instr.cond result _ ·) ih

theorem deletes_push (stack c : Code) (i : Instr String) :
    ReflTransGen Deletes (stack.reverse ++ i :: c) ((push stack i).reverse ++ c) := by
  cases stack with
  | nil => exact .refl
  | cons top rest =>
    rw [push]
    split
    · rename_i hpair
      rw [Bool.and_eq_true, isCall_eq_true, isCall_eq_true] at hpair
      obtain ⟨rfl, rfl⟩ := hpair
      have hstep := Deletes.pair rest.reverse c
      exact .single (by simpa using hstep)
    · simp only [List.reverse_cons, List.append_assoc, List.cons_append, List.nil_append]
      exact .refl

mutual

theorem deletes_inner : ∀ (i : Instr String) (a b : Code), ReflTransGen Deletes (a ++ i :: b) (a ++ inner i :: b)
  | .cond result yes no, a, b => by
    have hyes : ReflTransGen Deletes yes (cancelOnto [] yes) := deletes_cancelOnto yes []
    have hno : ReflTransGen Deletes no (cancelOnto [] no) := deletes_cancelOnto no []
    rw [inner]
    exact (hyes.lift (fun y => a ++ .cond result y no :: b) fun _ _ h => .yes a b result no h).trans
      (hno.lift (fun n => a ++ .cond result _ n :: b) fun _ _ h => .no a b result _ h)
  | .op _, _, _ | .i32Const _, _, _ | .f64Const _, _, _ | .localGet _, _, _ | .localSet _, _, _
  | .localTee _, _, _ | .globalGet _, _, _ | .globalSet _, _, _ | .call _, _, _ | .callIndirect _ _, _, _
  | .load _ _, _, _ | .store _ _, _, _ => by
    simp only [inner]
    exact .refl
termination_by structural i => i

theorem deletes_cancelOnto : ∀ c stack : Code, ReflTransGen Deletes (stack.reverse ++ c) (cancelOnto stack c)
  | [], stack => by
    rw [cancelOnto, List.append_nil]
  | i :: c, stack => by
    rw [cancelOnto]
    exact ((deletes_inner i stack.reverse c).trans (deletes_push stack c (inner i))).trans
      (deletes_cancelOnto c (push stack (inner i)))
termination_by structural c => c

end

/-- Cancelling deletes pairs one at a time. -/
theorem deletes_cancel (c : Code) : ReflTransGen Deletes c (cancel c) := deletes_cancelOnto c []

theorem cancel_eq_of_deletions {c d : Code} (h : ReflTransGen Deletes c d) : cancel c = cancel d := by
  induction h with
  | refl => rfl
  | tail _ hstep ih => exact ih.trans (cancel_eq_of_deletes hstep)

theorem not_unpaired_of_deletes {c d : Code} (h : Deletes c d) : ¬ Unpaired c := by
  induction h with
  | pair a b =>
    intro hc
    have hpair := (unpaired_cons.1 (unpaired_append.1 hc).2.1).2.1 rfl
    exact hpair rfl
  | yes a b result no _ ih =>
    intro hc
    have hin := (unpaired_cons.1 (unpaired_append.1 hc).2.1).1
    rw [UnpairedIn] at hin
    exact ih hin.1
  | no a b result yes _ ih =>
    intro hc
    have hin := (unpaired_cons.1 (unpaired_append.1 hc).2.1).1
    rw [UnpairedIn] at hin
    exact ih hin.2

/-- Code has no pair if and only if there is nothing to delete. -/
theorem unpaired_iff {c : Code} : Unpaired c ↔ ∀ d, ¬ Deletes c d := by
  constructor
  · intro hc d hd
    exact not_unpaired_of_deletes hd hc
  · intro hc
    rcases (deletes_cancel c).cases_head with heq | ⟨d, hd, -⟩
    · rw [heq]
      exact unpaired_cancel c
    · exact absurd hd (hc d)

/-! ## Sizes -/

@[simp] theorem sizeAll_append (a b : Code) : Instr.sizeAll (a ++ b) = Instr.sizeAll a + Instr.sizeAll b := by
  induction a with
  | nil => simp [Instr.sizeAll]
  | cons i a ih => simp [Instr.sizeAll, ih, Nat.add_assoc]

theorem size_pos (i : Instr String) : 0 < i.size := by
  cases i <;> simp only [Instr.size] <;> omega

theorem size_of_deletes {c d : Code} (h : Deletes c d) : Instr.sizeAll c = Instr.sizeAll d + 2 := by
  induction h with
  | pair a b => simp only [sizeAll_append, Instr.sizeAll, Instr.size]; omega
  | yes a b result no _ ih => simp only [sizeAll_append, Instr.sizeAll, Instr.size]; omega
  | no a b result yes _ ih => simp only [sizeAll_append, Instr.sizeAll, Instr.size]; omega

/-- Code with instructions left out is smaller, unless none are. -/
theorem Thinner.size {a b : Code} (h : Thinner a b) :
    Instr.sizeAll a ≤ Instr.sizeAll b ∧ (Instr.sizeAll a = Instr.sizeAll b → a = b) := by
  induction h with
  | nil => exact ⟨Nat.le_refl _, fun _ => rfl⟩
  | @drop a b i _ ih =>
    have hpos := size_pos i
    simp only [Instr.sizeAll]
    exact ⟨by omega, fun heq => by omega⟩
  | @keep a b i _ ih =>
    simp only [Instr.sizeAll]
    exact ⟨by omega, fun heq => congrArg (i :: ·) (ih.2 (by omega))⟩
  | @cond y y' n n' a b result _ _ _ ihy ihn ih =>
    simp only [Instr.sizeAll, Instr.size]
    refine ⟨by omega, fun heq => ?_⟩
    rw [ihy.2 (by omega), ihn.2 (by omega), ih.2 (by omega)]

/-- Deleting pairs comes to an end, in whatever order. -/
theorem deletes_wellFounded : WellFounded fun d c => Deletes c d := by
  have hsmaller : Subrelation (fun d c => Deletes c d) (InvImage (· < ·) Instr.sizeAll) := by
    intro d c h
    have hsize := size_of_deletes h
    show Instr.sizeAll d < Instr.sizeAll c
    omega
  exact hsmaller.wf (measure Instr.sizeAll).wf

/-! ## Passes -/

/-- How many passes cancelling takes until one of them finds nothing. -/
def passes (c : Code) : Nat :=
  if Instr.sizeAll (cancel c) < Instr.sizeAll c then passes (cancel c) + 1 else 1
termination_by Instr.sizeAll c

theorem cancelAll_eq_iterate (c : Code) : cancelAll c = cancel^[passes c] c := by
  fun_induction passes c with
  | case1 c hlt ih => rw [cancelAll, if_pos hlt, ih, Function.iterate_succ_apply]
  | case2 c hge => rw [cancelAll, if_neg hge, Function.iterate_one]

theorem passes_of_unpaired {c : Code} (h : Unpaired c) : passes c = 1 := by
  rw [passes, cancel_of_unpaired h, if_neg (Nat.lt_irrefl _)]

/-- The second pass finds nothing. -/
theorem passes_le (c : Code) : passes c ≤ 2 := by
  rw [passes, passes_of_unpaired (unpaired_cancel c)]
  split <;> omega

/-! ## Pops at the end -/

/-- So many pops of the environment in a row. -/
def pops (n : Nat) : Code := (List.replicate n popCode).flatten

theorem pops_add (n k : Nat) : pops (n + k) = pops n ++ pops k := by
  rw [pops, List.replicate_add, List.flatten_append]
  rfl

theorem pops_succ (n : Nat) : pops (n + 1) = pops n ++ popCode := by
  have hone : pops 1 = popCode := by simp [pops]
  rw [pops_add, hone]

theorem Popped.exists_pops {a b : Code} (h : Popped a b) : ∃ n, b = a ++ pops n := by
  induction h with
  | refl => exact ⟨0, by simp [pops]⟩
  | pop _ ih =>
    obtain ⟨n, rfl⟩ := ih
    exact ⟨n + 1, by rw [pops_succ, List.append_assoc]⟩

theorem not_pop_dropPopsReversed (c : Code) : ¬ popCode.reverse <+: dropPopsReversed c := by
  fun_induction dropPopsReversed c with
  | case1 set f get rest h ih => exact ih
  | case2 set f get rest h =>
    rintro ⟨rest', heq⟩
    simp only [popCode, List.reverse_cons, List.reverse_nil, List.nil_append, List.cons_append,
      List.cons.injEq, Instr.localSet.injEq, Instr.call.injEq, Instr.localGet.injEq] at heq
    exact h ⟨heq.2.2.1.symm, heq.2.1.symm, heq.1.symm⟩
  | case3 c hno =>
    rintro ⟨rest', rfl⟩
    exact hno _ _ _ _ rfl

theorem not_pop_dropPops (c : Code) : ¬ popCode <:+ dropPops c := by
  rw [dropPops, ← List.reverse_prefix, List.reverse_reverse]
  exact not_pop_dropPopsReversed c.reverse

/-- What is dropped is the longest row of pops at the end. -/
theorem dropPops_longest (c : Code) :
    ∃ n, c = dropPops c ++ pops n ∧ ∀ rest k, c = rest ++ pops k → k ≤ n := by
  obtain ⟨n, hn⟩ := (popped_dropPops c).exists_pops
  refine ⟨n, hn, fun rest k hk => ?_⟩
  by_contra hlt
  obtain ⟨j, rfl⟩ : ∃ j, k = j + 1 + n := ⟨k - n - 1, by omega⟩
  rw [pops_add, ← List.append_assoc] at hk
  have hkept : dropPops c = rest ++ pops (j + 1) := List.append_cancel_right (hn.symm.trans hk)
  rw [pops_succ, ← List.append_assoc] at hkept
  exact not_pop_dropPops c ⟨_, hkept.symm⟩

theorem dropPops_of_not_pop {c : Code} (h : ¬ popCode <:+ c) : dropPops c = c := by
  generalize hd : dropPops c = d
  have hpopped : Popped d c := hd ▸ popped_dropPops c
  cases hpopped with
  | refl => rfl
  | pop _ => exact absurd (List.suffix_append _ _) h

/-! ## Both passes -/

/-- Dropping pops makes no new pairs. -/
theorem unpaired_reduce (c : Code) : Unpaired (reduce c) := by
  obtain ⟨n, hn⟩ := (popped_dropPops (cancelAll c)).exists_pops
  have hall : Unpaired (cancelAll c) := cancelAll_eq_cancel c ▸ unpaired_cancel c
  rw [hn] at hall
  exact hall.left

theorem reduce_reduce (c : Code) : reduce (reduce c) = reduce c := by
  have hcancel : cancelAll (reduce c) = reduce c := cancelAll_of_cancel (cancel_of_unpaired (unpaired_reduce c))
  rw [reduce, hcancel]
  exact dropPops_of_not_pop (not_pop_dropPops (cancelAll c))

end Peephole

/-- What becomes of a field: a function keeps all but its body, which does not get larger and is the
same if it is as large as before, and other fields are kept. -/
inductive Field.Shrinks : Field → Field → Prop
  | func (f : Func) {body : Code} (le : Instr.sizeAll body ≤ Instr.sizeAll f.body)
      (same : Instr.sizeAll body = Instr.sizeAll f.body → body = f.body) :
      Shrinks (.func f) (.func { f with body := body })
  | other {field : Field} (h : field.func? = none) : Shrinks field field

namespace Peephole

open Relation

theorem shrinks_mapBody (field : Field) : field.Shrinks (field.mapBody reduce) := by
  cases field with
  | func f =>
    have hsize := (thinner_reduce f.body).size
    exact .func f hsize.1 hsize.2
  | _ => exact .other rfl

theorem optimize_optimize (m : Module) : optimize (optimize m) = optimize m := by
  have hfield (field : Field) : (field.mapBody reduce).mapBody reduce = field.mapBody reduce := by
    cases field with
    | func f => simp [Field.mapBody, reduce_reduce]
    | _ => rfl
  show Module.mk ((m.fields.map (·.mapBody reduce)).map (·.mapBody reduce)) = ⟨m.fields.map (·.mapBody reduce)⟩
  rw [List.map_map]
  congr 1
  exact List.map_congr_left fun field _ => hfield field

/-- **Reducing code reaches its normal form in one round.** One pass leaves no boxing that is
directly followed by unboxing, at any level, so there are at most two passes; deleting such pairs one
at a time comes to an end in whatever order, and always to the same one. Of pops at the end, the
longest row is dropped. Reducing a module twice is reducing it once, and nothing changes but bodies of
functions, which get smaller if they change. -/
theorem optimize_normalizes (code : Code) (m : Module) :
    (Unpaired (cancel code) ∧ cancelAll code = cancel^[passes code] code ∧ passes code ≤ 2 ∧
      cancelAll code = cancel code) ∧
    (WellFounded (fun d c => Deletes c d) ∧ ReflTransGen Deletes code (cancelAll code) ∧
      ∀ d, ReflTransGen Deletes code d → (∀ e, ¬ Deletes d e) → d = cancelAll code) ∧
    (∃ n, code = dropPops code ++ pops n ∧ ∀ rest k, code = rest ++ pops k → k ≤ n) ∧
    optimize (optimize m) = optimize m ∧ List.Forall₂ Field.Shrinks m.fields (optimize m).fields := by
  have hall := cancelAll_eq_cancel code
  refine ⟨⟨unpaired_cancel code, cancelAll_eq_iterate code, passes_le code, hall⟩,
    ⟨deletes_wellFounded, hall ▸ deletes_cancel code, ?_⟩, dropPops_longest code, optimize_optimize m, ?_⟩
  · intro d hd hnone
    have hd' : cancel d = d := cancel_of_unpaired (unpaired_iff.2 hnone)
    rw [hall, cancel_eq_of_deletions hd, hd']
  · show List.Forall₂ Field.Shrinks m.fields (m.fields.map (·.mapBody reduce))
    rw [List.forall₂_map_right_iff, List.forall₂_same]
    exact fun field _ => shrinks_mapBody field

end Peephole

end WasmBackend
