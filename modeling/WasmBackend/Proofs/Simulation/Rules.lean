/-
Rules for running code beside an evaluation. `Sim` compares the two: where
the evaluation has a value, code goes on with what stands for it, unless
memory is exhausted; where it faults or is cut off, code does not go on at
all. `Sim.bind` puts two such comparisons together, one after the other.

Reduced code need not box every float, so all that is said of it is that it
goes on if there is room for every cell of the evaluation.
-/
import WasmBackend.Proofs.Simulation.Target

namespace WasmBackend

open Library

/-! ## Cells are only taken -/

namespace Eval

variable {α β : Type}

/-- A computation gives back no cells. -/
def Grows (x : Eval α) : Prop := ∀ s a s', x s = .ok a s' → s.cells ≤ s'.cells

theorem bind_apply (x : Eval α) (f : α → Eval β) (s : Arena) :
    (x >>= f) s = match x s with
      | .ok a s' => f a s'
      | .error e s' => .error e s' := by
  cases h : x s <;> simp [bind, EStateM.bind, h]

@[simp] theorem pure_apply (a : α) (s : Arena) : (pure a : Eval α) s = .ok a s := rfl

theorem Grows.pure (a : α) : Grows (Pure.pure a : Eval α) := by
  intro s b s' h
  cases h
  exact Nat.le_refl _

theorem Grows.bind {x : Eval α} {f : α → Eval β} (hx : x.Grows) (hf : ∀ a, (f a).Grows) :
    (x >>= f).Grows := by
  intro s b s' h
  rw [bind_apply] at h
  split at h
  · rename_i a t ha
    exact Nat.le_trans (hx _ _ _ ha) (hf a _ _ _ h)
  · cases h

theorem Grows.throw (e : Stop) : Grows (throw e : Eval α) := by
  intro s a s' h
  cases h

theorem Grows.take (n : Nat) : (Eval.take n).Grows := by
  intro s a s' h
  cases h
  exact Nat.le_add_right _ _

theorem Grows.close (c : Closure) : (Eval.close c).Grows := by
  refine (Grows.take 1).bind fun _ => ?_
  intro s a s' h
  cases h
  exact Nat.le_refl _

theorem Grows.float (x : Double) : (Eval.float x).Grows :=
  (Grows.take 1).bind fun _ => .pure _

theorem Grows.toInt (d : Datum) : (Eval.toInt d).Grows := by
  cases d <;> first | exact .pure _ | exact .throw _

theorem Grows.toBool (d : Datum) : (Eval.toBool d).Grows := by
  cases d <;> first | exact .pure _ | exact .throw _

theorem Grows.toDouble (d : Datum) : (Eval.toDouble d).Grows := by
  cases d <;> first | exact .pure _ | exact .throw _

theorem Grows.toList (d : Datum) : (Eval.toList d).Grows := by
  cases d <;> first | exact .pure _ | exact .throw _

end Eval

open Eval (Grows)

theorem Literal.eval_grows (value : Literal) : value.eval.Grows := by
  cases value with
  | float x => exact .float x
  | _ => exact .pure _

theorem IntOp.eval_grows (o : IntOp) (a b : BitVec 31) : (o.eval a b).Grows := by
  cases o with
  | div =>
    rw [IntOp.eval]
    split
    · exact .throw _
    · exact .pure _
  | _ => exact .pure _

theorem Pattern.select_grows : ∀ (p : Pattern) (d : Datum), (p.select d).Grows
  | .wildcard _, _ => .pure _
  | .ident _ _, _ => (Grows.take 1).bind fun _ => .pure _
  | .nil _, d => by
    refine (Grows.toList d).bind fun items => ?_
    cases items <;> exact .pure _
  | .cons _ head tail, d => by
    refine (Grows.toList d).bind fun items => ?_
    cases items with
    | nil => exact .pure _
    | cons first rest =>
      refine (head.select_grows first).bind fun outer => ?_
      cases outer with
      | none => exact .pure _
      | some outer =>
        refine (tail.select_grows (.list rest)).bind fun inner => ?_
        cases inner <;> exact .pure _

namespace Node

mutual

/-- Evaluation gives back no cells, if applications give back none. -/
theorem evalWith_grows {sem : Meaning} {apply : Apply} (ha : ∀ f a, (apply f a).Grows) :
    ∀ (node : Node) (env : Bindings), (node.evalWith sem apply env).Grows
  | .lit _ value, _ => by
    rw [evalWith]
    exact value.eval_grows
  | .ident _ name, env => by
    rw [evalWith]
    split
    · exact .pure _
    · exact .throw _
  | .unary _ .neg operand, env => by
    rw [evalWith]
    exact (evalWith_grows ha operand env).bind fun d => (Grows.toInt d).bind fun _ => .pure _
  | .unary _ .floatNeg operand, env => by
    rw [evalWith]
    exact (evalWith_grows ha operand env).bind fun d => (Grows.toDouble d).bind fun _ => .float _
  | .binary _ (.int o) left right, env => by
    rw [evalWith]
    exact (evalWith_grows ha left env).bind fun d => (Grows.toInt d).bind fun a =>
      (evalWith_grows ha right env).bind fun e => (Grows.toInt e).bind fun b => o.eval_grows a b
  | .binary _ (.float o) left right, env => by
    rw [evalWith]
    exact (evalWith_grows ha left env).bind fun d => (Grows.toDouble d).bind fun a =>
      (evalWith_grows ha right env).bind fun e => (Grows.toDouble e).bind fun b => .float _
  | .binary _ .and left right, env => by
    rw [evalWith]
    refine (evalWith_grows ha left env).bind fun d => (Grows.toBool d).bind fun b => ?_
    split
    · exact (evalWith_grows ha right env).bind fun e => (Grows.toBool e).bind fun _ => .pure _
    · exact .pure _
  | .binary _ .or left right, env => by
    rw [evalWith]
    refine (evalWith_grows ha left env).bind fun d => (Grows.toBool d).bind fun b => ?_
    split
    · exact .pure _
    · exact (evalWith_grows ha right env).bind fun e => (Grows.toBool e).bind fun _ => .pure _
  | .binary _ (.compare c) left right, env => by
    rw [evalWith]
    refine (evalWith_grows ha left env).bind fun d => (evalWith_grows ha right env).bind fun e => ?_
    split
    · exact .throw _
    · split
      · exact .pure _
      · exact .throw _
  | .cond _ test yes no, env => by
    rw [evalWith]
    refine (evalWith_grows ha test env).bind fun d => (Grows.toBool d).bind fun b => ?_
    split
    · exact evalWith_grows ha yes env
    · exact evalWith_grows ha no env
  | .letIn _ name value body, env => by
    rw [evalWith]
    exact (evalWith_grows ha value env).bind fun d => (Grows.take 1).bind fun _ => evalWith_grows ha body _
  | .letRec _ name (.lambda _ param inner) body, env => by
    rw [evalWith]
    exact (Grows.close _).bind fun d => (Grows.take 1).bind fun _ => evalWith_grows ha body _
  | .letRec _ _ (.lit ..) _, _ | .letRec _ _ (.ident ..) _, _ | .letRec _ _ (.unary ..) _, _
  | .letRec _ _ (.binary ..) _, _ | .letRec _ _ (.cond ..) _, _ | .letRec _ _ (.letIn ..) _, _
  | .letRec _ _ (.letRec ..) _, _ | .letRec _ _ (.app ..) _, _ | .letRec _ _ (.cons ..) _, _
  | .letRec _ _ (.cases ..) _, _ => .throw _
  | .lambda _ param body, env => by
    rw [evalWith]
    exact .close _
  | .app _ fn arg, env => by
    rw [evalWith]
    exact (evalWith_grows ha arg env).bind fun a => (evalWith_grows ha fn env).bind fun f => ha f a
  | .cons _ head tail, env => by
    rw [evalWith]
    exact (evalWith_grows ha tail env).bind fun d => (Grows.toList d).bind fun _ =>
      (evalWith_grows ha head env).bind fun e => (Grows.take 1).bind fun _ => .pure _
  | .cases _ scrutinee arms, env => by
    rw [evalWith]
    exact (evalWith_grows ha scrutinee env).bind fun d => evalArms_grows ha arms d env
termination_by structural node => node

theorem evalArms_grows {sem : Meaning} {apply : Apply} (ha : ∀ f a, (apply f a).Grows) :
    ∀ (arms : List (Pattern × Node)) (d : Datum) (env : Bindings), (evalArms sem apply arms d env).Grows
  | [], _, _ => by
    rw [evalArms]
    exact .throw _
  | (pattern, body) :: rest, d, env => by
    rw [evalArms]
    refine (pattern.select_grows d).bind fun bindings => ?_
    cases bindings with
    | none => exact evalArms_grows ha rest d env
    | some bindings => exact evalWith_grows ha body _
termination_by structural arms => arms

end

end Node

theorem Meaning.apply_grows (sem : Meaning) : ∀ (n : Nat) (f a : Datum), (sem.apply n f a).Grows
  | 0, _, _ => .throw _
  | n + 1, .closure id, a => by
    have hget : Grows (get : Eval Arena) := by
      intro s a s' h
      cases h
      exact Nat.le_refl _
    rw [Meaning.apply]
    refine hget.bind fun arena => ?_
    split
    · exact (Grows.take 2).bind fun _ => Node.evalWith_grows (sem.apply_grows n) _ _
    · exact .throw _
  | n + 1, .int _, _ | n + 1, .bool _, _ | n + 1, .float _, _ | n + 1, .list _, _ => .throw _

/-! ## Code beside an evaluation -/

theorem Code.Settles.locals {ops : FloatOps} {m : Module} {c : Code} {s t : Frame}
    (h : c.Settles ops m s (.next t)) : LocalsKept c.assigns s.locals t.locals := by
  obtain ⟨d, hd⟩ := h
  exact c.exec_locals (hd d (Nat.le_refl d))

namespace Target

variable {T : Target} {n : Nat} {L : Layout} {s : Frame} {α β : Type}

/-- There is not enough memory for the cells that were taken, and code that is not reduced says so. -/
def Exhausts (T : Target) (code : Code) (s : Frame) (arena : Arena) : Prop :=
  T.limit < 4 + 8 * arena.cells ∧
    (T.reduced = false → code.Settles T.ops T.module s (.trap .storeOutOfBounds))

/-- Code does what an evaluation does: it goes on where there is a value, as `Q` says, or memory is
exhausted; it comes to no end, with calls `n` deep, where there is none. -/
def Sim (T : Target) (n : Nat) (L : Layout) (s : Frame) (code : Code) (r : EStateM.Result Stop Arena α)
    (Q : α → Layout → Frame → Prop) : Prop :=
  match r with
  | .ok a arena =>
    (∃ L' t, code.Settles T.ops T.module s (.next t) ∧ L.Extends L' ∧ T.Holds L' arena t.store ∧ Q a L' t) ∨
      T.Exhausts code s arena
  | .error .wrong _ => True
  | .error _ _ => T.reduced = false → ¬ (code.exec T.ops T.module (T.module.invoke T.ops n) s).Ends

theorem Sim.wrong {code : Code} {arena : Arena} {Q : α → Layout → Frame → Prop} :
    T.Sim n L s code (.error .wrong arena) Q := trivial

/-- Code that goes on in one way, with nothing added. -/
theorem Sim.next {code : Code} {a : α} {arena : Arena} {t : Frame} {Q : α → Layout → Frame → Prop}
    (h : code.Settles T.ops T.module s (.next t)) (hσ : T.Holds L arena t.store) (hQ : Q a L t) :
    T.Sim n L s code (.ok a arena) Q :=
  .inl ⟨L, t, h, .refl L, hσ, hQ⟩

theorem Sim.stop {code : Code} {e : Stop} {arena : Arena} {Q : α → Layout → Frame → Prop}
    (h : ¬ (code.exec T.ops T.module (T.module.invoke T.ops n) s).Ends) :
    T.Sim n L s code (.error e arena) Q := by
  cases e <;> first | trivial | exact fun _ => h

theorem Sim.mono {code : Code} {r : EStateM.Result Stop Arena α} {Q Q' : α → Layout → Frame → Prop}
    (h : T.Sim n L s code r Q) (hQ : ∀ a L' t, L.Extends L' → Q a L' t → Q' a L' t) : T.Sim n L s code r Q' := by
  cases r with
  | ok a arena =>
    rcases h with ⟨L', t, ht, hext, hσ, h⟩ | h
    · exact .inl ⟨L', t, ht, hext, hσ, hQ a L' t hext h⟩
    · exact .inr h
  | error e arena => cases e <;> exact h

/-- Code that is known to go on, before code that does what an evaluation does. -/
theorem Sim.prepend {a b : Code} {t : Frame} {L' : Layout} {r : EStateM.Result Stop Arena α}
    {Q : α → Layout → Frame → Prop} (ha : a.Settles T.ops T.module s (.next t)) (hext : L.Extends L')
    (hb : T.Sim n L' t b r Q) : T.Sim n L s (a ++ b) r Q := by
  have hstop (h : ¬ (b.exec T.ops T.module (T.module.invoke T.ops n) t).Ends) :
      ¬ (Code.exec T.ops T.module (T.module.invoke T.ops n) (a ++ b) s).Ends := by
    rw [Code.exec_append]
    rcases ha.within n with hn | hn <;> rw [hn]
    · exact id
    · exact h
  cases r with
  | ok v arena =>
    rcases hb with ⟨L'', u, hu, hext', hσ, hQ⟩ | ⟨hlimit, htrap⟩
    · exact .inl ⟨L'', u, ha.append hu, hext.trans hext', hσ, hQ⟩
    · exact .inr ⟨hlimit, fun hr => ha.append (htrap hr)⟩
  | error e arena =>
    cases e with
    | wrong => trivial
    | fault => exact fun hr => hstop (hb hr)
    | unfinished => exact fun hr => hstop (hb hr)

/-- **One evaluation after another**: the code of the second runs where the first one leaves it. -/
theorem Sim.bind {a b : Code} {arena : Arena} {x : Eval α} {f : α → Eval β} {Q : α → Layout → Frame → Prop}
    {R : β → Layout → Frame → Prop} (ha : T.Sim n L s a (x arena) Q) (hf : ∀ v, (f v).Grows)
    (hb : ∀ v arena' L' t, L.Extends L' → T.Holds L' arena' t.store → LocalsKept a.assigns s.locals t.locals →
      Q v L' t → T.Sim n L' t b (f v arena') R) :
    T.Sim n L s (a ++ b) ((x >>= f) arena) R := by
  have hstop (h : ¬ (a.exec T.ops T.module (T.module.invoke T.ops n) s).Ends) :
      ¬ (Code.exec T.ops T.module (T.module.invoke T.ops n) (a ++ b) s).Ends := by
    rw [Code.exec_append]
    exact fun he => h he.of_bind
  rw [Eval.bind_apply]
  cases hx : x arena with
  | ok v arena' =>
    rw [hx] at ha
    show T.Sim n L s (a ++ b) (f v arena') R
    rcases ha with ⟨L', t, ht, hext, hσ, hQ⟩ | ⟨hlimit, htrap⟩
    · exact (hb v arena' L' t hext hσ ht.locals hQ).prepend ht hext
    · -- memory was exhausted before, and no cell comes back
      cases hy : f v arena' with
      | ok w arena'' =>
        have hgrow := hf v _ _ _ hy
        exact .inr ⟨by omega, fun hr => (htrap hr).append_trap b⟩
      | error e arena'' =>
        have hnever (hr : T.reduced = false) :
            ¬ (a.exec T.ops T.module (T.module.invoke T.ops n) s).Ends := by
          rcases (htrap hr).within n with hn | hn <;> rw [hn] <;> exact id
        cases e with
        | wrong => trivial
        | fault => exact fun hr => hstop (hnever hr)
        | unfinished => exact fun hr => hstop (hnever hr)
  | error e arena' =>
    rw [hx] at ha
    cases e with
    | wrong => trivial
    | fault => exact fun hr => hstop (ha hr)
    | unfinished => exact fun hr => hstop (ha hr)

/-- Code after an evaluation that only moves words around. -/
theorem Sim.append {a b : Code} {r : EStateM.Result Stop Arena α} {Q R : α → Layout → Frame → Prop}
    (ha : T.Sim n L s a r Q)
    (hb : ∀ v arena L' t, L.Extends L' → T.Holds L' arena t.store → LocalsKept a.assigns s.locals t.locals →
      Q v L' t → ∃ u, b.Settles T.ops T.module t (.next u) ∧ u.store = t.store ∧ R v L' u) :
    T.Sim n L s (a ++ b) r R := by
  let x : Eval α := fun _ => r
  have hr : (x >>= pure) .empty = r := by
    rw [Eval.bind_apply]
    cases r <;> rfl
  rw [← hr]
  refine Sim.bind (x := x) ha (fun v => .pure v) fun v arena' L' t hext hσ hl hQ => ?_
  obtain ⟨u, hu, hstore, hR⟩ := hb v arena' L' t hext hσ hl hQ
  exact .next hu (hstore ▸ hσ) hR

/-- A block runs on a stack of its own and leaves one word. -/
theorem Sim.cond {c : Word} {yes no : Code} {around : List Operand} {l : String → Option Operand} {σ : Store}
    {r : EStateM.Result Stop Arena α} {Q R : α → Layout → Frame → Prop}
    (h : T.Sim n L ⟨[], l, σ⟩ (if c ≠ 0#32 then yes else no) r Q)
    (hQ : ∀ a L' t, L.Extends L' → Q a L' t → ∃ w, t.stack = [.word w] ∧
      R a L' ⟨.word w :: around, t.locals, t.store⟩) :
    T.Sim n L ⟨.word c :: around, l, σ⟩ [.condWord yes no] r R := by
  have hexec : ∀ calls, Code.exec T.ops T.module calls [.condWord yes no] ⟨.word c :: around, l, σ⟩ =
      (Code.exec T.ops T.module calls (if c ≠ 0#32 then yes else no) ⟨[], l, σ⟩).bind
        (Frame.leaveBlock (some .i32) around) := by
    intro calls
    by_cases hc : c = 0#32 <;> simp [-Frame.leaveBlock, Instr.condWord, hc]
  have hstop (hno : ¬ (Code.exec T.ops T.module (T.module.invoke T.ops n) (if c ≠ 0#32 then yes else no)
      ⟨[], l, σ⟩).Ends) : ¬ (Code.exec T.ops T.module (T.module.invoke T.ops n) [.condWord yes no]
      ⟨.word c :: around, l, σ⟩).Ends := by
    rw [hexec]
    exact fun he => hno he.of_bind
  cases r with
  | ok a arena =>
    rcases h with ⟨L', t, ⟨d, hd⟩, hext, hσ, h⟩ | ⟨hlimit, htrap⟩
    · obtain ⟨w, hw, hR⟩ := hQ a L' t hext h
      refine .inl ⟨L', ⟨.word w :: around, t.locals, t.store⟩, ⟨d, fun k hk => ?_⟩, hext, hσ, hR⟩
      rw [hexec, hd k hk]
      simp [hw]
    · refine .inr ⟨hlimit, fun hr => ?_⟩
      obtain ⟨d, hd⟩ := htrap hr
      refine ⟨d, fun k hk => ?_⟩
      rw [hexec, hd k hk]
      rfl
  | error e arena =>
    cases e with
    | wrong => trivial
    | fault => exact fun hr => hstop (h hr)
    | unfinished => exact fun hr => hstop (h hr)

/-- A call runs the body of its function, one call deeper, and leaves the word that is left there. -/
theorem Sim.call {code : Code} {f : String} {g : Func} {stack below : List Operand}
    {locals : String → Option Operand} {r : EStateM.Result Stop Arena α} {Q R : α → Layout → Frame → Prop}
    (hcode : ∀ calls, code.exec T.ops T.module calls s = Frame.call calls f { s with stack := stack })
    (hf : T.module.func? f = some g) (he : g.enter stack = some (locals, below)) (hg : g.result = some .i32)
    (h : T.Sim n L ⟨[], locals, s.store⟩ g.body r Q)
    (hQ : ∀ a L' t, L.Extends L' → Q a L' t → ∃ w, t.stack = [.word w] ∧
      R a L' ⟨.word w :: below, s.locals, t.store⟩) :
    T.Sim (n + 1) L s code r R := by
  have hexec : ∀ k, code.exec T.ops T.module (T.module.invoke T.ops (k + 1)) s =
      (g.finish below (g.body.exec T.ops T.module (T.module.invoke T.ops k) ⟨[], locals, s.store⟩)).bind
        fun q => .next { s with stack := q.1, store := q.2 } := by
    intro k
    rw [hcode, Frame.call, Module.invoke]
    simp only [hf, he]
  have hstop (hno : ¬ (g.body.exec T.ops T.module (T.module.invoke T.ops n) ⟨[], locals, s.store⟩).Ends) :
      ¬ (code.exec T.ops T.module (T.module.invoke T.ops (n + 1)) s).Ends := by
    rw [hexec]
    intro he
    revert hno he
    cases g.body.exec T.ops T.module (T.module.invoke T.ops n) ⟨[], locals, s.store⟩ <;>
      simp [Outcome.Ends, Func.finish]
  cases r with
  | ok a arena =>
    rcases h with ⟨L', t, ⟨d, hd⟩, hext, hσ, h⟩ | ⟨hlimit, htrap⟩
    · obtain ⟨w, hw, hR⟩ := hQ a L' t hext h
      refine .inl ⟨L', ⟨.word w :: below, s.locals, t.store⟩, ⟨d + 1, fun k hk => ?_⟩, hext, hσ, hR⟩
      obtain ⟨k, rfl⟩ : ∃ j, k = j + 1 := ⟨k - 1, by omega⟩
      rw [hexec, hd k (by omega)]
      simp [hg, hw]
    · refine .inr ⟨hlimit, fun hr => ?_⟩
      obtain ⟨d, hd⟩ := htrap hr
      refine ⟨d + 1, fun k hk => ?_⟩
      obtain ⟨k, rfl⟩ : ∃ j, k = j + 1 := ⟨k - 1, by omega⟩
      rw [hexec, hd k (by omega)]
      rfl
  | error e arena =>
    cases e with
    | wrong => trivial
    | fault => exact fun hr => hstop (h hr)
    | unfinished => exact fun hr => hstop (h hr)

end Target

end WasmBackend
