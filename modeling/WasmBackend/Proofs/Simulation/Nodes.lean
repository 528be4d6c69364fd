/-
**Code that stands for a node does what the node does** (`Target.bodies`). The
proof is by induction on how deep applications nest, and inside of that by
recursion over the tree, with one rule for each construct.
-/
import WasmBackend.Proofs.Simulation.Applications
import WasmBackend.Proofs.Simulation.Matching

namespace WasmBackend

open Library
open Eval (Grows)

/-- The locals of a match are different from each other, and none of them is the environment. -/
theorem Emit.Site.nodup (k : Nat) :
    [Env.current, (ofNumber k).value, (ofNumber k).outer, (ofNumber k).inner].Nodup := by
  have hcancel {a b : String} (h : "match_" ++ toString k ++ a = "match_" ++ toString k ++ b) : a = b := by
    have hlist := congrArg String.toList h
    simp only [String.toList_append, List.append_cancel_left_eq] at hlist
    exact String.toList_inj.1 hlist
  have hstart (a : String) : Env.current ≠ "match_" ++ toString k ++ a := by
    intro h
    have hhead := congrArg (fun s => s.toList.head?) h
    simp [Env.current] at hhead
  simp only [List.nodup_cons, List.mem_cons, List.not_mem_nil, or_false, not_or, ofNumber]
  exact ⟨⟨hstart _, hstart _, hstart _⟩, ⟨fun h => absurd (hcancel h) (by decide),
    fun h => absurd (hcancel h) (by decide)⟩, fun h => absurd (hcancel h) (by decide), id, .nil⟩

namespace Node

variable {T : Target} {n : Nat}

theorem word_ne {p : Prop} (h : Yield.word = .double) : p := nomatch h

mutual

/-- One node, if all bodies do what they are to do one application deeper. -/
theorem computes (hT : T.Sound) (hbodies : ∀ m, n = m + 1 → T.Bodies m) : ∀ (node : Node) {shape : Yield}
    {frames : List (Option String)} {env : Bindings} {code : Code}, (shape = .double → T.reduced = true) →
    node.Emits T shape frames code →
    T.Computes n frames env shape.Shows code (node.evalWith T.meaning (T.meaning.apply n) env)
  | .lit _ (.int a), shape, frames, env, code, _, h => by
    obtain ⟨rfl, rfl⟩ := h
    rw [evalWith]
    refine .const (fun _ _ => Code.exec_singleton _ _) fun L => ⟨_, rfl, ?_⟩
    rw [Word.int_eq_pack]
    exact .int _
  | .lit _ (.bool b), shape, frames, env, code, _, h => by
    obtain ⟨rfl, rfl⟩ := h
    rw [evalWith]
    exact .boolLit b
  | .lit _ .nil, shape, frames, env, code, _, h => by
    obtain ⟨rfl, hf, rfl⟩ := h
    rw [evalWith]
    exact .emptyList hT hf
  | .lit _ (.float x), shape, frames, env, code, hshape, h => by
    obtain ⟨hf, rfl⟩ := h
    rw [evalWith]
    exact .floatLit hT hf hshape x
  | .ident _ name, shape, frames, env, code, _, h => by
    obtain ⟨rfl, hf, k, hk, rfl⟩ := h
    rw [evalWith]
    exact .lookup hT hf hk
  | .unary _ .neg operand, shape, frames, env, code, _, h => by
    obtain ⟨rfl, c, hc, rfl⟩ := h
    rw [evalWith]
    exact (computes hT hbodies operand word_ne hc).neg
  | .unary _ .floatNeg operand, shape, frames, env, code, hshape, h => by
    obtain ⟨hf, c, hc, rfl⟩ := h
    rw [evalWith]
    exact .floatNeg hT hf hshape (.double hT hf (fun _ _ => computes hT hbodies operand) hc)
  | .binary _ (.int o) left right, shape, frames, env, code, _, h => by
    obtain ⟨rfl, l, r, hl, hr, rfl⟩ := h
    rw [evalWith]
    exact .intOp o (computes hT hbodies left word_ne hl) (computes hT hbodies right word_ne hr)
      (evalWith_grows (T.meaning.apply_grows n) right env)
  | .binary _ (.float o) left right, shape, frames, env, code, hshape, h => by
    obtain ⟨hf, l, r, hl, hr, rfl⟩ := h
    rw [evalWith]
    exact .floatOp hT hf hshape o (.double hT hf (fun _ _ => computes hT hbodies left) hl)
      (.double hT hf (fun _ _ => computes hT hbodies right) hr)
      (evalWith_grows (T.meaning.apply_grows n) right env)
  | .binary _ .and left right, shape, frames, env, code, _, h => by
    obtain ⟨rfl, l, r, hl, hr, rfl⟩ := h
    rw [evalWith]
    exact .and (computes hT hbodies left word_ne hl) (computes hT hbodies right word_ne hr)
      (evalWith_grows (T.meaning.apply_grows n) right env)
  | .binary _ .or left right, shape, frames, env, code, _, h => by
    obtain ⟨rfl, l, r, hl, hr, rfl⟩ := h
    rw [evalWith]
    exact .or (computes hT hbodies left word_ne hl) (computes hT hbodies right word_ne hr)
      (evalWith_grows (T.meaning.apply_grows n) right env)
  | .binary _ (.compare c) left right, shape, frames, env, code, _, h => by
    obtain ⟨rfl, l, r, hl, hr, hcode⟩ := h
    have hsplit : (T.asWords left.span right.span = false → c ∈ T.comparisons) ∧
        code = l ++ r ++ ([if T.asWords left.span right.span then Instr.op c.wordOp
          else .call (Compare.function c)] ++ Emit.toBool) := by
      split at hcode
      · rename_i hw
        exact ⟨by simp [hw], by simp [hw, hcode, Emit.compareWords]⟩
      · rename_i hw
        exact ⟨fun _ => hcode.1, by simp [hw, hcode.2, Emit.compareAny]⟩
    obtain ⟨hc, rfl⟩ := hsplit
    rw [evalWith]
    exact .compare hT c _ hc (computes hT hbodies left word_ne hl) (computes hT hbodies right word_ne hr)
      (evalWith_grows (T.meaning.apply_grows n) right env)
  | .cond _ test yes no, shape, frames, env, code, _, h => by
    obtain ⟨rfl, t, y, e, ht, hy, he, rfl⟩ := h
    rw [evalWith, ← bind_assoc]
    exact (computes hT hbodies test word_ne ht).bool.branch (computes hT hbodies yes word_ne hy)
      (evalWith_grows (T.meaning.apply_grows n) yes env) (computes hT hbodies no word_ne he)
      (evalWith_grows (T.meaning.apply_grows n) no env)
  | .letIn _ name value body, shape, frames, env, code, _, h => by
    obtain ⟨rfl, hf, v, b, hv, hb, rfl⟩ := h
    rw [evalWith]
    exact .scope hT hf (computes hT hbodies value word_ne hv) (fun _ => computes hT hbodies body word_ne hb)
      fun _ => evalWith_grows (T.meaning.apply_grows n) body _
  | .letRec _ name (.lambda _ param inner) body, shape, frames, env, code, _, h => by
    obtain ⟨rfl, hf, k, b, hk, hb, rfl⟩ := h
    rw [evalWith]
    exact .scope hT (hT.needs _ hf _ (by decide)) (.closure hT hf rfl hk)
      (fun _ => computes hT hbodies body word_ne hb) fun _ => evalWith_grows (T.meaning.apply_grows n) body _
  | .letRec _ _ (.lit ..) _, _, _, _, _, _, h | .letRec _ _ (.ident ..) _, _, _, _, _, _, h
  | .letRec _ _ (.unary ..) _, _, _, _, _, _, h | .letRec _ _ (.binary ..) _, _, _, _, _, _, h
  | .letRec _ _ (.cond ..) _, _, _, _, _, _, h | .letRec _ _ (.letIn ..) _, _, _, _, _, _, h
  | .letRec _ _ (.letRec ..) _, _, _, _, _, _, h | .letRec _ _ (.app ..) _, _, _, _, _, _, h
  | .letRec _ _ (.cons ..) _, _, _, _, _, _, h | .letRec _ _ (.cases ..) _, _, _, _, _, _, h => h.elim
  | .lambda _ param body, shape, frames, env, code, _, h => by
    obtain ⟨rfl, hf, k, hk, rfl⟩ := h
    rw [evalWith]
    exact .closure hT hf rfl hk
  | .app _ fn arg, shape, frames, env, code, _, h => by
    obtain ⟨rfl, hf, a, f, ha, hfn, rfl⟩ := h
    rw [evalWith]
    exact .app hT hf hbodies (computes hT hbodies arg word_ne ha) (computes hT hbodies fn word_ne hfn)
      (evalWith_grows (T.meaning.apply_grows n) fn env)
  | .cons _ head tail, shape, frames, env, code, _, h => by
    obtain ⟨rfl, hf, t, c, ht, hc, rfl⟩ := h
    rw [evalWith]
    exact .cons hT hf (computes hT hbodies tail word_ne ht) (computes hT hbodies head word_ne hc)
      (evalWith_grows (T.meaning.apply_grows n) head env)
  | .cases _ scrutinee arms, shape, frames, env, code, _, h => by
    obtain ⟨rfl, hf, k, e, branches, he, hbranches, rfl⟩ := h
    rw [evalWith]
    exact .cases (hT.needs _ hf _ (by decide)) (Emit.Site.nodup k) (computes hT hbodies scrutinee word_ne he)
      (fun _ => tries hT hbodies hf arms (Emit.Site.nodup k) hbranches)
      fun _ => evalArms_grows (T.meaning.apply_grows n) arms _ env
termination_by structural node => node

/-- The arms of a match. -/
theorem tries (hT : T.Sound) (hbodies : ∀ m, n = m + 1 → T.Bodies m) (hf : .matcher ∈ T.features) :
    ∀ (arms : List (Pattern × Node)) {site : Emit.Site} {frames : List (Option String)} {env : Bindings} {d : Datum}
      {branches : List (String × Code)}, [Env.current, site.value, site.outer, site.inner].Nodup →
    EmitsArms T arms site frames branches →
    T.Tries n site frames env d (Emit.arms site branches) (evalArms T.meaning (T.meaning.apply n) arms d env)
  | [], site, frames, env, d, branches, _, h => by
    obtain rfl := h
    rw [evalArms]
    exact .nil
  | (pattern, body) :: rest, site, frames, env, d, branches, hsite, h => by
    obtain ⟨f, c, others, hp, hc, hcode, hrest, rfl⟩ := h
    rw [evalArms]
    exact .cons (hT.needs _ hf _ (by decide)) hsite (Target.matcher_sim hT hf pattern hp)
      (fun _ => computes hT hbodies body word_ne hc) (fun _ => evalWith_grows (T.meaning.apply_grows n) body _) hcode
      (tries hT hbodies hf rest hsite hrest) (evalArms_grows (T.meaning.apply_grows n) rest d env)
termination_by structural arms => arms

end

end Node

/-- **Code that stands for a node does what the node does**, however deep its applications nest. -/
theorem Target.bodies {T : Target} (hT : T.Sound) (n : Nat) : T.Bodies n := by
  induction n with
  | zero => exact fun node frames env code h => node.computes hT (fun m hm => absurd hm.symm (Nat.succ_ne_zero m)) Node.word_ne h
  | succ n ih =>
    refine fun node frames env code h => node.computes hT (fun m hm => ?_) Node.word_ne h
    cases hm
    exact ih

end WasmBackend
