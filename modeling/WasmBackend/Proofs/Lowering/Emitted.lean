/-
Code that a walk makes neither writes to memory nor moves the top of the heap
(`Code.quiet`), and assigns the locals that all functions share and those of
its own matches only. The same goes for the matchers that are made on the way.
-/
import WasmBackend.Proofs.Assembly.Program
import WasmBackend.Proofs.Heap.Growth
import WasmBackend.Proofs.Lowering.Walks

namespace WasmBackend

open Library Definitions

@[simp] theorem Code.quiet_nil : Code.quiet [] = true := by rw [Code.quiet]

@[simp] theorem Code.quiet_cons (i : Instr String) (c : Code) : Code.quiet (i :: c) = (i.quiet && c.quiet) := by
  rw [Code.quiet]

@[simp] theorem Code.quiet_append (a b : Code) : Code.quiet (a ++ b) = (a.quiet && b.quiet) := by
  induction a with
  | nil => simp
  | cons i a ih => simp [ih, Bool.and_assoc]

@[simp] theorem Instr.quiet_condWord (yes no : Code) : (Instr.condWord yes no).quiet = (yes.quiet && no.quiet) := by
  rw [Instr.condWord, Instr.quiet]

/-- Code with less in it writes no more. -/
theorem Peephole.Thinner.quiet {a b : Code} (h : Peephole.Thinner a b) (hb : b.quiet = true) : a.quiet = true := by
  induction h with
  | nil => rfl
  | drop i _ ih =>
    rw [Code.quiet_cons, Bool.and_eq_true] at hb
    exact ih hb.2
  | keep i _ ih =>
    rw [Code.quiet_cons, Bool.and_eq_true] at hb ⊢
    exact ⟨hb.1, ih hb.2⟩
  | cond result _ _ _ ihyes ihno ih =>
    simp only [Code.quiet_cons, Instr.quiet, Bool.and_eq_true] at hb ⊢
    exact ⟨⟨ihyes hb.1.1, ihno hb.1.2⟩, ih hb.2⟩

theorem Definitions.Family.matcher_ne_alloc (k : Nat) : Family.matchers.name k ≠ Heap.alloc := by
  intro h
  have hprefix := Family.matchers.stem_prefix k
  rw [h] at hprefix
  exact absurd hprefix (by decide)

theorem Pattern.quiet_matchers (p : Pattern) (made : Nat) : ∀ f ∈ p.matchers made, f.body.quiet = true := by
  induction p generalizing made with
  | wildcard | nil | ident =>
    intro f hf
    cases List.mem_singleton.1 hf
    rfl
  | cons _ head tail ihhead ihtail =>
    intro f hf
    simp only [matchers, List.mem_append, List.mem_singleton] at hf
    rcases hf with (hf | hf) | rfl
    · exact ihhead made f hf
    · exact ihtail _ f hf
    · have hother : [Lists.isEmpty, Lists.head, Lists.tail].all (· ≠ Heap.alloc) = true := by decide
      simp only [List.all_cons, List.all_nil, Bool.and_true, Bool.and_eq_true, decide_eq_true_eq] at hother
      simp [matcherFunc, Emit.matchCons, Instr.quiet, hother, matcherName, Family.matcher_ne_alloc]

/-- What code from between two states does, and the matchers that were made there. -/
structure State.Wrote (s t : State) (code : Code) : Prop where
  sites : s.sites ≤ t.sites
  assigns : Code.AssignsIn (State.Assigned s t) code
  quiet : code.quiet = true
  matchers : ∀ f ∈ t.matchers.funcs, f ∈ s.matchers.funcs ∨ f.body.quiet = true

namespace State.Wrote

variable {s t u : State} {a b c : Code}

/-- Nothing that matters here happens between two states. -/
theorem of_same (hsites : t.sites = s.sites) (hmatchers : t.matchers.funcs = s.matchers.funcs)
    (hassigns : c.assigns = []) (hquiet : c.quiet = true) : Wrote s t c where
  sites := Nat.le_of_eq hsites.symm
  assigns := by simp [Code.AssignsIn, hassigns]
  quiet := hquiet
  matchers f hf := .inl (hmatchers ▸ hf)

theorem append (ha : Wrote s t a) (hb : Wrote t u b) : Wrote s u (a ++ b) where
  sites := Nat.le_trans ha.sites hb.sites
  assigns := Code.assignsIn_append.2 ⟨ha.assigns.mono fun _ hx => hx.mono (Nat.le_refl _) hb.sites,
    hb.assigns.mono fun _ hx => hx.mono ha.sites (Nat.le_refl _)⟩
  quiet := by rw [Code.quiet_append, ha.quiet, hb.quiet]; rfl
  matchers f hf := (hb.matchers f hf).elim (ha.matchers f) .inr

/-- Code that is made of the code of parts. -/
theorem of_parts (h : Wrote s t a)
    (hassigns : ∀ A : String → Prop, (∀ x ∈ [Env.current, Emit.callee, Emit.argument], A x) → Code.AssignsIn A a →
      Code.AssignsIn A c) (hquiet : a.quiet = true → c.quiet = true) : Wrote s t c where
  sites := h.sites
  assigns := hassigns _ (fun _ => .inl) h.assigns
  quiet := hquiet h.quiet
  matchers := h.matchers

end State.Wrote

/-- The same for the arms of a match. -/
structure State.WroteArms (s t : State) (branches : List (String × Code)) : Prop where
  sites : s.sites ≤ t.sites
  matchers : ∀ f ∈ t.matchers.funcs, f ∈ s.matchers.funcs ∨ f.body.quiet = true
  each : ∀ b ∈ branches, (∃ k, b.1 = Family.matchers.name k) ∧ Code.AssignsIn (State.Assigned s t) b.2 ∧
    b.2.quiet = true

/-- The arms of a match assign its locals, the environment, and what their bodies assign. -/
theorem Emit.assigns_arms (site : Site) (branches : List (String × Code)) : ∀ x ∈ Code.assigns (arms site branches),
    x ∈ site.names ∨ x = Env.current ∨ ∃ b ∈ branches, x ∈ Code.assigns b.2 := by
  induction branches with
  | nil => simp [arms, Instr.assigns]
  | cons b rest ih =>
    intro x hx
    simp only [arms, Code.assigns_cons, Code.assigns_append, Code.assigns_nil, Instr.assigns, Instr.condWord,
      List.mem_append, List.mem_cons, List.not_mem_nil, or_false, false_or] at hx
    rcases hx with rfl | ((rfl | hx) | rfl) | hx
    · exact .inl (by simp [Site.names])
    · exact .inr (.inl rfl)
    · exact .inr (.inr ⟨b, .head _, hx⟩)
    · exact .inr (.inl rfl)
    · refine (ih x hx).imp_right (Or.imp_right ?_)
      rintro ⟨b', hb', hx⟩
      exact ⟨b', .tail _ hb', hx⟩

theorem Emit.quiet_arms (site : Site) {branches : List (String × Code)}
    (h : ∀ b ∈ branches, (∃ k, b.1 = Family.matchers.name k) ∧ b.2.quiet = true) :
    Code.quiet (arms site branches) = true := by
  induction branches with
  | nil => rfl
  | cons b rest ih =>
    obtain ⟨⟨⟨k, hk⟩, hbody⟩, hrest⟩ := List.forall_mem_cons.1 h
    simp [arms, Instr.quiet, hk, Family.matcher_ne_alloc, hbody, ih hrest]

namespace State

variable {s t u : State} {e : Code} {branches : List (String × Code)}

/-- A match is numbered before its parts. -/
theorem WroteArms.cases (he : Wrote s.sited t e) (hb : WroteArms t u branches) :
    Wrote s u (Emit.cases (.ofNumber s.sites) e branches) where
  sites := by
    have hsite : s.sites + 1 ≤ t.sites := he.sites
    have hsites := hb.sites
    omega
  assigns := by
    have hsite : s.sites + 1 ≤ t.sites := he.sites
    have hsites := hb.sites
    have hnames : ∀ x ∈ (Emit.Site.ofNumber s.sites).names, Assigned s u x :=
      fun x hx => .inr ⟨s.sites, Nat.le_refl _, by omega, hx⟩
    have hbelow {r v : State} (hr : s.sites ≤ r.sites) (hv : v.sites ≤ u.sites) (x : String) (hx : Assigned r v x) :
        Assigned s u x := hx.mono hr hv
    refine Code.assignsIn_append.2 ⟨Code.assignsIn_append.2 ⟨?_, ?_⟩, fun x hx => ?_⟩
    · exact he.assigns.mono (hbelow (r := s.sited) (Nat.le_succ _) hsites)
    · simp only [Code.assignsIn_cons, Code.assignsIn_nil, Instr.assigns, List.mem_singleton, forall_eq, and_true]
      exact ⟨hnames _ (by simp [Emit.Site.names]), by simp, hnames _ (by simp [Emit.Site.names])⟩
    · rcases Emit.assigns_arms _ _ x hx with hx | rfl | ⟨b, hmem, hx⟩
      · exact hnames x hx
      · exact .inl (.head _)
      · exact hbelow (by omega) (Nat.le_refl _) x ((hb.each b hmem).2.1 x hx)
  quiet := by
    have harms := Emit.quiet_arms (.ofNumber s.sites) fun b hmem => ⟨(hb.each b hmem).1, (hb.each b hmem).2.2⟩
    simp [Emit.cases, Instr.quiet, he.quiet, harms]
  matchers f hf := (hb.matchers f hf).elim (he.matchers f) .inr

/-- An arm comes before the others. -/
theorem WroteArms.arm {p : Pattern} (hc : Wrote (s.matched p) t e) (hb : WroteArms (t.under s.scopes) u branches) :
    WroteArms s u ((p.matcherName s.matchers.funcs.length, e) :: branches) where
  sites := Nat.le_trans hc.sites hb.sites
  matchers f hf := by
    rcases hb.matchers f hf with hf | hf
    · rcases hc.matchers f hf with hf | hf
      · rcases List.mem_append.1 hf with hf | hf
        · exact .inl hf
        · exact .inr (p.quiet_matchers _ f hf)
      · exact .inr hf
    · exact .inr hf
  each := by
    refine List.forall_mem_cons.2 ⟨⟨⟨_, rfl⟩, ?_, hc.quiet⟩, fun b hmem => ?_⟩
    · exact hc.assigns.mono fun x hx => hx.mono (Nat.le_refl s.sites) hb.sites
    · obtain ⟨hname, hassigns, hquiet⟩ := hb.each b hmem
      exact ⟨hname, hassigns.mono fun x hx => hx.mono hc.sites (Nat.le_refl u.sites), hquiet⟩

/-- The code of a function literal only makes a closure. -/
theorem Wrote.closure {run : LiteralRun} (h : Wrote run.start run.after run.body) :
    Wrote run.before run.done run.code where
  sites := h.sites
  assigns := by simp [LiteralRun.code, Emit.closure, Instr.assigns]
  quiet := rfl
  matchers := h.matchers

end State

/-! ## Constructs -/

namespace Emit

theorem function_ne_alloc (c : Comparison) : Compare.function c ≠ Heap.alloc := by
  cases c <;> decide

variable {s t : State} {l r : Code}

theorem wrote_binary (o : BinaryOp) (asWords : Bool) (h : State.Wrote s t (l ++ r)) :
    State.Wrote s t (o.conclude asWords l r t).1 := by
  refine h.of_parts (fun A _ hparts => ?_) fun hparts => ?_
  · rw [Code.assignsIn_append] at hparts
    cases o with
    | int o => cases o <;> simp [BinaryOp.conclude, intOp, untag, retag, Instr.assigns, hparts]
    | float o => simp [BinaryOp.conclude, floatOp, Instr.assigns, hparts]
    | and => simp [BinaryOp.conclude, Emit.and, Instr.assigns, hparts]
    | or => simp [BinaryOp.conclude, Emit.or, Instr.assigns, hparts]
    | compare c => cases asWords <;> simp [BinaryOp.conclude, compareAny, compareWords, toBool, Instr.assigns, hparts]
  · rw [Code.quiet_append, Bool.and_eq_true] at hparts
    cases o with
    | int o => cases o <;> simp [BinaryOp.conclude, intOp, untag, retag, Instr.quiet, hparts]
    | float o =>
      simp [BinaryOp.conclude, floatOp, Instr.quiet, hparts, Floats.get, Floats.new, Heap.alloc]
    | and => simp [BinaryOp.conclude, Emit.and, Instr.quiet, hparts]
    | or => simp [BinaryOp.conclude, Emit.or, Instr.quiet, hparts]
    | compare c =>
      cases asWords <;>
        simp [BinaryOp.conclude, compareAny, compareWords, toBool, Instr.quiet, hparts, function_ne_alloc]

theorem wrote_bind (h : State.Wrote s t (l ++ r)) : State.Wrote s t (Emit.bind l r) :=
  h.of_parts (by simp +contextual [Emit.bind, Instr.assigns])
    (by simp +contextual [Emit.bind, Instr.quiet, Env.new, Env.parent, Heap.alloc])

end Emit

namespace Node

variable {cx : Setup}

open State (Wrote WroteArms)

mutual

/-- **What the code of a node does.** -/
theorem wrote_walk (node : Node) {s t : State} {code : Code} {runs : List LiteralRun}
    (h : node.Walk cx s code t runs) : Wrote s t code := by
  cases node with
  | lit span value =>
    obtain ⟨h, rfl⟩ := h
    cases value <;> cases h <;> exact .of_same rfl rfl rfl rfl
  | ident span name =>
    obtain ⟨distance, -, rfl, rfl, rfl⟩ := h
    exact .of_same rfl rfl rfl rfl
  | unary span o operand =>
    cases o with
    | neg =>
      obtain ⟨e, he, rfl⟩ := h
      exact (wrote_walk operand he).of_parts (by simp +contextual [Emit.neg, Instr.assigns])
        (by simp [Emit.neg, Instr.quiet])
    | floatNeg =>
      obtain ⟨e, he, rfl⟩ := h
      have huse : Wrote s (s.use .float) [] := .of_same rfl rfl rfl rfl
      exact (huse.append (wrote_walk operand he)).of_parts (by simp +contextual [Emit.floatNeg, Instr.assigns])
        (by simp [Emit.floatNeg, Instr.quiet, Floats.get, Floats.new, Heap.alloc])
  | binary span o left right =>
    obtain ⟨l, s₁, ls, r, s₂, rs, hl, hr, hlast, rfl⟩ := h
    have hprepare : Wrote s (o.prepare s) [] := by cases o <;> exact .of_same rfl rfl rfl rfl
    have hboth : Wrote s s₂ (l ++ r) := hprepare.append ((wrote_walk left hl).append (wrote_walk right hr))
    let asWords := cx.areWords left.span right.span
    have hcode : code = (o.conclude asWords l r s₂).1 := congrArg Prod.fst hlast
    have hstate : t = (o.conclude asWords l r s₂).2 := congrArg Prod.snd hlast
    have hconclude : Wrote s₂ t [] := by
      rcases o.conclude_state asWords l r s₂ with h | ⟨c, h⟩ <;> rw [hstate, h] <;> exact .of_same rfl rfl rfl rfl
    have hall := (Emit.wrote_binary o asWords hboth).append hconclude
    rwa [List.append_nil, ← hcode] at hall
  | cond span test yes no =>
    obtain ⟨c, s₁, cs, y, s₂, ys, n, ns, hc, hy, hn, rfl, rfl⟩ := h
    have hall := ((wrote_walk test hc).append (wrote_walk yes hy)).append (wrote_walk no hn)
    exact hall.of_parts (by simp +contextual [Emit.cond]) (by simp +contextual [Emit.cond])
  | letIn span name value body =>
    obtain ⟨v, s₁, vs, b, s₂, bs, hv, hb, rfl, rfl, rfl⟩ := h
    have hopen : Wrote s₁ (s₁.binding name) [] := .of_same rfl rfl rfl rfl
    have hclose : Wrote s₂ (s₂.under s.scopes) [] := .of_same rfl rfl rfl rfl
    have hall := (wrote_walk value hv).append ((hopen.append (wrote_walk body hb)).append hclose)
    rw [List.nil_append, List.append_nil] at hall
    exact Emit.wrote_bind hall
  | letRec span name value body =>
    cases value with
    | lambda span' param inner =>
      obtain ⟨i, s₁, is, b, s₂, bs, -, hi, hb, rfl, rfl, rfl⟩ := h
      let run : LiteralRun := ⟨some name, param, inner, s, i, s₁⟩
      have hrun : Wrote s run.done run.code := (wrote_walk inner hi).closure
      have hopen : Wrote run.done (run.done.binding name) [] := .of_same rfl rfl rfl rfl
      have hclose : Wrote s₂ (s₂.under s.scopes) [] := .of_same rfl rfl rfl rfl
      have hall := hrun.append ((hopen.append (wrote_walk body hb)).append hclose)
      rw [List.nil_append, List.append_nil] at hall
      exact Emit.wrote_bind hall
    | _ => exact h.elim
  | lambda span param body =>
    obtain ⟨b, s₁, bs, -, hb, rfl, rfl, rfl⟩ := h
    exact (wrote_walk body hb).closure
  | app span fn arg =>
    obtain ⟨a, s₁, as, f, fs, ha, hf, rfl, rfl⟩ := h
    have hdeclare : Wrote s ((s.use .closure).declareAll [Emit.callee, Emit.argument]) [] := .of_same rfl rfl rfl rfl
    have hall := hdeclare.append ((wrote_walk arg ha).append (wrote_walk fn hf))
    exact hall.of_parts (by simp +contextual [Emit.app, Instr.assigns])
      (by simp +contextual [Emit.app, Instr.quiet, Closures.env, Closures.index, Env.new, Heap.alloc])
  | cons span head tail =>
    obtain ⟨l, s₁, ls, hd, hds, hl, hh, rfl, rfl⟩ := h
    have huse : Wrote s (s.use .list) [] := .of_same rfl rfl rfl rfl
    have hall := huse.append ((wrote_walk tail hl).append (wrote_walk head hh))
    exact hall.of_parts (by simp +contextual [Emit.cons, Instr.assigns])
      (by simp +contextual [Emit.cons, Instr.quiet, Lists.push, Heap.alloc])
  | cases span scrutinee arms =>
    obtain ⟨e, s₁, es, branches, bs, he, hb, rfl, rfl⟩ := h
    exact (wrote_walkArms arms hb).cases (wrote_walk scrutinee he)
termination_by structural node

theorem wrote_walkArms (arms : List (Pattern × Node)) {s t : State} {branches : List (String × Code)}
    {runs : List LiteralRun} (h : WalkArms cx arms s branches t runs) : WroteArms s t branches := by
  match arms with
  | [] =>
    obtain ⟨rfl, rfl, rfl⟩ := h
    exact ⟨Nat.le_refl _, fun f hf => .inl hf, nofun⟩
  | (pattern, body) :: rest =>
    obtain ⟨c, s₁, cs, others, os, hc, ho, rfl, rfl⟩ := h
    exact (wrote_walkArms rest ho).arm (wrote_walk body hc)
termination_by structural arms

end

end Node

end WasmBackend
