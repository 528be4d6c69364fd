/-
Which library components a tree is linked with (`lower_components`). Which
ones it needs is read off the constructs in it (`Node.needs`). Lowering asks
for them on the way, in the order in which it comes to the constructs; each
request brings what the feature builds on, and nothing is noted twice. So the
components are there once each, after those they require, and what there is
depends on what was asked for and not on when or how often
(`State.Asked.perm`).
-/
import WasmBackend.Proofs.Assembly.Program
import WasmBackend.Proofs.Lowering.Walks

namespace WasmBackend

open Library

/-! ## What a tree needs -/

namespace Node

mutual

/-- A node and all nodes in it. -/
@[simp] def nodes : Node → List Node
  | .lit span value => [.lit span value]
  | .ident span name => [.ident span name]
  | .unary span o operand => .unary span o operand :: operand.nodes
  | .binary span o left right => .binary span o left right :: (left.nodes ++ right.nodes)
  | .cond span test yes no => .cond span test yes no :: (test.nodes ++ (yes.nodes ++ no.nodes))
  | .letIn span name value body => .letIn span name value body :: (value.nodes ++ body.nodes)
  | .letRec span name value body => .letRec span name value body :: (value.nodes ++ body.nodes)
  | .lambda span param body => .lambda span param body :: body.nodes
  | .app span fn arg => .app span fn arg :: (arg.nodes ++ fn.nodes)
  | .cons span head tail => .cons span head tail :: (tail.nodes ++ head.nodes)
  | .cases span scrutinee arms => .cases span scrutinee arms :: (scrutinee.nodes ++ nodesIn arms)
termination_by structural node => node

@[simp] def nodesIn : List (Pattern × Node) → List Node
  | [] => []
  | (_, body) :: rest => body.nodes ++ nodesIn rest
termination_by structural arms => arms

end

/-- A construct that makes or takes apart lists. -/
def usesLists : Node → Bool
  | .lit _ .nil => true
  | .cons _ _ _ => true
  | .cases _ _ _ => true
  | _ => false

/-- A construct that makes floats. -/
def usesFloats : Node → Bool
  | .lit _ (.float _) => true
  | .unary _ .floatNeg _ => true
  | .binary _ (.float _) _ _ => true
  | _ => false

/-- A construct that makes or calls functions. -/
def usesClosures : Node → Bool
  | .lambda _ _ _ => true
  | .app _ _ _ => true
  | _ => false

def isMatch : Node → Bool
  | .cases _ _ _ => true
  | _ => false

/-- A construct that binds names or refers to them. -/
def usesNames : Node → Bool
  | .ident _ _ => true
  | .letIn _ _ _ _ => true
  | .letRec _ _ _ _ => true
  | .lambda _ _ _ => true
  | .app _ _ _ => true
  | .cases _ _ _ => true
  | _ => false

/-- Whether a construct needs a feature: environments and lists are made of pairs, and pairs and
floats are allocated. -/
def uses (node : Node) : Feature → Bool
  | .list => node.usesLists
  | .float => node.usesFloats
  | .closure => node.usesClosures
  | .matcher => node.isMatch
  | .environment => node.usesNames
  | .tuple => node.usesNames || node.usesLists
  | .allocator => node.usesNames || node.usesLists || node.usesFloats

def needs (tree : Node) (f : Feature) : Bool := tree.nodes.any (·.uses f)

/-- The comparison that a node makes, if its operands are not known to be words. -/
@[simp] def comparison? (cx : Setup) : Node → Option Comparison
  | .binary _ (.compare c) left right => if cx.areWords left.span right.span then none else some c
  | _ => none

def comparisons (cx : Setup) (tree : Node) : List Comparison := tree.nodes.filterMap (·.comparison? cx)

end Node

/-- The components of some features, and a comparator for some comparisons. -/
def Component.runtime (pages : Nat) (features : List Feature) (comparisons : List Comparison) : List Component :=
  features.map (·.component pages) ++
    if comparisons.isEmpty then [] else [comparator ⟨comparisons, .float ∈ features, .list ∈ features⟩ pages]

/-- The components that a tree needs. -/
def Node.components (cx : Setup) (tree : Node) : List Component :=
  Component.runtime cx.pages (Feature.all.filter tree.needs) (tree.comparisons cx)

/-! ## Components in order -/

namespace Component

/-- Each name comes once, and each component after those it requires. -/
structure InOrder (cs : List Component) : Prop where
  nodup : (cs.map (·.name)).Nodup
  requires : ∀ before c after, cs = before ++ c :: after → ∀ d ∈ c.requires, d ∈ before

theorem InOrder.nil : InOrder [] where
  nodup := .nil
  requires before c after h := by simp at h

theorem InOrder.snoc {cs : List Component} {c : Component} (h : InOrder cs) (hname : c.name ∉ cs.map (·.name))
    (hrequires : ∀ d ∈ c.requires, d ∈ cs) : InOrder (cs ++ [c]) where
  nodup := by
    rw [List.map_append, List.map_singleton, List.nodup_append]
    refine ⟨h.nodup, List.nodup_singleton _, ?_⟩
    rintro x hx _ hc rfl
    exact hname (List.mem_singleton.1 hc ▸ hx)
  requires before x after hsplit := by
    rcases List.eq_nil_or_concat after with rfl | ⟨after, y, rfl⟩
    · obtain ⟨rfl, hx⟩ := List.append_inj' hsplit rfl
      cases hx
      exact hrequires
    · rw [List.concat_eq_append, ← List.cons_append, ← List.append_assoc] at hsplit
      exact h.requires before x after (List.append_inj_left' hsplit rfl)

end Component

namespace Feature

theorem Ordered.nodup {fs : List Feature} (h : Ordered fs) : fs.Nodup := by
  induction h with
  | nil => exact .nil
  | @snoc fs f _ hnot _ ih =>
    refine List.nodup_append.2 ⟨ih, List.nodup_singleton f, ?_⟩
    rintro g hg _ hf rfl
    exact hnot (List.mem_singleton.1 hf ▸ hg)

theorem Ordered.inOrder {fs : List Feature} (h : Ordered fs) (pages : Nat) :
    Component.InOrder (fs.map (·.component pages)) := by
  induction h with
  | nil => exact .nil
  | @snoc fs f _ hnot hneeds ih =>
    rw [List.map_append]
    refine ih.snoc ?_ fun d hd => ?_
    · simp only [List.map_map, List.mem_map, Function.comp_apply, name_component, not_exists, not_and]
      exact fun g hg hname => hnot (name_injective hname ▸ hg)
    · obtain ⟨g, hg, hne, rfl⟩ := requires_component hd
      exact List.mem_map_of_mem (hneeds g hg hne)

end Feature

namespace Component

variable {pages : Nat} {fs gs : List Feature} {cs ds : List Comparison}

/-- The comparator comes after the floats and lists that it looks into. -/
theorem inOrder_runtime (h : Feature.Ordered fs) (pages : Nat) (cs : List Comparison) :
    InOrder (runtime pages fs cs) := by
  rw [runtime]
  split
  · rw [List.append_nil]
    exact h.inOrder pages
  · refine (h.inOrder pages).snoc ?_ fun d hd => ?_
    · simpa [comparator, ofFuncs] using fun f _ => Feature.name_ne_comparator f
    · rcases requires_comparator hd with ⟨hfloat, rfl⟩ | ⟨hlist, rfl⟩
      · exact List.mem_map_of_mem (of_decide_eq_true hfloat)
      · exact List.mem_map_of_mem (of_decide_eq_true hlist)

theorem isEmpty_congr (h : ∀ c, c ∈ cs ↔ c ∈ ds) : cs.isEmpty = ds.isEmpty := by
  rw [Bool.eq_iff_iff, List.isEmpty_iff, List.isEmpty_iff, List.eq_nil_iff_forall_not_mem,
    List.eq_nil_iff_forall_not_mem]
  exact forall_congr' fun c => not_congr (h c)

/-- A comparator does not depend on how often and in which order it was asked for comparisons. -/
theorem comparator_congr (h : ∀ c, c ∈ cs ↔ c ∈ ds) (floats lists : Bool) (pages : Nat) :
    comparator ⟨cs, floats, lists⟩ pages = comparator ⟨ds, floats, lists⟩ pages := by
  have hclosure : Compare.closure ⟨cs, floats, lists⟩ = Compare.closure ⟨ds, floats, lists⟩ := by
    refine List.filter_congr fun c _ => ?_
    simp only [Compare.needs, h, isEmpty_congr h]
  have hfunc : Compare.anyFunc ⟨cs, floats, lists⟩ = Compare.anyFunc ⟨ds, floats, lists⟩ := rfl
  simp only [comparator, hclosure, hfunc]

/-- Components are determined by which features and comparisons there are. -/
theorem perm_runtime (hf : fs.Nodup) (hg : gs.Nodup) (hfeatures : ∀ f, f ∈ fs ↔ f ∈ gs)
    (hcomparisons : ∀ c, c ∈ cs ↔ c ∈ ds) : (runtime pages fs cs).Perm (runtime pages gs ds) := by
  have hperm : fs.Perm gs := (List.perm_ext_iff_of_nodup hf hg).2 hfeatures
  simp only [runtime, isEmpty_congr hcomparisons, hfeatures, comparator_congr hcomparisons]
  exact (hperm.map _).append_right _

end Component

/-! ## Requests -/

/-- What a lowering can ask for. -/
inductive Request where
  | feature (f : Feature)
  | comparison (c : Comparison)

namespace State

def ask (s : State) : Request → State
  | .feature f => s.use f
  | .comparison c => s.useComparison c

/-- Makes requests one after the other. -/
def askAll (s : State) (rs : List Request) : State := rs.foldl ask s

/-- No local that was declared has the name of the environment. -/
def Plain (s : State) : Prop := ∀ frame ∈ s.functions.frames, Env.current ∉ frame.map (·.name)

/-- Between one state and another these requests were made, in some order and perhaps repeatedly. -/
structure Asked (s t : State) (rs : List Request) : Prop where
  features : ∀ f, f ∈ t.features ↔ f ∈ s.features ∨ ∃ g, .feature g ∈ rs ∧ f ∈ g.needs
  comparisons : ∀ c, c ∈ t.comparisons ↔ c ∈ s.comparisons ∨ .comparison c ∈ rs
  ordered : Feature.Ordered s.features → Feature.Ordered t.features
  plain : s.Plain → t.Plain

variable {s t u : State} {rs rs' : List Request}

theorem Plain.frame (h : s.Plain) : Env.current ∉ s.frame.map (·.name) := by
  cases hframes : s.functions.frames with
  | nil => simp [State.frame, hframes]
  | cons frame outer =>
    have hframe := h frame (hframes ▸ .head outer)
    rwa [State.frame, hframes]

namespace Asked

theorem still (hfeatures : t.features = s.features) (hcomparisons : t.comparisons = s.comparisons)
    (hplain : s.Plain → t.Plain) : Asked s t [] where
  features f := by simp [hfeatures]
  comparisons c := by simp [hcomparisons]
  ordered h := hfeatures ▸ h
  plain := hplain

theorem append (h : Asked s t rs) (h' : Asked t u rs') : Asked s u (rs ++ rs') where
  features f := by
    rw [h'.features, h.features]
    simp only [List.mem_append, or_and_right, exists_or, or_assoc]
  comparisons c := by rw [h'.comparisons, h.comparisons, List.mem_append, or_assoc]
  ordered hs := h'.ordered (h.ordered hs)
  plain hs := h'.plain (h.plain hs)

/-- Neither the order nor the number of requests matters. -/
theorem congr (h : Asked s t rs) (hrs : ∀ r, r ∈ rs ↔ r ∈ rs') : Asked s t rs' where
  features f := by simpa only [hrs] using h.features f
  comparisons c := by simpa only [hrs] using h.comparisons c
  ordered := h.ordered
  plain := h.plain

theorem use (s : State) (f : Feature) : Asked s (s.use f) [.feature f] where
  features g := by by_cases hg : g ∈ s.features <;> simp [State.use, hg]
  comparisons c := by simp [State.use]
  ordered h := h.use f
  plain := id

theorem useComparison (s : State) (c : Comparison) : Asked s (s.useComparison c) [.comparison c] where
  features g := by simp [State.useComparison]
  comparisons d := by simp [State.useComparison, or_comm]
  ordered := id
  plain := id

theorem ask (s : State) (r : Request) : Asked s (s.ask r) [r] := by
  cases r with
  | feature f => exact use s f
  | comparison c => exact useComparison s c

theorem askAll (s : State) (rs : List Request) : Asked s (s.askAll rs) rs := by
  induction rs generalizing s with
  | nil => exact .still rfl rfl id
  | cons r rs ih => exact (ask s r).append (ih (s.ask r))

theorem under (s : State) (scopes : Scopes) : Asked s (s.under scopes) [] := .still rfl rfl id

theorem declare (s : State) {x : String} (hx : x ≠ Env.current) : Asked s (s.declare (.word x)) [] := by
  refine .still rfl rfl fun hs => ?_
  cases hframes : s.functions.frames with
  | nil => simp [Plain, State.declare, Definitions.declare, hframes]
  | cons frame outer =>
    simp only [Plain, hframes, List.forall_mem_cons] at hs
    simp only [Plain, State.declare, Definitions.declare, hframes, List.forall_mem_cons]
    refine ⟨?_, hs.2⟩
    split
    · exact hs.1
    · rw [List.map_append, List.mem_append, not_or]
      exact ⟨hs.1, fun henv => hx (List.mem_singleton.1 henv).symm⟩

theorem declareAll (s : State) {xs : List String} (hxs : ∀ x ∈ xs, x ≠ Env.current) : Asked s (s.declareAll xs) [] := by
  induction xs generalizing s with
  | nil => exact .still rfl rfl id
  | cons x xs ih =>
    obtain ⟨hx, hrest⟩ := List.forall_mem_cons.1 hxs
    exact (declare s hx).append (ih (s.declare (.word x)) hrest)

theorem sited (s : State) : Asked s s.sited [.feature .matcher] := by
  have hnumber : Asked (s.use .matcher) { s.use .matcher with sites := s.sites + 1 } [] := .still rfl rfl id
  exact ((use s .matcher).append hnumber).append (declareAll _ (Emit.Site.ne_env s.sites))

/-- The requests of a function literal and of its body. -/
theorem literal {run : LiteralRun} (h : Asked run.start run.after rs) :
    Asked run.before run.done (.feature .closure :: rs) := by
  have hopen : Asked (run.before.use .closure) run.start [] :=
    .still rfl rfl fun hs => List.forall_mem_cons.2 ⟨List.not_mem_nil, hs⟩
  have hclose : Asked run.after run.done [] :=
    .still rfl rfl fun hs frame hframe => hs frame (List.mem_of_mem_drop hframe)
  have hall := (((use run.before .closure).append hopen).append h).append hclose
  rwa [List.append_nil] at hall

end Asked

end State

/-! ## Lowering asks for what is needed -/

namespace Node

/-- The feature that a node works with itself, its parts aside. -/
@[simp] def feature? : Node → Option Feature
  | .lit _ (.int _) => none
  | .lit _ (.bool _) => none
  | .lit _ .nil => some .list
  | .lit _ (.float _) => some .float
  | .ident _ _ => some .environment
  | .unary _ .neg _ => none
  | .unary _ .floatNeg _ => some .float
  | .binary _ (.int _) _ _ => none
  | .binary _ (.float _) _ _ => some .float
  | .binary _ .and _ _ => none
  | .binary _ .or _ _ => none
  | .binary _ (.compare _) _ _ => none
  | .cond _ _ _ _ => none
  | .letIn _ _ _ _ => some .environment
  | .letRec _ _ _ _ => some .environment
  | .lambda _ _ _ => some .closure
  | .app _ _ _ => some .closure
  | .cons _ _ _ => some .list
  | .cases _ _ _ => some .matcher

/-- What a node asks for itself, its parts aside. -/
@[simp] def ownRequests (cx : Setup) (node : Node) : List Request :=
  (node.feature?.map Request.feature).toList ++ ((node.comparison? cx).map Request.comparison).toList

/-- What some nodes ask for. -/
def requestsOf (cx : Setup) (nodes : List Node) : List Request := nodes.flatMap (ownRequests cx)

@[simp] def requests (cx : Setup) (tree : Node) : List Request := requestsOf cx tree.nodes

variable {cx : Setup} {s t u : State} {rs : List Request}

@[simp] theorem requestsOf_nil : requestsOf cx [] = [] := rfl

@[simp] theorem requestsOf_cons (n : Node) (ns : List Node) :
    requestsOf cx (n :: ns) = n.ownRequests cx ++ requestsOf cx ns := List.flatMap_cons

@[simp] theorem requestsOf_append (as bs : List Node) :
    requestsOf cx (as ++ bs) = requestsOf cx as ++ requestsOf cx bs := List.flatMap_append

open State (Asked)

mutual

/-- **A walk asks for what its nodes need.** -/
theorem asked_walk (node : Node) {s t : State} {code : Code} {runs : List LiteralRun}
    (h : node.Walk cx s code t runs) : Asked s t (node.requests cx) := by
  cases node with
  | lit span value =>
    obtain ⟨h, rfl⟩ := h
    cases value with
    | int n | bool b =>
      cases h
      exact .still rfl rfl id
    | nil =>
      cases h
      exact .use s .list
    | float x =>
      cases h
      exact .use s .float
  | ident span name =>
    obtain ⟨distance, -, rfl, rfl, rfl⟩ := h
    exact .use s .environment
  | unary span o operand =>
    cases o with
    | neg =>
      obtain ⟨e, he, rfl⟩ := h
      exact asked_walk operand he
    | floatNeg =>
      obtain ⟨e, he, rfl⟩ := h
      exact (Asked.use s .float).append (asked_walk operand he)
  | binary span o left right =>
    obtain ⟨l, s₁, ls, r, s₂, rs, hl, hr, hlast, rfl⟩ := h
    have hboth := (asked_walk left hl).append (asked_walk right hr)
    have hstate : t = (o.conclude (cx.areWords left.span right.span) l r s₂).2 := congrArg Prod.snd hlast
    cases o with
    | int o | and | or =>
      subst hstate
      exact hboth.congr fun r => by simp
    | float o =>
      subst hstate
      exact ((Asked.use s .float).append hboth).congr fun r => by simp
    | compare c =>
      by_cases hwords : cx.areWords left.span right.span = true
      · simp only [BinaryOp.conclude, hwords, if_true] at hstate
        subst hstate
        exact hboth.congr fun r => by simp [hwords]
      · simp only [BinaryOp.conclude, hwords] at hstate
        subst hstate
        exact (hboth.append (.useComparison _ c)).congr fun r => by simp [hwords, or_assoc, or_comm]
  | cond span test yes no =>
    obtain ⟨c, s₁, cs, y, s₂, ys, n, ns, hc, hy, hn, rfl, rfl⟩ := h
    exact ((asked_walk test hc).append ((asked_walk yes hy).append (asked_walk no hn))).congr fun r => by simp
  | letIn span name value body =>
    obtain ⟨v, s₁, vs, b, s₂, bs, hv, hb, rfl, rfl, rfl⟩ := h
    have hopen : Asked s₁ (s₁.binding name) [.feature .environment] := (Asked.use s₁ .environment).append (.under _ _)
    have hall := (asked_walk value hv).append (hopen.append ((asked_walk body hb).append (.under s₂ s.scopes)))
    exact hall.congr fun r => by simp [or_left_comm]
  | letRec span name value body =>
    cases value with
    | lambda span' param inner =>
      obtain ⟨i, s₁, is, b, s₂, bs, -, hi, hb, rfl, rfl, rfl⟩ := h
      let run : LiteralRun := ⟨some name, param, inner, s, i, s₁⟩
      have hrun : Asked s run.done (.feature .closure :: inner.requests cx) := (asked_walk inner hi).literal
      have hopen : Asked run.done (run.done.binding name) [.feature .environment] :=
        (Asked.use run.done .environment).append (.under _ _)
      have hall := hrun.append (hopen.append ((asked_walk body hb).append (.under s₂ s.scopes)))
      exact hall.congr fun r => by simp [or_left_comm]
    | _ => exact h.elim
  | lambda span param body =>
    obtain ⟨b, s₁, bs, -, hb, rfl, rfl, rfl⟩ := h
    exact (asked_walk body hb).literal
  | app span fn arg =>
    obtain ⟨a, s₁, as, f, fs, ha, hf, rfl, rfl⟩ := h
    have hdeclare : Asked s ((s.use .closure).declareAll [Emit.callee, Emit.argument]) [.feature .closure] :=
      (Asked.use s .closure).append (.declareAll _ (by decide))
    exact (hdeclare.append ((asked_walk arg ha).append (asked_walk fn hf))).congr fun r => by simp
  | cons span head tail =>
    obtain ⟨l, s₁, ls, hd, hds, hl, hh, rfl, rfl⟩ := h
    exact ((Asked.use s .list).append ((asked_walk tail hl).append (asked_walk head hh))).congr fun r => by simp
  | cases span scrutinee arms =>
    obtain ⟨e, s₁, es, branches, bs, he, hb, rfl, rfl⟩ := h
    have hscrutinee := (Asked.sited s).append (asked_walk scrutinee he)
    exact (asked_walkArms arms hb hscrutinee (.head _)).congr fun r => by simp
termination_by structural node

/-- Each arm asks for the matching primitives once more, after the match expression did. -/
theorem asked_walkArms (arms : List (Pattern × Node)) {s t u : State} {branches : List (String × Code)}
    {runs : List LiteralRun} {rs : List Request} (h : WalkArms cx arms s branches t runs) (hs : Asked u s rs)
    (hmatcher : .feature .matcher ∈ rs) : Asked u t (rs ++ requestsOf cx (nodesIn arms)) := by
  match arms with
  | [] =>
    obtain ⟨rfl, rfl, rfl⟩ := h
    simpa using hs
  | (pattern, body) :: rest =>
    obtain ⟨c, s₁, cs, others, os, hc, ho, rfl, rfl⟩ := h
    have hpattern : Asked s (s.matched pattern) [.feature .matcher] :=
      (Asked.use s .matcher).append (.still rfl rfl id)
    have hbody := hpattern.append ((asked_walk body hc).append (.under s₁ s.scopes))
    have harm : Asked u (s₁.under s.scopes) (rs ++ body.requests cx) := (hs.append hbody).congr fun r => by
      grind
    have hrest := asked_walkArms rest ho harm (List.mem_append_left _ hmatcher)
    simpa using hrest
termination_by structural arms

end

/-- What a construct needs is what the feature that it works with builds on. -/
theorem exists_feature?_iff (node : Node) (f : Feature) :
    (∃ g, node.feature? = some g ∧ f ∈ g.needs) ↔ node.uses f = true := by
  fun_cases feature? node <;> cases f <;>
    simp [uses, usesLists, usesFloats, usesClosures, isMatch, usesNames, Feature.needs]

theorem feature_mem_requests {tree : Node} {g : Feature} :
    .feature g ∈ tree.requests cx ↔ ∃ node ∈ tree.nodes, node.feature? = some g := by
  simp [requestsOf]

theorem comparison_mem_requests {tree : Node} {c : Comparison} :
    .comparison c ∈ tree.requests cx ↔ c ∈ tree.comparisons cx := by
  simp [requestsOf, comparisons]

end Node

namespace State.Asked

variable {cx : Setup} {s t : State} {rs rs' : List Request} {tree : Node}

/-- What was asked for from the start is in order. -/
theorem inOrder (h : Asked .initial s rs) : Component.InOrder (s.components cx) :=
  Component.inOrder_runtime (h.ordered .nil) cx.pages s.comparisons

/-- **The same requests give the same components**, in whatever order and however often they are made. -/
theorem perm (h : Asked .initial s rs) (h' : Asked .initial t rs') (hrs : ∀ r, r ∈ rs ↔ r ∈ rs') :
    (s.components cx).Perm (t.components cx) := by
  have hs := h.congr hrs
  refine Component.perm_runtime (hs.ordered .nil).nodup (h'.ordered .nil).nodup (fun f => ?_) fun c => ?_
  · rw [hs.features, h'.features]
  · rw [hs.comparisons, h'.comparisons]

theorem mem_features (h : Asked .initial t (tree.requests cx)) (f : Feature) : f ∈ t.features ↔ tree.needs f = true :=
  calc f ∈ t.features
    _ ↔ ∃ g, .feature g ∈ tree.requests cx ∧ f ∈ g.needs := by
      simp only [h.features, initial, List.not_mem_nil, false_or]
    _ ↔ ∃ node ∈ tree.nodes, ∃ g, node.feature? = some g ∧ f ∈ g.needs := by
      simp only [Node.feature_mem_requests]
      grind
    _ ↔ tree.needs f = true := by simp only [Node.exists_feature?_iff, Node.needs, List.any_eq_true]

theorem mem_comparisons (h : Asked .initial t (tree.requests cx)) (c : Comparison) :
    c ∈ t.comparisons ↔ c ∈ tree.comparisons cx := by
  simp only [h.comparisons, initial, List.not_mem_nil, false_or, Node.comparison_mem_requests]

/-- A tree that asks for what its nodes need gets the components that it needs. -/
theorem perm_components (h : Asked .initial t (tree.requests cx)) : (t.components cx).Perm (tree.components cx) := by
  have hnodup : (Feature.all.filter tree.needs).Nodup := List.Nodup.filter _ (by decide)
  refine Component.perm_runtime (h.ordered .nil).nodup hnodup (fun f => ?_) h.mem_comparisons
  rw [h.mem_features, List.mem_filter, and_iff_right (Feature.mem_all f)]

end State.Asked

/-- **A tree is linked with the components that it needs.** Each comes once and after those it
requires, the entry point starts in the outermost environment if and only if the tree needs
environments, and any sequence of the same requests gives the same components. -/
theorem lower_components {cx : Setup} {tree : Node} {code : Code} {t : State}
    (h : tree.lower cx .initial = .ok code t) :
    let root : Component := ⟨Compiled.entry, [], t.components cx⟩
    Component.InOrder (t.components cx) ∧ root.order = t.components cx ++ [root] ∧
    (t.components cx).Perm (tree.components cx) ∧
    (∃ locals : List Local, Env.current ∉ locals.map (·.name) ∧ (t.emit code).closeEntry.1 =
      if tree.needs .environment then
        (.word Env.current :: locals, .i32Const Word.rootEnv :: .localSet Env.current :: code)
      else (locals, code)) ∧
    (∀ rs, (∀ r, r ∈ rs ↔ r ∈ tree.requests cx) →
      ((State.initial.askAll rs).components cx).Perm (t.components cx)) ∧
    ∀ rs rs' : List Request, (∀ r, r ∈ rs ↔ r ∈ rs') →
      Component.InOrder ((State.initial.askAll rs).components cx) ∧
      ((State.initial.askAll rs).components cx).Perm ((State.initial.askAll rs').components cx) := by
  obtain ⟨runs, hwalk⟩ := tree.exists_walk h
  have hasked : State.Asked .initial t (tree.requests cx) := tree.asked_walk hwalk
  have hplain : t.Plain := hasked.plain (by simp [State.Plain, State.initial, Definitions.withRoot])
  refine ⟨hasked.inOrder, t.order_components (hasked.ordered .nil), hasked.perm_components, ⟨t.frame, ?_, ?_⟩,
    fun rs hrs => (State.Asked.askAll _ rs).perm hasked hrs,
    fun rs rs' hrs => ⟨(State.Asked.askAll _ rs).inOrder, (State.Asked.askAll _ rs).perm (.askAll _ rs') hrs⟩⟩
  · exact hplain.frame
  · rw [State.closeEntry_emit (Node.kept h).code, State.entryLocals, State.entryStart]
    by_cases henv : tree.needs .environment = true
    · rw [if_pos henv, if_pos ((hasked.mem_features _).2 henv), if_pos ((hasked.mem_features _).2 henv)]
      rfl
    · rw [if_neg henv, if_neg (mt (hasked.mem_features _).1 henv), if_neg (mt (hasked.mem_features _).1 henv)]
      rfl

/-- A comparison in an arm of a match on a list of floats. -/
def Node.compareInArm : Node :=
  let here : Span := .point ⟨"", Source.defaultPath⟩ 0
  .cases here (.cons here (.lit here (.float 0)) (.lit here .nil))
    [(.cons here (.ident here "x") (.wildcard here),
      .binary here (.compare .lt) (.ident here "x") (.ident here "x"))]

/-- All but closures. -/
theorem lower_components_compareInArm :
    let cx : Setup := ⟨.default, .empty, .direct⟩
    ∃ code t, Node.compareInArm.lower cx .initial = .ok code t ∧
      (t.components cx).Perm (Node.compareInArm.components cx) ∧
      (Node.compareInArm.components cx).map (·.name) =
        ["allocator", "tuple", "environment", "list", "float", "matcher", "comparator"] := by
  intro cx
  have hbound : Node.compareInArm.WellFormed [] := by
    simp [Node.compareInArm, Node.WellFormed, Node.WellFormedArms, Pattern.bindings]
  obtain ⟨code, t, hlower⟩ := hbound.lowers (show cx.routes = .direct from rfl)
  exact ⟨code, t, hlower, (lower_components hlower).2.2.1, rfl⟩

end WasmBackend
