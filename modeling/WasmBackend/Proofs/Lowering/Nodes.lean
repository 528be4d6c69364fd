/-
**What lowering a tree gives** (`Node.lower_spec`). It succeeds on well-formed
trees and on no others; the code it gives stands for the tree in any module
that has what was collected on the way, and refers to nothing else.
-/
import WasmBackend.Proofs.Lowering.States

namespace WasmBackend

open Library
open Lower (Spec)

variable {apps : Prop} {cx : Setup}

/-! ## Names -/

theorem toString_injective {j k : Nat} (h : toString j = toString k) : j = k := by
  rw [← Nat.ofDigitChars_ten_toDigits (n := j), ← Nat.ofDigitChars_ten_toDigits (n := k), ← Nat.toList_repr,
    ← Nat.toList_repr, ← Nat.toString_eq_repr, ← Nat.toString_eq_repr, h]

namespace Emit.Site

theorem ofNumber_injective {j k : Nat} (h : (ofNumber j).outer = (ofNumber k).outer) : j = k := by
  have hlist := congrArg String.toList h
  simp only [ofNumber, String.toList_append, List.append_cancel_right_eq, List.append_cancel_left_eq] at hlist
  exact toString_injective (String.toList_inj.1 hlist)

/-- The local that keeps the environment of a match is not assigned by matches of other numbers. -/
theorem outer_not_mem {j k : Nat} (h : k < j) : (ofNumber k).outer ∉ (ofNumber j).names := by
  have hlast {a b c d : String} {x y : Char} (hne : x ≠ y) (hc : c.toList.getLast? = some x)
      (hd : d.toList.getLast? = some y) : "match_" ++ a ++ c ≠ "match_" ++ b ++ d := by
    intro heq
    have hget := congrArg (fun s => s.toList.getLast?) heq
    simp only [String.toList_append, List.getLast?_append, hc, hd, Option.some_or, Option.some.injEq] at hget
    exact hne hget
  intro hmem
  simp only [names, List.mem_cons, List.not_mem_nil, or_false] at hmem
  rcases hmem with hmem | hmem | hmem
  · exact hlast (by decide) rfl rfl hmem
  · exact absurd (ofNumber_injective hmem) (by omega)
  · exact hlast (by decide) rfl rfl hmem

theorem outer_not_assigned {s t : State} {k : Nat} (h : k < s.sites) : ¬ State.Assigned s t (ofNumber k).outer := by
  rintro (hmem | ⟨j, hj, -, hmem⟩)
  · have hhead {a b : String} (hne : b.toList.head? ≠ some 'm') : "match_" ++ toString k ++ a ≠ b := by
      rintro rfl
      simp at hne
    simp only [List.mem_cons, List.not_mem_nil, or_false] at hmem
    rcases hmem with hmem | hmem | hmem <;> exact hhead (by decide) hmem
  · exact outer_not_mem (by omega) hmem

theorem ne_env (k : Nat) : ∀ x ∈ (ofNumber k).names, x ≠ Env.current := by
  have hhead (a : String) : "match_" ++ toString k ++ a ≠ Env.current := by
    intro h
    have hhead := congrArg (fun s => s.toList.head?) h
    simp [Env.current] at hhead
  simp only [names, List.mem_cons, List.not_mem_nil, or_false]
  rintro x (rfl | rfl | rfl) <;> exact hhead _

end Emit.Site

/-! ## Library functions -/

theorem declares_environment : ∀ x ∈ [Env.new, Env.get, Env.parent], x ∈ Feature.environment.declares .functions := by
  decide +kernel

theorem declares_list : ∀ x ∈ [Lists.empty, Lists.push, Lists.isEmpty, Lists.head, Lists.tail],
    x ∈ Feature.list.declares .functions := by
  decide +kernel

theorem declares_float : ∀ x ∈ [Floats.new, Floats.get], x ∈ Feature.float.declares .functions := by
  decide +kernel

theorem declares_closure : ∀ x ∈ [Closures.new, Closures.env, Closures.index],
    x ∈ Feature.closure.declares .functions := by
  decide +kernel

theorem declares_matcher : ∀ x ∈ [Matchers.wildcard, Matchers.emptyList, Matchers.identifier],
    x ∈ Feature.matcher.declares .functions := by
  decide +kernel

/-! ## Patterns -/

/-- What lowering a pattern gives. -/
structure Pattern.Lowered (apps : Prop) (cx : Setup) (p : Pattern) (s : State) (name : String) (t : State) : Prop where
  grew : s.Grew t
  tidy : t.Tidy apps
  feature : .matcher ∈ t.features
  functions : t.functions = s.functions
  name_mem : name ∈ t.matchers.funcs.map (·.name)
  matched : ∀ {T : Target}, T.Realizes cx t → p.Matches T.module name

/-- A matcher of the state that was just closed. -/
theorem State.closed_mem (s t : State) (locals : List Local) (body : Code) :
    matcherFunc t.matcherName locals body ∈ (State.closed s t locals body).matchers.funcs := by
  simp [State.closed]

/-- A matcher that leaves it to one of the library. -/
theorem Lower.matchBy_spec {s : State} (hs : s.Tidy apps) {f : String}
    (hf : f ∈ [Matchers.wildcard, Matchers.emptyList, Matchers.identifier]) {p : Pattern}
    (hp : ∀ (m : Module) name, m.func? name = some (matcherFunc name [] (Emit.matchBy f)) → p.Matches m name) :
    Spec (do use .matcher; enterMatcher; leaveMatcher (Emit.matchBy f)) s True (p.Lowered apps cx s) := by
  have hs₁ := hs.use .matcher
  have hmem := State.closed_mem (s.use .matcher) (s.use .matcher).begun [] (Emit.matchBy f)
  refine .step rfl (.step rfl (.ok (Lower.leaveMatcher_apply rfl _) ?_))
  refine
    { grew := (State.grew_use s .matcher).trans (State.grew_closed [] (Emit.matchBy f) (.refl _))
      tidy := hs₁.begun.closed (fun name => ⟨?_, ?_⟩) ?_
      feature := State.mem_use s .matcher
      functions := rfl
      name_mem := List.mem_map_of_mem hmem
      matched := fun {T} hT => ?_ }
  · show ["env", "value"].Nodup
    decide
  · intro x hx
    simpa [matcherFunc, Emit.matchBy, Instr.refs, Func.declared, Local.word] using hx
  · intro d hd
    simp only [Emit.matchBy, Code.refs_cons, Code.refs_nil, Instr.refs, List.append_nil, List.singleton_append,
      List.mem_cons, List.not_mem_nil, or_false] at hd
    rcases hd with rfl | rfl | rfl
    · exact .inl rfl
    · exact .inl rfl
    · have hoffer : (s.use .matcher).Offers apps [] (.functions, f) :=
        hs₁.offers [] (State.mem_use s .matcher) (by decide) (declares_matcher f hf)
      exact .inr hoffer
  · have hfunc := hT.matchers _ hmem
    rw [matcherFunc, T.reduce_of_eq (Peephole.reduce_matchBy hf)] at hfunc
    exact hp _ _ hfunc

/-- A target that has a matcher has those that were made before it. -/
theorem Target.Realizes.of_closed {T : Target} {s t : State} {locals : List Local} {body : Code}
    (h : T.Realizes cx (State.closed s t locals body)) : T.Realizes cx t :=
  { h with matchers := fun f hf => h.matchers f (List.mem_append_left _ hf) }

theorem Lower.declareInMatcher_apply {t : State} {outer : List (List Local)} (h : t.matchers.frames = [] :: outer)
    (x : String) : Lower.declareInMatcher x t =
      .ok () { t with matchers := ⟨[.word x] :: outer, t.matchers.funcs⟩ } := by
  have hdeclare : t.matchers.declare (.word x) = ⟨[.word x] :: outer, t.matchers.funcs⟩ := by
    simp [Definitions.declare, h]
  rw [← hdeclare]
  rfl

/-- **A pattern is always lowered, to functions that match it.** -/
theorem Pattern.lower_spec (cx : Setup) (p : Pattern) {s : State} (hs : s.Tidy apps) :
    Spec p.lower s True (p.Lowered apps cx s) := by
  induction p generalizing s with
  | wildcard => exact Lower.matchBy_spec hs (by simp) fun _ _ => id
  | nil => exact Lower.matchBy_spec hs (by simp) fun _ _ => id
  | ident => exact Lower.matchBy_spec hs (by simp) fun _ _ => id
  | cons span head tail ihh iht =>
    have hs₁ := hs.use .matcher
    refine .step rfl (.step rfl ((Spec.bind (q := True ∧ True) (ihh hs₁.begun) fun h t₁ hh =>
      Spec.bind (q := True) (iht hh.tidy) fun t t₂ ht => ?_).iff (by simp)))
    have hgrew := hh.grew.trans ht.grew
    refine .step (Lower.declareInMatcher_apply hgrew.pending _) (.ok (Lower.leaveMatcher_apply rfl _) ?_)
    have hmem := State.closed_mem (s.use .matcher) t₂ [.word Emit.next] (Emit.matchCons h t)
    have hhead : h ∈ t₂.matchers.funcs.map (·.name) := (ht.grew.matchers.map _).subset hh.name_mem
    show Pattern.Lowered _ _ _ _ _ (State.closed (s.use .matcher) t₂ [.word Emit.next] (Emit.matchCons h t))
    refine
      { grew := (State.grew_use s .matcher).trans (State.grew_closed _ _ hgrew)
        tidy := ht.tidy.closed (fun name => ⟨?_, ?_⟩) ?_
        feature := ht.feature
        functions := ht.functions.trans hh.functions
        name_mem := List.mem_map_of_mem hmem
        matched := fun {T} hT => ?_ }
    · show ["env", "value", Emit.next].Nodup
      decide
    · intro x hx
      simp only [matcherFunc, Emit.matchCons, Instr.condWord, Code.refs_cons, Code.refs_nil, Instr.refs,
        List.append_nil, List.singleton_append, List.nil_append, List.mem_cons, Prod.mk.injEq, reduceCtorEq,
        false_and, false_or, true_and, or_false, List.not_mem_nil] at hx
      simp only [matcherFunc, Func.declared, Local.word, List.map_cons, List.map_nil, List.cons_append, List.nil_append,
        List.mem_cons, List.not_mem_nil, or_false]
      grind
    · have hlist {x : String} (hx : x ∈ [Lists.empty, Lists.push, Lists.isEmpty, Lists.head, Lists.tail]) :
          t₂.Offers apps [] (.functions, x) :=
        ht.tidy.offers [] ht.feature (by decide) (declares_list x hx)
      have hmatcher {x : String} (hx : x ∈ t₂.matchers.funcs.map (·.name)) : t₂.Offers apps [] (.functions, x) :=
        .inr (.inr hx)
      show Code.RefsIn _ _
      simp [-Prod.forall, Emit.matchCons, Instr.refs, hlist, hmatcher hhead, hmatcher ht.name_mem]
    · have hreal := Target.Realizes.of_closed hT
      have hfunc := hT.matchers _ hmem
      rw [matcherFunc, T.reduce_of_eq (Peephole.reduce_matchCons h t)] at hfunc
      exact ⟨h, t, hh.matched (hreal.of_grew ht.grew), ht.matched hreal, hfunc⟩

/-! ## Constructs -/

/-- Code that refers to and assigns no more than other code. -/
theorem State.Made.recode {s t : State} {c c' : Code} (h : Made apps s t c)
    (hrefs : Code.RefsIn (t.Offers apps (t.frame.map (·.name))) c →
      Code.RefsIn (t.Offers apps (t.frame.map (·.name))) c')
    (hassigns : Code.AssignsIn (Assigned s t) c → Code.AssignsIn (Assigned s t) c') : Made apps s t c' :=
  ⟨h.grew, h.tidy, hrefs h.refs, hassigns h.assigns⟩

theorem State.assigned_shared (s t : State) :
    ∀ x ∈ [Env.current, Emit.callee, Emit.argument], State.Assigned s t x := fun _ hx => .inl hx

theorem Lower.route_direct (h : cx.routes = .direct) (kind : NodeKind) (span : Span) :
    Lower.route cx kind span = pure () := by
  simp [Lower.route, h, Routes.direct]

/-- A body with one more name in scope. -/
theorem Lower.withBinding_spec {r s : State} {v : Code} {name : String} {body : Lower Code} {p : Prop}
    {Q : Code → State → Prop} (hv : State.Made apps r s v)
    (hbody : Spec body ((s.use .environment).under (s.scopes.pushAll [some name])) p fun c t =>
      State.Made apps ((s.use .environment).under (s.scopes.pushAll [some name])) t c ∧ Q c t) :
    Spec (withBinding name v body) s p fun code u => ∃ c t, code = Emit.bind v c ∧ u = t.under s.scopes ∧
      State.Made apps r u code ∧ .environment ∈ u.features ∧ Q c t := by
  have hscope : Spec (inScope [some name] body) (s.use .environment) p fun c u =>
      ∃ t, u = t.under s.scopes ∧ State.Made apps (s.use .environment) u c ∧ Q c t :=
    Spec.inScope rfl (hbody.mono fun c t ⟨hmade, hq⟩ => ⟨hmade.grew.scopes, t, rfl, hmade.scoped, hq⟩)
  refine .step rfl ((hscope.bind (q := True) ?_).iff (by simp))
  rintro c u ⟨t, rfl, hmade, hq⟩
  have henv := hmade.grew.features (State.mem_use s .environment)
  have hcode := (hv.after (State.grew_use s .environment) (hv.tidy.use .environment)).append hmade
  have hcurrent {locals : List String} := hmade.tidy.offers_env locals henv (by decide)
  have hoffers {x : String} (hx : x ∈ [Env.new, Env.get, Env.parent]) {locals : List String} :=
    hmade.tidy.offers locals henv (by decide) (declares_environment x hx)
  refine .pure ⟨c, t, rfl, rfl, hcode.recode (fun h => ?_) fun h => ?_, henv, hq⟩
  · simp_all [-Prod.forall, Emit.bind, Instr.refs]
  · simp_all [Emit.bind, Instr.assigns, State.assigned_shared]

/-- A function literal gets the next number. -/
theorem Lower.function_spec {s : State} {name : Option String} {param : String} {body : Lower Code} {p : Prop}
    {Q : Code → State → Prop} (hs : s.Tidy apps)
    (hbody : Spec body ((s.use .closure).inside (s.scopes.pushAll [name, some param])) p fun c t =>
      State.Made apps ((s.use .closure).inside (s.scopes.pushAll [name, some param])) t c ∧ Q c t) :
    Spec (function name param body) s p fun code u => ∃ c t, code = Emit.closure t.functions.funcs.length ∧
      u = t.outside s.scopes c ∧ State.Made apps s u code ∧ .closure ∈ u.features ∧ Q c t := by
  have hscope : Spec (inScope [name, some param] (do enterFunction; body)) (s.use .closure) p fun c u =>
      ∃ t, u = t.under s.scopes ∧
        State.Made apps ((s.use .closure).inside (s.scopes.pushAll [name, some param])) t c ∧ Q c t :=
    Spec.inScope rfl (.step rfl (hbody.mono fun c t ⟨hmade, hq⟩ => ⟨hmade.grew.scopes, t, rfl, hmade, hq⟩))
  refine .step rfl ((hscope.bind (q := True) ?_).iff (by simp))
  rintro c u ⟨t, rfl, hmade, hq⟩
  refine .step rfl (.pure ⟨c, t, rfl, rfl, ?_, ?_, hq⟩)
  · have hgrew := (State.grew_use s .closure).trans (State.grew_outside c hmade.grew)
    have htidy : (t.outside s.scopes c).Tidy apps := (hs.use .closure).outside hmade.grew hmade.tidy hmade.refs
    have hclosure : .closure ∈ (t.outside s.scopes c).features :=
      hmade.grew.features (State.mem_use s .closure)
    have hcurrent {locals : List String} := htidy.offers_env locals hclosure (by decide)
    have hoffers {x : String} (hx : x ∈ [Closures.new, Closures.env, Closures.index]) {locals : List String} :=
      htidy.offers locals hclosure (by decide) (declares_closure x hx)
    show State.Made apps s (t.outside s.scopes c) _
    refine ⟨hgrew, htidy, ?_, ?_⟩
    · simp [-Prod.forall, Emit.closure, Instr.refs, hcurrent, hoffers]
    · simp [Emit.closure, Instr.assigns]
  · exact hmade.grew.features (State.mem_use s .closure)

/-- A state with more locals in the function that is being lowered. -/
def State.declareAll (s : State) (xs : List String) : State := xs.foldl (fun s x => s.declare (.word x)) s

theorem State.Tidy.declareAll {s : State} (hs : s.Tidy apps) (xs : List String) (hxs : ∀ x ∈ xs, x ≠ Env.current) :
    s.Grew (s.declareAll xs) ∧ (s.declareAll xs).Tidy apps ∧ (s.declareAll xs).functions.funcs = s.functions.funcs ∧
      (s.declareAll xs).sites = s.sites ∧ ∀ x ∈ xs, x ∈ (s.declareAll xs).frame.map (·.name) := by
  induction xs generalizing s with
  | nil => exact ⟨.refl s, hs, rfl, rfl, nofun⟩
  | cons x xs ih =>
    have hdeclare := hs.declare (hxs x (.head _))
    obtain ⟨hgrew, htidy, hfuncs, hsites, hmem⟩ := ih hdeclare fun y hy => hxs y (.tail _ hy)
    refine ⟨(State.grew_declare s _).trans hgrew, htidy, hfuncs.trans ?_, hsites, fun y hy => ?_⟩
    · obtain ⟨outer, hframes⟩ := hs.frames_eq
      simp [State.declare, Definitions.declare, hframes]
    · rcases List.mem_cons.1 hy with rfl | hy
      · exact List.mem_map_of_mem (hgrew.frame hdeclare (State.mem_declare hs (.word y)))
      · exact hmem y hy

/-- The locals of a match get the next number. -/
theorem Lower.matchSite_apply {s : State} (hs : s.Tidy apps) : ∃ t,
    matchSite s = .ok (Emit.Site.ofNumber s.sites) t ∧ s.Grew t ∧ t.Tidy apps ∧
      t.functions.funcs = s.functions.funcs ∧ t.sites = s.sites + 1 ∧
      ∀ x ∈ (Emit.Site.ofNumber s.sites).names, x ∈ t.frame.map (·.name) := by
  obtain ⟨hgrew, htidy, hfuncs, hsites, hlocals⟩ := hs.site.declareAll _ (Emit.Site.ne_env s.sites)
  exact ⟨_, rfl, (State.grew_site s).trans hgrew, htidy, hfuncs, hsites, hlocals⟩

/-! ## Nodes -/

/-- What lowering a node gives. -/
structure Node.Lowered (apps : Prop) (cx : Setup) (node : Node) (frames : List (Option String)) (s : State)
    (code : Code) (t : State) : Prop extends State.Made apps s t code where
  literals : t.functions.funcs.length = s.functions.funcs.length + node.literals
  emits : ∀ {T : Target}, T.Realizes cx t → node.Emits T .word frames code

/-- What lowering arms gives. -/
structure Node.LoweredArms (apps : Prop) (cx : Setup) (arms : List (Pattern × Node)) (frames : List (Option String))
    (s : State) (branches : List (String × Code)) (t : State) : Prop where
  grew : s.Grew t
  tidy : t.Tidy apps
  names : ∀ b ∈ branches, b.1 ∈ t.matchers.funcs.map (·.name)
  refs : ∀ b ∈ branches, Code.RefsIn (t.Offers apps (t.frame.map (·.name))) b.2
  assigns : ∀ b ∈ branches, Code.AssignsIn (State.Assigned s t) b.2
  literals : t.functions.funcs.length = s.functions.funcs.length + Node.literalsIn arms
  emits : ∀ {T : Target} {k : Nat}, T.Realizes cx t → k < s.sites →
    Node.EmitsArms T arms (Emit.Site.ofNumber k) frames branches

/-- A node is lowered in a scope with these names in these frames. -/
structure State.Sees (apps : Prop) (s : State) (names : List String) (frames : List (Option String)) : Prop where
  tidy : s.Tidy apps
  scopes : s.scopes.frames = frames
  bound : ∀ x, x ∈ names ↔ some x ∈ frames

theorem State.Sees.grow {s t : State} {names : List String} {frames : List (Option String)}
    (h : s.Sees apps names frames) (hgrew : s.Grew t) (ht : t.Tidy apps) : t.Sees apps names frames :=
  ⟨ht, hgrew.scopes ▸ h.scopes, h.bound⟩

/-- More frames in scope, with the names they bind. -/
theorem State.Sees.under {s : State} {names : List String} {frames : List (Option String)}
    (h : s.Sees apps names frames) (more : List (Option String)) (bound : List String)
    (hmore : ∀ x, x ∈ bound ↔ some x ∈ more) :
    (s.under (s.scopes.pushAll more.reverse)).Sees apps (bound ++ names) (more ++ frames) where
  tidy := ⟨h.tidy.ordered, h.tidy.literals, h.tidy.matchers, h.tidy.frames⟩
  scopes := by simp [State.under, Scopes.frames_pushAll, h.scopes]
  bound := by simp [hmore, h.bound]

/-- The body of a function literal has locals of its own. -/
theorem State.Sees.inside {s : State} {names : List String} {frames : List (Option String)}
    (h : s.Sees apps names frames) (more : List (Option String)) (bound : List String)
    (hmore : ∀ x, x ∈ bound ↔ some x ∈ more) :
    (s.inside (s.scopes.pushAll more.reverse)).Sees apps (bound ++ names) (more ++ frames) :=
  ⟨h.tidy.inside _, (h.under more bound hmore).scopes, (h.under more bound hmore).bound⟩

section

variable (s : State) (f : Feature) (scopes : Scopes) (body : Code)

@[simp] theorem State.length_use : (s.use f).functions.funcs.length = s.functions.funcs.length := rfl
@[simp] theorem State.length_under : (s.under scopes).functions.funcs.length = s.functions.funcs.length := rfl
@[simp] theorem State.length_inside : (s.inside scopes).functions.funcs.length = s.functions.funcs.length := rfl
@[simp] theorem State.length_outside :
    (s.outside scopes body).functions.funcs.length = s.functions.funcs.length + 1 := by
  simp [State.outside, Definitions.leave]

end

theorem Target.Realizes.of_under {T : Target} {s : State} {scopes : Scopes} (h : T.Realizes cx (s.under scopes)) :
    T.Realizes cx s :=
  ⟨h.features, h.comparisons, h.literals, h.matchers, h.asWords⟩

/-- The function of a literal that was just closed. -/
theorem Target.Realizes.runs {T : Target} {t : State} {scopes : Scopes} {c : Code} {node : Node}
    {frames : List (Option String)} (h : T.Realizes cx (t.outside scopes c))
    (hc : T.Realizes cx t → node.Emits T .word frames c) :
    T.Runs (node.Emits T .word frames) t.functions.funcs.length := by
  have hbefore : T.Realizes cx t :=
    { h with
      literals := fun {k f} hf => h.literals (by
        obtain ⟨hlt, -⟩ := List.getElem?_eq_some_iff.1 hf
        rw [State.outside, Definitions.leave, List.getElem?_append_left hlt, hf]) }
  have hliteral := h.literals (k := t.functions.funcs.length) List.getElem?_concat_length
  exact hliteral.runs (hc hbefore)

namespace Node

variable {s t u : State} {names : List String} {frames : List (Option String)} {node left right : Node} {c l r : Code}

theorem Lowered.sees (h : node.Lowered apps cx frames s c t) (hs : s.Sees apps names frames) :
    t.Sees apps names frames :=
  hs.grow h.grew h.tidy

/-- More is collected before a node is lowered, -/
theorem Lowered.before (h : node.Lowered apps cx frames t c u) (hgrew : s.Grew t)
    (hfuncs : t.functions.funcs = s.functions.funcs) : node.Lowered apps cx frames s c u :=
  ⟨h.toMade.before hgrew, hfuncs ▸ h.literals, h.emits⟩

/-- or after it was lowered. -/
theorem Lowered.after (h : node.Lowered apps cx frames s c t) (hgrew : t.Grew u) (hu : u.Tidy apps)
    (hfuncs : u.functions.funcs = t.functions.funcs) : node.Lowered apps cx frames s c u :=
  ⟨h.toMade.after hgrew hu, hfuncs ▸ h.literals, fun hT => h.emits (hT.of_grew hgrew)⟩

/-- A node with one part. -/
theorem Lowered.one {part : Node} (h : part.Lowered apps cx frames s l t)
    (hliterals : node.literals = part.literals)
    (hrefs : Code.RefsIn (t.Offers apps (t.frame.map (·.name))) l →
      Code.RefsIn (t.Offers apps (t.frame.map (·.name))) c)
    (hassigns : Code.AssignsIn (State.Assigned s t) l → Code.AssignsIn (State.Assigned s t) c)
    (hemits : ∀ {T : Target}, T.Realizes cx t → part.Emits T .word frames l → node.Emits T .word frames c) :
    node.Lowered apps cx frames s c t :=
  ⟨h.toMade.recode hrefs hassigns, hliterals ▸ h.literals, fun hT => hemits hT (h.emits hT)⟩

/-- A node with two parts. -/
theorem Lowered.two (hl : left.Lowered apps cx frames s l t) (hr : right.Lowered apps cx frames t r u)
    (hliterals : node.literals = left.literals + right.literals)
    (hrefs : Code.RefsIn (u.Offers apps (u.frame.map (·.name))) (l ++ r) →
      Code.RefsIn (u.Offers apps (u.frame.map (·.name))) c)
    (hassigns : Code.AssignsIn (State.Assigned s u) (l ++ r) → Code.AssignsIn (State.Assigned s u) c)
    (hemits : ∀ {T : Target}, T.Realizes cx u → left.Emits T .word frames l → right.Emits T .word frames r →
      node.Emits T .word frames c) :
    node.Lowered apps cx frames s c u where
  toMade := (hl.toMade.append hr.toMade).recode hrefs hassigns
  literals := by rw [hr.literals, hl.literals, hliterals, Nat.add_assoc]
  emits hT := hemits hT (hl.emits (hT.of_grew hr.grew)) (hr.emits hT)

end Node

theorem Code.refsIn_arms {P : Space × String → Prop} {site : Emit.Site} {branches : List (String × Code)}
    (hsite : ∀ x ∈ site.names, P (.locals, x)) (henv : P (.locals, Env.current))
    (hnames : ∀ b ∈ branches, P (.functions, b.1)) (hrefs : ∀ b ∈ branches, Code.RefsIn P b.2) :
    Code.RefsIn P (Emit.arms site branches) := by
  induction branches with
  | nil => simp [Emit.arms, Instr.refs]
  | cons b rest ih =>
    have hrest := ih (fun c hc => hnames c (.tail _ hc)) fun c hc => hrefs c (.tail _ hc)
    simp_all [-Prod.forall, Emit.arms, Instr.refs, Emit.Site.names]

theorem Code.assignsIn_arms {A : String → Prop} {site : Emit.Site} {branches : List (String × Code)}
    (hsite : ∀ x ∈ site.names, A x) (henv : A Env.current) (hassigns : ∀ b ∈ branches, Code.AssignsIn A b.2) :
    Code.AssignsIn A (Emit.arms site branches) := by
  induction branches with
  | nil => simp [Emit.arms, Instr.assigns]
  | cons b rest ih =>
    have hrest := ih fun c hc => hassigns c (.tail _ hc)
    simp_all [-Prod.forall, Emit.arms, Instr.assigns, Emit.Site.names]

theorem Lower.literal_spec {span : Span} {s : State} (value : Literal) {names : List String}
    {frames : List (Option String)} (hs : s.Sees apps names frames) :
    Spec (literal value) s True ((Node.lit span value).Lowered apps cx frames s) := by
  cases value with
  | int n | bool b =>
    exact .pure ⟨⟨.refl s, hs.tidy, by simp [Emit.int, Emit.bool, Instr.refs], by simp [Emit.int, Emit.bool, Instr.assigns]⟩,
      rfl, fun _ => ⟨rfl, rfl⟩⟩
  | nil =>
    have htidy := hs.tidy.use .list
    have hlist := State.mem_use s .list
    have hoffer {locals : List String} := htidy.offers locals hlist (by decide)
      (declares_list Lists.empty (by simp))
    refine .step rfl (.pure ⟨⟨State.grew_use s .list, htidy, ?_, by simp [Emit.emptyList, Instr.assigns]⟩, rfl,
      fun hT => ⟨rfl, hT.features hlist, rfl⟩⟩)
    simpa [Emit.emptyList, Instr.refs] using hoffer
  | float x =>
    have htidy := hs.tidy.use .float
    have hfloat := State.mem_use s .float
    have hoffer {locals : List String} := htidy.offers locals hfloat (by decide)
      (declares_float Floats.new (by simp))
    refine .step rfl (.pure ⟨⟨State.grew_use s .float, htidy, ?_, by simp [Emit.float, Instr.assigns]⟩, rfl,
      fun hT => ⟨hT.features hfloat, rfl⟩⟩)
    simpa [Emit.float, Instr.refs] using hoffer

theorem Lower.reference_apply (span : Span) (name : String) (s : State) :
    reference span name s = (match s.scopes.distance? name with
      | none => reject (.unbound ⟨name, span⟩)
      | some distance => do
        use .environment
        return Emit.lookup distance : Lower Code) s := rfl

theorem Lower.reference_spec {span : Span} {s : State} (name : String) {names : List String}
    {frames : List (Option String)} (hs : s.Sees apps names frames) :
    Spec (reference span name) s (name ∈ names) ((Node.ident span name).Lowered apps cx frames s) := by
  refine .step (x := get) rfl ?_
  have hbound : s.scopes.distance? name = none ↔ name ∉ names := by
    rw [Scopes.distance?_eq_none, hs.scopes, hs.bound]
  cases hk : s.scopes.distance? name with
  | none => exact (Spec.reject _).iff (iff_of_false id (hbound.1 hk))
  | some k =>
    have hmem : name ∈ names := by
      by_contra hnone
      rw [hbound.2 hnone] at hk
      cases hk
    have htidy := hs.tidy.use .environment
    have henv := State.mem_use s .environment
    have hcurrent {locals : List String} := htidy.offers_env locals henv (by decide)
    have hoffer {locals : List String} := htidy.offers locals henv (by decide)
      (declares_environment Env.get (by simp))
    refine (Spec.step rfl (.pure ⟨⟨State.grew_use s .environment, htidy, ?_, ?_⟩, rfl, fun hT => ?_⟩)).iff
      (iff_of_true trivial hmem)
    · simp [-Prod.forall, Emit.lookup, Instr.refs, hcurrent, hoffer]
    · simp [Emit.lookup, Instr.assigns]
    · exact ⟨rfl, hT.features henv, k, hs.scopes ▸ hk, rfl⟩

namespace Node

open Lower

section

variable {span : Span} {s t u w : State} {frames : List (Option String)} {operand left right test yes no fn arg head tail
  scrutinee body : Node} {pattern : Pattern} {arms : List (Pattern × Node)} {e l r : Code}

theorem Lowered.floatNeg (he : operand.Lowered apps cx frames (s.use .float) e t) :
    (unary span .floatNeg operand).Lowered apps cx frames s (Emit.floatNeg e) t := by
  have hfloat := he.grew.features (State.mem_use s .float)
  have hoffers {x : String} (hx : x ∈ [Floats.new, Floats.get]) {locals : List String} :=
    he.tidy.offers locals hfloat (by decide) (declares_float x hx)
  refine (he.before (State.grew_use s .float) rfl).one rfl (fun h => ?_) (fun h => ?_) fun hT h => ?_
  · simp [-Prod.forall, Emit.floatNeg, Instr.refs, hoffers, h]
  · simpa [Emit.floatNeg, Instr.assigns] using h
  · exact ⟨hT.features hfloat, _, .inl ⟨e, h, rfl⟩, by simp [Emit.floatNeg, Yield.box]⟩

theorem Lowered.floatOp (o : FloatOp) (hl : left.Lowered apps cx frames (s.use .float) l t)
    (hr : right.Lowered apps cx frames t r u) :
    (binary span (.float o) left right).Lowered apps cx frames s (Emit.floatOp o l r) u := by
  have hfloat := (hl.grew.trans hr.grew).features (State.mem_use s .float)
  have hoffers {x : String} (hx : x ∈ [Floats.new, Floats.get]) {locals : List String} :=
    hr.tidy.offers locals hfloat (by decide) (declares_float x hx)
  refine (hl.before (State.grew_use s .float) rfl).two hr rfl (fun h => ?_) (fun h => ?_) fun hT hel her => ?_
  · simp_all [-Prod.forall, Emit.floatOp, Instr.refs]
  · simp_all [Emit.floatOp, Instr.assigns]
  · exact ⟨hT.features hfloat, _, _, .inl ⟨l, hel, rfl⟩, .inl ⟨r, her, rfl⟩, by simp [Emit.floatOp, Yield.box]⟩

/-- Words are compared by one instruction, -/
theorem Lowered.compareWords (c : Comparison) (hwords : cx.areWords left.span right.span = true)
    (hl : left.Lowered apps cx frames s l t) (hr : right.Lowered apps cx frames t r u) :
    (binary span (.compare c) left right).Lowered apps cx frames s (Emit.compareWords c l r) u := by
  refine hl.two hr rfl (fun h => ?_) (fun h => ?_) fun hT hel her => ⟨rfl, l, r, hel, her, ?_⟩
  · simp_all [-Prod.forall, Emit.compareWords, Emit.toBool, Instr.refs]
  · simp_all [Emit.compareWords, Emit.toBool, Instr.assigns]
  · rw [hT.asWords, if_pos hwords]

/-- and other values by a function, which the module then has. -/
theorem Lowered.compareAny (c : Comparison) (hwords : ¬ cx.areWords left.span right.span = true)
    (hl : left.Lowered apps cx frames s l t) (hr : right.Lowered apps cx frames t r u) :
    (binary span (.compare c) left right).Lowered apps cx frames s (Emit.compareAny c l r) (u.useComparison c) := by
  have hmem : c ∈ (u.useComparison c).comparisons := .head _
  have hoffer {locals : List String} : (u.useComparison c).Offers apps locals (.functions, Compare.function c) :=
    .inr (.inl ⟨c, hmem, rfl⟩)
  have hr' := hr.after (State.grew_useComparison u c) (hr.tidy.useComparison c) rfl
  refine hl.two hr' rfl (fun h => ?_) (fun h => ?_) fun hT hel her => ⟨rfl, l, r, hel, her, ?_⟩
  · simp_all [-Prod.forall, Emit.compareAny, Emit.toBool, Instr.refs]
  · simp_all [Emit.compareAny, Emit.toBool, Instr.assigns]
  · rw [hT.asWords, if_neg hwords]
    exact ⟨hT.comparisons hmem, rfl⟩

theorem Lowered.cond {c y n : Code} (ht : test.Lowered apps cx frames s c t) (hy : yes.Lowered apps cx frames t y u)
    (hn : no.Lowered apps cx frames u n w) :
    (Node.cond span test yes no).Lowered apps cx frames s (Emit.cond c y n) w := by
  refine ⟨((ht.toMade.append hy.toMade).append hn.toMade).recode (fun h => ?_) fun h => ?_, ?_, fun hT => ?_⟩
  · simp_all [-Prod.forall, Emit.cond]
  · simp_all [Emit.cond]
  · rw [hn.literals, hy.literals, ht.literals, Node.literals]
    omega
  · exact ⟨rfl, c, y, n, ht.emits (hT.of_grew (hy.grew.trans hn.grew)), hy.emits (hT.of_grew hn.grew), hn.emits hT,
      rfl⟩

/-- Only an application refers to the table of the module and to the type of its functions. -/
theorem Lowered.app {a f : Code} (happ : apps) (hs : s.Tidy apps)
    (ha : arg.Lowered apps cx frames ((s.use .closure).declareAll [Emit.callee, Emit.argument]) a t)
    (hf : fn.Lowered apps cx frames t f u) : (Node.app span fn arg).Lowered apps cx frames s (Emit.app a f) u := by
  obtain ⟨hgrew, htidy, hfuncs, -, hlocals⟩ :=
    (hs.use .closure).declareAll [Emit.callee, Emit.argument] (by decide)
  have hgrew₂ := ha.grew.trans hf.grew
  have hclosure := (hgrew.trans hgrew₂).features (State.mem_use s .closure)
  have hnew := hf.tidy.offers (u.frame.map (·.name)) hclosure (by decide) (declares_environment Env.new (by simp))
  have hoffers {x : String} (hx : x ∈ [Closures.new, Closures.env, Closures.index]) :=
    hf.tidy.offers (u.frame.map (·.name)) hclosure (by decide) (declares_closure x hx)
  have hlocal {x : String} (hx : x ∈ [Emit.callee, Emit.argument]) :
      u.Offers apps (u.frame.map (·.name)) (.locals, x) :=
    .inr (List.map_subset _ (hgrew₂.frame htidy) (hlocals x hx))
  have htable : u.Offers apps (u.frame.map (·.name)) (.tables, Closures.table) := ⟨rfl, happ⟩
  have htype : u.Offers apps (u.frame.map (·.name)) (.types, Closures.type) := ⟨rfl, happ⟩
  refine (ha.before ((State.grew_use s .closure).trans hgrew) hfuncs).two hf rfl (fun h => ?_) (fun h => ?_)
    fun hT hea hef => ⟨rfl, hT.features hclosure, a, f, hea, hef, rfl⟩
  · simp_all [-Prod.forall, Emit.app, Instr.refs]
  · simp_all [Emit.app, Instr.assigns, State.assigned_shared]

theorem Lowered.cons {c h : Code} (ht : tail.Lowered apps cx frames (s.use .list) c t)
    (hh : head.Lowered apps cx frames t h u) :
    (Node.cons span head tail).Lowered apps cx frames s (Emit.cons c h) u := by
  have hlist := (ht.grew.trans hh.grew).features (State.mem_use s .list)
  have hpush := hh.tidy.offers (u.frame.map (·.name)) hlist (by decide) (declares_list Lists.push (by simp))
  refine (ht.before (State.grew_use s .list) rfl).two hh rfl (fun h => ?_) (fun h => ?_) fun hT het heh =>
    ⟨rfl, hT.features hlist, c, _, het, heh, rfl⟩
  · simp_all [-Prod.forall, Emit.cons, Instr.refs]
  · simp_all [Emit.cons, Instr.assigns]

/-- The locals of a match have its number, which is below those of the matches in its arms. -/
theorem Lowered.cases {site : Emit.Site} {branches : List (String × Code)} (hs : s.Tidy apps)
    (hsite : matchSite (s.use .matcher) = .ok site t) (he : scrutinee.Lowered apps cx frames t e u)
    (ha : LoweredArms apps cx arms frames u branches w) :
    (Node.cases span scrutinee arms).Lowered apps cx frames s (Emit.cases site e branches) w := by
  obtain ⟨t', hsite', hgrew, htidy, hfuncs, hsites, hlocals⟩ := matchSite_apply (hs.use .matcher)
  have hsite' : matchSite (s.use .matcher) = .ok (Emit.Site.ofNumber s.sites) t' := hsite'
  cases hsite.symm.trans hsite'
  have hgrew₁ := (State.grew_use s .matcher).trans hgrew
  have hgrew₂ := he.grew.trans ha.grew
  have hnumber : s.sites < u.sites := Nat.lt_of_lt_of_le (hsites ▸ Nat.lt_succ_self _) he.grew.sites
  have hmatcher := (hgrew.trans hgrew₂).features (State.mem_use s .matcher)
  have hcurrent := ha.tidy.offers_env (w.frame.map (·.name)) hmatcher (by decide)
  have hlocal : ∀ x ∈ (Emit.Site.ofNumber s.sites).names, w.Offers apps (w.frame.map (·.name)) (.locals, x) :=
    fun x hx => .inr (List.map_subset _ (hgrew₂.frame htidy) (hlocals x hx))
  have hassigned : ∀ x ∈ (Emit.Site.ofNumber s.sites).names, State.Assigned s w x :=
    fun x hx => .inr ⟨s.sites, Nat.le_refl _, Nat.lt_of_lt_of_le hnumber ha.grew.sites, hx⟩
  have hscrutinee := (he.toMade.before hgrew₁).after ha.grew ha.tidy
  refine ⟨⟨hgrew₁.trans hgrew₂, ha.tidy, ?_, ?_⟩, ?_, fun hT => ?_⟩
  · have harms := Code.refsIn_arms hlocal hcurrent (fun b hb => .inr (.inr (ha.names b hb))) ha.refs
    simp only [Emit.Site.names, List.forall_mem_cons] at hlocal
    simp [-Prod.forall, Emit.cases, Instr.refs, hscrutinee.refs, harms, hcurrent, hlocal]
  · have harms := Code.assignsIn_arms hassigned (State.assigned_shared s w _ (.head _)) fun b hb =>
      (ha.assigns b hb).mono fun x hx => hx.mono (hgrew₁.trans he.grew).sites (Nat.le_refl _)
    simp only [Emit.Site.names, List.forall_mem_cons] at hassigned
    simp [Emit.cases, Instr.assigns, hscrutinee.assigns, harms, hassigned]
  · rw [ha.literals, he.literals, hfuncs, Node.literals, Nat.add_assoc]
    rfl
  · exact ⟨rfl, hT.features hmatcher, s.sites, e, branches, he.emits (hT.of_grew ha.grew), ha.emits hT hnumber, rfl⟩

theorem LoweredArms.cons {f : String} {c : Code} {others : List (String × Code)}
    (hf : pattern.Lowered apps cx s f t)
    (hc : body.Lowered apps cx ((pattern.bindings.map some).reverse ++ frames)
      (t.under (t.scopes.pushAll (pattern.bindings.map some))) c u)
    (ho : LoweredArms apps cx arms frames (u.under t.scopes) others w) :
    LoweredArms apps cx ((pattern, body) :: arms) frames s ((f, c) :: others) w := by
  have hmade := hc.toMade.scoped
  have hbefore := hmade.before hf.grew
  have hmade' := hbefore.after ho.grew ho.tidy
  refine ⟨hmade'.grew, ho.tidy, ?_, ?_, ?_, ?_, fun hT hk => ?_⟩
  · refine List.forall_mem_cons.2 ⟨?_, ho.names⟩
    exact ((hmade.grew.trans ho.grew).matchers.map _).subset hf.name_mem
  · exact List.forall_mem_cons.2 ⟨hmade'.refs, ho.refs⟩
  · refine List.forall_mem_cons.2 ⟨hmade'.assigns, fun b hb => ?_⟩
    exact (ho.assigns b hb).mono fun x hx => hx.mono hbefore.grew.sites (Nat.le_refl _)
  · have hlen := hc.literals
    simp only [State.length_under, hf.functions] at hlen
    rw [ho.literals, State.length_under, literalsIn, hlen, Nat.add_assoc]
  · have hbody := hT.of_grew ho.grew
    refine ⟨f, c, others, hf.matched (hbody.of_grew hmade.grew), hc.emits hbody.of_under, fun hmem => ?_,
      ho.emits hT (Nat.lt_of_lt_of_le hk hbefore.grew.sites), rfl⟩
    exact Emit.Site.outer_not_assigned hk (hbefore.assigns _ hmem)

end

mutual

/-- **A node is lowered if and only if it is well formed, to code that stands for it.** -/
theorem lower_spec (hcx : cx.routes = .direct) (node : Node) {s : State} {names : List String}
    {frames : List (Option String)} (hs : s.Sees apps names frames) (happs : 0 < node.applications → apps) :
    Spec (node.lower cx) s (node.WellFormed names) (node.Lowered apps cx frames s) := by
  cases node with
  | lit span value =>
    simp only [lower, route_direct hcx, pure_bind]
    exact literal_spec value hs
  | ident span name =>
    simp only [lower, route_direct hcx, pure_bind]
    exact reference_spec name hs
  | unary span o operand =>
    cases o with
    | neg =>
      simp only [lower, route_direct hcx, pure_bind]
      refine Spec.map (lower_spec hcx operand hs happs) fun e t he => ?_
      exact he.one rfl (fun h => by simpa [Emit.neg, Instr.refs] using h)
        (fun h => by simpa [Emit.neg, Instr.assigns] using h) fun _ h => ⟨rfl, e, h, rfl⟩
    | floatNeg =>
      simp only [lower, route_direct hcx, pure_bind]
      have hs' := hs.grow (State.grew_use s .float) (hs.tidy.use .float)
      exact Spec.step rfl (Spec.map (lower_spec hcx operand hs' happs) fun e t he => he.floatNeg)
  | binary span o left right =>
    have hl : 0 < left.applications → apps := fun h => happs (by simp only [applications]; omega)
    have hr : 0 < right.applications → apps := fun h => happs (by simp only [applications]; omega)
    cases o with
    | int o =>
      simp only [lower, route_direct hcx, pure_bind]
      refine (lower_spec hcx left hs hl).bind fun l t hl => (lower_spec hcx right (hl.sees hs) hr).map fun r u hr => ?_
      refine hl.two hr rfl (fun h => ?_) (fun h => ?_) fun _ hel her => ⟨rfl, l, r, hel, her, rfl⟩
      · cases o <;> simp_all [-Prod.forall, Emit.intOp, Emit.untag, Emit.retag, Instr.refs]
      · cases o <;> simp_all [Emit.intOp, Emit.untag, Emit.retag, Instr.assigns]
    | float o =>
      simp only [lower, route_direct hcx, pure_bind]
      have hs' := hs.grow (State.grew_use s .float) (hs.tidy.use .float)
      exact Spec.step rfl ((lower_spec hcx left hs' hl).bind fun l t hl =>
        (lower_spec hcx right (hl.sees hs') hr).map fun r u hr => hl.floatOp o hr)
    | and | or =>
      simp only [lower, route_direct hcx, pure_bind]
      refine (lower_spec hcx left hs hl).bind fun l t hl => (lower_spec hcx right (hl.sees hs) hr).map fun r u hr => ?_
      refine hl.two hr rfl (fun h => ?_) (fun h => ?_) fun _ hel her => ⟨rfl, l, r, hel, her, rfl⟩
      · simp_all [-Prod.forall, Emit.and, Emit.or, Instr.refs]
      · simp_all [Emit.and, Emit.or, Instr.assigns]
    | compare c =>
      simp only [lower, route_direct hcx, pure_bind]
      refine (lower_spec hcx left hs hl).bind fun l t hl =>
        ((lower_spec hcx right (hl.sees hs) hr).bind (q := True) fun r u hr => ?_).iff (and_iff_left trivial)
      by_cases hwords : cx.areWords left.span right.span = true
      · rw [if_pos hwords]
        exact .pure (hl.compareWords c hwords hr)
      · rw [if_neg hwords]
        exact .step rfl (.pure (hl.compareAny c hwords hr))
  | cond span test yes no =>
    have ht : 0 < test.applications → apps := fun h => happs (by simp only [applications]; omega)
    have hy : 0 < yes.applications → apps := fun h => happs (by simp only [applications]; omega)
    have hn : 0 < no.applications → apps := fun h => happs (by simp only [applications]; omega)
    simp only [lower, route_direct hcx, pure_bind]
    exact (lower_spec hcx test hs ht).bind fun t s₁ ht => (lower_spec hcx yes (ht.sees hs) hy).bind fun y s₂ hy =>
      (lower_spec hcx no (hy.sees (ht.sees hs)) hn).map fun n s₃ hn => ht.cond hy hn
  | letIn span name value body =>
    have hv : 0 < value.applications → apps := fun h => happs (by simp only [applications]; omega)
    have hb : 0 < body.applications → apps := fun h => happs (by simp only [applications]; omega)
    simp only [lower, route_direct hcx, pure_bind]
    refine (lower_spec hcx value hs hv).bind fun v t hv => ?_
    have ht := (hv.sees hs).grow (State.grew_use t .environment) (hv.tidy.use .environment)
    have hbody := lower_spec hcx body (ht.under [some name] [name] (by simp)) hb
    refine (withBinding_spec hv.toMade (hbody.mono fun c u h => ⟨h.toMade, h⟩)).mono ?_
    rintro code _ ⟨c, u, rfl, rfl, hmade, henv, hb⟩
    refine ⟨hmade, ?_, fun hT => ?_⟩
    · rw [literals, ← Nat.add_assoc, ← hv.literals]
      exact hb.literals
    · have hvalue := ((hT.of_under.of_grew hb.grew).of_under).of_grew (State.grew_use t .environment)
      exact ⟨rfl, hT.features henv, v, c, hv.emits hvalue, hb.emits hT.of_under, rfl⟩
  | letRec span name value body =>
    cases value with
    | lambda span' param inner =>
      have hi : 0 < inner.applications → apps := fun h => happs (by simp only [applications]; omega)
      have hb : 0 < body.applications → apps := fun h => happs (by simp only [applications]; omega)
      simp only [lower, route_direct hcx, pure_bind]
      have hs₁ := hs.grow (State.grew_use s .closure) (hs.tidy.use .closure)
      have hinner := lower_spec hcx inner
        (hs₁.inside [some param, some name] [param, name] (by simp)) hi
      refine (function_spec hs.tidy (hinner.mono fun c t h => ⟨h.toMade, h⟩)).bind ?_
      rintro v _ ⟨i, t, rfl, rfl, hv, hclosure, hi⟩
      have hs₂ := hs.grow hv.grew hv.tidy
      have hs₃ := hs₂.grow (State.grew_use _ .environment) (hs₂.tidy.use .environment)
      have hbody := lower_spec hcx body (hs₃.under [some name] [name] (by simp)) hb
      refine (withBinding_spec hv (hbody.mono fun c u h => ⟨h.toMade, h⟩)).mono ?_
      rintro code _ ⟨c, u, rfl, rfl, hmade, henv, hb⟩
      refine ⟨hmade, ?_, fun hT => ?_⟩
      · have hlen := hi.literals
        have hlen' := hb.literals
        simp only [State.length_under, State.length_use, State.length_inside, State.length_outside] at hlen hlen'
        simp only [State.length_under, literals]
        omega
      · have hvalue := ((hT.of_under.of_grew hb.grew).of_under).of_grew (State.grew_use _ .environment)
        exact ⟨rfl, hvalue.features hclosure, _, c, hvalue.runs hi.emits, hb.emits hT.of_under, rfl⟩
    | _ =>
      simp only [lower, route_direct hcx, pure_bind]
      exact Spec.reject _
  | lambda span param body =>
    simp only [lower, route_direct hcx, pure_bind]
    have hs₁ := hs.grow (State.grew_use s .closure) (hs.tidy.use .closure)
    have hbody := lower_spec hcx body (hs₁.inside [some param, none] [param] (by simp)) happs
    refine (function_spec hs.tidy (hbody.mono fun c t h => ⟨h.toMade, h⟩)).mono ?_
    rintro code _ ⟨c, t, rfl, rfl, hmade, hclosure, hb⟩
    refine ⟨hmade, ?_, fun hT => ⟨rfl, hT.features hclosure, _, hT.runs hb.emits, rfl⟩⟩
    have hlen := hb.literals
    simp only [State.length_use, State.length_inside] at hlen
    simp only [State.length_outside, literals]
    omega
  | app span fn arg =>
    have ha : 0 < arg.applications → apps := fun h => happs (by simp only [applications]; omega)
    have hf : 0 < fn.applications → apps := fun h => happs (by simp only [applications]; omega)
    have happ : apps := happs (by simp only [applications]; omega)
    simp only [lower, route_direct hcx, pure_bind]
    obtain ⟨hgrew, htidy, -⟩ := (hs.tidy.use .closure).declareAll [Emit.callee, Emit.argument] (by decide)
    have hs₁ := hs.grow ((State.grew_use s .closure).trans hgrew) htidy
    exact Spec.step rfl (Spec.step rfl (Spec.step rfl ((lower_spec hcx arg hs₁ ha).bind fun a t ha =>
      (lower_spec hcx fn (ha.sees hs₁) hf).map fun f u hf => Lowered.app happ hs.tidy ha hf)))
  | cons span head tail =>
    have ht : 0 < tail.applications → apps := fun h => happs (by simp only [applications]; omega)
    have hh : 0 < head.applications → apps := fun h => happs (by simp only [applications]; omega)
    simp only [lower, route_direct hcx, pure_bind]
    have hs' := hs.grow (State.grew_use s .list) (hs.tidy.use .list)
    exact Spec.step rfl ((lower_spec hcx tail hs' ht).bind fun t u ht =>
      (lower_spec hcx head (ht.sees hs') hh).map fun h w hh => ht.cons hh)
  | cases span scrutinee arms =>
    have he : 0 < scrutinee.applications → apps := fun h => happs (by simp only [applications]; omega)
    have ha : 0 < applicationsIn arms → apps := fun h => happs (by simp only [applications]; omega)
    simp only [lower, route_direct hcx, pure_bind]
    obtain ⟨s₁, hsite, hgrew, htidy, -⟩ := matchSite_apply (hs.tidy.use .matcher)
    have hs₁ := hs.grow ((State.grew_use s .matcher).trans hgrew) htidy
    exact Spec.step rfl (Spec.step hsite ((lower_spec hcx scrutinee hs₁ he).bind fun e t he =>
      (lowerArms_spec hcx arms (he.sees hs₁) ha).map fun branches u ha => he.cases hs.tidy hsite ha))
termination_by structural node

theorem lowerArms_spec (hcx : cx.routes = .direct) (arms : List (Pattern × Node)) {s : State} {names : List String}
    {frames : List (Option String)} (hs : s.Sees apps names frames) (happs : 0 < applicationsIn arms → apps) :
    Spec (lowerArms cx arms) s (WellFormedArms names arms) (LoweredArms apps cx arms frames s) := by
  cases arms with
  | nil => exact .pure ⟨.refl s, hs.tidy, nofun, nofun, nofun, rfl, fun _ _ => rfl⟩
  | cons arm rest =>
    obtain ⟨pattern, body⟩ := arm
    have hb : 0 < body.applications → apps := fun h => happs (by simp only [applicationsIn]; omega)
    have hr : 0 < applicationsIn rest → apps := fun h => happs (by simp only [applicationsIn]; omega)
    refine ((pattern.lower_spec cx hs.tidy).bind fun f t hf => ?_).iff (and_iff_right trivial)
    have ht := hs.grow hf.grew hf.tidy
    have hbody := lower_spec hcx body (ht.under (pattern.bindings.map some).reverse pattern.bindings.reverse (by simp)) hb
    rw [List.reverse_reverse] at hbody
    have hscope : Spec (inScope (pattern.bindings.map some) (body.lower cx)) t _ fun c u => ∃ v, u = v.under t.scopes ∧
        body.Lowered apps cx ((pattern.bindings.map some).reverse ++ frames)
          (t.under (t.scopes.pushAll (pattern.bindings.map some))) c v :=
      Spec.inScope rfl (hbody.mono fun c v h => ⟨h.grew.scopes, v, rfl, h⟩)
    refine hscope.bind ?_
    rintro c _ ⟨v, rfl, hc⟩
    have hmade := hc.toMade.scoped
    exact (lowerArms_spec hcx rest (ht.grow hmade.grew hmade.tidy) hr).map fun others u ho => .cons hf hc ho
termination_by structural arms

end

end Node

end WasmBackend
