/-
**Lowering is well bracketed** (`lower_bracketed`): whatever the tree, the
state and the routes, scopes and open matchers are afterwards what they were,
and what was collected is only added to. After a success the function around
has at most new locals. After a failure one more function is open for each
function literal around the node that failed, and nothing else.

`Node.places` lists the nodes of a tree in the order in which they are lowered;
the node that fails is the first of them that is refused.
-/
import WasmBackend.Proofs.Lowering.Patterns

namespace WasmBackend

/-! ## The nodes of a tree, in order -/

/-- A node of a tree: the frames in scope there and the function literals around it, the innermost
first. -/
structure Place where
  node : Node
  scopes : Scopes
  around : List Node

/-- The same place, seen from outside of a function literal. -/
def Place.inside (literal : Node) (p : Place) : Place := { p with around := p.around ++ [literal] }

namespace Node

mutual

/-- The nodes that are lowered one after the other. The function of a recursive definition is not
lowered as a node of its own, but its body is; other values can not be defined recursively. -/
def places : Node → Scopes → List Place
  | node@(.lit _ _), scopes => [⟨node, scopes, []⟩]
  | node@(.ident _ _), scopes => [⟨node, scopes, []⟩]
  | node@(.unary _ _ operand), scopes => ⟨node, scopes, []⟩ :: operand.places scopes
  | node@(.binary _ _ left right), scopes => ⟨node, scopes, []⟩ :: (left.places scopes ++ right.places scopes)
  | node@(.cond _ test yes no), scopes =>
    ⟨node, scopes, []⟩ :: (test.places scopes ++ (yes.places scopes ++ no.places scopes))
  | node@(.letIn _ name value body), scopes =>
    ⟨node, scopes, []⟩ :: (value.places scopes ++ body.places (scopes.pushAll [some name]))
  | node@(.letRec _ name value@(.lambda _ param inner) body), scopes =>
    ⟨node, scopes, []⟩ :: ((inner.places (scopes.pushAll [some name, some param])).map (Place.inside value) ++
      body.places (scopes.pushAll [some name]))
  | node@(.letRec _ _ _ _), scopes => [⟨node, scopes, []⟩]
  | node@(.lambda _ param body), scopes =>
    ⟨node, scopes, []⟩ :: (body.places (scopes.pushAll [none, some param])).map (Place.inside node)
  | node@(.app _ fn arg), scopes => ⟨node, scopes, []⟩ :: (arg.places scopes ++ fn.places scopes)
  | node@(.cons _ head tail), scopes => ⟨node, scopes, []⟩ :: (tail.places scopes ++ head.places scopes)
  | node@(.cases _ scrutinee arms), scopes =>
    ⟨node, scopes, []⟩ :: (scrutinee.places scopes ++ placesIn arms scopes)
termination_by structural node => node

def placesIn : List (Pattern × Node) → Scopes → List Place
  | [], _ => []
  | (pattern, body) :: rest, scopes =>
    body.places (scopes.pushAll (pattern.bindings.map some)) ++ placesIn rest scopes
termination_by structural arms => arms

end

/-- Nodes that no lowering accepts: names that are not in scope, and recursive definitions of
something else than a function. -/
def refuses : Node → Scopes → Bool
  | .ident _ name, scopes => (scopes.distance? name).isNone
  | .letRec _ _ value _, _ => decide (value.kind ≠ .lambda)
  | _, _ => false

end Node

/-- The node is not given to its own lowering, or that does not accept it. -/
def Place.refused (cx : Setup) (p : Place) : Bool :=
  decide (cx.routes.target? p.node.kind ≠ some p.node.kind) || p.node.refuses p.scopes

@[simp] theorem Place.refused_inside (cx : Setup) (literal : Node) (p : Place) :
    (p.inside literal).refused cx = p.refused cx := rfl

/-- The fault is the one that lowering the node itself stops with, before anything is collected. -/
def Place.Raises (cx : Setup) (p : Place) (fault : Fault) : Prop :=
  ∃ r : State, r.scopes = p.scopes ∧ p.node.lower cx r = .error fault r

/-! ## States -/

/-- Scopes, open matchers and the code of the entry point are what they were, and what was collected
is only added to. -/
structure State.Kept (s t : State) : Prop where
  scopes : t.scopes = s.scopes
  pending : t.matchers.frames = s.matchers.frames
  features : s.features <+: t.features
  functions : s.functions.funcs <+: t.functions.funcs
  matchers : s.matchers.funcs <+: t.matchers.funcs
  comparisons : s.comparisons <:+ t.comparisons
  code : t.code = s.code
  sites : s.sites ≤ t.sites

/-- The innermost of some frames got new locals, each once. -/
inductive FramesGrow : List (List Local) → List (List Local) → Prop
  | none : FramesGrow [] []
  | some {frame new : List Local} {outer : List (List Local)} (nodup : new.Nodup) (fresh : ∀ l ∈ new, l ∉ frame) :
    FramesGrow (frame :: outer) ((frame ++ new) :: outer)

theorem FramesGrow.refl (frames : List (List Local)) : FramesGrow frames frames := by
  cases frames with
  | nil => exact .none
  | cons frame outer =>
    have hgrow : FramesGrow (frame :: outer) ((frame ++ []) :: outer) := .some .nil nofun
    rwa [List.append_nil] at hgrow

theorem FramesGrow.trans {f g h : List (List Local)} (hfg : FramesGrow f g) (hgh : FramesGrow g h) :
    FramesGrow f h := by
  cases hfg with
  | none => exact hgh
  | @some frame new outer nodup fresh =>
    cases hgh with
    | @some _ new' _ nodup' fresh' =>
      rw [List.append_assoc]
      refine .some (List.nodup_append.2 ⟨nodup, nodup', ?_⟩) fun l hl => ?_
      · rintro l hl _ hl' rfl
        exact fresh' l hl' (List.mem_append_right _ hl)
      · rcases List.mem_append.1 hl with hl | hl
        · exact fresh l hl
        · exact fun hframe => fresh' l hl (List.mem_append_left _ hframe)

theorem FramesGrow.declare (d : Definitions) (l : Local) : FramesGrow d.frames (d.declare l).frames := by
  cases hd : d.frames with
  | nil => simpa [Definitions.declare, hd] using FramesGrow.none
  | cons frame outer =>
    by_cases hl : l ∈ frame
    · simpa [Definitions.declare, hd, hl] using FramesGrow.refl (frame :: outer)
    · have hgrow : FramesGrow (frame :: outer) ((frame ++ [l]) :: outer) := .some (by simp) (by simpa using hl)
      simpa [Definitions.declare, hd, hl] using hgrow

theorem Definitions.funcs_declare (d : Definitions) (l : Local) : (d.declare l).funcs = d.funcs := by
  unfold Definitions.declare
  split <;> rfl

namespace State

variable {s t u : State}

theorem Kept.refl (s : State) : s.Kept s :=
  ⟨rfl, rfl, List.prefix_refl _, List.prefix_refl _, List.prefix_refl _, List.suffix_refl _, rfl, Nat.le_refl _⟩

theorem Kept.trans (h : s.Kept t) (h' : t.Kept u) : s.Kept u where
  scopes := h'.scopes.trans h.scopes
  pending := h'.pending.trans h.pending
  features := h.features.trans h'.features
  functions := h.functions.trans h'.functions
  matchers := h.matchers.trans h'.matchers
  comparisons := h.comparisons.trans h'.comparisons
  code := h'.code.trans h.code
  sites := Nat.le_trans h.sites h'.sites

theorem kept_use (s : State) (f : Feature) : s.Kept (s.use f) :=
  { Kept.refl s with features := List.prefix_append _ _ }

theorem kept_declare (s : State) (l : Local) : s.Kept (s.declare l) :=
  { Kept.refl s with functions := Definitions.funcs_declare s.functions l ▸ List.prefix_refl _ }

end State

/-! ## Lowerings -/

namespace Lower

variable {α β : Type} {cx : Setup} {scopes : Scopes} {x : Lower α} {visited later : List Place}

/-- What holds after an act that visits some places, run under these scopes. -/
def Keeps (cx : Setup) (scopes : Scopes) (x : Lower α) (visited : List Place) : Prop :=
  ∀ s : State, s.scopes = scopes → match x s with
    | .ok _ t => visited.find? (·.refused cx) = none ∧ s.Kept t ∧ FramesGrow s.functions.frames t.functions.frames
    | .error fault t => ∃ p, visited.find? (·.refused cx) = some p ∧ p.Raises cx fault ∧ s.Kept t ∧
        ∃ opened frames, t.functions.frames = opened ++ frames ∧ opened.length = p.around.length ∧
          FramesGrow s.functions.frames frames

/-- An act that always succeeds and visits nothing. -/
theorem Keeps.still (x : Lower α) (h : ∀ s, ∃ a t, x s = .ok a t ∧ s.Kept t ∧
    FramesGrow s.functions.frames t.functions.frames) : Keeps cx scopes x [] := by
  intro s _
  obtain ⟨a, t, hx, hkept⟩ := h s
  rw [hx]
  exact ⟨rfl, hkept⟩

theorem Keeps.pure (a : α) : Keeps cx scopes (Pure.pure a) [] :=
  .still _ fun s => ⟨a, s, rfl, .refl s, .refl _⟩

theorem Keeps.bind {f : α → Lower β} (hx : Keeps cx scopes x visited) (hf : ∀ a, Keeps cx scopes (f a) later) :
    Keeps cx scopes (x >>= f) (visited ++ later) := by
  intro s hs
  have hxs := hx s hs
  rw [bind_apply, List.find?_append]
  cases hxs' : x s with
  | error fault t =>
    rw [hxs'] at hxs
    obtain ⟨p, hp, hrest⟩ := hxs
    exact ⟨p, by rw [hp, Option.some_or], hrest⟩
  | ok a t =>
    rw [hxs'] at hxs
    obtain ⟨hnone, hkept, hframes⟩ := hxs
    have hft := hf a t (hkept.scopes.trans hs)
    simp only [hnone, Option.none_or]
    cases hfa : f a t with
    | ok b u =>
      rw [hfa] at hft
      obtain ⟨hnone', hkept', hframes'⟩ := hft
      exact ⟨hnone', hkept.trans hkept', hframes.trans hframes'⟩
    | error fault u =>
      rw [hfa] at hft
      obtain ⟨p, hp, hraises, hkept', opened, frames, heq, hlength, hframes'⟩ := hft
      exact ⟨p, hp, hraises, hkept.trans hkept', opened, frames, heq, hlength, hframes.trans hframes'⟩

/-- An act whose result is used. -/
theorem Keeps.map (hx : Keeps cx scopes x visited) (f : α → β) :
    Keeps cx scopes (x >>= fun a => Pure.pure (f a)) visited := by
  simpa using hx.bind fun a => Keeps.pure (f a)

theorem Keeps.use (f : Feature) : Keeps cx scopes (Lower.use f) [] :=
  .still _ fun s => ⟨(), s.use f, rfl, State.kept_use s f, .refl _⟩

theorem Keeps.useComparison (c : Comparison) : Keeps cx scopes (Lower.useComparison c) [] :=
  .still _ fun s => ⟨(), s.useComparison c, rfl, { State.Kept.refl s with comparisons := List.suffix_cons _ _ }, .refl _⟩

theorem Keeps.declare (name : String) : Keeps cx scopes (Lower.declare name) [] :=
  .still _ fun s => ⟨(), s.declare (.word name), rfl, State.kept_declare s _, .declare _ _⟩

theorem Keeps.matchSite : Keeps cx scopes Lower.matchSite [] := by
  have hsite : Keeps cx scopes Lower.site [] :=
    .still _ fun s => ⟨s.sites, { s with sites := s.sites + 1 }, rfl,
      { State.Kept.refl s with sites := Nat.le_succ _ }, .refl _⟩
  exact hsite.bind fun _ => (Keeps.declare _).bind fun _ => (Keeps.declare _).bind fun _ =>
    (Keeps.declare _).bind fun _ => .pure _

/-- Frames that are in scope only for a while. -/
theorem Keeps.inScope {frames : List (Option String)} (hx : Keeps cx (scopes.pushAll frames) x visited) :
    Keeps cx scopes (Lower.inScope frames x) visited := by
  rintro s rfl
  have hxs := hx (s.under (s.scopes.pushAll frames)) rfl
  have hrestore {t : State} (h : (s.under (s.scopes.pushAll frames)).Kept t) :
      s.Kept (t.under (t.scopes.restore s.scopes.depth)) := by
    refine { h with scopes := ?_ }
    show t.scopes.restore s.scopes.depth = s.scopes
    rw [h.scopes]
    exact Scopes.restore_pushAll s.scopes frames
  rw [inScope_apply]
  cases hxs' : x (s.under (s.scopes.pushAll frames)) with
  | ok a t =>
    rw [hxs'] at hxs
    exact ⟨hxs.1, hrestore hxs.2.1, hxs.2.2⟩
  | error fault t =>
    rw [hxs'] at hxs
    obtain ⟨p, hp, hraises, hkept, hopened⟩ := hxs
    exact ⟨p, hp, hraises, hrestore hkept, hopened⟩

theorem function_apply (name : Option String) (param : String) (body : Lower Code) (s : State) :
    Lower.function name param body s =
      match body ((s.use .closure).inside (s.scopes.pushAll [name, some param])) with
      | .ok code t => .ok (Emit.closure t.functions.funcs.length) (t.outside (t.scopes.restore s.scopes.depth) code)
      | .error fault t => .error fault (t.under (t.scopes.restore s.scopes.depth)) := by
  let r := s.use .closure
  have henter : (enterFunction >>= fun _ => body) (r.under (r.scopes.pushAll [name, some param])) =
      body (r.inside (s.scopes.pushAll [name, some param])) := rfl
  show (Lower.inScope [name, some param] (enterFunction >>= fun _ => body) >>= fun code =>
    leaveFunction code >>= fun k => Pure.pure (Emit.closure k)) r = _
  rw [bind_apply, inScope_apply, henter]
  cases body (r.inside (s.scopes.pushAll [name, some param])) <;> rfl

/-- The function around a literal is as it was. If the body of the literal fails, its frame stays
open. -/
theorem Keeps.function {name : Option String} {param : String} {body : Lower Code} (literal : Node)
    (hbody : Keeps cx (scopes.pushAll [name, some param]) body visited) :
    Keeps cx scopes (Lower.function name param body) (visited.map (Place.inside literal)) := by
  rintro s rfl
  have hinside := hbody ((s.use .closure).inside (s.scopes.pushAll [name, some param])) rfl
  have hrestore {t : State} (h : ((s.use .closure).inside (s.scopes.pushAll [name, some param])).Kept t) :
      s.Kept (t.under (t.scopes.restore s.scopes.depth)) := by
    refine (State.kept_use s .closure).trans { h with scopes := ?_ }
    show t.scopes.restore s.scopes.depth = s.scopes
    rw [h.scopes]
    exact Scopes.restore_pushAll s.scopes _
  have hopen {frames : List (List Local)} (h : FramesGrow ([] :: s.functions.frames) frames) :
      ∃ frame, frames = frame :: s.functions.frames := by
    cases h
    exact ⟨_, rfl⟩
  rw [function_apply, List.find?_map]
  cases hb : body ((s.use .closure).inside (s.scopes.pushAll [name, some param])) with
  | ok code t =>
    rw [hb] at hinside
    obtain ⟨hnone, hkept, hframes⟩ := hinside
    obtain ⟨frame, hframe⟩ := hopen hframes
    have hkept' := hrestore hkept
    refine ⟨congrArg (Option.map _) hnone,
      { hkept' with functions := hkept'.functions.trans (List.prefix_append _ _) }, ?_⟩
    have hclosed : (t.functions.leave .literals code).frames = s.functions.frames := by
      simp [Definitions.leave, Definitions.close, hframe]
    exact hclosed ▸ .refl _
  | error fault t =>
    rw [hb] at hinside
    obtain ⟨p, hp, hraises, hkept, opened, frames, heq, hlength, hframes⟩ := hinside
    obtain ⟨frame, rfl⟩ := hopen hframes
    refine ⟨p.inside literal, congrArg (Option.map _) hp, hraises, hrestore hkept, opened ++ [frame], _, ?_, ?_,
      .refl _⟩
    · simpa [State.under] using heq
    · simp [Place.inside, hlength]

theorem Keeps.withBinding {body : Lower Code} {name : String} (value : Code)
    (hbody : Keeps cx (scopes.pushAll [some name]) body visited) :
    Keeps cx scopes (Lower.withBinding name value body) visited :=
  (Keeps.use .environment).bind fun _ => hbody.inScope.map _

theorem Keeps.literal (value : Literal) : Keeps cx scopes (Lower.literal value) [] := by
  cases value with
  | int n => exact .pure _
  | bool b => exact .pure _
  | nil => exact (Keeps.use .list).map _
  | float x => exact (Keeps.use .float).map _

theorem reference_eq {s : State} (hs : s.scopes = scopes) (span : Span) (name : String) :
    reference span name s = match scopes.distance? name with
      | none => reject (.unbound ⟨name, span⟩) s
      | some distance => (do Lower.use .environment; return Emit.lookup distance) s := by
  subst hs
  show (match s.scopes.distance? name with | none => _ | some _ => _ : Lower Code) s = _
  cases s.scopes.distance? name <;> rfl

/-- A node that is refused stops the lowering at once. -/
theorem Keeps.raise {node : Node} (hrefused : Place.refused cx ⟨node, scopes, []⟩ = true)
    (hlower : ∀ s, s.scopes = scopes → ∃ fault, node.lower cx s = .error fault s) :
    Keeps cx scopes (node.lower cx) (⟨node, scopes, []⟩ :: later) := by
  intro s hs
  obtain ⟨fault, hfault⟩ := hlower s hs
  rw [hfault]
  exact ⟨_, by rw [List.find?_cons, hrefused], ⟨s, hs, hfault⟩, .refl s, [], _, rfl, rfl, .refl _⟩

/-- A node that is given to its own lowering; otherwise it is refused. -/
theorem Keeps.routed {node : Node} {act : Lower Code} (hlower : node.lower cx = do
      route cx node.kind node.span
      act)
    (hact : cx.routes.target? node.kind = some node.kind → node.lower cx = act →
      Keeps cx scopes act (⟨node, scopes, []⟩ :: later)) :
    Keeps cx scopes (node.lower cx) (⟨node, scopes, []⟩ :: later) := by
  by_cases htarget : cx.routes.target? node.kind = some node.kind
  · have hroute : route cx node.kind node.span = Pure.pure () := by simp [route, htarget]
    have heq : node.lower cx = act := by rw [hlower, hroute, pure_bind]
    exact heq ▸ hact htarget heq
  · refine .raise (by simp [Place.refused, htarget]) fun s _ => ?_
    have hroute : ∃ fault, route cx node.kind node.span = throw fault := by
      cases hkind : cx.routes.target? node.kind with
      | none => exact ⟨_, by simp only [route, hkind]; rfl⟩
      | some target =>
        have hne : target ≠ node.kind := fun h => htarget (by rw [hkind, h])
        exact ⟨_, by simp only [route, hkind, if_neg hne]; rfl⟩
    obtain ⟨fault, hfault⟩ := hroute
    exact ⟨fault, by rw [hlower, hfault]; rfl⟩

/-- A node that is refused only if it is not given to its own lowering. -/
theorem Keeps.visit {node : Node} {act : Lower Code} (hlower : node.lower cx = do
      route cx node.kind node.span
      act)
    (hplain : node.refuses scopes = false) (hact : Keeps cx scopes act later) :
    Keeps cx scopes (node.lower cx) (⟨node, scopes, []⟩ :: later) := by
  refine .routed hlower fun htarget _ => ?_
  have hhead : Place.refused cx ⟨node, scopes, []⟩ = false := by simp [Place.refused, htarget, hplain]
  intro s hs
  simpa only [List.find?_cons, hhead] using hact s hs

end Lower

/-- A pattern never fails. -/
theorem Pattern.keeps {cx : Setup} {scopes : Scopes} (p : Pattern) : Lower.Keeps cx scopes p.lower [] :=
  .still _ fun s => ⟨_, _, p.lower_eq s,
    (State.kept_use s .matcher).trans { State.Kept.refl _ with matchers := List.prefix_append _ _ }, .refl _⟩

namespace Node

open Lower

variable {cx : Setup}

mutual

theorem keeps (node : Node) (scopes : Scopes) : Keeps cx scopes (node.lower cx) (node.places scopes) := by
  cases node with
  | lit span value => exact .visit rfl rfl (.literal value)
  | ident span name =>
    cases hdistance : scopes.distance? name with
    | none =>
      refine .routed rfl fun htarget hlower => hlower ▸ .raise ?_ fun s hs => ?_
      · simp [Place.refused, htarget, refuses, hdistance]
      · rw [hlower, reference_eq hs, hdistance]
        exact ⟨_, rfl⟩
    | some k =>
      have hbound : refuses (.ident span name) scopes = false := by simp [refuses, hdistance]
      refine .visit rfl hbound fun s hs => ?_
      rw [reference_eq hs, hdistance]
      exact (Keeps.use .environment).map (fun _ => Emit.lookup k) s hs
  | unary span o operand =>
    have ih := keeps operand scopes
    cases o with
    | neg => exact .visit rfl rfl (ih.map _)
    | floatNeg => exact .visit rfl rfl ((Keeps.use .float).bind fun _ => ih.map _)
  | binary span o left right =>
    have hparts (emit : Code → Code → Code) : Keeps cx scopes (do
        let l ← left.lower cx
        let r ← right.lower cx
        return emit l r) (left.places scopes ++ right.places scopes) :=
      (keeps left scopes).bind fun l => (keeps right scopes).map (emit l)
    cases o with
    | int o => exact .visit rfl rfl (hparts _)
    | float o => exact .visit rfl rfl ((Keeps.use .float).bind fun _ => hparts _)
    | and => exact .visit rfl rfl (hparts _)
    | or => exact .visit rfl rfl (hparts _)
    | compare c =>
      refine .visit rfl rfl ?_
      split
      · exact hparts _
      · simpa using (keeps left scopes).bind fun l => (keeps right scopes).bind fun r =>
          (Keeps.useComparison c).map fun _ => Emit.compareAny c l r
  | cond span test yes no =>
    exact .visit rfl rfl ((keeps test scopes).bind fun t => (keeps yes scopes).bind fun y => (keeps no scopes).map _)
  | letIn span name value body =>
    exact .visit rfl rfl ((keeps value scopes).bind fun v => (keeps body _).withBinding v)
  | letRec span name value body =>
    cases value with
    | lambda span' param inner =>
      exact .visit rfl rfl (((keeps inner _).function _).bind fun v => (keeps body _).withBinding v)
    | _ => 
      refine .routed rfl fun _ hlower => hlower ▸ .raise (by simp [Place.refused, refuses, kind]) fun s _ => ?_
      rw [hlower]
      exact ⟨_, rfl⟩
  | lambda span param body => exact .visit rfl rfl ((keeps body _).function _)
  | app span fn arg =>
    exact .visit rfl rfl ((Keeps.use .closure).bind fun _ => (Keeps.declare _).bind fun _ =>
      (Keeps.declare _).bind fun _ => (keeps arg scopes).bind fun a => (keeps fn scopes).map _)
  | cons span head tail =>
    exact .visit rfl rfl ((Keeps.use .list).bind fun _ => (keeps tail scopes).bind fun t => (keeps head scopes).map _)
  | cases span scrutinee arms =>
    exact .visit rfl rfl ((Keeps.use .matcher).bind fun _ => Keeps.matchSite.bind fun site =>
      (keeps scrutinee scopes).bind fun e => (keeps_arms arms scopes).map _)
termination_by structural node

theorem keeps_arms (arms : List (Pattern × Node)) (scopes : Scopes) :
    Keeps cx scopes (lowerArms cx arms) (placesIn arms scopes) := by
  match arms with
  | [] => exact .pure _
  | (pattern, body) :: rest =>
    exact pattern.keeps.bind fun f => (keeps body _).inScope.bind fun c => (keeps_arms rest scopes).map _
termination_by structural arms

end

end Node

/-- **Lowering is well bracketed.** -/
theorem lower_bracketed (cx : Setup) (node : Node) (s : State) : match node.lower cx s with
    | .ok _ t => s.Kept t ∧ FramesGrow s.functions.frames t.functions.frames ∧
        (node.places s.scopes).find? (·.refused cx) = none
    | .error fault t => s.Kept t ∧ ∃ failing, (node.places s.scopes).find? (·.refused cx) = some failing ∧
        failing.Raises cx fault ∧ ∃ opened frames, t.functions.frames = opened ++ frames ∧
          opened.length = failing.around.length ∧ FramesGrow s.functions.frames frames := by
  have hkeeps := (node.keeps s.scopes : Lower.Keeps cx _ _ _) s rfl
  cases hlower : node.lower cx s with
  | ok code t =>
    rw [hlower] at hkeeps
    obtain ⟨hnone, hkept, hframes⟩ := hkeeps
    exact ⟨hkept, hframes, hnone⟩
  | error fault t =>
    rw [hlower] at hkeeps
    obtain ⟨failing, hfind, hraises, hkept, hopened⟩ := hkeeps
    exact ⟨hkept, failing, hfind, hraises, hopened⟩

end WasmBackend
