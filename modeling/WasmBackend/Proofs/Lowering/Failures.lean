/-
**The first node that is not accepted decides how a lowering fails**
(`lower_fails_at_first`), whatever kinds of nodes have no lowering and
whatever is in scope around the tree. Nodes count in the order in which they
are lowered (`Node.places`), which is not that of the source: an argument
comes before its function and a tail before its head, and the function of a
recursive definition is no node of its own there.

What is wrong with a node is read off the node and the frames in scope at it
(`Place.offence?`); no lowering is run for that.
-/
import WasmBackend.Proofs.Lowering.Brackets

namespace WasmBackend

/-- Gives nodes of some kinds to no lowering. -/
def Routes.withoutAll (r : Routes) (kinds : List NodeKind) : Routes := kinds.foldl without r

theorem Routes.target?_withoutAll (r : Routes) (kinds : List NodeKind) (kind : NodeKind) :
    (r.withoutAll kinds).target? kind = if kind ∈ kinds then none else r.target? kind := by
  induction kinds generalizing r with
  | nil => simp [withoutAll]
  | cons k ks ih =>
    have hstep : (r.withoutAll (k :: ks)).target? kind =
        if kind ∈ ks then none else (r.without k).target? kind := ih (r.without k)
    by_cases hk : kind = k
    · subst hk
      simp [hstep, without]
    · simp [hstep, without, hk]

theorem Routes.target?_of_eq {r : Routes} {removed : List NodeKind} (h : r = direct.withoutAll removed)
    (kind : NodeKind) : r.target? kind = if kind ∈ removed then none else some kind := by
  rw [h, target?_withoutAll]
  rfl

/-- A node whose kind has its own lowering. -/
theorem Lower.route_bind {α : Type} {cx : Setup} {kind : NodeKind} (h : cx.routes.target? kind = some kind)
    (span : Span) (act : Lower α) : (do Lower.route cx kind span; act) = act := by
  simp [Lower.route, h]

/-- Whatever a node is lowered to, it is first looked up whether its kind has a lowering. -/
theorem Node.lower_routed (cx : Setup) (node : Node) :
    ∃ act : Lower Code, node.lower cx = (do Lower.route cx node.kind node.span; act) := by
  cases node with
  | unary span o operand => cases o <;> exact ⟨_, rfl⟩
  | binary span o left right => cases o <;> exact ⟨_, rfl⟩
  | letRec span name value body => cases value <;> exact ⟨_, rfl⟩
  | _ => exact ⟨_, rfl⟩

theorem Node.lower_letRec_of_ne_lambda {cx : Setup} (h : cx.routes.target? .letRec = some .letRec) {value : Node}
    (hvalue : value.kind ≠ .lambda) (span : Span) (name : String) (body : Node) :
    (Node.letRec span name value body).lower cx = Lower.reject
      (.unsupported ⟨NodeKind.letRec.name, value.span⟩ "only functions can be defined recursively") := by
  cases value with
  | lambda => exact absurd rfl hvalue
  | _ => exact Lower.route_bind h span _

namespace Place

/-- The error for a node that is not accepted when some kinds of nodes have no lowering: its kind is
one of them, it is a name that no frame around it has, or it defines something else than a function
recursively. -/
def offence? (removed : List NodeKind) (p : Place) : Option CompileError :=
  if p.node.kind ∈ removed then
    some (.unsupported ⟨p.node.kind.name, p.node.span⟩ "this construct is not supported by the back end")
  else
    match p.node with
    | .ident span name => if some name ∈ p.scopes.frames then none else some (.unbound ⟨name, span⟩)
    | .letRec _ _ value _ =>
      if value.kind = .lambda then none
      else some (.unsupported ⟨NodeKind.letRec.name, value.span⟩ "only functions can be defined recursively")
    | _ => none

variable {cx : Setup} {removed : List NodeKind} {p : Place}

/-- Exactly the nodes that are not accepted are refused. -/
theorem refused_eq (hcx : cx.routes = Routes.direct.withoutAll removed) (p : Place) :
    p.refused cx = (p.offence? removed).isSome := by
  have htarget := Routes.target?_of_eq hcx p.node.kind
  by_cases hkind : p.node.kind ∈ removed
  · rw [if_pos hkind] at htarget
    simp [refused, offence?, htarget, hkind]
  · rw [if_neg hkind] at htarget
    have hown : p.refused cx = p.node.refuses p.scopes := by simp [refused, htarget]
    rw [hown, offence?, if_neg hkind]
    obtain ⟨node, scopes, around⟩ := p
    cases node with
    | ident span name =>
      by_cases hname : some name ∈ scopes.frames
      · have hbound : scopes.distance? name ≠ none := fun h => Scopes.distance?_eq_none.1 h hname
        simpa [Node.refuses, hname, Option.isSome_iff_ne_none] using hbound
      · simp [Node.refuses, hname, Scopes.distance?_eq_none.2 hname]
    | letRec span name value body => by_cases hvalue : value.kind = .lambda <;> simp [Node.refuses, hvalue]
    | _ => rfl

/-- A node that is not accepted stops its lowering with the error for it. -/
theorem eq_of_raises (hcx : cx.routes = Routes.direct.withoutAll removed) {fault : Fault} {e : CompileError}
    (hraises : p.Raises cx fault) (he : p.offence? removed = some e) : fault = .rejected e := by
  obtain ⟨node, scopes, around⟩ := p
  obtain ⟨r, hr, hlower⟩ := hraises
  have htarget := Routes.target?_of_eq hcx node.kind
  by_cases hkind : node.kind ∈ removed
  · obtain ⟨act, hact⟩ := node.lower_routed cx
    rw [if_pos hkind] at htarget
    rw [hact, Lower.bind_apply, Lower.route, htarget] at hlower
    simp only [offence?, if_pos hkind, Option.some.injEq] at he
    cases hlower
    exact congrArg Fault.rejected he
  · rw [if_neg hkind] at htarget
    cases node with
    | ident span name =>
      have hown : (Node.ident span name).lower cx = Lower.reference span name := Lower.route_bind htarget span _
      by_cases hname : some name ∈ scopes.frames
      · simp [offence?, hkind, hname] at he
      · simp only [offence?, if_neg hkind, if_neg hname, Option.some.injEq] at he
        rw [hown, Lower.reference_eq hr, Scopes.distance?_eq_none.2 hname] at hlower
        cases hlower
        exact congrArg Fault.rejected he
    | letRec span name value body =>
      by_cases hvalue : value.kind = .lambda
      · simp [offence?, hkind, hvalue] at he
      · simp only [offence?, if_neg hkind, if_neg hvalue, Option.some.injEq] at he
        rw [Node.lower_letRec_of_ne_lambda htarget hvalue] at hlower
        cases hlower
        exact congrArg Fault.rejected he
    | _ => simp [offence?, hkind] at he

end Place

/-- **The first node that is not accepted decides**: a lowering fails if and only if some node is not
accepted, and then with the error for the first one, in the order in which nodes are lowered. -/
theorem lower_fails_at_first (settings : Settings) (types : TypeMap) (removed : List NodeKind) (node : Node)
    (s : State) :
    let cx : Setup := ⟨settings, types, Routes.direct.withoutAll removed⟩
    ((∃ fault t, node.lower cx s = .error fault t) ↔
      ∃ p ∈ node.places s.scopes, ∃ e, p.offence? removed = some e) ∧
    ∀ fault t, node.lower cx s = .error fault t →
      ∃ before p after e, node.places s.scopes = before ++ p :: after ∧
        (∀ q ∈ before, q.offence? removed = none) ∧ p.offence? removed = some e ∧ fault = .rejected e := by
  intro cx
  have hcx : cx.routes = Routes.direct.withoutAll removed := rfl
  have hkeeps := (node.keeps s.scopes : Lower.Keeps cx _ _ _) s rfl
  cases hlower : node.lower cx s with
  | ok code t =>
    rw [hlower] at hkeeps
    have haccepted := List.find?_eq_none.1 hkeeps.1
    constructor
    · constructor
      · rintro ⟨fault, u, h⟩
        cases h
      · rintro ⟨p, hp, e, he⟩
        have hrefused : p.refused cx = true := by rw [Place.refused_eq hcx, he, Option.isSome_some]
        exact absurd hrefused (haccepted p hp)
    · intro fault u h
      cases h
  | error fault t =>
    rw [hlower] at hkeeps
    obtain ⟨p, hfind, hraises, -⟩ := hkeeps
    obtain ⟨hrefused, before, after, hplaces, hbefore⟩ := List.find?_eq_some_iff_append.1 hfind
    rw [Place.refused_eq hcx, Option.isSome_iff_exists] at hrefused
    obtain ⟨e, he⟩ := hrefused
    have hmem : p ∈ node.places s.scopes := by simp [hplaces]
    refine ⟨⟨fun _ => ⟨p, hmem, e, he⟩, fun _ => ⟨fault, t, rfl⟩⟩, ?_⟩
    intro fault' u h
    cases h
    refine ⟨before, p, after, e, hplaces, fun q hq => ?_, he, Place.eq_of_raises hcx hraises he⟩
    have haccepted := hbefore q hq
    rw [Place.refused_eq hcx] at haccepted
    simpa using haccepted

/-- `f (1 :: x)`, with a span of its own for every node. -/
def Node.applyToCell : Node :=
  let spot (i : Nat) : Span := .point ⟨"f (1 :: x)", Source.defaultPath⟩ i
  .app (spot 1) (.ident (spot 0) "f") (.cons (spot 5) (.lit (spot 3) (.int 1)) (.ident (spot 8) "x"))

/-- Neither name is bound and cells have no lowering: of the three, the cell is met first. -/
theorem lower_fails_at_first_cell :
    ∃ t, Node.applyToCell.lower ⟨.default, .empty, Routes.direct.withoutAll [.cons]⟩ .initial =
      .error (.rejected (.unsupported ⟨"Cons", .point ⟨"f (1 :: x)", Source.defaultPath⟩ 5⟩
        "this construct is not supported by the back end")) t := by
  obtain ⟨hiff, hfirst⟩ := lower_fails_at_first .default .empty [.cons] .applyToCell .initial
  obtain ⟨fault, t, hlower⟩ := hiff.2 ⟨_, .tail _ (.head _), _, rfl⟩
  obtain ⟨before, p, after, e, hplaces, hbefore, he, rfl⟩ := hfirst fault t hlower
  rcases before with _ | ⟨_, _ | ⟨q, before⟩⟩
  · cases hplaces
    cases he
  · cases hplaces
    cases he
    exact ⟨t, hlower⟩
  · injection hplaces with _ hrest
    injection hrest with hcell _
    subst hcell
    cases hbefore _ (.tail _ (.head _))

end WasmBackend
