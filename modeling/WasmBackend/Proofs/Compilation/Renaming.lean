/-
What the output does not depend on: names, beyond the frames they resolve to;
spans; and recorded types, beyond whether the operands of a comparison are
words. Trees that differ in nothing else are alike (`Node.Alike`). Lowering
them side by side collects the same at every step, in scopes that may bear
different names (`Lower.Alike`), so that the same program is put together
(`compile_ignores_names`).
-/
import WasmBackend.Proofs.Assembly.Program

namespace WasmBackend

/-! ## Trees that are alike -/

/-- Whether both operands of a comparison are recorded as integers or booleans. -/
def TypeMap.bothWords (types : TypeMap) (left right : Span) : Bool :=
  (types.get? left).any (·.isWord) && (types.get? right).any (·.isWord)

/-- Patterns of the same shape, whatever the names that they bind. -/
inductive Pattern.Alike : Pattern → Pattern → Prop
  | wildcard {span span' : Span} : Alike (.wildcard span) (.wildcard span')
  | nil {span span' : Span} : Alike (.nil span) (.nil span')
  | ident {span span' : Span} {x x' : String} : Alike (.ident span x) (.ident span' x')
  | cons {span span' : Span} {head head' tail tail' : Pattern} : Alike head head' → Alike tail tail' →
      Alike (.cons span head tail) (.cons span' head' tail')

namespace Node

section

variable (relied : Bool) (types types' : TypeMap)

mutual

/-- Trees of the same shape with the same literals and operators, in which every name resolves to
the same number of frames outward. If types are relied on, what they say of the operands of a
comparison is the same. -/
inductive Alike : Scopes → Scopes → Node → Node → Prop
  | lit {scopes scopes' : Scopes} {span span' : Span} {value : Literal} :
      Alike scopes scopes' (.lit span value) (.lit span' value)
  | ident {scopes scopes' : Scopes} {span span' : Span} {x x' : String} :
      scopes.distance? x = scopes'.distance? x' → Alike scopes scopes' (.ident span x) (.ident span' x')
  | unary {scopes scopes' : Scopes} {span span' : Span} {o : UnaryOp} {e e' : Node} :
      Alike scopes scopes' e e' → Alike scopes scopes' (.unary span o e) (.unary span' o e')
  | binary {scopes scopes' : Scopes} {span span' : Span} {o : BinaryOp} {l l' r r' : Node} :
      (∀ c, o = .compare c → relied = true → types.bothWords l.span r.span = types'.bothWords l'.span r'.span) →
      Alike scopes scopes' l l' → Alike scopes scopes' r r' →
      Alike scopes scopes' (.binary span o l r) (.binary span' o l' r')
  | cond {scopes scopes' : Scopes} {span span' : Span} {test test' yes yes' no no' : Node} :
      Alike scopes scopes' test test' → Alike scopes scopes' yes yes' → Alike scopes scopes' no no' →
      Alike scopes scopes' (.cond span test yes no) (.cond span' test' yes' no')
  | letIn {scopes scopes' : Scopes} {span span' : Span} {x x' : String} {value value' body body' : Node} :
      Alike scopes scopes' value value' →
      Alike (scopes.pushAll [some x]) (scopes'.pushAll [some x']) body body' →
      Alike scopes scopes' (.letIn span x value body) (.letIn span' x' value' body')
  | letRec {scopes scopes' : Scopes} {span span' at_ at_' : Span} {x x' p p' : String}
      {inner inner' body body' : Node} :
      Alike (scopes.pushAll [some x, some p]) (scopes'.pushAll [some x', some p']) inner inner' →
      Alike (scopes.pushAll [some x]) (scopes'.pushAll [some x']) body body' →
      Alike scopes scopes' (.letRec span x (.lambda at_ p inner) body) (.letRec span' x' (.lambda at_' p' inner') body')
  /-- What is defined recursively is not a function, and is not compiled. -/
  | letRecOther {scopes scopes' : Scopes} {span span' : Span} {x x' : String} {value value' body body' : Node} :
      value.kind ≠ .lambda → value'.kind ≠ .lambda →
      Alike scopes scopes' (.letRec span x value body) (.letRec span' x' value' body')
  | lambda {scopes scopes' : Scopes} {span span' : Span} {p p' : String} {body body' : Node} :
      Alike (scopes.pushAll [none, some p]) (scopes'.pushAll [none, some p']) body body' →
      Alike scopes scopes' (.lambda span p body) (.lambda span' p' body')
  | app {scopes scopes' : Scopes} {span span' : Span} {fn fn' arg arg' : Node} :
      Alike scopes scopes' fn fn' → Alike scopes scopes' arg arg' →
      Alike scopes scopes' (.app span fn arg) (.app span' fn' arg')
  | cons {scopes scopes' : Scopes} {span span' : Span} {head head' tail tail' : Node} :
      Alike scopes scopes' head head' → Alike scopes scopes' tail tail' →
      Alike scopes scopes' (.cons span head tail) (.cons span' head' tail')
  | cases {scopes scopes' : Scopes} {span span' : Span} {e e' : Node} {arms arms' : List (Pattern × Node)} :
      Alike scopes scopes' e e' → AlikeArms scopes scopes' arms arms' →
      Alike scopes scopes' (.cases span e arms) (.cases span' e' arms')

inductive AlikeArms : Scopes → Scopes → List (Pattern × Node) → List (Pattern × Node) → Prop
  | nil {scopes scopes' : Scopes} : AlikeArms scopes scopes' [] []
  | cons {scopes scopes' : Scopes} {p p' : Pattern} {body body' : Node} {rest rest' : List (Pattern × Node)} :
      p.Alike p' →
      Alike (scopes.pushAll (p.bindings.map some)) (scopes'.pushAll (p'.bindings.map some)) body body' →
      AlikeArms scopes scopes' rest rest' → AlikeArms scopes scopes' ((p, body) :: rest) ((p', body') :: rest')

end

end

end Node

/-! ## Lowerings side by side -/

/-- From states that differ in their scopes only, two lowerings come to the same result and collect
the same, or both fail. -/
def Lower.Alike {α : Type} (scopes scopes' : Scopes) (x y : Lower α) : Prop :=
  ∀ s : State, s.scopes = scopes →
    (∃ a t, x s = .ok a t ∧ y (s.under scopes') = .ok a (t.under scopes') ∧ t.scopes = scopes) ∨
    ∃ e e' t t', x s = .error e t ∧ y (s.under scopes') = .error e' t'

namespace Lower

variable {α β : Type} {scopes scopes' : Scopes} {x y : Lower α}

theorem Alike.pure (a : α) : Alike scopes scopes' (Pure.pure a) (Pure.pure a) :=
  fun s hs => .inl ⟨a, s, rfl, rfl, hs⟩

theorem Alike.throw (e e' : Fault) : Alike scopes scopes' (throw e : Lower α) (throw e') :=
  fun _ _ => .inr ⟨e, e', _, _, rfl, rfl⟩

theorem Alike.bind {f g : α → Lower β} (hx : Alike scopes scopes' x y) (hf : ∀ a, Alike scopes scopes' (f a) (g a)) :
    Alike scopes scopes' (x >>= f) (y >>= g) := by
  intro s hs
  rw [bind_apply, bind_apply]
  rcases hx s hs with ⟨a, t, ha, hb, ht⟩ | ⟨e, e', t, t', ha, hb⟩
  · rw [ha, hb]
    exact hf a t ht
  · rw [ha, hb]
    exact .inr ⟨e, e', t, t', rfl, rfl⟩

/-- A step that does not look at the scopes. -/
theorem Alike.step {f : State → α × State} (hf : ∀ s scopes, f (s.under scopes) = ((f s).1, (f s).2.under scopes)) :
    Alike scopes scopes' (modifyGet f) (modifyGet f) := by
  intro s hs
  have hkept : (f s).2.scopes = s.scopes := congrArg (·.2.scopes) (hf s s.scopes)
  refine .inl ⟨(f s).1, (f s).2, rfl, ?_, hkept.trans hs⟩
  show EStateM.Result.ok (f (s.under scopes')).1 (f (s.under scopes')).2 = _
  rw [hf s scopes']

theorem Alike.use (f : Feature) : Alike scopes scopes' (use f) (use f) := .step fun _ _ => rfl

theorem Alike.declare (name : String) : Alike scopes scopes' (declare name) (declare name) := .step fun _ _ => rfl

theorem inScope_under (frames : List (Option String)) (x : Lower α) (s : State) (scopes : Scopes) :
    inScope frames x (s.under scopes) = match x (s.under (scopes.pushAll frames)) with
    | .ok a t => .ok a (t.under (t.scopes.restore scopes.depth))
    | .error e t => .error e (t.under (t.scopes.restore scopes.depth)) := rfl

/-- Frames that are in scope only for a while. -/
theorem Alike.inScope {frames frames' : List (Option String)}
    (h : Alike (scopes.pushAll frames) (scopes'.pushAll frames') x y) :
    Alike scopes scopes' (inScope frames x) (inScope frames' y) := by
  intro s hs
  subst hs
  rw [inScope_apply, inScope_under]
  rcases h (s.under (s.scopes.pushAll frames)) rfl with ⟨a, t, ha, hb, ht⟩ | ⟨e, e', t, t', ha, hb⟩
  · have hunder : t.under (t.scopes.restore s.scopes.depth) = t.under s.scopes := by
      rw [ht, Scopes.restore_pushAll]
    have hunder' : t.under ((scopes'.pushAll frames').restore scopes'.depth) = t.under scopes' := by
      rw [Scopes.restore_pushAll]
    rw [ha, show y (s.under (scopes'.pushAll frames')) = .ok a (t.under (scopes'.pushAll frames')) from hb]
    exact .inl ⟨a, t.under s.scopes, congrArg _ hunder, congrArg _ hunder', rfl⟩
  · rw [ha, show y (s.under (scopes'.pushAll frames')) = .error e' t' from hb]
    exact .inr ⟨e, e', _, _, rfl, rfl⟩

theorem Alike.reference {name name' : String} (h : scopes.distance? name = scopes'.distance? name') (span span' : Span) :
    Alike scopes scopes' (reference span name) (reference span' name') := by
  intro s hs
  subst hs
  have hdistance : (s.under scopes').scopes.distance? name' = s.scopes.distance? name := h.symm
  rw [reference_apply, reference_apply, hdistance]
  cases s.scopes.distance? name with
  | none => exact Alike.throw _ _ s rfl
  | some distance => exact ((Alike.use .environment).bind fun _ => .pure _) s rfl

theorem Alike.function {name name' : Option String} {param param' : String} {body body' : Lower Code}
    (h : Alike (scopes.pushAll [name, some param]) (scopes'.pushAll [name', some param']) body body') :
    Alike scopes scopes' (function name param body) (function name' param' body') := by
  have henter : Alike (scopes.pushAll [name, some param]) (scopes'.pushAll [name', some param'])
      enterFunction enterFunction := .step fun _ _ => rfl
  refine (Alike.use .closure).bind fun _ => (henter.bind fun _ => h).inScope.bind fun code => ?_
  exact Alike.bind (.step fun _ _ => rfl) fun _ => .pure _

theorem Alike.withBinding {name name' : String} {value : Code} {body body' : Lower Code}
    (h : Alike (scopes.pushAll [some name]) (scopes'.pushAll [some name']) body body') :
    Alike scopes scopes' (withBinding name value body) (withBinding name' value body') :=
  (Alike.use .environment).bind fun _ => h.inScope.bind fun _ => .pure _

theorem Alike.matchSite : Alike scopes scopes' matchSite matchSite :=
  Alike.bind (.step fun _ _ => rfl) fun _ => (Alike.declare _).bind fun _ => (Alike.declare _).bind fun _ =>
    (Alike.declare _).bind fun _ => .pure _

theorem Alike.literal (value : Literal) : Alike scopes scopes' (literal value) (literal value) := by
  cases value with
  | int | bool => exact .pure _
  | nil | float => exact (Alike.use _).bind fun _ => .pure _

theorem Alike.route {cx cx' : Setup} (h : cx.routes = cx'.routes) (kind : NodeKind) (span span' : Span) :
    Alike scopes scopes' (route cx kind span) (route cx' kind span') := by
  unfold Lower.route
  rw [h]
  cases cx'.routes.target? kind with
  | none => exact .throw _ _
  | some target =>
    simp only
    split
    · exact .pure _
    · exact .throw _ _

end Lower

open Lower

theorem Setup.areWords_eq (cx : Setup) (left right : Span) : cx.areWords left right =
    (cx.settings.dispatchUsingInferredType && cx.types.bothWords left right) := by
  unfold Setup.areWords Setup.typeOf? TypeMap.bothWords
  cases cx.settings.dispatchUsingInferredType <;> simp

theorem Pattern.Alike.lower {p p' : Pattern} (h : p.Alike p') {scopes scopes' : Scopes} :
    Lower.Alike scopes scopes' p.lower p'.lower := by
  have henter : Lower.Alike scopes scopes' enterMatcher enterMatcher := .step fun _ _ => rfl
  have hleave (code : Code) : Lower.Alike scopes scopes' (leaveMatcher code) (leaveMatcher code) := .step fun _ _ => rfl
  induction h with
  | wildcard | nil | ident => exact (Alike.use .matcher).bind fun _ => henter.bind fun _ => hleave _
  | cons _ _ ihead itail =>
    refine (Alike.use .matcher).bind fun _ => henter.bind fun _ => ihead.bind fun _ => itail.bind fun _ => ?_
    exact Lower.Alike.bind (.step fun _ _ => rfl) fun _ => hleave _

namespace Node

variable {cx cx' : Setup}

theorem lower_letRec_other {value : Node} (h : value.kind ≠ .lambda) (span : Span) (name : String) (body : Node) :
    (Node.letRec span name value body).lower cx = (do
      route cx .letRec span
      reject (.unsupported ⟨NodeKind.letRec.name, value.span⟩ "only functions can be defined recursively")) := by
  cases value with
  | lambda => exact absurd rfl h
  | _ => simp only [lower]

mutual

/-- **Trees that are alike are lowered to the same code**, and the same is collected on the way. -/
theorem Alike.lower (hroutes : cx.routes = cx'.routes) (hsettings : cx.settings = cx'.settings) :
    ∀ {scopes scopes' : Scopes} {node node' : Node},
      Alike cx.settings.dispatchUsingInferredType cx.types cx'.types scopes scopes' node node' →
      Lower.Alike scopes scopes' (node.lower cx) (node'.lower cx')
  | _, _, _, _, .lit => by
    simp only [Node.lower]
    exact (Alike.route hroutes _ _ _).bind fun _ => .literal _
  | _, _, _, _, .ident h => by
    simp only [Node.lower]
    exact (Alike.route hroutes _ _ _).bind fun _ => .reference h _ _
  | _, _, _, _, @Node.Alike.unary _ _ _ _ _ _ _ o _ _ he => by
    have ih := Alike.lower hroutes hsettings he
    cases o with
    | neg =>
      simp only [Node.lower]
      exact (Alike.route hroutes _ _ _).bind fun _ => ih.bind fun _ => .pure _
    | floatNeg =>
      simp only [Node.lower]
      exact (Alike.route hroutes _ _ _).bind fun _ => (Alike.use _).bind fun _ => ih.bind fun _ => .pure _
  | _, _, _, _, @Node.Alike.binary _ _ _ _ _ _ _ o l l' r r' hwords hl hr => by
    have ihl := Alike.lower hroutes hsettings hl
    have ihr := Alike.lower hroutes hsettings hr
    cases o with
    | int | and | or =>
      simp only [Node.lower]
      exact (Alike.route hroutes _ _ _).bind fun _ => ihl.bind fun _ => ihr.bind fun _ => .pure _
    | float =>
      simp only [Node.lower]
      exact (Alike.route hroutes _ _ _).bind fun _ => (Alike.use _).bind fun _ => ihl.bind fun _ =>
        ihr.bind fun _ => .pure _
    | compare c =>
      have hsame : cx.areWords l.span r.span = cx'.areWords l'.span r'.span := by
        rw [Setup.areWords_eq, Setup.areWords_eq, ← hsettings]
        cases hrelied : cx.settings.dispatchUsingInferredType with
        | false => rfl
        | true => rw [hwords c rfl hrelied]
      simp only [Node.lower, hsame]
      refine (Alike.route hroutes _ _ _).bind fun _ => ihl.bind fun _ => ihr.bind fun _ => ?_
      split
      · exact .pure _
      · exact Lower.Alike.bind (.step fun _ _ => rfl) fun _ => .pure _
  | _, _, _, _, .cond ht hy hn => by
    have iht := Alike.lower hroutes hsettings ht
    have ihy := Alike.lower hroutes hsettings hy
    have ihn := Alike.lower hroutes hsettings hn
    simp only [Node.lower]
    exact (Alike.route hroutes _ _ _).bind fun _ => iht.bind fun _ => ihy.bind fun _ => ihn.bind fun _ => .pure _
  | _, _, _, _, .letIn hv hb => by
    have ihv := Alike.lower hroutes hsettings hv
    have ihb := Alike.lower hroutes hsettings hb
    simp only [Node.lower]
    exact (Alike.route hroutes _ _ _).bind fun _ => ihv.bind fun _ => .withBinding ihb
  | _, _, _, _, .letRec hi hb => by
    have ihi := Alike.lower hroutes hsettings hi
    have ihb := Alike.lower hroutes hsettings hb
    simp only [Node.lower]
    exact (Alike.route hroutes _ _ _).bind fun _ => (Lower.Alike.function ihi).bind fun _ => .withBinding ihb
  | _, _, _, _, .letRecOther hv hv' => by
    rw [lower_letRec_other hv, lower_letRec_other hv']
    exact (Alike.route hroutes _ _ _).bind fun _ => .throw _ _
  | _, _, _, _, .lambda hb => by
    have ihb := Alike.lower hroutes hsettings hb
    simp only [Node.lower]
    exact (Alike.route hroutes _ _ _).bind fun _ => .function ihb
  | _, _, _, _, .app hf ha => by
    have ihf := Alike.lower hroutes hsettings hf
    have iha := Alike.lower hroutes hsettings ha
    simp only [Node.lower]
    exact (Alike.route hroutes _ _ _).bind fun _ => (Alike.use _).bind fun _ => (Alike.declare _).bind fun _ =>
      (Alike.declare _).bind fun _ => iha.bind fun _ => ihf.bind fun _ => .pure _
  | _, _, _, _, .cons hh ht => by
    have ihh := Alike.lower hroutes hsettings hh
    have iht := Alike.lower hroutes hsettings ht
    simp only [Node.lower]
    exact (Alike.route hroutes _ _ _).bind fun _ => (Alike.use _).bind fun _ => iht.bind fun _ =>
      ihh.bind fun _ => .pure _
  | _, _, _, _, .cases he ha => by
    have ihe := Alike.lower hroutes hsettings he
    have iha := AlikeArms.lower hroutes hsettings ha
    simp only [Node.lower]
    exact (Alike.route hroutes _ _ _).bind fun _ => (Alike.use _).bind fun _ => Alike.matchSite.bind fun _ =>
      ihe.bind fun _ => iha.bind fun _ => .pure _
termination_by structural _ _ _ _ h => h

theorem AlikeArms.lower (hroutes : cx.routes = cx'.routes) (hsettings : cx.settings = cx'.settings) :
    ∀ {scopes scopes' : Scopes} {arms arms' : List (Pattern × Node)},
      AlikeArms cx.settings.dispatchUsingInferredType cx.types cx'.types scopes scopes' arms arms' →
      Lower.Alike scopes scopes' (lowerArms cx arms) (lowerArms cx' arms')
  | _, _, _, _, .nil => by
    simp only [lowerArms]
    exact .pure _
  | _, _, _, _, .cons hp hb hr => by
    have ihb := Alike.lower hroutes hsettings hb
    have ihr := AlikeArms.lower hroutes hsettings hr
    simp only [lowerArms]
    exact hp.lower.bind fun _ => ihb.inScope.bind fun _ => ihr.bind fun _ => .pure _
termination_by structural _ _ _ _ h => h

end

end Node

section

variable {cx cx' : Setup} {tree tree' : Node}

/-- After lowering, only the settings are looked at. -/
theorem Setup.compile_congr (hsettings : cx.settings = cx'.settings) {code : Code} {s : State}
    (h : tree.lower cx .initial = .ok code s) (h' : tree'.lower cx' .initial = .ok code s) :
    cx.compile tree = cx'.compile tree' := by
  obtain ⟨settings, types, routes⟩ := cx
  obtain ⟨settings', types', routes'⟩ := cx'
  cases hsettings
  unfold Setup.compile
  rw [h, h']
  rfl

theorem Setup.compile_of_lower_error {e : Fault} {s : State} (h : tree.lower cx .initial = .error e s) :
    ∃ e, cx.compile tree = .error e := by
  unfold Setup.compile
  cases cx.settings.validate with
  | error e => exact ⟨_, rfl⟩
  | ok => exact ⟨e, by rw [h]⟩

end

/-- **Names, spans and other types do not show in the output.** Trees that are alike are both
compiled to the same module, and so to the same text, and to the same bytes, or both rejected. -/
theorem compile_ignores_names (settings : Settings) {types types' : TypeMap} {tree tree' : Node}
    (h : Node.Alike settings.dispatchUsingInferredType types types' .empty .empty tree tree') :
    (∃ c, compile settings types tree = .ok c ∧ compile settings types' tree' = .ok c) ∨
      ∃ e e', compile settings types tree = .error e ∧ compile settings types' tree' = .error e' := by
  let cx : Setup := ⟨settings, types, .direct⟩
  let cx' : Setup := ⟨settings, types', .direct⟩
  have hroutes : cx.routes = cx'.routes := rfl
  have hsettings : cx.settings = cx'.settings := rfl
  rcases h.lower hroutes hsettings .initial rfl with ⟨code, s, hlower, hlower', hs⟩ | ⟨e, e', s, s', hlower, hlower'⟩
  · have hsame : s.under .empty = s := by
      rw [← hs]
      rfl
    have hcompile : compile settings types tree = compile settings types' tree' :=
      Setup.compile_congr hsettings hlower (hsame ▸ hlower')
    rw [hcompile]
    cases compile settings types' tree' with
    | ok c => exact .inl ⟨c, rfl, rfl⟩
    | error e => exact .inr ⟨e, e, rfl, rfl⟩
  · obtain ⟨f, hf⟩ := Setup.compile_of_lower_error hlower
    obtain ⟨f', hf'⟩ := Setup.compile_of_lower_error hlower'
    exact .inr ⟨f, f', hf, hf'⟩

/-- Whether a list of one item is shorter than two, by way of a function that counts. -/
def Node.shorter (here : Span) (count list rest : String) : Node :=
  .letRec here count
    (.lambda here list (.cases here (.ident here list) [
      (.nil here, .lit here (.int 0)),
      (.cons here (.wildcard here) (.ident here rest),
        .binary here (.int .add) (.lit here (.int 1)) (.app here (.ident here count) (.ident here rest)))]))
    (.binary here (.compare .lt) (.app here (.ident here count) (.cons here (.lit here .nil) (.lit here .nil)))
      (.lit here (.int 2)))

/-- With types relied on: names that are shadowed in one tree and not in the other, other spans, and
other types of words. -/
theorem compile_ignores_names_shorter :
    let settings := { Settings.default with dispatchUsingInferredType := true, enableNameSection := true }
    let here : Span := .point ⟨"", Source.defaultPath⟩ 0
    let there : Span := ⟨⟨"let rec", "length.ml"⟩, 4, 3⟩
    let tree := Node.shorter here "length" "xs" "xs"
    let tree' := Node.shorter there "n" "items" "others"
    Node.Alike true ⟨[(here, .int)]⟩ ⟨[(there, .bool)]⟩ .empty .empty tree tree' ∧
      ∃ c, compile settings ⟨[(here, .int)]⟩ tree = .ok c ∧ compile settings ⟨[(there, .bool)]⟩ tree' = .ok c := by
  intro settings here there tree tree'
  have halike : Node.Alike true ⟨[(here, .int)]⟩ ⟨[(there, .bool)]⟩ .empty .empty tree tree' := by
    refine .letRec (.cases (.ident rfl) (.cons .nil .lit (.cons (.cons .wildcard .ident) ?_ .nil))) ?_
    · exact .binary nofun .lit (.app (.ident rfl) (.ident rfl))
    · exact .binary (fun _ _ _ => by decide) (.app (.ident rfl) (.cons .lit .lit)) .lit
  have hbound : tree.WellFormed [] := by
    simp [tree, Node.shorter, Node.WellFormed, Node.WellFormedArms, Pattern.bindings]
  let cx : Setup := ⟨settings, ⟨[(here, .int)]⟩, .direct⟩
  have hroutes : cx.routes = .direct := rfl
  obtain ⟨_, _, _, hcompile, -⟩ := Setup.compile_succeeds hroutes rfl hbound (by decide)
  refine ⟨halike, (compile_ignores_names settings halike).resolve_right ?_⟩
  rintro ⟨e, e', he, -⟩
  cases hcompile.symm.trans he

end WasmBackend
