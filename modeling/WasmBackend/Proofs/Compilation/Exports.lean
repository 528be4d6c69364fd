/-
Under which names a compiled module gives something out
(`compile_exports`): the memory, if the tree needs the heap, and the entry
point, under the name that is set. Nothing compares the two, so they are the
same if the entry point is to be called like the memory (`exports_clash`).

Whether a tree needs the heap is read off the tree (`Node.usesHeap`): all of
the library but the comparator builds on the allocator, so it is enough that
one feature is asked for, anywhere.
-/
import WasmBackend.Proofs.Binary.Faithful
import WasmBackend.Proofs.Compilation.Acceptance

namespace WasmBackend

open Library

/-- The names under which a module gives something out, in order. -/
def Module.exportNames (m : Module) : List String := (m.fields.filterMap Field.export?).map (·.1)

/-! ## Trees that need the heap -/

def Literal.usesHeap : Literal → Bool
  | .int _ => false
  | .bool _ => false
  | .float _ => true
  | .nil => true

/-- Integers and booleans, and what is computed from them without names, need no heap. -/
def Node.usesHeap : Node → Bool
  | .lit _ value => value.usesHeap
  | .unary _ .neg operand => operand.usesHeap
  | .unary _ .floatNeg _ => true
  | .binary _ (.float _) _ _ => true
  | .binary _ _ left right => left.usesHeap || right.usesHeap
  | .cond _ test yes no => test.usesHeap || yes.usesHeap || no.usesHeap
  | .ident _ _ => true
  | .letIn _ _ _ _ => true
  | .letRec _ _ _ _ => true
  | .lambda _ _ _ => true
  | .app _ _ _ => true
  | .cons _ _ _ => true
  | .cases _ _ _ => true
termination_by structural node => node

/-! ## Requests for the heap -/

namespace Lower

variable {α β : Type} {x : Lower α} {heap later : Bool}

/-- After an act the heap is requested if it was before, or if the act requests it. -/
def Asks (x : Lower α) (heap : Bool) : Prop :=
  ∀ s a t, x s = .ok a t → (.allocator ∈ t.features ↔ .allocator ∈ s.features ∨ heap = true)

theorem Asks.pure (a : α) : Asks (Pure.pure a) false := by
  intro s a t h
  obtain ⟨-, rfl⟩ := pure_eq_ok.1 h
  simp

theorem Asks.reject (e : CompileError) : Asks (Lower.reject e : Lower α) heap := by
  intro s a t h
  cases h

theorem Asks.bind {f : α → Lower β} (hx : Asks x heap) (hf : ∀ a, Asks (f a) later) :
    Asks (x >>= f) (heap || later) := by
  intro s b u h
  obtain ⟨a, t, hxs, hfa⟩ := bind_eq_ok.1 h
  rw [hf a t b u hfa, hx s a t hxs, Bool.or_eq_true, or_assoc]

/-- An act that does not touch the features. -/
theorem Asks.still (x : Lower α)
    (h : ∀ s, ∃ a t, x s = .ok a t ∧ t.features = s.features := by exact fun _ => ⟨_, _, rfl, rfl⟩) : Asks x false := by
  intro s a t hx
  obtain ⟨a', t', hx', hfeatures⟩ := h s
  rw [hx] at hx'
  cases hx'
  simp [hfeatures]

theorem Asks.use (f : Feature) : Asks (Lower.use f) true := by
  intro s a t h
  cases h
  have hneeds : .allocator ∈ f.needs := by cases f <;> decide
  by_cases hs : .allocator ∈ s.features <;> simp [State.use, hs, hneeds]

theorem Asks.inScope (hx : Asks x heap) (frames : List (Option String)) : Asks (Lower.inScope frames x) heap := by
  intro s a u h
  rw [inScope_apply] at h
  cases hxs : x (s.under (s.scopes.pushAll frames)) with
  | error e t => simp [hxs] at h
  | ok b t =>
    rw [hxs] at h
    cases h
    exact hx (s.under (s.scopes.pushAll frames)) a t hxs

theorem Asks.literal (value : Literal) : Asks (Lower.literal value) value.usesHeap := by
  cases value with
  | int n => exact .pure _
  | bool b => exact .pure _
  | nil => exact (Asks.use .list).bind fun _ => .pure _
  | float x => exact (Asks.use .float).bind fun _ => .pure _

theorem Asks.reference (span : Span) (name : String) : Asks (Lower.reference span name) true := by
  intro s code t h
  obtain ⟨s', t', hget, h⟩ := bind_eq_ok.1 h
  cases hget
  cases hdistance : s.scopes.distance? name with
  | none =>
    rw [hdistance] at h
    cases h
  | some distance =>
    rw [hdistance] at h
    exact ((Asks.use .environment).bind fun _ => Asks.pure (Emit.lookup distance)) s code t h

theorem Asks.function {body : Lower Code} (hbody : Asks body heap) (name : Option String) (param : String) :
    Asks (Lower.function name param body) true :=
  (Asks.use .closure).bind fun _ => (((Asks.still enterFunction).bind fun _ => hbody).inScope _).bind fun code =>
    (Asks.still (leaveFunction code)).bind fun _ => .pure _

theorem Asks.withBinding {body : Lower Code} (hbody : Asks body heap) (name : String) (value : Code) :
    Asks (Lower.withBinding name value body) true :=
  (Asks.use .environment).bind fun _ => (hbody.inScope _).bind fun _ => .pure _

/-- Every pattern asks for the matching primitives, which need lists and environments. -/
theorem Asks.pattern (p : Pattern) : Asks p.lower true := by
  induction p with
  | wildcard _ | nil _ | ident _ _ =>
    exact (Asks.use .matcher).bind fun _ => (Asks.still enterMatcher).bind fun _ => .still (leaveMatcher _)
  | cons _ head tail ihhead ihtail =>
    exact (Asks.use .matcher).bind fun _ => (Asks.still enterMatcher).bind fun _ => ihhead.bind fun _ =>
      ihtail.bind fun _ => (Asks.still (declareInMatcher _)).bind fun _ => .still (leaveMatcher _)

end Lower

namespace Node

open Lower

variable {cx : Setup}

mutual

/-- A tree asks for the heap if it needs it. -/
theorem asks_lower (hcx : cx.routes = .direct) (node : Node) : Asks (node.lower cx) node.usesHeap := by
  cases node with
  | lit span value =>
    simp only [lower, route_direct hcx, pure_bind]
    exact .literal value
  | ident span name =>
    simp only [lower, route_direct hcx, pure_bind]
    exact .reference span name
  | unary span o operand =>
    have ih := asks_lower hcx operand
    cases o with
    | neg =>
      simp only [lower, route_direct hcx, pure_bind]
      simpa [usesHeap] using ih.bind fun e => Asks.pure (Emit.neg e)
    | floatNeg =>
      simp only [lower, route_direct hcx, pure_bind]
      exact (Asks.use .float).bind fun _ => ih.bind fun e => .pure (Emit.floatNeg e)
  | binary span o left right =>
    have hparts (emit : Code → Code → Code) : Asks (do
        let l ← left.lower cx
        let r ← right.lower cx
        return emit l r) (left.usesHeap || right.usesHeap) := by
      simpa using (asks_lower hcx left).bind fun l => (asks_lower hcx right).bind fun r => Asks.pure (emit l r)
    cases o with
    | int o =>
      simp only [lower, route_direct hcx, pure_bind]
      exact hparts (Emit.intOp o)
    | float o =>
      simp only [lower, route_direct hcx, pure_bind]
      exact (Asks.use .float).bind fun _ => hparts (Emit.floatOp o)
    | and =>
      simp only [lower, route_direct hcx, pure_bind]
      exact hparts Emit.and
    | or =>
      simp only [lower, route_direct hcx, pure_bind]
      exact hparts Emit.or
    | compare c =>
      simp only [lower, route_direct hcx, pure_bind]
      split
      · exact hparts (Emit.compareWords c)
      · -- the comparator itself needs no heap
        have hcompare (l r : Code) : Asks (do Lower.useComparison c; return Emit.compareAny c l r) false :=
          (Asks.still (useComparison c)).bind fun _ => .pure _
        simpa [usesHeap] using
          (asks_lower hcx left).bind fun l => (asks_lower hcx right).bind fun r => hcompare l r
  | cond span test yes no =>
    simp only [lower, route_direct hcx, pure_bind]
    simpa [usesHeap, Bool.or_assoc] using (asks_lower hcx test).bind fun t => (asks_lower hcx yes).bind fun y =>
      (asks_lower hcx no).bind fun n => Asks.pure (Emit.cond t y n)
  | letIn span name value body =>
    simp only [lower, route_direct hcx, pure_bind]
    simpa [usesHeap] using (asks_lower hcx value).bind fun v => (asks_lower hcx body).withBinding name v
  | letRec span name value body =>
    cases value with
    | lambda _ param inner =>
      simp only [lower, route_direct hcx, pure_bind]
      exact ((asks_lower hcx inner).function (some name) param).bind fun v => (asks_lower hcx body).withBinding name v
    | _ =>
      simp only [lower, route_direct hcx, pure_bind]
      exact .reject _
  | lambda span param body =>
    simp only [lower, route_direct hcx, pure_bind]
    exact (asks_lower hcx body).function none param
  | app span fn arg =>
    simp only [lower, route_direct hcx, pure_bind]
    exact (Asks.use .closure).bind fun _ => (Asks.still (declare _)).bind fun _ => (Asks.still (declare _)).bind fun _ =>
      (asks_lower hcx arg).bind fun a => (asks_lower hcx fn).bind fun f => .pure (Emit.app a f)
  | cons span head tail =>
    simp only [lower, route_direct hcx, pure_bind]
    exact (Asks.use .list).bind fun _ => (asks_lower hcx tail).bind fun t => (asks_lower hcx head).bind fun h =>
      .pure (Emit.cons t h)
  | cases span scrutinee arms =>
    simp only [lower, route_direct hcx, pure_bind]
    exact (Asks.use .matcher).bind fun _ => (Asks.still matchSite).bind fun site =>
      (asks_lower hcx scrutinee).bind fun e => (asks_lowerArms hcx arms).bind fun branches =>
        .pure (Emit.cases site e branches)
termination_by structural node

theorem asks_lowerArms (hcx : cx.routes = .direct) (arms : List (Pattern × Node)) :
    Asks (lowerArms cx arms) !arms.isEmpty := by
  cases arms with
  | nil =>
    simp only [lowerArms]
    exact .pure []
  | cons arm rest =>
    obtain ⟨pattern, body⟩ := arm
    simp only [lowerArms]
    exact (Asks.pattern pattern).bind fun matcher => ((asks_lower hcx body).inScope _).bind fun code =>
      (asks_lowerArms hcx rest).bind fun branches => .pure ((matcher, code) :: branches)
termination_by structural arms

end

end Node

/-! ## Exports of a program -/

/-- Of the library, only the allocator gives something out. -/
theorem exports_component (pages : Nat) (f : Feature) : (f.component pages).fields.filterMap Field.export? =
    if f = .allocator then [(Heap.memory, .memory, Heap.memory)] else [] := by
  cases f <;> rfl

theorem exports_library (pages : Nat) {fs : List Feature} (h : Feature.Ordered fs) :
    (library pages fs).filterMap Field.export? =
      if .allocator ∈ fs then [(Heap.memory, .memory, Heap.memory)] else [] := by
  induction h with
  | nil => rfl
  | @snoc fs f _ hnot _ ih =>
    rw [library_snoc, List.filterMap_append, ih, exports_component]
    by_cases hf : f = .allocator
    · subst hf
      simp [hnot]
    · simp [hf, Ne.symm hf]

theorem exports_funcs (fs : List Func) : (fs.map Field.func).filterMap Field.export? = [] := by
  simp [List.filterMap_map, Function.comp_def, Field.export?]

theorem exports_ownFields (exportName : String) (s : State) (code : Code) :
    (s.ownFields exportName code).filterMap Field.export? = [(exportName, .func, Compiled.entry)] := by
  have hliterals : s.functions.literalFields.filterMap Field.export? = [] := by
    unfold Definitions.literalFields
    split
    · rfl
    · exact exports_funcs _
  have htables : s.functions.tableFields.filterMap Field.export? = [] := by
    unfold Definitions.tableFields
    split <;> rfl
  have hmatchers : s.matchers.fields.filterMap Field.export? = [] := exports_funcs _
  rw [State.ownFields, List.filterMap_append, List.filterMap_append, List.filterMap_append, hliterals, hmatchers, htables]
  rfl

theorem exports_mapBodies (m : Module) (g : Code → Code) :
    (m.mapBodies g).fields.filterMap Field.export? = m.fields.filterMap Field.export? := by
  rw [Module.mapBodies, List.filterMap_map]
  congr 1
  funext field
  cases field <;> rfl

/-- The exports of the module that a lowered tree is compiled to. -/
theorem exportNames_program {cx : Setup} {s : State} {code : Code} (hs : Feature.Ordered s.features) :
    (cx.finish (s.program cx code)).exportNames =
      (if .allocator ∈ s.features then [Heap.memory] else []) ++ [cx.settings.exportName] := by
  rw [cx.finish_eq, Module.exportNames, exports_mapBodies, State.program, State.runtimeFields, List.filterMap_append,
    List.filterMap_append, exports_library cx.pages hs, Compare.fields_comparator, exports_funcs, exports_ownFields]
  split <;> rfl

/-- Whether the memory is given out depends on the tree only. -/
theorem exportNames_compile {settings : Settings} {types : TypeMap} {tree : Node} {c : Compiled}
    (h : compile settings types tree = .ok c) :
    c.module.exportNames = (if tree.usesHeap then [Heap.memory] else []) ++ [settings.exportName] := by
  let cx : Setup := ⟨settings, types, .direct⟩
  have hcompile : cx.compile tree = .ok c := h
  obtain ⟨-, code, s, hlower, hmodule, -⟩ := (Setup.compile_eq_ok rfl).1 hcompile
  have hspec : Lower.Spec (tree.lower cx) .initial _ (tree.Lowered True cx [] .initial) :=
    tree.lower_initial rfl fun _ => trivial
  rw [Lower.Spec, hlower] at hspec
  have hasks : Lower.Asks (tree.lower cx) tree.usesHeap := tree.asks_lower rfl
  have hheap : .allocator ∈ s.features ↔ tree.usesHeap = true := by
    simpa [State.initial] using hasks _ _ _ hlower
  rw [hmodule, exportNames_program hspec.2.tidy.ordered]
  simp only [hheap]
  rfl

/-- **What a compiled module gives out**: the memory, if the tree needs the heap, then the entry
point under the name that is set. The two names are different unless the tree needs the heap and the
name that is set is that of the memory, and a tree that is compiled with one name is compiled with
any other. -/
theorem compile_exports (settings : Settings) (types : TypeMap) (tree : Node) (c : Compiled)
    (h : compile settings types tree = .ok c) :
    c.module.exportNames = (if tree.usesHeap then [Heap.memory] else []) ++ [settings.exportName] ∧
      (c.module.exportNames.Nodup ↔ ¬ (tree.usesHeap = true ∧ settings.exportName = Heap.memory)) ∧
      ∀ name, Succeeds (compile { settings with exportName := name } types tree) := by
  have hnames := exportNames_compile h
  refine ⟨hnames, ?_, fun name => ?_⟩
  · rw [hnames]
    cases tree.usesHeap with
    | false => simp
    | true => simp [@eq_comm _ settings.exportName]
  · have hvalid : settings.validate = .ok () := ((Setup.compile_eq_ok rfl).1 h).1
    have hsame : { settings with exportName := name }.validate = .ok () := hvalid
    have hok : Succeeds (compile settings types tree) := ⟨c, h⟩
    exact (Setup.succeeds_compile_iff rfl hsame).2 ((Setup.succeeds_compile_iff rfl hvalid).1 hok)

/-- The empty list. -/
def Node.emptyList : Node := .lit (.point ⟨"", Source.defaultPath⟩ 0) .nil

theorem Node.emptyList_compiled {settings : Settings} (h : settings.validate = .ok ()) :
    Succeeds (compile settings .empty emptyList) :=
  (Setup.succeeds_compile_iff rfl h).2 ⟨by simp [emptyList, WellFormed], by decide⟩

theorem compile_exports_emptyList : ∃ c, compile .default .empty .emptyList = .ok c ∧
    c.module.exportNames = ["memory", "main"] ∧ c.module.exportNames.Nodup := by
  obtain ⟨c, hc⟩ := Node.emptyList_compiled (rfl : Settings.default.validate = .ok ())
  obtain ⟨hnames, hnodup, -⟩ := compile_exports .default .empty .emptyList c hc
  exact ⟨c, hc, hnames, hnodup.2 (by decide)⟩

/-- Settings under which the entry point is called like the memory. -/
def Settings.likeMemory : Settings := { Settings.default with exportName := Heap.memory }

/-- Two exports of one name: the settings are valid, and the empty list is compiled. -/
theorem exports_clash : Settings.likeMemory.validate = .ok () ∧
    ∃ c, compile .likeMemory .empty .emptyList = .ok c ∧ c.module.exportNames = ["memory", "memory"] ∧
      ¬ c.module.exportNames.Nodup := by
  obtain ⟨c, hc⟩ := Node.emptyList_compiled (rfl : Settings.likeMemory.validate = .ok ())
  have hnames : c.module.exportNames = ["memory", "memory"] := exportNames_compile hc
  exact ⟨rfl, c, hc, hnames, hnames ▸ by decide⟩

end WasmBackend
