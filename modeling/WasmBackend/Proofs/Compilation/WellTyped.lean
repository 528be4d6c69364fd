/-
Compiled modules are closed and typed (`compile_wellTyped`). All code is typed
in one context, in which every name is known; a module's own context agrees
with it on the names that its code refers to.
-/
import WasmBackend.Proofs.Simulation.Programs
import WasmBackend.Proofs.Typing.Lowered

namespace WasmBackend

open Library

/-! ## Functions on words -/

theorem Func.typeOf_eq {f : Func} (hwords : ∀ l ∈ f.params ++ f.locals, l.ty = .i32) {x : String}
    (hx : x ∈ f.declared) : f.typeOf? x = some .i32 := by
  obtain ⟨l, hl, hname⟩ := List.mem_map.1 hx
  unfold Func.typeOf?
  cases hfind : (f.params ++ f.locals).find? (·.name = x) with
  | none => exact absurd hname (by simpa using List.find?_eq_none.1 hfind l hl)
  | some l' => exact congrArg some (hwords l' (List.mem_of_find?_eq_some hfind))

/-- A function on words, with code that leaves a word. -/
theorem Func.WellScoped.typed {f : Func} {memory : Bool} (h : f.WellScoped)
    (hwords : ∀ l ∈ f.params ++ f.locals, l.ty = .i32) (hresult : f.result = some .i32)
    (hbody : f.body.LeavesWord memory) : f.Typed (.compiled memory) := by
  have hagrees : (Context.compiled memory).Agrees ((Context.compiled memory).inside f) (Code.refs f.body) := {
    locals := fun x hx => f.typeOf_eq hwords (h.refs x hx)
    globals := fun _ _ => rfl
    funcs := fun _ _ => rfl
    types := fun _ _ => rfl
    tables := fun _ _ => rfl
    memory := rfl
    result := hresult }
  rw [Func.Typed, hresult]
  exact hbody.agrees hagrees

theorem Definitions.Family.Makes.words {family : Family} {memory : Bool} {f : Func} (h : family.Makes memory f) :
    ∀ l ∈ f.params ++ f.locals, l.ty = .i32 := by
  intro l hl
  rcases List.mem_append.1 hl with hl | hl
  · rw [h.params] at hl
    obtain ⟨x, -, rfl⟩ := List.mem_map.1 hl
    rfl
  · exact h.locals l hl

section

variable {apps : Prop} {cx : Setup} {s : State} {code : Code} {f : Func}

/-! ## Programs -/

theorem typed_ownFuncs {memory : Bool} (h : State.Made apps .initial s code) (hs : s.Typed memory)
    (hcode : code.LeavesWord memory) (hf : f ∈ s.ownFuncs code) : f.Typed (.compiled memory) := by
  have hscoped := wellScoped_ownFuncs h hf
  simp only [State.ownFuncs, List.append_assoc, List.mem_append, List.mem_singleton] at hf
  rcases hf with hf | hf | rfl
  · have hmakes := hs.functions.funcs f hf
    exact hscoped.typed hmakes.words hmakes.result hmakes.body
  · have hmakes := hs.matchers.funcs f hf
    exact hscoped.typed hmakes.words hmakes.result hmakes.body
  · have hstart : Code.Typed (.compiled memory) s.entryStart [] [] := by
      unfold State.entryStart
      split
      · exact Code.typed_of_leads rfl
      · exact .nil
    exact hscoped.typed (h.tidy.words_entry code) rfl (hstart.append hcode)

/-- Whether a program has a memory. -/
def State.hasMemory (s : State) : Bool := .allocator ∈ s.features

theorem typed_program (h : State.Made apps .initial s code) (hs : s.Typed s.hasMemory)
    (hcode : code.LeavesWord s.hasMemory) (hf : .func f ∈ (s.program cx code).fields) :
    f.Typed (.compiled s.hasMemory) := by
  rcases mem_program.1 hf with hf | hf
  · rw [State.runtimeFields, List.mem_append, Compare.fields_comparator] at hf
    rcases hf with hf | hf
    · obtain ⟨g, hg, hf⟩ := mem_library.1 hf
      have halloc : .allocator ∈ g.needs := by cases g <;> decide
      have hmemory : s.hasMemory = true := decide_eq_true (h.tidy.ordered.needs_mem hg halloc)
      rw [hmemory]
      exact Feature.typed_funcs (Feature.funcs_component.1 hf)
    · obtain ⟨fn, hfn, heq⟩ := List.mem_map.1 hf
      cases heq
      exact Compare.typed_funcs hfn _
  · rcases mem_ownFields.1 hf with ⟨g, hg, heq⟩ | heq | ⟨-, heq | heq | heq⟩ <;> cases heq
    exact typed_ownFuncs h hs hcode hg

/-! ## What names stand for -/

/-- A function that is referred to by name comes from the library, compares, or is a matcher. -/
theorem called_program (h : State.Made apps .initial s code) (hf : .func f ∈ (s.program cx code).fields) {x : String}
    (hx : (.functions, x) ∈ Code.refs f.body) :
    x ∈ declared (s.runtimeFields cx.pages) .functions ∨ x ∈ s.matchers.funcs.map (·.name) := by
  have href : (.functions, x) ∈ (Field.func f).refs := List.mem_filter.2 ⟨hx, rfl⟩
  rcases mem_program.1 hf with hf | hf
  · exact .inl ((h.tidy.wellNamed_runtime cx.pages).refs _ hf _ href)
  · rcases mem_ownFields.1 hf with ⟨g, hg, heq⟩ | heq | ⟨-, heq | heq | heq⟩ <;> cases heq
    obtain ⟨locals, hoffers, -⟩ := refs_ownFuncs h hg href
    rw [State.runtimeFields, declared_append, Compare.fields_comparator, declared_funcs]
    rcases hoffers with ⟨g, hg, hx⟩ | ⟨c, hc, rfl⟩ | hx
    · exact .inl (List.mem_append_left _ (declared_library.2 ⟨g, hg, hx⟩))
    · have hclosure : c ∈ Compare.closure s.request := by simp [Comparison.mem_closure, Compare.needs, State.request, hc]
      exact .inl (List.mem_append_right _ (Compare.function_mem hclosure))
    · exact .inr hx

/-- The signature of such a function. -/
theorem signature_called (h : State.Made apps .initial s code) (hm : (s.program cx code).WellNamed)
    (hs : s.Typed s.hasMemory) {x : String}
    (hx : x ∈ declared (s.runtimeFields cx.pages) .functions ∨ x ∈ s.matchers.funcs.map (·.name)) :
    ((s.program cx code).func? x).map (·.signature) = some (Library.signature x) := by
  suffices hfunc : ∃ g, .func g ∈ (s.program cx code).fields ∧ g.name = x ∧ g.signature = Library.signature x by
    obtain ⟨g, hg, rfl, hsig⟩ := hfunc
    rw [hm.func? hg, Option.map_some, hsig]
  rcases hx with hx | hx
  · obtain ⟨field, hfield, hdefines⟩ := mem_declared.1 hx
    have hprogram : field ∈ (s.program cx code).fields := mem_program.2 (.inl hfield)
    cases field with
    | func g =>
      obtain ⟨-, rfl⟩ := Prod.mk.inj (Option.some.inj hdefines)
      refine ⟨g, hprogram, rfl, ?_⟩
      rw [State.runtimeFields, List.mem_append, Compare.fields_comparator] at hfield
      rcases hfield with hfield | hfield
      · obtain ⟨feature, -, hg⟩ := mem_library.1 hfield
        exact (Feature.signature_eq (Feature.funcs_component.1 hg)).symm
      · obtain ⟨fn, hfn, heq⟩ := List.mem_map.1 hfield
        cases heq
        rw [signature_compare ((Compare.names_funcs _).mem (List.mem_map_of_mem hfn))]
        rcases Compare.mem_funcs.1 hfn with ⟨c, -, rfl⟩ | ⟨-, c, -, -, rfl⟩
        · unfold Compare.anyFunc
          split <;> rfl
        · rfl
    | _ => simp [Field.defines] at hdefines
  · obtain ⟨g, hg, rfl⟩ := List.mem_map.1 hx
    have hmakes := hs.matchers.funcs g hg
    refine ⟨g, mem_program_func (by simp [State.ownFuncs, hg]), rfl, ?_⟩
    obtain ⟨k, hk⟩ := h.tidy.matcher_name hx
    rw [hk, signature_matcher, Func.signature, hmakes.params, hmakes.result]
    rfl

/-- The globals, types and memories of a program. -/
theorem program_defines {space : Space} {x : String} (hx : x ∈ declared (s.program cx code).fields space) :
    match space with
    | .globals => (s.program cx code).global? x = some true
    | .types => (s.program cx code).signature? x = some ⟨[.i32], some .i32⟩
    | .memories => .allocator ∈ s.features
    | _ => True := by
  obtain ⟨field, hfield, hdefines⟩ := mem_declared.1 hx
  rcases program_cases hfield with ⟨f, rfl⟩ | ⟨_, _, _, rfl⟩ | ⟨halloc, rfl | rfl⟩ | ⟨hfuncs, rfl | rfl | rfl⟩ <;> cases hdefines
  · trivial
  · exact halloc
  · refine findSome?_unique hfield (if_pos rfl) fun field hfield b hb => ?_
    rcases program_cases hfield with ⟨f, rfl⟩ | ⟨_, _, _, rfl⟩ | ⟨-, rfl | rfl⟩ | ⟨-, rfl | rfl | rfl⟩ <;> simp at hb
    exact hb
  · exact signature_program hfuncs
  · trivial

theorem agrees_program (h : State.Made apps .initial s code) (hm : (s.program cx code).WellNamed)
    (hs : s.Typed s.hasMemory) (hf : .func f ∈ (s.program cx code).fields) :
    ((Context.compiled s.hasMemory).inside f).Agrees ((s.program cx code).context.inside f) (Code.refs f.body) where
  locals _ _ := rfl
  globals x hx := program_defines (hm.refs _ hf (.globals, x) (List.mem_filter.2 ⟨hx, rfl⟩))
  funcs x hx := signature_called h hm hs (called_program h hf hx)
  types x hx := program_defines (hm.refs _ hf (.types, x) (List.mem_filter.2 ⟨hx, rfl⟩))
  tables x hx := decide_eq_true (hm.refs _ hf (.tables, x) (List.mem_filter.2 ⟨hx, rfl⟩))
  memory := by
    show (!(declared (s.program cx code).fields .memories).isEmpty) = decide (.allocator ∈ s.features)
    by_cases halloc : .allocator ∈ s.features
    · have hmemory : Heap.memory ∈ declared (s.program cx code).fields .memories :=
        mem_declared.2 ⟨_, mem_program_library (mem_library.2 ⟨_, halloc, .head _⟩), rfl⟩
      simp [halloc, List.ne_nil_of_mem hmemory]
    · have hnone : declared (s.program cx code).fields .memories = [] :=
        List.eq_nil_iff_forall_not_mem.2 fun x hx => halloc (program_defines hx)
      simp [halloc, hnone]
  result := rfl

/-! ## Reduced modules -/

theorem context_mapBodies (m : Module) (g : Code → Code) : (m.mapBodies g).context = m.context := by
  have hfuncs (x : String) : ((m.mapBodies g).func? x).map (·.signature) = (m.func? x).map (·.signature) := by
    rw [Module.func?, funcs_mapBodies, List.find?_map, Option.map_map]
    rfl
  have hglobals (x : String) : (m.mapBodies g).global? x = m.global? x := by
    rw [Module.global?, Module.mapBodies, findSome?_mapBodies fun _ => rfl]
    rfl
  simp only [Module.context, hfuncs, funext hglobals, funext (signature_mapBodies m g), declared_mapBodies]

/-- **A program is typed**, reduced or not. -/
theorem wellTyped_finish (h : State.Made apps .initial s code) (hm : (s.program cx code).WellNamed)
    (hs : s.Typed s.hasMemory) (hcode : code.LeavesWord s.hasMemory) : (cx.finish (s.program cx code)).WellTyped := by
  intro f hf
  rw [cx.finish_eq, funcs_mapBodies] at hf
  obtain ⟨f, hmem, rfl⟩ := List.mem_map.1 hf
  have hfield : .func f ∈ (s.program cx code).fields := Module.mem_funcs.1 hmem
  have htyped := typed_program h hs hcode hfield
  have hagrees := agrees_program h hm hs hfield
  have hreduced : Code.Typed ((Context.compiled s.hasMemory).inside f) (cx.reduce f.body) [] f.result.toList := by
    unfold Setup.reduce
    split
    · exact (Peephole.Fits.compiled _ f).reduce_typed htyped
    · exact htyped
  rw [Func.Typed, cx.finish_eq, context_mapBodies]
  exact hreduced.agrees (hagrees.of_subset (cx.thinner_reduce f.body).refs)

end

/-- **Compiled modules are closed and typed.** A tree that is lowered, and that has a function literal
if it applies a function, links and encodes. No two functions of the linked module share a name, and
in the module that is encoded, reduced or not, every function takes the empty stack to its result. -/
theorem compile_wellTyped (cx : Setup) (hcx : cx.routes = .direct) (hvalid : cx.settings.validate = .ok ())
    (tree : Node) {code : Code} {s : State} (hlower : tree.lower cx .initial = .ok code s)
    (happs : 0 < tree.applications → 0 < tree.literals) :
    ∃ m bytes, Compiled.assemble cx code s = .ok m ∧ (m.funcs.map (·.name)).Nodup ∧
      (cx.finish m).encode cx.settings.enableNameSection = .ok bytes ∧
      cx.compile tree = .ok ⟨cx.finish m, bytes⟩ ∧ (cx.finish m).WellTyped := by
  have hspec := tree.lower_initial hcx happs
  rw [Lower.Spec, hlower] at hspec
  obtain ⟨-, hlowered⟩ := hspec
  have hm : (s.program cx code).WellNamed := hlowered.wellNamed
  have hassemble : Compiled.assemble cx code s = .ok (s.program cx code) :=
    assemble_eq hlowered.tidy hlowered.grew.code
  have hnames : ((s.program cx code).funcs.map (·.name)).Nodup :=
    declared_functions _ ▸ hm.nodup .functions (by decide)
  obtain ⟨bytes, hcompile⟩ := Setup.compile_lowered hcx hvalid hlower hm
  obtain ⟨-, code', s', hlower', -, hencode⟩ := (Setup.compile_eq_ok hcx).1 hcompile
  obtain ⟨rfl, rfl⟩ : code = code' ∧ s = s' := by simpa [hlower] using hlower'
  obtain ⟨hs, hcode⟩ := tree.lower_typed hcx _ _ _ hlower (State.typed_initial s.hasMemory)
  exact ⟨_, bytes, hassemble, hnames, hencode, hcompile, wellTyped_finish hlowered.toMade hm hs hcode⟩

/-- Whether the head of a list of one float is below two, by way of a function. -/
def Node.headBelowTwo : Node :=
  let here : Span := .point ⟨"", Source.defaultPath⟩ 0
  .app here
    (.lambda here "x" (.cases here (.cons here (.ident here "x") (.lit here .nil)) [
      (.nil here, .lit here (.bool false)),
      (.cons here (.ident here "y") (.wildcard here),
        .binary here (.compare .lt) (.ident here "y") (.lit here (.float 2)))]))
    (.unary here .floatNeg (.lit here (.float 1)))

theorem compile_wellTyped_headBelowTwo :
    let cx : Setup := ⟨{ Settings.default with reduceInstructions := true }, .empty, .direct⟩
    ∃ code s m bytes, Node.headBelowTwo.lower cx .initial = .ok code s ∧ Compiled.assemble cx code s = .ok m ∧
      (m.funcs.map (·.name)).Nodup ∧ cx.compile .headBelowTwo = .ok ⟨cx.finish m, bytes⟩ ∧
      (cx.finish m).WellTyped := by
  intro cx
  have hbound : Node.headBelowTwo.WellFormed [] := by
    simp [Node.headBelowTwo, Node.WellFormed, Node.WellFormedArms, Pattern.bindings]
  obtain ⟨code, s, hlower⟩ := hbound.lowers (show cx.routes = .direct from rfl)
  obtain ⟨m, bytes, hassemble, hnames, -, hcompile, htyped⟩ :=
    compile_wellTyped cx rfl rfl .headBelowTwo hlower (by decide)
  exact ⟨code, s, m, bytes, hlower, hassemble, hnames, hcompile, htyped⟩

end WasmBackend
