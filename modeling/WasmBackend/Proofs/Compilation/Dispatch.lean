/-
Comparing with and without regard to types comes to the same
(`dispatch_preserves_outcome`), where operands that are recorded as words are
odd or zero: the modules differ in their comparisons and in the comparator
functions they have, and run in lockstep.
-/
import WasmBackend.Proofs.Compilation.Acceptance
import WasmBackend.Proofs.Compilation.Preservation
import WasmBackend.Proofs.Dispatch.Lowering

namespace WasmBackend

open Library

/-! ## Fields that are not functions -/

/-- All fields but the functions. -/
def Module.skeleton (m : Module) : List Field := m.fields.filter (·.func?.isNone)

section

variable {a b : Module}

theorem findSome?_skeleton {α : Type} {f : Field → Option α} (hf : ∀ fn, f (.func fn) = none) (l : List Field) :
    (l.filter (·.func?.isNone)).findSome? f = l.findSome? f := by
  induction l with
  | nil => rfl
  | cons field l ih =>
    cases field with
    | func fn =>
      rw [List.findSome?_cons, hf fn]
      exact ih
    | _ =>
      rw [List.filter_cons_of_pos rfl, List.findSome?_cons, List.findSome?_cons, ih]

theorem initial_skeleton (h : b.skeleton = a.skeleton) : b.initial = a.initial := by
  unfold Module.skeleton at h
  rw [Module.initial, Module.initial]
  congr 1
  · rw [← findSome?_skeleton (fun _ => rfl) b.fields, h, findSome?_skeleton fun _ => rfl]
  · funext x
    rw [← findSome?_skeleton (fun _ => rfl) b.fields, h, findSome?_skeleton fun _ => rfl]

theorem signature_skeleton (h : b.skeleton = a.skeleton) (type : String) : b.signature? type = a.signature? type := by
  unfold Module.skeleton at h
  rw [Module.signature?, Module.signature?, ← findSome?_skeleton (fun _ => rfl) b.fields.reverse, List.filter_reverse, h,
    ← List.filter_reverse, findSome?_skeleton fun _ => rfl]

theorem slot_skeleton (h : b.skeleton = a.skeleton) (table : String) (i : Nat) : b.slot? table i = a.slot? table i := by
  unfold Module.skeleton at h
  have hsize : b.tableSize table = a.tableSize table := by
    rw [Module.tableSize, Module.tableSize, ← findSome?_skeleton (fun _ => rfl) b.fields, h,
      findSome?_skeleton fun _ => rfl]
  rw [Module.slot?, Module.slot?, hsize, ← findSome?_skeleton (fun _ => rfl) b.fields.reverse, List.filter_reverse, h,
    ← List.filter_reverse, findSome?_skeleton fun _ => rfl]

end

/-! ## Functions -/

mutual

theorem Instr.general_false : ∀ i : Instr String, i.general false = i
  | .cond result yes no => by rw [Instr.general, Code.general_false yes, Code.general_false no]
  | .op _ | .i32Const _ | .f64Const _ | .localGet _ | .localSet _ | .localTee _ | .globalGet _ | .globalSet _ | .call _
  | .callIndirect _ _ | .load _ _ | .store _ _ => by
    simp only [Instr.general]
termination_by structural i => i

theorem Code.general_false : ∀ c : Code, Code.general false c = c
  | [] => Code.general_nil
  | i :: c => by rw [Code.general_cons, Instr.general_false i, Code.general_false c]
termination_by structural c => c

end

/-- The library compares no words. -/
theorem Feature.general_eq {f : Feature} {fn : Func} (h : fn ∈ f.funcs) : fn.general = fn := by
  have hmap : f.funcs.map Func.general = f.funcs.map id := by
    cases f <;> rfl
  exact List.map_inj_left.1 hmap fn h

theorem Func.general_of_compare {f : Func} (h : f.name ∈ Compare.names) : f.general = f := by
  simp [Func.general, h, Code.general_false]

theorem Func.general_of_not_compare {f : Func} (h : f.name ∉ Compare.names) :
    f.general = { f with body := Code.general true f.body } := by
  simp [Func.general, h]

theorem Compare.anyFunc_congr {r r' : CompareRequest} (hfloats : r'.floats = r.floats) (hlists : r'.lists = r.lists)
    (c : Comparison) : Compare.anyFunc r' c = Compare.anyFunc r c := by
  simp only [Compare.anyFunc, Compare.branches, hfloats, hlists]

/-- A comparator for more comparisons has all functions of one for fewer. -/
theorem Compare.funcs_subset {r r' : CompareRequest} (hops : r.ops ⊆ r'.ops) (hfloats : r'.floats = r.floats)
    (hlists : r'.lists = r.lists) : Compare.funcs r ⊆ Compare.funcs r' := by
  have hclosure : ∀ c ∈ Compare.closure r, c ∈ Compare.closure r' := by
    intro c hc
    have hne : r.ops ≠ [] → r'.ops ≠ [] := fun h hnil => h (List.subset_nil.1 (hnil ▸ hops))
    rw [Comparison.mem_closure] at hc ⊢
    cases c <;> simp only [Compare.needs, hlists, Bool.or_eq_true, Bool.and_eq_true, decide_eq_true_eq,
      Bool.not_eq_true', List.isEmpty_eq_false_iff] at hc ⊢ <;> grind
  intro f hf
  rcases Compare.mem_funcs.1 hf with ⟨c, hc, rfl⟩ | ⟨hr, c, hc, hne, rfl⟩
  · exact Compare.mem_funcs.2 (.inl ⟨c, hclosure c hc, Compare.anyFunc_congr hfloats hlists c⟩)
  · exact Compare.mem_funcs.2 (.inr ⟨hlists ▸ hr, c, hclosure c hc, hne, rfl⟩)

theorem Compare.function_mem_closure {r : CompareRequest} {c : Comparison}
    (h : Compare.function c ∈ (Compare.funcs r).map (·.name)) : c ∈ Compare.closure r := by
  have hnames : ∀ c ∈ Comparison.all, ∀ d ∈ Comparison.all, Compare.listFunction d ≠ Compare.function c ∧
      (Compare.function d = Compare.function c → d = c) := by
    decide +kernel
  have hall (c : Comparison) : c ∈ Comparison.all := by cases c <;> decide
  obtain ⟨f, hf, hname⟩ := List.mem_map.1 h
  rcases Compare.mem_funcs.1 hf with ⟨d, hd, rfl⟩ | ⟨-, d, -, -, rfl⟩
  · rw [Compare.name_anyFunc] at hname
    exact (hnames c (hall c) d (hall d)).2 hname ▸ hd
  · exact absurd hname (hnames c (hall c) d (hall d)).1

/-! ## Names that resolve -/

theorem Module.func_isSome {m : Module} {x : String} (h : x ∈ declared m.fields .functions) : (m.func? x).isSome := by
  rw [declared_functions] at h
  obtain ⟨f, hf, rfl⟩ := List.mem_map.1 h
  rw [Module.func?, List.find?_isSome]
  exact ⟨f, hf, by simp⟩

theorem Module.WellNamed.slot_isSome {m : Module} (h : m.WellNamed) {table x : String} {i : Nat}
    (hx : m.slot? table i = some x) : (m.func? x).isSome := by
  unfold Module.slot? at hx
  split at hx
  · obtain ⟨field, hfield, hslot⟩ := List.exists_of_findSome?_eq_some hx
    cases field with
    | elem name offset funcs =>
      simp only at hslot
      split at hslot
      · have hmem : x ∈ funcs := List.mem_of_getElem? hslot
        exact Module.func_isSome (h.refs _ (List.mem_reverse.1 hfield) (.functions, x)
          (List.mem_cons_of_mem _ (List.mem_map_of_mem hmem)))
      · cases hslot
    | _ => cases hslot
  · cases hx

/-! ## Programs -/

/-- The same setup without regard to types. -/
def Setup.untyped (cx : Setup) : Setup :=
  { cx with settings := { cx.settings with dispatchUsingInferredType := false } }

theorem Setup.reduce_general (cx : Setup) (own : Bool) (c : Code) :
    cx.reduce (Code.general own c) = Code.general own (cx.reduce c) := by
  unfold Setup.reduce
  split
  · exact Peephole.reduce_general c
  · rfl

section

variable {apps : Prop} {cx : Setup} {s t : State} {code : Code} {f : Func}

theorem entry_not_compare : Compiled.entry ∉ Compare.names := by decide +kernel

theorem State.General.entry (h : s.General t) (code : Code) : t.entry (Code.general true code) = (s.entry code).general := by
  have hframe : t.frame = s.frame := by
    simp only [State.frame, h.functions, Definitions.general]
  have hstart : Code.general true s.entryStart = s.entryStart := by
    unfold State.entryStart
    split <;> simp [Instr.general]
  have hstart' : t.entryStart = s.entryStart := by
    simp only [State.entryStart, h.features]
  have hlocals : t.entryLocals = s.entryLocals := by
    simp only [State.entryLocals, h.features, hframe]
  rw [Func.general_of_not_compare entry_not_compare]
  simp only [State.entry, Compiled.entryFunc, Code.general_append, hstart, hstart', hlocals]

theorem State.General.ownFuncs (h : s.General t) (code : Code) :
    t.ownFuncs (Code.general true code) = (s.ownFuncs code).map Func.general := by
  simp only [State.ownFuncs, h.functions, h.matchers, Definitions.general, h.entry, List.map_append, List.map_cons,
    List.map_nil]

theorem State.General.request (h : s.General t) : s.request.ops ⊆ t.request.ops ∧
    t.request.floats = s.request.floats ∧ t.request.lists = s.request.lists := by
  refine ⟨h.comparisons, ?_, ?_⟩
  · simp only [State.request, h.features]
  · simp only [State.request, h.features]

/-- The functions of a program are there without regard to types too, and call the comparator. -/
theorem State.General.func_mem (h : s.General t) (hf : .func f ∈ (s.program cx code).fields) :
    .func f.general ∈ (t.program cx.untyped (Code.general true code)).fields := by
  rcases mem_program.1 hf with hf | hf
  · rw [State.runtimeFields, List.mem_append, Compare.fields_comparator] at hf
    rcases hf with hf | hf
    · obtain ⟨g, hg, hfield⟩ := mem_library.1 hf
      rw [Feature.general_eq (Feature.funcs_component.1 hfield)]
      exact mem_program_library (mem_library.2 ⟨g, h.features ▸ hg, hfield⟩)
    · obtain ⟨fn, hfn, heq⟩ := List.mem_map.1 hf
      cases heq
      obtain ⟨hops, hfloats, hlists⟩ := h.request
      rw [Func.general_of_compare ((Compare.names_funcs _).mem (List.mem_map_of_mem hfn))]
      exact mem_program_comparator (List.mem_map_of_mem (Compare.funcs_subset hops hfloats hlists hfn))
  · rcases mem_ownFields.1 hf with ⟨g, hg, heq⟩ | heq | ⟨-, heq | heq | heq⟩ <;> cases heq
    refine mem_program_func ?_
    rw [h.ownFuncs]
    exact List.mem_map_of_mem hg

/-- Otherwise the programs have the same fields. -/
theorem State.General.skeleton (h : s.General t) (code' : Code) :
    (t.program cx.untyped code').skeleton = (s.program cx code).skeleton := by
  have hfuncs (fs : List Func) : (fs.map Field.func).filter (·.func?.isNone) = [] := by
    simp [List.filter_eq_nil_iff, Field.func?]
  have hown (exportName : String) : (t.ownFields exportName code').filter (·.func?.isNone) =
      (s.ownFields exportName code).filter (·.func?.isNone) := by
    have hnames : (s.functions.funcs.map Func.general).map (·.name) = s.functions.funcs.map (·.name) := by
      rw [List.map_map]
      rfl
    simp only [State.ownFields, Definitions.literalFields, Definitions.tableFields, Definitions.fields, h.functions,
      h.matchers, Definitions.general, List.filter_append, hfuncs, List.isEmpty_map, List.length_map, hnames]
    split
    · rfl
    · have htype (fs : List Func) (ty : Field) (hty : ty.func? = none) :
          (ty :: fs.map Field.func).filter (·.func?.isNone) = [ty] := by
        rw [List.filter_cons_of_pos (by rw [hty]; rfl), hfuncs]
      rw [htype _ _ rfl, htype _ _ rfl]
      rfl
  simp only [Module.skeleton, State.program, State.runtimeFields, List.filter_append, Compare.fields_comparator, hfuncs,
    h.features]
  rw [hown]
  rfl

theorem function_mem_closure (hs : t.Tidy apps) {c : Comparison}
    (hc : Compare.function c ∈ declared (t.program cx code).fields .functions) : c ∈ Compare.closure t.request := by
  have hname : Compare.function c ∈ Compare.names :=
    List.mem_append_left _ (List.mem_map_of_mem (by cases c <;> decide))
  rw [State.program, declared_append, State.runtimeFields, declared_append, declared_ownFields,
    Compare.fields_comparator, declared_funcs] at hc
  simp only [State.ownFuncs, List.map_append, List.mem_append, List.map_cons, List.map_nil, List.mem_singleton,
    if_true] at hc
  rcases hc with (hc | hc) | (hc | hc) | hc
  · obtain ⟨f, -, hf⟩ := declared_library.1 hc
    exact absurd hf (Compare.names_not_declared f _ hname)
  · exact Compare.function_mem_closure hc
  · obtain ⟨k, hk⟩ := hs.literal_name hc
    exact absurd (hk ▸ hname) (Definitions.Family.name_not_compare (.head _) k)
  · obtain ⟨k, hk⟩ := hs.matcher_name hc
    exact absurd (hk ▸ hname) (Definitions.Family.name_not_compare (.tail _ (.head _)) k)
  · rw [hc] at hname
    exact absurd hname entry_not_compare

/-- **The modules with and without regard to types** differ only in how they compare words. -/
theorem State.General.dispatches (h : s.General t) (ht : t.Tidy apps) (hvalid : cx.settings.validate = .ok ())
    (hm : (s.program cx code).WellNamed) (hm' : (t.program cx.untyped (Code.general true code)).WellNamed) :
    (cx.finish (s.program cx code)).Dispatches (cx.untyped.finish (t.program cx.untyped (Code.general true code)))
      t.request := by
  have hwell : (cx.finish (s.program cx code)).WellNamed := cx.finish_eq _ ▸ hm.mapBodies cx.thinner_reduce
  have hwell' : (cx.untyped.finish (t.program cx.untyped (Code.general true code))).WellNamed :=
    cx.untyped.finish_eq _ ▸ hm'.mapBodies cx.untyped.thinner_reduce
  have hfunc {x : String} {f : Func} (hf : (cx.finish (s.program cx code)).func? x = some f) :
      (cx.untyped.finish (t.program cx.untyped (Code.general true code))).func? x = some f.general := by
    obtain ⟨hname, hmem⟩ : f.name = x ∧ f ∈ (cx.finish (s.program cx code)).funcs :=
      ⟨by simpa using List.find?_some hf, List.mem_of_find?_eq_some hf⟩
    rw [cx.finish_eq, funcs_mapBodies] at hmem
    obtain ⟨g, hg, rfl⟩ := List.mem_map.1 hmem
    have hfield := mem_mapBodies (g := cx.untyped.reduce) (h.func_mem (Module.mem_funcs.1 hg))
    rw [← cx.untyped.finish_eq] at hfield
    have hfound := hwell'.func? hfield
    have hgeneral : { g.general with body := cx.untyped.reduce g.general.body } =
        Func.general { g with body := cx.reduce g.body } := by
      simp only [Func.general, ← cx.reduce_general]
      rfl
    rw [hgeneral] at hfound
    exact hname ▸ hfound
  have hskeleton : (t.program cx.untyped (Code.general true code)).skeleton = (s.program cx code).skeleton := h.skeleton _
  refine ⟨hfunc, fun table type i => ?_, fun {x f} hf y hy => ?_, ?_, fun {x f} hf c hc => ?_⟩
  · have hsignature : (cx.untyped.finish (t.program cx.untyped (Code.general true code))).signature? type =
        (cx.finish (s.program cx code)).signature? type := by
      rw [cx.finish_eq, cx.untyped.finish_eq, signature_mapBodies, signature_mapBodies, signature_skeleton hskeleton]
    have hslot : (cx.untyped.finish (t.program cx.untyped (Code.general true code))).slot? table i.toNat =
        (cx.finish (s.program cx code)).slot? table i.toNat := by
      rw [cx.finish_eq, cx.untyped.finish_eq, slot_mapBodies, slot_mapBodies, slot_skeleton hskeleton]
    rw [Module.target, Module.target, hsignature, hslot]
    cases (cx.finish (s.program cx code)).signature? type with
    | none => rfl
    | some signature =>
      cases hx : (cx.finish (s.program cx code)).slot? table i.toNat with
      | none => rfl
      | some x =>
        obtain ⟨f, hf⟩ := Option.isSome_iff_exists.1 (hwell.slot_isSome hx)
        simp only [hf, hfunc hf]
        rfl
  · have hfield := Module.mem_funcs.1 (List.mem_of_find?_eq_some hf)
    exact Module.func_isSome (hwell.refs _ hfield (.functions, y) (List.mem_filter.2 ⟨hy, rfl⟩))
  · exact (sound_target default ht hvalid hm').compares
  · have hfield := Module.mem_funcs.1 (List.mem_of_find?_eq_some (hfunc hf))
    have hdeclared := hwell'.refs _ hfield (.functions, Compare.function c) (List.mem_filter.2 ⟨hc, rfl⟩)
    rw [cx.untyped.finish_eq, declared_mapBodies] at hdeclared
    exact function_mem_closure ht hdeclared

end

/-- In every run of a module, at whatever depth it is cut off, words that are compared by an
instruction of the tree's own code are odd or zero. With regard to types, that code compares by an
instruction where both operands are recorded as integers or booleans. -/
def Module.ComparesImmediates (ops : FloatOps) (m : Module) : Prop :=
  ∀ depth, m.Throughout ops Frame.Immediate depth Compiled.entry [] m.initial

/-- **Regard to types does not change outcomes.** If a tree is compiled with regard to types, it is
without. If operands that are recorded as integers or booleans are always odd or zero, one module
traps if and only if the other does, and otherwise both return the same word and leave the same
memory. -/
theorem dispatch_preserves_outcome (ops : FloatOps) (settings : Settings) (types : TypeMap) (tree : Node) {c : Compiled}
    (hcompile : compile { settings with dispatchUsingInferredType := true } types tree = .ok c)
    (hwords : c.module.ComparesImmediates ops) :
    ∃ c', compile { settings with dispatchUsingInferredType := false } types tree = .ok c' ∧
      (∀ trap, c.module.Traps ops trap ↔ c'.module.Traps ops trap) ∧
      ∀ w σ, c.module.Returns ops w σ ↔ c'.module.Returns ops w σ := by
  let cx : Setup := ⟨{ settings with dispatchUsingInferredType := true }, types, .direct⟩
  have hcx : cx.routes = .direct := rfl
  have hcx' : cx.untyped.routes = .direct := rfl
  obtain ⟨hvalid, code, s, hlower, hmodule, -⟩ := (Setup.compile_eq_ok hcx).1 hcompile
  have hvalid' : cx.untyped.settings.validate = .ok () := hvalid
  obtain ⟨-, happs⟩ := (Setup.succeeds_compile_iff hcx hvalid).1 ⟨c, hcompile⟩
  have hnone (left right : Span) : cx.untyped.areWords left right = false := by
    simp [Setup.areWords, Setup.typeOf?, Setup.untyped]
  obtain ⟨t, hlower', hgeneral⟩ := tree.lower_general hcx hcx' hnone _ _ code s .initial hlower
  have hlowered := tree.lower_initial hcx happs
  have hlowered' := tree.lower_initial hcx' happs
  rw [Lower.Spec, hlower] at hlowered
  rw [Lower.Spec, hlower'] at hlowered'
  have hm := hlowered.2.wellNamed
  have hm' := hlowered'.2.wellNamed
  obtain ⟨bytes, hcompile'⟩ := Setup.compile_lowered hcx' hvalid' hlower' hm'
  have hdispatch := hgeneral.dispatches hlowered'.2.tidy hvalid hm hm'
  rw [← hmodule] at hdispatch
  have hinitial : (cx.untyped.finish (t.program cx.untyped (Code.general true code))).initial = c.module.initial := by
    rw [hmodule, cx.finish_eq, cx.untyped.finish_eq, initial_mapBodies, initial_mapBodies,
      initial_skeleton (hgeneral.skeleton _)]
  have hentry : (c.module.func? Compiled.entry).isSome := by
    refine Module.func_isSome ?_
    rw [hmodule, cx.finish_eq, declared_mapBodies]
    exact mem_declared.2 ⟨.func (s.entry code), mem_program_func (by simp [State.ownFuncs]), rfl⟩
  refine ⟨_, hcompile', fun trap => ?_, fun w σ => ?_⟩
  · unfold Module.Traps
    rw [hinitial]
    exact hdispatch.answers_iff hentry hwords (by simp)
  · unfold Module.Returns
    rw [hinitial]
    exact hdispatch.answers_iff hentry hwords (by simp)

/-- Whether one is less than two, compared with `true`, and a number for each answer. -/
def Node.compareTwice : Node :=
  let here : Span := .point ⟨"", Source.defaultPath⟩ 0
  .cond here
    (.binary here (.compare .eq)
      (.binary here (.compare .lt) (.lit here (.int 1)) (.lit here (.int 2))) (.lit here (.bool true)))
    (.lit here (.int 7)) (.lit here (.int 9))

theorem dispatch_preserves_outcome_compareTwice :
    let types : TypeMap := TypeMap.empty.insert (.point ⟨"", Source.defaultPath⟩ 0) .int
    ∃ c, compile { Settings.default with dispatchUsingInferredType := true } types .compareTwice = .ok c ∧
      c.module.ComparesImmediates default ∧
      ∃ c', compile { Settings.default with dispatchUsingInferredType := false } types .compareTwice = .ok c' ∧
        ∃ w σ, c.module.Returns default w σ ∧ c'.module.Returns default w σ := by
  intro types
  let cx : Setup := ⟨{ Settings.default with dispatchUsingInferredType := true }, types, .direct⟩
  let code : Code := [.i32Const 3, .i32Const 5, .op .i32LtS, .i32Const 3, .op .i32Mul, .i32Const 3, .op .i32Eq,
    .i32Const 3, .op .i32Mul, .condWord [.i32Const 15] [.i32Const 19]]
  have hlower : Node.compareTwice.lower cx .initial = .ok code .initial := rfl
  have happs : 0 < Node.compareTwice.applications → 0 < Node.compareTwice.literals := by decide
  have hlowered := Node.compareTwice.lower_initial (show cx.routes = .direct from rfl) happs
  rw [Lower.Spec, hlower] at hlowered
  obtain ⟨bytes, hcompile⟩ := Setup.compile_lowered (show cx.routes = .direct from rfl) rfl hlower hlowered.2.wellNamed
  have hwords {m : Module} (hfunc : m.func? Compiled.entry = some (Compiled.entryFunc [] code)) :
      m.ComparesImmediates default := by
    intro depth
    cases depth with
    | zero => trivial
    | succ depth =>
      rw [Module.Throughout, hfunc]
      -- Nothing is called, and two words on top of the stack are odd: only `1`, `2` and truth values are put there.
      have hstep (i : Instr String) {s : Frame}
          (hs : ∀ x y stack, s.stack = .word y :: .word x :: stack → x.Immediate ∧ y.Immediate)
          (hcall : m.callee? i s = none) : Frame.Immediate (Compiled.entryFunc [] code) i s ∧
            ∀ g args, m.callee? i s = some (g, args) → m.Throughout default Frame.Immediate depth g args s.store := by
        refine ⟨fun _ _ x y stack _ => hs x y stack, fun g args h => ?_⟩
        rw [hcall] at h
        cases h
      refine .cons (hstep (.i32Const 3) (by rintro x y _ ⟨⟩) rfl) rfl ?_
      refine .cons (hstep (.i32Const 5) (by rintro x y _ ⟨⟩) rfl) rfl ?_
      refine .cons (hstep (.op .i32LtS) (by rintro x y _ ⟨⟩; decide) rfl) rfl ?_
      refine .cons (hstep (.i32Const 3) (by rintro x y _ ⟨⟩) rfl) rfl ?_
      refine .cons (hstep (.op .i32Mul) (by rintro x y _ ⟨⟩; decide) rfl) rfl ?_
      refine .cons (hstep (.i32Const 3) (by rintro x y _ ⟨⟩) rfl) rfl ?_
      refine .cons (hstep (.op .i32Eq) (by rintro x y _ ⟨⟩; decide) rfl) rfl ?_
      refine .cons (hstep (.i32Const 3) (by rintro x y _ ⟨⟩) rfl) rfl ?_
      refine .cons (hstep (.op .i32Mul) (by rintro x y _ ⟨⟩; decide) rfl) rfl ?_
      refine .cons ⟨hstep _ (by rintro x y _ ⟨⟩) rfl, ?_⟩ rfl trivial
      exact .cons (hstep (.i32Const 15) (by rintro x y _ ⟨⟩) rfl) rfl trivial
  have hwords := hwords (show (cx.finish (State.initial.program cx code)).func? Compiled.entry = _ from rfl)
  obtain ⟨c', hcompile', -, hreturns⟩ := dispatch_preserves_outcome default .default types .compareTwice hcompile hwords
  have hreturn : (cx.finish (State.initial.program cx code)).Returns default 15 _ := .of_invoke (n := 1) rfl (by simp)
  exact ⟨_, hcompile, hwords, c', hcompile', 15, _, hreturn, (hreturns 15 _).1 hreturn⟩

end WasmBackend
