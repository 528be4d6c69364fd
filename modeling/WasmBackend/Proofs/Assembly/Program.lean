/-
The module of a lowered tree: the library it asked for, its function
literals and matchers, the table of the literals, and the entry point
(`assemble_eq`). Its names resolve (`wellNamed_program`), so that a tree is
compiled if and only if it can be lowered and, where it applies functions,
has some (`compile_eq_ok`).
-/
import WasmBackend.Program
import WasmBackend.Proofs.Lowering.Nodes

namespace WasmBackend

open Library

namespace State

/-- What is asked of the comparator. -/
def request (s : State) : CompareRequest := ⟨s.comparisons, .float ∈ s.features, .list ∈ s.features⟩

/-- The locals of the entry point. -/
def entryLocals (s : State) : List Local :=
  if .environment ∈ s.features then .word Env.current :: s.frame else s.frame

/-- The start of the entry point, in the outermost environment. -/
def entryStart (s : State) : Code :=
  if .environment ∈ s.features then [.i32Const Word.rootEnv, .localSet Env.current] else []

def entry (s : State) (code : Code) : Func := Compiled.entryFunc s.entryLocals (s.entryStart ++ code)

/-- The fields that come from the library. -/
def runtimeFields (pages : Nat) (s : State) : List Field :=
  library pages s.features ++ (comparator s.request pages).fields

/-- The fields that come from the tree. -/
def ownFields (exportName : String) (s : State) (code : Code) : List Field :=
  s.functions.literalFields ++ s.matchers.fields ++ s.functions.tableFields ++
    [.func (s.entry code), .exports exportName .func Compiled.entry]

def program (cx : Setup) (s : State) (code : Code) : Module :=
  ⟨s.runtimeFields cx.pages ++ s.ownFields cx.settings.exportName code⟩

end State

variable {apps : Prop} {cx : Setup} {s : State} {code : Code}

/-! ## Linking -/

theorem comparator_fields_nil {r : CompareRequest} (h : r.ops = []) (pages : Nat) : (comparator r pages).fields = [] := by
  have hclosure : Compare.closure r = [] := by
    simp only [Compare.closure, List.filter_eq_nil_iff]
    intro c _
    cases c <;> simp [Compare.needs, h]
  simp [Compare.fields_comparator, Compare.funcs, hclosure]

/-- The entry point and what is around it. -/
theorem State.closeEntry_emit (h : s.code = []) : (s.emit code).closeEntry =
    ((s.entryLocals, s.entryStart ++ code), { s with functions := s.functions.close.2, code := [] }) := by
  simp only [State.closeEntry, State.emit, h, List.nil_append, State.entryLocals, State.entryStart]
  split <;> rfl

theorem Feature.name_ne_entry (f : Feature) : f.name ≠ Compiled.entry := by
  cases f <;> decide

theorem State.request_floats (s : State) (h : s.request.floats = true) : .float ∈ s.features := of_decide_eq_true h

theorem State.request_lists (s : State) (h : s.request.lists = true) : .list ∈ s.features := of_decide_eq_true h

/-- The names of what comes from the library resolve by themselves. -/
theorem State.Tidy.wellNamed_runtime (hs : s.Tidy apps) (pages : Nat) : Module.WellNamed ⟨s.runtimeFields pages⟩ :=
  wellNamed_comparator hs.ordered s.request_floats s.request_lists

/-- Features that were requested in order are linked in that order, with the comparator after them. -/
theorem State.order_components (s : State) (h : Feature.Ordered s.features) :
    let root : Component := ⟨Compiled.entry, [], s.components cx⟩
    root.order = s.components cx ++ [root] := by
  refine Component.order_features h Feature.name_ne_entry rfl ?_
  by_cases hnone : s.comparisons.isEmpty = true
  · exact .inl (if_pos hnone)
  · exact .inr ⟨s.request, if_neg hnone, (by decide : Compiled.entry ≠ "comparator"), s.request_floats, s.request_lists⟩

/-- **The components of a lowered tree link**, and give its module. -/
theorem assemble_eq (hs : s.Tidy apps) (hcode : s.code = []) :
    Compiled.assemble cx code s = .ok (s.program cx code) := by
  let last : List Component := if s.comparisons.isEmpty then [] else [comparator s.request cx.pages]
  let root : Component := ⟨Compiled.entry, [], s.features.map (·.component cx.pages) ++ last⟩
  have horder : root.order = s.features.map (·.component cx.pages) ++ (last ++ [root]) := by
    rw [← List.append_assoc]
    exact s.order_components hs.ordered
  have hwell := hs.wellNamed_runtime cx.pages
  have hlast : last.foldlM Component.attach (library cx.pages s.features) = .ok (s.runtimeFields cx.pages) := by
    by_cases h : s.comparisons.isEmpty = true
    · have hnil := comparator_fields_nil (r := s.request) (List.isEmpty_iff.1 h) cx.pages
      simp [last, h, State.runtimeFields, hnil, pure, Except.pure]
    · have hattach := Component.attach_wellNamed hwell
      simp [last, h, hattach, State.runtimeFields, bind, Except.bind, pure, Except.pure]
  have hattach : (last ++ [root]).foldlM Component.attach (library cx.pages s.features) =
      .ok (s.runtimeFields cx.pages) := by
    have hroot : Component.attach (s.runtimeFields cx.pages) root = .ok (s.runtimeFields cx.pages ++ []) :=
      Component.attach_wellNamed (by simpa [root] using hwell)
    rw [List.append_nil] at hroot
    simp [List.foldlM_append, hlast, hroot, bind, Except.bind, pure, Except.pure]
  have hlink := Component.link_eq_ok hs.ordered horder hattach (s.ownFields cx.settings.exportName code)
  rw [Compiled.assemble, State.closeEntry_emit hcode]
  exact hlink

/-! ## Names -/

namespace Definitions.Family

theorem name_injective (family : Family) {j k : Nat} (h : family.name j = family.name k) : j = k := by
  have hlist := congrArg String.toList h
  simp only [name, String.toList_append, List.append_cancel_left_eq] at hlist
  exact toString_injective (String.toList_inj.1 hlist)

theorem stem_prefix (family : Family) (k : Nat) : family.stem.toList <+: (family.name k).toList := by
  simp [name]

end Definitions.Family

/-- Neither the library nor the comparator has a function that could be a literal, a matcher or the
entry point. -/
theorem runtime_name_ne {pages : Nat} {x : String} (hx : x ∈ declared (s.runtimeFields pages) .functions) :
    x ≠ Compiled.entry ∧ ∀ family ∈ [Definitions.Family.literals, .matchers], ∀ k, x ≠ family.name k := by
  have hlibrary : ∀ f ∈ Feature.all, ∀ y ∈ f.declares .functions, y ≠ Compiled.entry ∧
      ∀ stem ∈ ["fn_", "matcher_"], ¬ stem.toList <+: y.toList := by
    decide +kernel
  have hcompare : ∀ y ∈ Compare.names, y ≠ Compiled.entry ∧ ∀ stem ∈ ["fn_", "matcher_"], ¬ stem.toList <+: y.toList := by
    decide +kernel
  have hnot : x ≠ Compiled.entry ∧ ∀ stem ∈ ["fn_", "matcher_"], ¬ stem.toList <+: x.toList := by
    rw [State.runtimeFields, declared_append, List.mem_append, Compare.fields_comparator, declared_funcs] at hx
    rcases hx with hx | hx
    · obtain ⟨f, -, hf⟩ := declared_library.1 hx
      exact hlibrary f (Feature.mem_all f) x hf
    · exact hcompare x ((Compare.names_funcs _).mem hx)
  refine ⟨hnot.1, fun family hfamily k h => hnot.2 family.stem ?_ (h ▸ family.stem_prefix k)⟩
  simp only [List.mem_cons, List.not_mem_nil, or_false] at hfamily ⊢
  rcases hfamily with rfl | rfl
  · exact .inl rfl
  · exact .inr rfl

/-- Functions that are numbered in order have different names. -/
theorem names_nodup_of_numbered {family : Definitions.Family} {fs : List Func}
    (h : ∀ {k f}, fs[k]? = some f → f.name = family.name k) : (fs.map (·.name)).Nodup := by
  rw [List.nodup_iff_pairwise_ne, List.pairwise_iff_getElem]
  intro j k hj hk hlt heq
  simp only [List.getElem_map, List.length_map] at heq hj hk
  rw [h (List.getElem?_eq_getElem hj), h (List.getElem?_eq_getElem hk)] at heq
  have := family.name_injective heq
  omega

/-- The functions that come from the tree. -/
def State.ownFuncs (s : State) (code : Code) : List Func := s.functions.funcs ++ s.matchers.funcs ++ [s.entry code]

theorem declared_ownFields (exportName : String) (s : State) (code : Code) (space : Space) :
    declared (s.ownFields exportName code) space = match space with
      | .functions => (s.ownFuncs code).map (·.name)
      | .types => if s.functions.funcs.isEmpty then [] else [Closures.type]
      | .tables => if s.functions.funcs.isEmpty then [] else [Closures.table]
      | _ => [] := by
  have hnone (fs : List Func) : fs.filterMap (fun _ => (none : Option String)) = [] := by simp
  by_cases h : s.functions.funcs = []
  all_goals
    cases space <;> simp [State.ownFields, Definitions.literalFields, Definitions.tableFields, h, Definitions.fields,
      State.ownFuncs, declared, Field.defines, List.filterMap_map, hnone]

/-- Where the functions of the tree are, and what else there is. -/
theorem mem_ownFields {exportName : String} {field : Field} : field ∈ s.ownFields exportName code ↔
    (∃ f ∈ s.ownFuncs code, field = .func f) ∨ field = .exports exportName .func Compiled.entry ∨
      (s.functions.funcs ≠ [] ∧ (field = .type Closures.type ⟨[.i32], some .i32⟩ ∨
        field = .table Closures.table s.functions.funcs.length ∨
        field = .elem Closures.table 0 (s.functions.funcs.map (·.name)))) := by
  by_cases h : s.functions.funcs = []
  · simp [State.ownFields, Definitions.literalFields, Definitions.tableFields, Definitions.fields, State.ownFuncs, h]
    grind
  · simp [State.ownFields, Definitions.literalFields, Definitions.tableFields, Definitions.fields, State.ownFuncs, h]
    grind

/-- A function with the environment and locals of its own. -/
theorem TidyLocals.wellScoped {locals : List Local} (h : TidyLocals locals) {f : Func}
    (hdeclared : f.declared = Env.current :: locals.map (·.name))
    (hrefs : ∀ x, (Space.locals, x) ∈ Code.refs f.body → x = Env.current ∨ x ∈ locals.map (·.name)) :
    f.WellScoped where
  nodup := hdeclared ▸ List.nodup_cons.2 ⟨h.env, h.nodup⟩
  refs x hx := hdeclared ▸ List.mem_cons.2 (hrefs x hx)

theorem State.Tidy.frame (h : s.Tidy apps) : TidyLocals s.frame := by
  obtain ⟨outer, hframes⟩ := h.frames_eq
  have hall := h.frames.2
  rw [hframes] at hall
  exact hall _ (.head _)

theorem State.Tidy.words_entry (h : s.Tidy apps) (code : Code) : ∀ l ∈ (s.entry code).locals, l.ty = .i32 := by
  intro l hl
  simp only [State.entry, Compiled.entryFunc, State.entryLocals] at hl
  split at hl
  · rcases List.mem_cons.1 hl with rfl | hl
    · rfl
    · exact h.frame.words l hl
  · exact h.frame.words l hl

/-- The functions of the tree refer to no locals but their own. -/
theorem wellScoped_ownFuncs (h : State.Made apps .initial s code) {f : Func} (hf : f ∈ s.ownFuncs code) :
    f.WellScoped := by
  simp only [State.ownFuncs, List.append_assoc, List.mem_append, List.mem_singleton] at hf
  rcases hf with hf | hf | rfl
  · obtain ⟨k, hk⟩ := List.getElem?_of_mem hf
    obtain ⟨-, hparams, -, hlocals, hrefs⟩ := h.tidy.literals hk
    exact hlocals.wellScoped (by simp [Func.declared, hparams, Local.word]) fun x hx => (hrefs _ hx).imp_left (·.1)
  · obtain ⟨k, hk⟩ := List.getElem?_of_mem hf
    exact (h.tidy.matchers hk).2.1
  · by_cases henv : .environment ∈ s.features
    · refine h.tidy.frame.wellScoped ?_ fun x hx => ?_
      · simp [Func.declared, State.entry, Compiled.entryFunc, State.entryLocals, henv, Local.word]
      · simp only [State.entry, Compiled.entryFunc, State.entryStart, henv, if_true, Code.refs_append, Code.refs_cons,
          Code.refs_nil, Instr.refs, List.append_nil, List.nil_append, List.mem_append, List.mem_singleton,
          Prod.mk.injEq, true_and] at hx
        exact hx.elim .inl fun hx => (h.refs _ hx).imp_left (·.1)
    · have hdeclared : (s.entry code).declared = s.frame.map (·.name) := by
        simp [Func.declared, State.entry, Compiled.entryFunc, State.entryLocals, henv]
      refine ⟨hdeclared ▸ h.tidy.frame.nodup, fun x hx => hdeclared ▸ ?_⟩
      simp only [State.entry, Compiled.entryFunc, State.entryStart, henv, if_false, List.nil_append] at hx
      exact (h.refs _ hx).resolve_left fun hcur => henv hcur.2

/-- The functions of the tree refer to what there is. -/
theorem offers_declared {pages : Nat} {exportName : String} {d : Space × String} {locals : List String}
    (happs : apps → s.functions.funcs ≠ []) (h : s.Offers apps locals d) (hd : d.1 ≠ .locals) :
    d.2 ∈ declared (s.runtimeFields pages ++ s.ownFields exportName code) d.1 := by
  obtain ⟨space, x⟩ := d
  rw [declared_append, State.runtimeFields, declared_append, declared_ownFields, Compare.fields_comparator, declared_funcs]
  cases space with
  | functions =>
    rcases h with ⟨g, hg, hx⟩ | ⟨c, hc, rfl⟩ | hx
    · exact List.mem_append_left _ (List.mem_append_left _ (declared_library.2 ⟨g, hg, hx⟩))
    · have hclosure : c ∈ Compare.closure s.request := by simp [Comparison.mem_closure, Compare.needs, State.request, hc]
      exact List.mem_append_left _ (List.mem_append_right _ (Compare.function_mem hclosure))
    · refine List.mem_append_right _ ?_
      simp only [State.ownFuncs, List.map_append]
      exact List.mem_append_left _ (List.mem_append_right _ hx)
  | types | tables =>
    obtain ⟨rfl, happ⟩ := h
    simp [happs happ]
  | locals => exact absurd rfl hd
  | globals | memories => exact h.elim

theorem State.Tidy.literal_name (h : s.Tidy apps) {x : String} (hx : x ∈ s.functions.funcs.map (·.name)) :
    ∃ k, x = Definitions.Family.literals.name k := by
  obtain ⟨f, hf, rfl⟩ := List.mem_map.1 hx
  obtain ⟨k, hk⟩ := List.getElem?_of_mem hf
  exact ⟨k, (h.literals hk).1⟩

theorem State.Tidy.matcher_name (h : s.Tidy apps) {x : String} (hx : x ∈ s.matchers.funcs.map (·.name)) :
    ∃ k, x = Definitions.Family.matchers.name k := by
  obtain ⟨f, hf, rfl⟩ := List.mem_map.1 hx
  obtain ⟨k, hk⟩ := List.getElem?_of_mem hf
  exact ⟨k, (h.matchers hk).1⟩

theorem names_ownFuncs_nodup (h : s.Tidy apps) : ((s.ownFuncs code).map (·.name)).Nodup := by
  simp only [State.ownFuncs, List.map_append, List.nodup_append, List.map_cons, List.map_nil, List.mem_append,
    List.mem_singleton]
  refine ⟨⟨names_nodup_of_numbered fun hf => (h.literals hf).1, names_nodup_of_numbered fun hf => (h.matchers hf).1, ?_⟩,
    by simp, ?_⟩
  · rintro x hx y hy rfl
    obtain ⟨j, rfl⟩ := h.literal_name hx
    obtain ⟨k, hk⟩ := h.matcher_name hy
    have hhead := congrArg (fun x => x.toList.head?) hk
    simp [Definitions.Family.name, Definitions.Family.literals, Definitions.Family.matchers] at hhead
  · have hstem (family : Definitions.Family) (k : Nat) (hne : ¬ family.stem.toList <+: Compiled.entry.toList) :
        family.name k ≠ Compiled.entry :=
      fun heq => hne (heq ▸ family.stem_prefix k)
    rintro x hx _ rfl
    rcases hx with hx | hx
    · obtain ⟨k, rfl⟩ := h.literal_name hx
      exact hstem .literals k (by decide)
    · obtain ⟨k, rfl⟩ := h.matcher_name hx
      exact hstem .matchers k (by decide)

/-- What the functions of the tree refer to, their locals apart, is there. -/
theorem refs_ownFuncs (h : State.Made apps .initial s code) {f : Func} (hf : f ∈ s.ownFuncs code) {d : Space × String}
    (hd : d ∈ (Field.func f).refs) : ∃ locals, s.Offers apps locals d ∧ d.1 ≠ .locals := by
  obtain ⟨hd, hspace⟩ := List.mem_filter.1 hd
  have hspace : d.1 ≠ .locals := of_decide_eq_true hspace
  simp only [State.ownFuncs, List.append_assoc, List.mem_append, List.mem_singleton] at hf
  rcases hf with hf | hf | rfl
  · obtain ⟨k, hk⟩ := List.getElem?_of_mem hf
    exact ⟨_, (h.tidy.literals hk).2.2.2.2 d hd, hspace⟩
  · obtain ⟨k, hk⟩ := List.getElem?_of_mem hf
    exact ⟨[], ((h.tidy.matchers hk).2.2 d hd).resolve_left hspace, hspace⟩
  · refine ⟨_, h.refs d ?_, hspace⟩
    simp only [State.entry, Compiled.entryFunc, Code.refs_append, List.mem_append] at hd
    refine hd.resolve_left fun hstart => hspace ?_
    simp only [State.entryStart] at hstart
    split at hstart
    · obtain rfl := List.mem_singleton.1 hstart
      rfl
    · cases hstart

/-- **The names of a program resolve.** -/
theorem wellNamed_program (h : State.Made apps .initial s code) (happs : apps → s.functions.funcs ≠ []) :
    (s.program cx code).WellNamed := by
  refine (h.tidy.wellNamed_runtime cx.pages).append (fun space hspace => ?_) (fun space hspace x hx hold => ?_) (fun f hf => ?_) ?_
  · rw [declared_ownFields]
    cases space with
    | functions => exact names_ownFuncs_nodup h.tidy
    | tables => simp only; split <;> simp
    | types => exact absurd rfl hspace
    | _ => exact .nil
  · rw [declared_ownFields] at hx
    cases space with
    | functions =>
      obtain ⟨hentry, hfamily⟩ := runtime_name_ne hold
      simp only [State.ownFuncs, List.map_append, List.append_assoc, List.mem_append, List.map_cons, List.map_nil,
        List.mem_singleton] at hx
      rcases hx with hx | hx | rfl
      · obtain ⟨k, rfl⟩ := h.tidy.literal_name hx
        exact hfamily _ (.head _) k rfl
      · obtain ⟨k, rfl⟩ := h.tidy.matcher_name hx
        exact hfamily _ (.tail _ (.head _)) k rfl
      · exact hentry rfl
    | tables =>
      have hnone : ∀ f ∈ Feature.all, f.declares .tables = [] := by decide +kernel
      rw [State.runtimeFields, declared_append, Compare.fields_comparator, declared_funcs, List.mem_append] at hold
      obtain ⟨f, -, hf⟩ := declared_library.1 (hold.resolve_right (by simp))
      rw [hnone f (Feature.mem_all f)] at hf
      cases hf
    | types => exact absurd rfl hspace
    | locals | globals | memories => cases hx
  · rcases mem_ownFields.1 hf with ⟨g, hg, heq⟩ | heq | ⟨-, heq | heq | heq⟩ <;> cases heq
    exact wellScoped_ownFuncs h hg
  · intro field hfield d hd
    have hown : ∀ f ∈ s.ownFuncs code,
        f.name ∈ declared (s.runtimeFields cx.pages ++ s.ownFields cx.settings.exportName code) .functions := by
      intro f hf
      rw [declared_append, declared_ownFields]
      exact List.mem_append_right _ (List.mem_map_of_mem hf)
    rcases mem_ownFields.1 hfield with ⟨f, hf, rfl⟩ | rfl | ⟨hfuncs, rfl | rfl | rfl⟩
    · obtain ⟨locals, hoffers, hspace⟩ := refs_ownFuncs h hf hd
      exact offers_declared happs hoffers hspace
    · obtain rfl := List.mem_singleton.1 hd
      exact hown (s.entry code) (by simp [State.ownFuncs])
    · cases hd
    · cases hd
    · rcases List.mem_cons.1 hd with rfl | hd
      · simp [declared_ownFields, hfuncs]
      · obtain ⟨x, hx, rfl⟩ := List.mem_map.1 hd
        obtain ⟨f, hf, rfl⟩ := List.mem_map.1 hx
        exact hown f (by simp [State.ownFuncs, hf])

/-! ## Other bodies -/

/-- A module with other bodies in its functions. -/
def Module.mapBodies (m : Module) (g : Code → Code) : Module := ⟨m.fields.map (·.mapBody g)⟩

section

variable {m : Module} {g : Code → Code}

theorem Field.defines_mapBody (field : Field) : (field.mapBody g).defines = field.defines := by
  cases field <;> rfl

theorem declared_mapBodies (m : Module) (g : Code → Code) (space : Space) :
    declared (m.mapBodies g).fields space = declared m.fields space := by
  simp [declared, Module.mapBodies, List.filterMap_map, Field.defines_mapBody]

theorem funcs_mapBodies (m : Module) (g : Code → Code) :
    (m.mapBodies g).funcs = m.funcs.map fun f => { f with body := g f.body } := by
  simp only [Module.funcs, Module.mapBodies, List.filterMap_map, List.map_filterMap]
  congr 1
  funext field
  cases field <;> rfl

/-- Lookups that do not look at functions. -/
theorem findSome?_mapBodies {α : Type} {f : Field → Option α} (hf : ∀ fn, f (.func fn) = none) (l : List Field) :
    (l.map (·.mapBody g)).findSome? f = l.findSome? f := by
  rw [List.findSome?_map]
  congr 1
  funext field
  cases field with
  | func fn => exact (hf _).trans (hf fn).symm
  | _ => rfl

theorem initial_mapBodies (m : Module) (g : Code → Code) : (m.mapBodies g).initial = m.initial := by
  rw [Module.initial, Module.initial, Module.mapBodies]
  congr 1
  · rw [findSome?_mapBodies fun _ => rfl]
  · funext x
    rw [findSome?_mapBodies fun _ => rfl]

theorem slot_mapBodies (m : Module) (g : Code → Code) (table : String) (i : Nat) :
    (m.mapBodies g).slot? table i = m.slot? table i := by
  have hsize : (m.mapBodies g).tableSize table = m.tableSize table := by
    rw [Module.tableSize, Module.tableSize, Module.mapBodies, findSome?_mapBodies fun _ => rfl]
  rw [Module.slot?, Module.slot?, hsize, Module.mapBodies, ← List.map_reverse, findSome?_mapBodies fun _ => rfl]

theorem signature_mapBodies (m : Module) (g : Code → Code) (type : String) :
    (m.mapBodies g).signature? type = m.signature? type := by
  rw [Module.signature?, Module.signature?, Module.mapBodies, ← List.map_reverse, findSome?_mapBodies fun _ => rfl]

theorem Func.WellScoped.thin {f : Func} (h : f.WellScoped) {c : Code} (hc : Peephole.Thinner c f.body) :
    Func.WellScoped { f with body := c } :=
  ⟨h.nodup, fun x hx => h.refs x (hc.refs hx)⟩

/-- Names still resolve where instructions were left out. -/
theorem Module.WellNamed.mapBodies (h : m.WellNamed) (hg : ∀ c, Peephole.Thinner (g c) c) : (m.mapBodies g).WellNamed where
  nodup space hspace := declared_mapBodies m g space ▸ h.nodup space hspace
  locals f hf := by
    obtain ⟨field, hfield, heq⟩ := List.mem_map.1 (Module.mem_funcs.1 hf)
    cases field <;> cases heq
    exact (h.locals _ (Module.mem_funcs.2 hfield)).thin (hg _)
  refs field hfield d hd := by
    obtain ⟨field, hmem, rfl⟩ := List.mem_map.1 hfield
    rw [declared_mapBodies]
    refine h.refs field hmem d ?_
    cases field with
    | func f =>
      obtain ⟨hmem, hspace⟩ := List.mem_filter.1 hd
      exact List.mem_filter.2 ⟨(hg _).refs hmem, hspace⟩
    | _ => exact hd

theorem mem_mapBodies {f : Func} (h : .func f ∈ m.fields) : .func { f with body := g f.body } ∈ (m.mapBodies g).fields :=
  List.mem_map.2 ⟨_, h, rfl⟩

end

/-- The module that is encoded. -/
def Setup.finish (cx : Setup) (m : Module) : Module :=
  if cx.settings.reduceInstructions then Peephole.optimize m else m

/-- What becomes of the body of a function. -/
def Setup.reduce (cx : Setup) (c : Code) : Code :=
  if cx.settings.reduceInstructions then Peephole.reduce c else c

theorem Setup.thinner_reduce (cx : Setup) (c : Code) : Peephole.Thinner (cx.reduce c) c := by
  unfold Setup.reduce
  split
  · exact Peephole.thinner_reduce c
  · exact .refl c

theorem Setup.reduce_of_eq (cx : Setup) {c : Code} (h : Peephole.reduce c = c) : cx.reduce c = c := by
  simp [Setup.reduce, h]

theorem Setup.finish_eq (cx : Setup) (m : Module) : cx.finish m = m.mapBodies cx.reduce := by
  unfold Setup.finish
  split
  · rename_i h
    have hreduce : cx.reduce = Peephole.dropPops ∘ Peephole.cancelAll := by
      funext c
      simp [Setup.reduce, h, Peephole.reduce]
    rw [Module.mapBodies, hreduce]
    rfl
  · rename_i h
    have hfields : m.fields.map (·.mapBody cx.reduce) = m.fields := by
      refine List.map_id'' (fun field => ?_) _
      cases field <;> simp [Field.mapBody, Setup.reduce, h]
    rw [Module.mapBodies, hfields]

/-! ## Compiling -/

theorem State.Tidy.initial : State.initial.Tidy apps :=
  ⟨.nil, nofun, nofun, by simp [State.initial, Definitions.withRoot], by
    intro frame hf
    obtain rfl := List.mem_singleton.1 hf
    exact .nil⟩

/-- What lowering a whole tree gives. -/
theorem Node.lower_initial (hcx : cx.routes = .direct) (tree : Node) (happs : 0 < tree.applications → apps) :
    Lower.Spec (tree.lower cx) .initial (tree.WellFormed []) (tree.Lowered apps cx [] .initial) :=
  lower_spec hcx tree ⟨.initial, rfl, by simp⟩ happs

theorem Node.WellFormed.lowers (hcx : cx.routes = .direct) {tree : Node} (h : tree.WellFormed []) :
    ∃ code s, tree.lower cx .initial = .ok code s := by
  have hspec := tree.lower_initial hcx (fun _ => trivial)
  unfold Lower.Spec at hspec
  cases hlower : tree.lower cx .initial with
  | error fault t =>
    rw [hlower] at hspec
    exact absurd h hspec
  | ok code s => exact ⟨code, s, rfl⟩

theorem Module.succeeds_encode {m : Module} {names : Bool} : Succeeds (m.encode names) ↔ m.WellNamed := by
  rw [Module.encode, succeeds_map]
  exact resolve_succeeds_iff

theorem ofModule_eq (cx : Setup) (m : Module) :
    Compiled.ofModule cx m = match (cx.finish m).encode cx.settings.enableNameSection with
      | .ok bytes => .ok ⟨cx.finish m, bytes⟩
      | .error e => .error (.malformed e) := rfl

theorem ofModule_eq_ok {m : Module} {c : Compiled} :
    Compiled.ofModule cx m = .ok c ↔
      c.module = cx.finish m ∧ (cx.finish m).encode cx.settings.enableNameSection = .ok c.bytes := by
  obtain ⟨module, bytes⟩ := c
  rw [ofModule_eq]
  cases (cx.finish m).encode cx.settings.enableNameSection <;> simp [@eq_comm _ module]

/-- **What compiling a tree comes to.** -/
theorem Setup.compile_eq_ok (hcx : cx.routes = .direct) {tree : Node} {c : Compiled} :
    cx.compile tree = .ok c ↔ cx.settings.validate = .ok () ∧ ∃ code s, tree.lower cx .initial = .ok code s ∧
      c.module = cx.finish (s.program cx code) ∧
      (cx.finish (s.program cx code)).encode cx.settings.enableNameSection = .ok c.bytes := by
  rw [Setup.compile]
  cases cx.settings.validate with
  | error e => simp
  | ok u =>
    have hspec := tree.lower_initial hcx (fun _ => trivial)
    unfold Lower.Spec at hspec
    cases hlower : tree.lower cx .initial with
    | error fault t => simp
    | ok code s =>
      rw [hlower] at hspec
      simp only
      rw [assemble_eq hspec.2.tidy hspec.2.grew.code]
      simp only
      constructor
      · intro h
        refine ⟨trivial, code, s, rfl, ofModule_eq_ok.1 ?_⟩
        cases hm : Compiled.ofModule cx (s.program cx code) with
        | ok c' => simpa [hm, Except.mapError] using h
        | error e => simp [hm, Except.mapError] at h
      · rintro ⟨-, code', s', heq, hc⟩
        cases heq
        rw [ofModule_eq_ok.2 hc]
        rfl

/-- A lowered tree whose names resolve is compiled. -/
theorem Setup.compile_lowered (hcx : cx.routes = .direct) (hvalid : cx.settings.validate = .ok ()) {tree : Node}
    (hlower : tree.lower cx .initial = .ok code s) (hm : (s.program cx code).WellNamed) :
    ∃ bytes, cx.compile tree = .ok ⟨cx.finish (s.program cx code), bytes⟩ := by
  have hfinish : (cx.finish (s.program cx code)).WellNamed := cx.finish_eq _ ▸ hm.mapBodies cx.thinner_reduce
  obtain ⟨bytes, hbytes⟩ := Module.succeeds_encode.2 hfinish
  exact ⟨bytes, (Setup.compile_eq_ok hcx).2 ⟨hvalid, code, s, hlower, rfl, hbytes⟩⟩

/-- The names of a lowered tree resolve if there is a function literal where functions are applied. -/
theorem Node.Lowered.wellNamed {tree : Node} (h : tree.Lowered (0 < tree.literals) cx [] .initial code s) :
    (s.program cx code).WellNamed := by
  refine wellNamed_program h.toMade fun hlits hnil => ?_
  have hlen := h.literals
  rw [hnil] at hlen
  simp [State.initial, Definitions.withRoot] at hlen
  omega

/-- A tree that is well formed, and has a function literal if it applies functions, is compiled. -/
theorem Setup.compile_succeeds (hcx : cx.routes = .direct) (hvalid : cx.settings.validate = .ok ()) {tree : Node}
    (htree : tree.WellFormed []) (happs : 0 < tree.applications → 0 < tree.literals) : ∃ code s bytes,
      cx.compile tree = .ok ⟨cx.finish (s.program cx code), bytes⟩ ∧ (s.program cx code).WellNamed ∧
        tree.Lowered (0 < tree.literals) cx [] .initial code s := by
  obtain ⟨code, s, hlower⟩ := htree.lowers hcx
  have hspec := tree.lower_initial hcx happs
  rw [Lower.Spec, hlower] at hspec
  have hlowered := hspec.2
  obtain ⟨bytes, hbytes⟩ := Setup.compile_lowered hcx hvalid hlower hlowered.wellNamed
  exact ⟨code, s, bytes, hbytes, hlowered.wellNamed, hlowered⟩

end WasmBackend
