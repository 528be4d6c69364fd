/-
Whole programs. The module of a lowered tree is a target (`State.target`)
that has all that the tree's code relies on, its memory is empty when it
starts (`holds_initial`), and its entry point does what the tree does
(`Target.entry_sim`).
-/
import WasmBackend.Proofs.Assembly.Program
import WasmBackend.Proofs.Simulation.Nodes

namespace WasmBackend

open Library
open Peephole (Popped)

/-! ## Fields by kind -/

theorem findSome?_unique {α β : Type} {l : List α} {f : α → Option β} {a : α} {b : β} (ha : a ∈ l) (hb : f a = some b)
    (h : ∀ x ∈ l, ∀ y, f x = some y → y = b) : l.findSome? f = some b := by
  cases hf : l.findSome? f with
  | none =>
    rw [List.findSome?_eq_none_iff.1 hf a ha] at hb
    cases hb
  | some y =>
    obtain ⟨x, hx, hy⟩ := List.exists_of_findSome?_eq_some hf
    rw [h x hx y hy]

section

variable {apps : Prop} {cx : Setup} {s : State} {code : Code} {pages : Nat} {field : Field}

/-- What the library has beside functions. -/
theorem mem_runtimeFields (h : field ∈ s.runtimeFields pages) : (∃ f, field = .func f) ∨
    .allocator ∈ s.features ∧ (field = .memory Heap.memory pages ∨ field = .global Heap.top true Word.heapStart ∨
      field = .exports Heap.memory .memory Heap.memory) := by
  rw [State.runtimeFields, List.mem_append, Compare.fields_comparator] at h
  rcases h with h | h
  · obtain ⟨f, hf, hfield⟩ := mem_library.1 h
    have hfuncs {fs : List Func} (h : field ∈ fs.map .func) : ∃ f, field = .func f := by
      obtain ⟨f, -, rfl⟩ := List.mem_map.1 h
      exact ⟨f, rfl⟩
    cases f with
    | allocator =>
      simp only [Feature.component, allocator, List.mem_cons, List.not_mem_nil, or_false] at hfield
      rcases hfield with rfl | rfl | rfl | rfl
      · exact .inr ⟨hf, .inl rfl⟩
      · exact .inr ⟨hf, .inr (.inl rfl)⟩
      · exact .inl ⟨_, rfl⟩
      · exact .inr ⟨hf, .inr (.inr rfl)⟩
    | _ => exact .inl (hfuncs hfield)
  · obtain ⟨f, -, rfl⟩ := List.mem_map.1 h
    exact .inl ⟨f, rfl⟩

theorem mem_program : field ∈ (s.program cx code).fields ↔
    field ∈ s.runtimeFields cx.pages ∨ field ∈ s.ownFields cx.settings.exportName code := List.mem_append

/-- The fields of a program, by kind. -/
theorem program_cases (h : field ∈ (s.program cx code).fields) : (∃ f, field = .func f) ∨
    (∃ name kind target, field = .exports name kind target) ∨
    (.allocator ∈ s.features ∧ (field = .memory Heap.memory cx.pages ∨
      field = .global Heap.top true Word.heapStart)) ∨
    (s.functions.funcs ≠ [] ∧ (field = .type Closures.type ⟨[.i32], some .i32⟩ ∨
      field = .table Closures.table s.functions.funcs.length ∨
      field = .elem Closures.table 0 (s.functions.funcs.map (·.name)))) := by
  rcases mem_program.1 h with h | h
  · rcases mem_runtimeFields h with h | ⟨ha, h | h | rfl⟩
    · exact .inl h
    · exact .inr (.inr (.inl ⟨ha, .inl h⟩))
    · exact .inr (.inr (.inl ⟨ha, .inr h⟩))
    · exact .inr (.inl ⟨_, _, _, rfl⟩)
  · rcases mem_ownFields.1 h with ⟨f, -, h⟩ | rfl | h
    · exact .inl ⟨f, h⟩
    · exact .inr (.inl ⟨_, _, _, rfl⟩)
    · exact .inr (.inr (.inr h))

/-- A program has all fields of its library. -/
theorem mem_program_library (h : field ∈ library cx.pages s.features) : field ∈ (s.program cx code).fields :=
  mem_program.2 (.inl (List.mem_append_left _ h))

theorem mem_program_comparator (h : field ∈ (comparator s.request cx.pages).fields) :
    field ∈ (s.program cx code).fields :=
  mem_program.2 (.inl (List.mem_append_right _ h))

theorem mem_program_func {f : Func} (h : f ∈ s.ownFuncs code) : .func f ∈ (s.program cx code).fields :=
  mem_program.2 (.inr (mem_ownFields.2 (.inl ⟨f, h, rfl⟩)))

theorem tableSize_program (h : s.functions.funcs ≠ []) :
    (s.program cx code).tableSize Closures.table = s.functions.funcs.length := by
  have hmem : .table Closures.table s.functions.funcs.length ∈ (s.program cx code).fields :=
    mem_program.2 (.inr (mem_ownFields.2 (.inr (.inr ⟨h, .inr (.inl rfl)⟩))))
  rw [Module.tableSize, findSome?_unique hmem (if_pos rfl), Option.getD_some]
  intro field hfield n hn
  rcases program_cases hfield with ⟨f, rfl⟩ | ⟨_, _, _, rfl⟩ | ⟨-, rfl | rfl⟩ | ⟨-, rfl | rfl | rfl⟩ <;> simp at hn
  exact hn.symm

/-- The table of a program has a slot for every function literal. -/
theorem slot_program {k : Nat} {f : Func} (h : s.functions.funcs[k]? = some f) :
    (s.program cx code).slot? Closures.table k = some f.name := by
  obtain ⟨hlt, -⟩ := List.getElem?_eq_some_iff.1 h
  have hne : s.functions.funcs ≠ [] := List.ne_nil_of_length_pos (by omega)
  have hmem : .elem Closures.table 0 (s.functions.funcs.map (·.name)) ∈ (s.program cx code).fields :=
    mem_program.2 (.inr (mem_ownFields.2 (.inr (.inr ⟨hne, .inr (.inr rfl)⟩))))
  rw [Module.slot?, tableSize_program hne, if_pos hlt]
  refine findSome?_unique (List.mem_reverse.2 hmem) (by simp [h]) fun field hfield n hn => ?_
  rcases program_cases (List.mem_reverse.1 hfield) with ⟨f, rfl⟩ | ⟨_, _, _, rfl⟩ | ⟨-, rfl | rfl⟩ |
    ⟨-, rfl | rfl | rfl⟩ <;> simp [h] at hn
  exact hn.symm

theorem signature_program (h : s.functions.funcs ≠ []) :
    (s.program cx code).signature? Closures.type = some ⟨[.i32], some .i32⟩ := by
  have hmem : .type Closures.type ⟨[.i32], some .i32⟩ ∈ (s.program cx code).fields :=
    mem_program.2 (.inr (mem_ownFields.2 (.inr (.inr ⟨h, .inl rfl⟩))))
  refine findSome?_unique (List.mem_reverse.2 hmem) (if_pos rfl) fun field hfield n hn => ?_
  rcases program_cases (List.mem_reverse.1 hfield) with ⟨f, rfl⟩ | ⟨_, _, _, rfl⟩ | ⟨-, rfl | rfl⟩ |
    ⟨-, rfl | rfl | rfl⟩ <;> simp at hn
  exact hn.symm

/-- A program starts with empty memory, and the heap at its start. -/
theorem initial_program (h : .allocator ∈ s.features) :
    (s.program cx code).initial.memory = .zeros (cx.pages * Module.pageSize) ∧
      (s.program cx code).initial.globals Heap.top = some Word.heapStart := by
  have hlibrary {field : Field} (hf : field ∈ (Feature.allocator.component cx.pages).fields) :
      field ∈ (s.program cx code).fields := mem_program_library (mem_library.2 ⟨_, h, hf⟩)
  constructor
  · simp only [Module.initial]
    rw [findSome?_unique (b := cx.pages * Module.pageSize) (hlibrary (.head _)), Option.getD_some]
    · rfl
    · intro field hfield n hn
      rcases program_cases hfield with ⟨f, rfl⟩ | ⟨_, _, _, rfl⟩ | ⟨-, rfl | rfl⟩ | ⟨-, rfl | rfl | rfl⟩ <;> simp at hn
      exact hn.symm
  · refine findSome?_unique (hlibrary (.tail _ (.head _))) (if_pos rfl) fun field hfield n hn => ?_
    rcases program_cases hfield with ⟨f, rfl⟩ | ⟨_, _, _, rfl⟩ | ⟨-, rfl | rfl⟩ | ⟨-, rfl | rfl | rfl⟩ <;> simp at hn
    exact hn.symm

end

/-! ## Targets -/

/-- A lowered tree, with the module that it is run in. -/
def State.target (s : State) (ops : FloatOps) (cx : Setup) (code : Code) : Target :=
  ⟨ops, cx.finish (s.program cx code), s.features, s.comparisons, cx.areWords, cx.pages,
    cx.settings.reduceInstructions⟩

section

variable {apps : Prop} {cx : Setup} {s : State} {code : Code} {m : Module}

theorem limit_le (h : cx.settings.validate = .ok ()) : 4 ≤ cx.pages * Module.pageSize ∧
    cx.pages * Module.pageSize ≤ 2 ^ 27 :=
  Settings.memory_le h

/-- Only environments have parents. -/
theorem State.Offers.environment {locals : List String} (h : s.Offers apps locals (.functions, Env.parent))
    (hs : s.Tidy apps) : .environment ∈ s.features := by
  have hdeclares : Env.parent ∈ Feature.environment.declares .functions := declares_environment _ (by simp)
  rcases h with ⟨g, hg, hx⟩ | ⟨c, -, hx⟩ | hx
  · exact Feature.declares_disjoint hx hdeclares ▸ hg
  · cases c <;> exact absurd hx (by decide)
  · obtain ⟨k, hk⟩ := hs.matcher_name hx
    have hstem := hk ▸ Definitions.Family.matchers.stem_prefix k
    exact absurd hstem (by decide)

/-- Reducing does not change the library: it makes no floats for itself, and leaves no scope. -/
theorem reduce_runtime {pages : Nat} {f : Func} (h : .func f ∈ s.runtimeFields pages) :
    Peephole.reduce f.body = f.body := by
  suffices hrefs : ∀ x ∈ [Floats.new, Env.parent], (.functions, x) ∉ Code.refs f.body from
    Peephole.reduce_eq (hrefs _ (.head _)) (hrefs _ (.tail _ (.head _)))
  have hlibrary : ∀ g ∈ Feature.all, ∀ fn ∈ g.funcs, ∀ x ∈ [Floats.new, Env.parent],
      (.functions, x) ∉ Code.refs fn.body := by
    decide +kernel
  have hnames : ∀ c ∈ Comparison.all, ∀ x ∈ [Floats.new, Env.parent], x ≠ Floats.get ∧ x ∉ [Lists.head, Lists.tail] ∧
      x ≠ Compare.function c ∧ x ≠ Compare.listFunction c := by
    decide +kernel
  intro x hx hmem
  have hmem : (.functions, x) ∈ (Field.func f).refs := List.mem_filter.2 ⟨hmem, rfl⟩
  rw [State.runtimeFields, List.mem_append, Compare.fields_comparator] at h
  rcases h with h | h
  · obtain ⟨g, -, hf⟩ := mem_library.1 h
    exact hlibrary g (Feature.mem_all g) f (Feature.funcs_component.1 hf) x hx (List.mem_filter.1 hmem).1
  · obtain ⟨fn, hfn, heq⟩ := List.mem_map.1 h
    cases heq
    have hne (c : Comparison) := hnames c (by cases c <;> decide) x hx
    rcases Compare.mem_funcs.1 hfn with ⟨c, -, rfl⟩ | ⟨-, c, -, -, rfl⟩
    · rcases ((Compare.refs_anyFunc s.request c).2 _ hmem).2 with ⟨hx, -⟩ | ⟨hx, -⟩ | ⟨hx, -⟩
      · exact (hne c).1 hx
      · exact (hne c).2.2.2 hx
      · exact (hne .eq).2.2.1 hx
    · rcases ((Compare.refs_listFunc c).2 _ hmem).2 with hx | hx | hx | hx
      · exact (hne c).2.1 hx
      · exact (hne c).2.2.2 hx
      · exact (hne .eq).2.2.1 hx
      · exact (hne c.strict).2.2.1 hx

theorem sound_target (ops : FloatOps) (hs : s.Tidy apps) (hvalid : cx.settings.validate = .ok ())
    (hm : (s.program cx code).WellNamed) : (s.target ops cx code).Sound := by
  have hwell : (cx.finish (s.program cx code)).WellNamed := cx.finish_eq _ ▸ hm.mapBodies cx.thinner_reduce
  have hmem : ∀ field ∈ s.runtimeFields cx.pages, field ∈ (cx.finish (s.program cx code)).fields := by
    intro field hfield
    have hsame : field.mapBody cx.reduce = field := by
      cases field with
      | func f => rw [Field.mapBody, cx.reduce_of_eq (reduce_runtime hfield)]
      | _ => rfl
    rw [cx.finish_eq]
    exact List.mem_map.2 ⟨field, mem_program.2 (.inl hfield), hsame⟩
  have hlibrary : ∀ field ∈ library cx.pages s.features, field ∈ (cx.finish (s.program cx code)).fields :=
    fun field h => hmem field (List.mem_append_left _ h)
  exact
    { needs := fun _ hf _ hg => hs.ordered.needs_mem hf hg
      supports := fun _ hf => hwell.supports hs.ordered hlibrary hf
      compares := hwell.compares hs.ordered hlibrary (fun field h => hmem field (List.mem_append_right _ h))
        (fun h => of_decide_eq_true h) fun h => of_decide_eq_true h
      limit_le := (limit_le hvalid).2 }

/-- Memory is empty at the start. -/
theorem holds_initial (ops : FloatOps) (s : State) (code : Code) (hvalid : cx.settings.validate = .ok ()) :
    ∃ L, (s.target ops cx code).Holds L .empty (s.target ops cx code).module.initial := by
  obtain ⟨hsize, hlimit⟩ := limit_le hvalid
  have hinitial : (s.target ops cx code).module.initial = (s.program cx code).initial := by
    rw [State.target, cx.finish_eq, initial_mapBodies]
  rw [hinitial]
  by_cases h : .allocator ∈ s.features
  · have hstart : (s.program cx code).initial.memory = .zeros (cx.pages * Module.pageSize) ∧
        (s.program cx code).initial.globals Heap.top = some Word.heapStart := initial_program h
    obtain ⟨hmemory, htop⟩ := hstart
    refine ⟨⟨(s.program cx code).initial.memory, 4, [], decide (.float ∈ s.features), decide (.list ∈ s.features), ?_,
      by decide, by simp, .nil⟩, ⟨rfl, fun _ => ?_, fun _ => htop, fun _ => Nat.le_refl _, fun _ => Nat.le_refl _,
      fun _ _ => rfl, fun ha => absurd h ha, rfl, rfl, rfl, by simp⟩⟩
    · rw [hmemory]
      exact hsize
    · simp only [hmemory]
      rfl
  · exact ⟨⟨(s.program cx code).initial.memory, 0, [], decide (.float ∈ s.features), decide (.list ∈ s.features),
      Nat.zero_le _, Nat.zero_le _, by simp, .nil⟩, ⟨rfl, fun ha => absurd ha h, fun ha => absurd ha h,
      fun ha => absurd ha h, fun ha => absurd ha h, fun _ ha => absurd ha h, fun _ => rfl, rfl, rfl, rfl, by simp⟩⟩

/-- The functions of a tree in its module. -/
theorem func_target (ops : FloatOps) (hm : (s.program cx code).WellNamed) {f : Func} (hf : f ∈ s.ownFuncs code) :
    (s.target ops cx code).module.func? f.name = some { f with body := cx.reduce f.body } := by
  rw [State.target, cx.finish_eq]
  exact (hm.mapBodies cx.thinner_reduce).func? (mem_mapBodies (mem_program_func hf))

/-- A program has its function literals and matchers. -/
theorem realizes_target (ops : FloatOps) (h : State.Made apps .initial s code) (hm : (s.program cx code).WellNamed)
    (hlen : s.functions.funcs.length ≤ 2 ^ 32) : (s.target ops cx code).Realizes cx s where
  features _ := id
  comparisons _ := id
  literals {k f} hf := by
    obtain ⟨hlt, -⟩ := List.getElem?_eq_some_iff.1 hf
    have hne : s.functions.funcs ≠ [] := List.ne_nil_of_length_pos (by omega)
    have hmem : f ∈ s.ownFuncs code := by simp [State.ownFuncs, List.mem_of_getElem? hf]
    obtain ⟨-, hparams, hresult, hlocals, -⟩ := h.tidy.literals hf
    refine ⟨by omega, ?_, func_target ops hm hmem, ?_, hparams, hresult, hlocals.words,
      (wellScoped_ownFuncs h hmem).thin (cx.thinner_reduce _)⟩
    · rw [State.target, cx.finish_eq, slot_mapBodies, slot_program hf]
    · rw [State.target, cx.finish_eq, signature_mapBodies, signature_program hne]
  matchers f hf := func_target ops hm (by simp [State.ownFuncs, hf])
  asWords := rfl

/-- The body of the entry point once it was reduced: code for the same tree, in which the environment
may not be restored at the end. -/
theorem reduce_entry (ops : FloatOps) (h : State.Made apps .initial s code) {tree : Node}
    (hcode : tree.Emits (s.target ops cx code) .word [] code) :
    ∃ c, tree.Emits (s.target ops cx code) .word [] c ∧ Peephole.Thinner c code ∧
      (cx.reduce (s.entryStart ++ code) = s.entryStart ++ c ∨ cx.settings.reduceInstructions = true ∧
        .environment ∈ s.features ∧ Popped (cx.reduce (s.entryStart ++ code)) (s.entryStart ++ c)) := by
  by_cases hr : cx.settings.reduceInstructions = true
  · have hstart (c : Code) : Peephole.cancel (s.entryStart ++ c) = s.entryStart ++ Peephole.cancel c := by
      unfold State.entryStart
      split <;> simp
    -- pairs are only cancelled in the code of the tree
    obtain ⟨c, heq, hc, hthin⟩ := Peephole.cancelAll_induction
      (P := fun body => ∃ c, body = s.entryStart ++ c ∧ tree.Emits (s.target ops cx code) .word [] c ∧
        Peephole.Thinner c code)
      (fun _ ⟨c, heq, hc, hthin⟩ => ⟨Peephole.cancel c, heq ▸ hstart c, Node.Emits.cancel hr tree hc,
        (Peephole.thinner_cancel c).trans hthin⟩) (s.entryStart ++ code) ⟨code, rfl, hcode, .refl _⟩
    have hreduce : cx.reduce (s.entryStart ++ code) = Peephole.dropPops (s.entryStart ++ c) := by
      simp [Setup.reduce, hr, Peephole.reduce, heq]
    refine ⟨c, hc, hthin, ?_⟩
    rw [hreduce]
    by_cases henv : .environment ∈ s.features
    · exact .inr ⟨hr, henv, Peephole.popped_dropPops _⟩
    · refine .inl (Peephole.dropPops_eq fun hmem => henv ?_)
      have hmem : (.functions, Env.parent) ∈ Code.refs code := by
        refine hthin.refs ?_
        simpa [State.entryStart, henv] using hmem
      exact (h.refs _ hmem).environment h.tidy
  · exact ⟨code, hcode, .refl _, .inl (by simp [Setup.reduce, hr])⟩

end

/-! ## The entry point -/

namespace Target

variable {T : Target} {n : Nat} {L : Layout} {f : Func} {start code : Code} {tree : Node}

/-- The locals of the entry point at its start. -/
theorem enter_entry (hparams : f.params = []) (hlocals : ∀ l ∈ f.locals, l.ty = .i32) :
    ∃ l, f.enter [] = some (l, []) ∧ ∀ x ∈ f.locals.map (·.name), l x = some (.word 0) := by
  refine ⟨fun x => (f.locals.map fun l => (l.name, Operand.zero l.ty)).lookup x, by simp [Func.enter, hparams],
    fun x hx => lookup_locals hlocals hx⟩

/-- **The entry point does what the tree does.** -/
theorem entry_sim (hT : T.Sound) (hL : T.Holds L .empty T.module.initial)
    (hf : T.module.func? Compiled.entry = some f) (hparams : f.params = []) (hresult : f.result = some .i32)
    (hlocals : ∀ l ∈ f.locals, l.ty = .i32)
    (hstart : start = if .environment ∈ T.features then [.i32Const Word.rootEnv, .localSet Env.current] else [])
    (hrefs : ∀ x, (Space.locals, x) ∈ Code.refs (start ++ code) → x ∈ f.locals.map (·.name))
    (hbody : f.body = start ++ code ∨ T.reduced = true ∧ .environment ∈ T.features ∧ Popped f.body (start ++ code))
    (hcode : tree.Emits T .word [] code) :
    T.Sim (n + 1) L ⟨[], fun _ => none, T.module.initial⟩ [.call Compiled.entry] (tree.eval T.meaning n)
      fun d L' t => ∃ w, L'.Represents w d ∧ t.stack = [.word w] := by
  obtain ⟨l, henter, hl⟩ := enter_entry hparams hlocals
  have hrefs' (x : String) (hx : (Space.locals, x) ∈ Code.refs code) : l x = some (.word 0) :=
    hl x (hrefs x (by simp [hx]))
  -- in the outermost environment, if there are any
  have hsim : T.Sim n L ⟨[], l, T.module.initial⟩ (start ++ code) (tree.eval T.meaning n)
      fun d L' t => ∃ w, L'.Represents w d ∧ t.stack = [.word w] := by
    have hpushes (l' : String → Option Operand) (hready : T.Ready L [] [] code ⟨[], l', T.module.initial⟩) :
        T.Sim n L ⟨[], l', T.module.initial⟩ code (tree.eval T.meaning n)
          fun d L' t => ∃ w, L'.Represents w d ∧ t.stack = [.word w] := by
      refine (Target.bodies hT n tree [] [] code hcode L .empty _ hL hready).mono fun d L' t _ hQ => ?_
      obtain ⟨⟨_, ⟨w, rfl, hw⟩, hstack⟩, -⟩ := hQ
      exact ⟨w, hw, hstack⟩
    by_cases henv : .environment ∈ T.features
    · rw [if_pos henv] at hstart
      have hcur : l Env.current = some (.word 0) := hl _ (hrefs _ (by simp [hstart, Instr.refs]))
      have hset : start.Settles T.ops T.module ⟨[], l, T.module.initial⟩
          (.next ⟨[], withEnv l Word.rootEnv, T.module.initial⟩) := .of_eq 0 fun _ => by
        simp [hstart, hcur]
        rfl
      refine (hpushes _ ⟨fun x hx => ?_, fun _ => ⟨Word.rootEnv, by simp [withEnv], .root⟩⟩).prepend hset (.refl L)
      by_cases hx' : x = Env.current
      · exact ⟨Word.rootEnv, by simp [withEnv, hx']⟩
      · exact ⟨0, by simpa [withEnv, hx'] using hrefs' x hx⟩
    · rw [if_neg henv] at hstart
      subst hstart
      exact hpushes l ⟨fun x hx => ⟨0, hrefs' x hx⟩, fun h => absurd h henv⟩
  have hsim' : T.Sim n L ⟨[], l, T.module.initial⟩ f.body (tree.eval T.meaning n)
      fun d L' t => ∃ w, L'.Represents w d ∧ t.stack = [.word w] := by
    rcases hbody with hbody | ⟨hr, henv, hpopped⟩
    · exact hbody ▸ hsim
    · refine hsim.of_popped (hT.supports _ henv) hr hpopped fun d L' t u hstack hQ => ?_
      obtain ⟨w, hw, ht⟩ := hQ
      exact ⟨w, hw, hstack.trans ht⟩
  refine Sim.call (fun calls => by simp) hf henter hresult hsim' fun d L' t _ hQ => ?_
  obtain ⟨w, hw, hstack⟩ := hQ
  exact ⟨w, hstack, w, hw, rfl⟩

end Target

end WasmBackend
