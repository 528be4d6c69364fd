/-
**The code of a node gives back the environment** (`code_restores`), in every
module that is compiled: what is called by name has the signature that code of
trees expects, only three functions write to memory, and what is called
through the table is a function literal.
-/
import WasmBackend.Proofs.Compilation.Acceptance
import WasmBackend.Proofs.Compilation.Closures
import WasmBackend.Proofs.Compilation.WellTyped
import WasmBackend.Proofs.Simulation.Restoring

namespace WasmBackend

open Library Definitions

/-! ## Functions of a program -/

theorem Library.Compare.quiet_funcs {r : CompareRequest} {f : Func} (h : f ∈ Compare.funcs r) :
    f.body.quiet = true := by
  have hany : ∀ c ∈ Comparison.all, ∀ floats ∈ [false, true], ∀ lists ∈ [false, true],
      (Compare.anyFunc ⟨[], floats, lists⟩ c).body.quiet = true := by
    decide +kernel
  have hlist : ∀ c ∈ Comparison.all, (Compare.listFunc c).body.quiet = true := by
    decide +kernel
  have hc (c : Comparison) : c ∈ Comparison.all := by cases c <;> decide
  rcases Compare.mem_funcs.1 h with ⟨c, -, rfl⟩ | ⟨-, c, -, -, rfl⟩
  · exact hany c (hc c) r.floats (by cases r.floats <;> decide) r.lists (by cases r.lists <;> decide)
  · exact hlist c (hc c)

theorem Node.quiet_lower {cx : Setup} {node : Node} {s t : State} {code : Code} (h : node.lower cx s = .ok code t) :
    code.quiet = true := by
  obtain ⟨runs, hwalk⟩ := node.exists_walk h
  exact (node.wrote_walk hwalk).quiet

section

variable {apps : Prop} {cx : Setup} {s : State} {code : Code} {x : String}

/-- All functions of a program but those that make cells are quiet. -/
theorem quiet_program {tree : Node} (hlower : tree.lower cx .initial = .ok code s) {f : Func}
    (hf : .func f ∈ (s.program cx code).fields) : f.name ∈ writers ∨ f.body.quiet = true := by
  obtain ⟨runs, hwalk⟩ := tree.exists_walk hlower
  have hcloses := tree.closes_walk hwalk rfl
  have hwrote := tree.wrote_walk hwalk
  rcases mem_program.1 hf with hf | hf
  · rw [State.runtimeFields, List.mem_append, Compare.fields_comparator] at hf
    rcases hf with hf | hf
    · have hlibrary : ∀ g ∈ Feature.all, ∀ fn ∈ g.funcs, fn.name ∈ writers ∨ fn.body.quiet = true := by
        decide +kernel
      obtain ⟨g, -, hg⟩ := mem_library.1 hf
      exact hlibrary g (Feature.mem_all g) f (Feature.funcs_component.1 hg)
    · obtain ⟨fn, hfn, heq⟩ := List.mem_map.1 hf
      cases heq
      exact .inr (Compare.quiet_funcs hfn)
  · rcases mem_ownFields.1 hf with ⟨g, hg, heq⟩ | heq | ⟨-, heq | heq | heq⟩ <;> cases heq
    simp only [State.ownFuncs, List.append_assoc, List.mem_append, List.mem_singleton] at hg
    right
    rcases hg with hg | hg | rfl
    · rw [hcloses.funcs] at hg
      obtain ⟨run, hrun, rfl⟩ := List.mem_map.1 ((List.mem_append.1 hg).resolve_left nofun)
      exact Node.quiet_lower (hcloses.lowers run hrun)
    · exact (hwrote.matchers f hg).resolve_left nofun
    · have hstart : s.entryStart.quiet = true := by
        unfold State.entryStart
        split <;> rfl
      simp [State.entry, Compiled.entryFunc, hstart, hwrote.quiet]

/-- A function of a module is one of the program, reduced. -/
theorem func_finish {fn : Func} (h : (cx.finish (s.program cx code)).func? x = some fn) :
    ∃ f, .func f ∈ (s.program cx code).fields ∧ f.name = x ∧ fn = { f with body := cx.reduce f.body } := by
  have hmem := List.mem_of_find?_eq_some h
  have hname : fn.name = x := by simpa using List.find?_some h
  rw [cx.finish_eq, funcs_mapBodies] at hmem
  obtain ⟨f, hf, rfl⟩ := List.mem_map.1 hmem
  exact ⟨f, Module.mem_funcs.1 hf, hname, rfl⟩

/-- At the start, nothing on the heap is in use. -/
theorem usedTo_initial (h : .allocator ∈ s.features) :
    (cx.finish (s.program cx code)).initial.UsedTo (cx.pages * Module.pageSize) Word.heapStart.toNat := by
  have hinitial : (s.program cx code).initial.memory = .zeros (cx.pages * Module.pageSize) ∧ _ := initial_program h
  rw [cx.finish_eq, initial_mapBodies]
  exact ⟨hinitial.2, by rw [hinitial.1]; rfl, Nat.le_refl _, by decide⟩

/-- Only function literals are in the table of a program. -/
theorem slot_of_program (hs : s.Tidy apps) {table : String} {i : Nat}
    (h : (s.program cx code).slot? table i = some x) : ∃ k, x = Family.literals.name k := by
  unfold Module.slot? at h
  split at h
  · obtain ⟨field, hfield, hx⟩ := List.exists_of_findSome?_eq_some h
    rcases program_cases (List.mem_reverse.1 hfield) with ⟨f, rfl⟩ | ⟨_, _, _, rfl⟩ | ⟨-, rfl | rfl⟩ |
      ⟨-, rfl | rfl | rfl⟩ <;> simp at hx
    obtain ⟨-, f, hf, rfl⟩ := hx
    exact hs.literal_name (List.mem_map_of_mem (List.mem_of_getElem? hf))
  · cases h

theorem hidesAlloc_finish (hs : s.Tidy apps) : (cx.finish (s.program cx code)).HidesAlloc := by
  intro table type i f h
  obtain ⟨-, -, hslot, -⟩ := Module.target_next h
  rw [cx.finish_eq, slot_mapBodies] at hslot
  obtain ⟨k, rfl⟩ := slot_of_program hs hslot
  intro heq
  have hprefix := Family.literals.stem_prefix k
  rw [heq] at hprefix
  exact absurd hprefix (by decide)

/-- Names that no function of a tree has. -/
def Library.IsForeign (x : String) : Prop :=
  x ≠ Compiled.entry ∧ ∀ stem ∈ ["fn_", "matcher_"], ¬ stem.toList <+: x.toList

instance (x : String) : Decidable (IsForeign x) := inferInstanceAs (Decidable (_ ∧ _))

theorem Library.IsForeign.not_own (h : IsForeign x) (hs : s.Tidy apps) : x ∉ (s.ownFuncs code).map (·.name) := by
  intro hx
  simp only [State.ownFuncs, List.map_append, List.map_cons, List.map_nil, List.append_assoc, List.mem_append,
    List.mem_singleton] at hx
  rcases hx with hx | hx | hx
  · obtain ⟨k, rfl⟩ := hs.literal_name hx
    exact h.2 "fn_" (.head _) (Family.literals.stem_prefix k)
  · obtain ⟨k, rfl⟩ := hs.matcher_name hx
    exact h.2 "matcher_" (.tail _ (.head _)) (Family.matchers.stem_prefix k)
  · exact h.1 hx

/-- Code of trees calls neither a function literal by its name, nor the entry point. -/
theorem Emit.Calls.ne_own (h : Emit.Calls x) : x ≠ Compiled.entry ∧ ∀ k, x ≠ Family.literals.name k := by
  have hcalls : ∀ f ∈ Emit.calls, IsForeign f := by decide +kernel
  rcases h with h | ⟨j, rfl⟩
  · exact ⟨(hcalls x h).1, fun k hk => (hcalls x h).2 "fn_" (.head _) (hk ▸ Family.literals.stem_prefix k)⟩
  · constructor
    · intro heq
      have hprefix := Family.matchers.stem_prefix j
      rw [heq] at hprefix
      exact absurd hprefix (by decide)
    · intro k heq
      have hhead := congrArg (fun x => x.toList.head?) heq
      simp [Family.name, Family.literals, Family.matchers] at hhead

/-- A module that has one function of a feature has all of them. -/
theorem supports_finish (hs : s.Tidy apps) (hvalid : cx.settings.validate = .ok ())
    (hm : (s.program cx code).WellNamed) {f : Feature} (hforeign : IsForeign x) (hx : x ∈ f.declares .functions)
    (h : ((cx.finish (s.program cx code)).func? x).isSome) : (cx.finish (s.program cx code)).Supports f := by
  obtain ⟨fn, hfn⟩ := Option.isSome_iff_exists.1 h
  obtain ⟨g, hg, rfl, -⟩ := func_finish hfn
  refine (sound_target default hs hvalid hm).supports f ?_
  rcases mem_program.1 hg with hg | hg
  · rw [State.runtimeFields, List.mem_append, Compare.fields_comparator] at hg
    rcases hg with hg | hg
    · obtain ⟨feature, hfeature, hdeclares⟩ := declared_library.1 (mem_declared.2 ⟨_, hg, rfl⟩)
      exact Feature.declares_disjoint hdeclares hx ▸ hfeature
    · obtain ⟨fn, hfn, heq⟩ := List.mem_map.1 hg
      cases heq
      exact absurd hx (Compare.names_not_declared f _ ((Compare.names_funcs _).mem (List.mem_map_of_mem hfn)))
  · rcases mem_ownFields.1 hg with ⟨fn, hfn, heq⟩ | heq | ⟨-, heq | heq | heq⟩ <;> cases heq
    exact absurd (List.mem_map_of_mem hfn) (hforeign.not_own hs)

theorem careful_finish {tree : Node} (hlower : tree.lower cx .initial = .ok code s) (hs : s.Tidy apps)
    (hvalid : cx.settings.validate = .ok ()) (hm : (s.program cx code).WellNamed) :
    (cx.finish (s.program cx code)).Careful where
  quiet f fn hfn := by
    obtain ⟨g, hg, rfl, rfl⟩ := func_finish hfn
    exact (quiet_program hlower hg).imp_right (cx.thinner_reduce g.body).quiet
  tuple := supports_finish hs hvalid hm (by decide) (by decide)
  float := supports_finish hs hvalid hm (by decide) (by decide)
  hidesAlloc := hidesAlloc_finish hs

theorem orderly_finish (hcx : cx.routes = .direct) {tree : Node} (hlower : tree.lower cx .initial = .ok code s)
    (hvalid : cx.settings.validate = .ok ()) (hm : (s.program cx code).WellNamed) :
    (cx.finish (s.program cx code)).Orderly (cx.pages * Module.pageSize) := by
  have hspec := tree.lower_initial hcx (fun _ => trivial)
  rw [Lower.Spec, hlower] at hspec
  obtain ⟨-, hlowered⟩ := hspec
  have htyped := (tree.lower_typed hcx _ _ _ hlower (State.typed_initial s.hasMemory)).1
  refine ⟨careful_finish hlower hlowered.tidy hvalid hm, (limit_le hvalid).2,
    supports_finish hlowered.tidy hvalid hm (by decide) (by decide), fun f fn hf hfn => ?_, fun x signature hx => ?_⟩
  · obtain ⟨g, hg, rfl, rfl⟩ := func_finish hfn
    have hcalled : g.name ∈ declared (s.runtimeFields cx.pages) .functions ∨ g.name ∈ s.matchers.funcs.map (·.name) := by
      rcases mem_program.1 hg with hg | hg
      · exact .inl (mem_declared.2 ⟨_, hg, rfl⟩)
      · rcases mem_ownFields.1 hg with ⟨fn, hfn, heq⟩ | heq | ⟨-, heq | heq | heq⟩ <;> cases heq
        simp only [State.ownFuncs, List.append_assoc, List.mem_append, List.mem_singleton] at hfn
        rcases hfn with hfn | hfn | rfl
        · obtain ⟨k, hk⟩ := hlowered.tidy.literal_name (List.mem_map_of_mem hfn)
          exact absurd hk (hf.ne_own.2 k)
        · exact .inr (List.mem_map_of_mem hfn)
        · exact absurd rfl hf.ne_own.1
    have hsignature := signature_called hlowered.toMade hm htyped hcalled
    rw [hm.func? hg] at hsignature
    exact Option.some.inj hsignature
  · rw [cx.finish_eq, signature_mapBodies] at hx
    exact signature_of_program hx

theorem Setup.orderly_compiled (hcx : cx.routes = .direct) {tree : Node} {c : Compiled} (h : cx.compile tree = .ok c) :
    c.module.Orderly (cx.pages * Module.pageSize) := by
  obtain ⟨hvalid, code, s, hlower, hmodule, -⟩ := (Setup.compile_eq_ok hcx).1 h
  obtain ⟨-, happs⟩ := (Setup.succeeds_compile_iff hcx hvalid).1 ⟨c, h⟩
  have hspec := tree.lower_initial hcx happs
  rw [Lower.Spec, hlower] at hspec
  rw [hmodule]
  exact orderly_finish hcx hlower hvalid hspec.2.wellNamed

end

/-- **The code of a node gives back the environment.** Whatever state the node was lowered in, and
whatever its code is run with in a compiled module: if it ends, then there is one more word on the
stack, the environment is the one before, and all that was in use on the heap is still there. Where
the module does not have what the code refers to, the code is not valid and does not end. -/
theorem code_restores (ops : FloatOps) (settings : Settings) (types : TypeMap) (tree : Node) {compiled : Compiled}
    (hcompiled : compile settings types tree = .ok compiled) (cx : Setup) (node : Node) {s t : State} {code : Code}
    (hlower : node.lower cx s = .ok code t) (n : Nat) (before : Frame)
    (hheap : (compiled.module.func? Heap.alloc).isSome →
      ∃ a, before.store.UsedTo (settings.memoryPages.toNat * Module.pageSize) a) :
    match code.exec ops compiled.module (compiled.module.invoke ops n) before with
    | .next after => after.locals Env.current = before.locals Env.current ∧
        (∃ w, after.stack = .word w :: before.stack) ∧
        before.store.Grows (settings.memoryPages.toNat * Module.pageSize) after.store
    | .returned _ _ => False
    | _ => True := by
  let setup : Setup := ⟨settings, types, .direct⟩
  have hm : compiled.module.Orderly (settings.memoryPages.toNat * Module.pageSize) :=
    Setup.orderly_compiled (show setup.routes = .direct from rfl) hcompiled
  obtain ⟨runs, hwalk⟩ := node.exists_walk hlower
  have hadds : (code.exec ops compiled.module (compiled.module.invoke ops n) before).GoesOn
      (before.Adds (settings.memoryPages.toNat * Module.pageSize) [.i32]) := node.adds_walk hm hwalk before hheap
  cases hexec : code.exec ops compiled.module (compiled.module.invoke ops n) before with
  | next after =>
    rw [hexec] at hadds
    exact ⟨hadds.env, hadds.word, hadds.grows⟩
  | returned stack store =>
    rw [hexec] at hadds
    exact hadds
  | _ => trivial

/-- A name for seven, and its value. -/
def Node.bindSeven : Node :=
  let here : Span := .point ⟨"", Source.defaultPath⟩ 0
  .letIn here "x" (.lit here (.int 7)) (.ident here "x")

/-- The module of such a tree makes frames, from an empty heap on. -/
theorem Node.bindSeven_compiled : ∃ compiled s, compile .default .empty bindSeven = .ok compiled ∧
    bindSeven.lower ⟨.default, .empty, .direct⟩ .initial = .ok (Emit.bind (Emit.int 7) (Emit.lookup 0)) s ∧
    compiled.module.Supports .environment ∧
    compiled.module.initial.UsedTo (Settings.default.memoryPages.toNat * Module.pageSize) 4 := by
  let cx : Setup := ⟨.default, .empty, .direct⟩
  have hbound : bindSeven.WellFormed [] := by simp [bindSeven, WellFormed]
  have happs : 0 < bindSeven.applications → 0 < bindSeven.literals := by decide
  obtain ⟨compiled, hcompiled⟩ := (Setup.succeeds_compile_iff (show cx.routes = .direct from rfl) rfl).2 ⟨hbound, happs⟩
  obtain ⟨hvalid, code, s, hlower, hmodule, -⟩ := (Setup.compile_eq_ok (show cx.routes = .direct from rfl)).1 hcompiled
  have hspec := bindSeven.lower_initial (show cx.routes = .direct from rfl) happs
  rw [Lower.Spec, hlower] at hspec
  have hs : .environment ∈ s.features ∧ .allocator ∈ s.features ∧ code = Emit.bind (Emit.int 7) (Emit.lookup 0) := by
    cases hlower
    exact ⟨by decide, by decide, rfl⟩
  obtain ⟨henv, halloc, rfl⟩ := hs
  refine ⟨compiled, s, hcompiled, hlower, ?_, ?_⟩
  · rw [hmodule]
    exact (sound_target default hspec.2.tidy hvalid hspec.2.wellNamed).supports .environment henv
  · rw [hmodule]
    exact usedTo_initial halloc

theorem code_restores_bindSeven :
    let limit := Settings.default.memoryPages.toNat * Module.pageSize
    ∃ compiled code s before after, compile .default .empty .bindSeven = .ok compiled ∧
      Node.bindSeven.lower ⟨.default, .empty, .direct⟩ .initial = .ok code s ∧
      before.store = compiled.module.initial ∧ before.store.UsedTo limit 4 ∧
      before.locals Env.current = some (.word Word.rootEnv) ∧
      code.exec default compiled.module (compiled.module.invoke default 3) before = .next after ∧
      after.locals Env.current = some (.word Word.rootEnv) ∧ (∃ w, after.stack = .word w :: before.stack) ∧
      before.store.Grows limit after.store := by
  intro limit
  obtain ⟨compiled, s, hcompiled, hlower, henv, hheap⟩ := Node.bindSeven_compiled
  let before : Frame := ⟨[], fun x => if x = Env.current then some (.word Word.rootEnv) else none, compiled.module.initial⟩
  have hrestores := code_restores default .default .empty .bindSeven hcompiled ⟨.default, .empty, .direct⟩ .bindSeven
    hlower 3 before fun _ => ⟨4, hheap⟩
  have hends : ∃ after, (Emit.bind (Emit.int 7) (Emit.lookup 0)).exec default compiled.module
      (compiled.module.invoke default 3) before = .next after := by
    have hfit : (BitVec.ofNat 32 4).toNat + 8 ≤ compiled.module.initial.memory.size := by
      rw [hheap.size]
      decide
    let σ := compiled.module.initial.addPair (.ofNat 32 4) Word.rootEnv (Word.int 7#32)
    have hnew : compiled.module.invoke default 3 Env.new [.word (Word.int 7#32), .word Word.rootEnv]
        compiled.module.initial = .next ([.word (.ofNat 32 4)], σ) :=
      (invoke_envNew henv hheap.top).trans (if_pos hfit)
    have hget : compiled.module.invoke default 3 Env.get [.word 0#32, .word (.ofNat 32 4)] σ =
        .next ([.word (Word.int 7#32)], σ) := invoke_envGet_zero henv (Memory.loadWord_setPair_second hfit)
    have hparent : compiled.module.invoke default 3 Env.parent [.word (.ofNat 32 4), .word (Word.int 7#32)] σ =
        .next ([.word Word.rootEnv, .word (Word.int 7#32)], σ) :=
      invoke_envParent henv (Memory.loadWord_setPair_first hfit)
    simp [Emit.bind, Emit.int, Emit.lookup, before, hnew, hget, hparent]
  obtain ⟨after, hafter⟩ := hends
  rw [hafter] at hrestores
  exact ⟨compiled, _, s, before, after, hcompiled, hlower, rfl, hheap, rfl, hafter, hrestores.1, hrestores.2⟩

end WasmBackend
