/-
**Matchers implement patterns** (`matchers_implement`). A pattern is lowered
to one matcher for each of its nodes, children first. In every module that is
compiled from a tree whose lowering made them, each matcher extends any
environment by the parts that its node binds, or returns zero if a value does
not match.
-/
import WasmBackend.Proofs.Compilation.Restoring
import WasmBackend.Proofs.Lowering.Patterns

namespace WasmBackend

open Library Definitions

namespace Pattern

/-- Where a pattern has a cell or the empty list, a value has a list. -/
def MeetsLists : Pattern → Datum → Prop
  | wildcard _, _ => True
  | ident _ _, _ => True
  | nil _, d => ∃ items, d = .list items
  | cons _ head tail, d => ∃ items, d = .list items ∧
      ∀ first rest, items = first :: rest → head.MeetsLists first ∧ tail.MeetsLists (.list rest)

/-- Such a value matches or does not match. -/
theorem MeetsLists.select {p : Pattern} {d : Datum} (h : p.MeetsLists d) (arena : Arena) :
    ∃ found arena', p.select d arena = .ok found arena' := by
  induction p generalizing d arena with
  | wildcard | ident => exact ⟨_, _, rfl⟩
  | nil =>
    obtain ⟨items, rfl⟩ := h
    cases items <;> exact ⟨_, _, rfl⟩
  | cons _ head tail ihhead ihtail =>
    obtain ⟨items, rfl, hparts⟩ := h
    cases items with
    | nil => exact ⟨_, _, rfl⟩
    | cons first rest =>
      obtain ⟨hfirst, hrest⟩ := hparts first rest rfl
      obtain ⟨outer, arena₁, hhead⟩ := ihhead hfirst arena
      obtain ⟨inner, arena₂, htail⟩ := ihtail hrest arena₁
      simp only [Pattern.select, Eval.toList, pure_bind]
      rw [Eval.bind_apply, hhead]
      cases outer with
      | none => exact ⟨_, _, rfl⟩
      | some outer =>
        simp only
        rw [Eval.bind_apply, htail]
        cases inner <;> exact ⟨_, _, rfl⟩

/-- The locals of a pattern's own matcher. -/
def locals : Pattern → List Local
  | cons _ _ _ => [.word Emit.next]
  | _ => []

/-- A function implements a pattern. It is called with any environment `e` but zero and with a word for
a value that the pattern is for, whatever else is on the stack and on the heap. If there is room for
the cells of the match, it leaves what is on the heap as it is, and returns zero exactly if the value
does not match; if it does match, it returns `e` with a frame on it for each name of the pattern, the
first name outermost, that holds the part which is bound to the name. If there is no room, it traps. -/
def ImplementedBy (ops : FloatOps) (m : Module) (limit : Nat) (p : Pattern) (f : String) : Prop :=
  ∀ (L : Layout) (σ : Store) (e v : Word) (d : Datum) (stk : List Operand), L.LiesIn limit σ → e ≠ 0#32 →
    L.Represents v d → ∀ found arena, p.select d .empty = .ok found arena →
      if L.top + 8 * arena.cells ≤ limit then
        ∃ w τ L', m.Answers ops f (.word v :: .word e :: stk) σ (.next (.word w :: stk, τ)) ∧
          L.Extends L' ∧ L'.LiesIn limit τ ∧ (w = 0#32 ↔ found = none) ∧
          ∀ b, found = some b → b.map Prod.fst = p.bindings.reverse ∧ L'.Frames L.top e w (b.map Prod.snd)
      else m.Answers ops f (.word v :: .word e :: stk) σ (.trap .storeOutOfBounds)

theorem Matches.implementedBy (ops : FloatOps) {m : Module} {limit : Nat} (hm : m.Supports .matcher)
    (hlimit : limit ≤ 2 ^ 27) {p : Pattern} {f : String} (h : p.Matches m f) : p.ImplementedBy ops m limit f := by
  intro L σ e v d stk hσ he hd found arena hselect
  have hfinds := p.finds_of_select hselect
  obtain ⟨r, htests, hmatched⟩ := hfinds.tests ops hm hlimit h hσ he hd
  have hnone : Arena.empty.cells = 0 := rfl
  cases r with
  | none =>
    have hfull : ¬ L.top + 8 * arena.cells ≤ limit := by
      simp only [Layout.Matched] at hmatched
      omega
    rw [if_neg hfull]
    exact htests stk
  | some result =>
    obtain ⟨w, τ⟩ := result
    obtain ⟨L', htaken, hτ, hfound⟩ := hmatched
    have hfit : L.top + 8 * arena.cells ≤ limit := by
      have hcells := htaken.cells
      have hsize : L'.memory.size = limit := by rw [← hτ.memory, hτ.used.size]
      have htop := L'.top_le_size
      omega
    rw [if_pos hfit]
    refine ⟨w, τ, L', htests stk, htaken.above, hτ, ?_⟩
    cases found with
    | none =>
      refine ⟨iff_of_true hfound rfl, fun b hb => ?_⟩
      cases hb
    | some b =>
      refine ⟨iff_of_false (hfound.ne_zero he) (Option.some_ne_none b), fun b' hb => ?_⟩
      cases hb
      exact ⟨hfinds.names b rfl, hfound⟩

/-! ## The matchers of a pattern -/

theorem length_postorder (p : Pattern) : p.postorder.length = p.descendants + 1 := by
  induction p with
  | wildcard | nil | ident => rfl
  | cons _ head tail ihhead ihtail => simp [postorder, descendants, ihhead, ihtail, Nat.add_assoc]

/-- The pattern's own matcher is made last. -/
theorem getLast_matchers (made : Nat) (p : Pattern) :
    (p.matchers made).getLast?.map (·.name) = some (p.matcherName made) := by
  cases p <;> simp [matchers, matcherFunc]

theorem locals_matchers (made : Nat) (p : Pattern) :
    List.Forall₂ (fun q f => f.locals = q.locals) p.postorder (p.matchers made) := by
  induction p generalizing made with
  | wildcard | nil | ident => exact .cons rfl .nil
  | cons _ head tail ihhead ihtail => exact List.rel_append (List.rel_append (ihhead _) (ihtail _)) (.cons rfl .nil)

/-- Bodies of matchers are not reduced. -/
theorem reduce_matchers (cx : Setup) {made : Nat} {p : Pattern} {f : Func} (hf : f ∈ p.matchers made) :
    cx.reduce f.body = f.body := by
  induction p generalizing made with
  | wildcard | nil | ident =>
    cases List.mem_singleton.1 hf
    exact cx.reduce_of_eq (Peephole.reduce_matchBy (by decide))
  | cons _ head tail ihhead ihtail =>
    simp only [matchers, List.append_assoc, List.mem_append, List.mem_singleton] at hf
    rcases hf with hf | hf | rfl
    · exact ihhead hf
    · exact ihtail hf
    · exact cx.reduce_of_eq (Peephole.reduce_matchCons _ _)

/-- At the leaves of a pattern are calls of the library. -/
theorem exists_matchBy (made : Nat) (p : Pattern) :
    ∃ f ∈ p.matchers made, ∃ g ∈ [Matchers.wildcard, Matchers.emptyList, Matchers.identifier],
      f.body = Emit.matchBy g := by
  induction p generalizing made with
  | wildcard | nil | ident => exact ⟨_, .head _, _, by decide, rfl⟩
  | cons _ head tail ihhead ihtail =>
    obtain ⟨f, hf, hg⟩ := ihhead made
    exact ⟨f, List.mem_append_left _ (List.mem_append_left _ hf), hg⟩

section

variable {m : Module}

theorem matches_matchers {made : Nat} {p : Pattern} (h : ∀ f ∈ p.matchers made, m.func? f.name = some f) :
    p.Matches m (p.matcherName made) := by
  induction p generalizing made with
  | wildcard | nil | ident => exact h _ (.head _)
  | cons _ head tail ihhead ihtail =>
    simp only [matchers, List.append_assoc, List.mem_append, List.mem_singleton] at h
    exact ⟨_, _, ihhead fun f hf => h f (.inl hf), ihtail fun f hf => h f (.inr (.inl hf)), h _ (.inr (.inr rfl))⟩

theorem forall₂_matches {made : Nat} {p : Pattern} (h : ∀ f ∈ p.matchers made, m.func? f.name = some f) :
    List.Forall₂ (fun q f => q.Matches m f.name) p.postorder (p.matchers made) := by
  have hself := matches_matchers h
  induction p generalizing made with
  | wildcard | nil | ident => exact .cons hself .nil
  | cons _ head tail ihhead ihtail =>
    simp only [matchers, List.append_assoc, List.mem_append, List.mem_singleton] at h
    have hhead : ∀ f ∈ head.matchers made, m.func? f.name = some f := fun f hf => h f (.inl hf)
    have htail : ∀ f ∈ tail.matchers (made + (head.descendants + 1)), m.func? f.name = some f :=
      fun f hf => h f (.inr (.inl hf))
    exact List.rel_append (List.rel_append (ihhead hhead (matches_matchers hhead))
      (ihtail htail (matches_matchers htail))) (.cons hself .nil)

end

end Pattern

/-- A compiled module has the matchers that lowering its tree has made, and what they rely on. -/
theorem Setup.hosts_matchers {cx : Setup} (hcx : cx.routes = .direct) {tree : Node} {c : Compiled}
    (h : cx.compile tree = .ok c) {code : Code} {s : State} (hlower : tree.lower cx .initial = .ok code s)
    {made : Nat} {p : Pattern} (hmade : p.matchers made ⊆ s.matchers.funcs) :
    c.module.Supports .matcher ∧ ∀ f ∈ p.matchers made, c.module.func? f.name = some f := by
  obtain ⟨hvalid, code', s', hlower', hmodule, -⟩ := (Setup.compile_eq_ok hcx).1 h
  obtain ⟨rfl, rfl⟩ : code = code' ∧ s = s' := by
    rw [hlower] at hlower'
    cases hlower'
    exact ⟨rfl, rfl⟩
  obtain ⟨-, happs⟩ := (Setup.succeeds_compile_iff hcx hvalid).1 ⟨c, h⟩
  have hspec := tree.lower_initial hcx happs
  rw [Lower.Spec, hlower] at hspec
  have hwell : (cx.finish (s.program cx code)).WellNamed :=
    cx.finish_eq _ ▸ hspec.2.wellNamed.mapBodies cx.thinner_reduce
  have hmem : ∀ f ∈ p.matchers made, .func f ∈ (cx.finish (s.program cx code)).fields := by
    intro f hf
    have hown : f ∈ s.ownFuncs code := by simp [State.ownFuncs, hmade hf]
    have hprogram : .func f ∈ (s.program cx code).fields := mem_program_func hown
    have hfield := mem_mapBodies (g := cx.reduce) hprogram
    rw [p.reduce_matchers cx hf] at hfield
    exact cx.finish_eq _ ▸ hfield
  rw [hmodule]
  refine ⟨?_, fun f hf => hwell.func? (hmem f hf)⟩
  -- a function that a matcher calls is there, and with it the whole feature
  have hlibrary : ∀ g ∈ [Matchers.wildcard, Matchers.emptyList, Matchers.identifier],
      IsForeign g ∧ g ∈ Feature.matcher.declares .functions := by
    decide +kernel
  obtain ⟨f, hf, g, hg, hbody⟩ := p.exists_matchBy made
  obtain ⟨hforeign, hdeclares⟩ := hlibrary g hg
  have hcalled := hwell.refs _ (hmem f hf) (.functions, g) (by simp [Field.refs, hbody, Emit.matchBy, Instr.refs])
  obtain ⟨field, hfield, hdefines⟩ := mem_declared.1 hcalled
  obtain ⟨fn, rfl, rfl⟩ : ∃ fn, field = .func fn ∧ fn.name = g := by
    cases field <;> simp [Field.defines] at hdefines
    exact ⟨_, rfl, hdefines⟩
  exact supports_finish hspec.2.tidy hvalid hspec.2.wellNamed hforeign hdeclares
    (by rw [hwell.func? hfield]; rfl)

/-- **Matchers implement patterns.** A pattern is lowered in any state, and all that this adds are the
matchers of its nodes, in the order children first, numbered on from those that are there; only those
of cells have a local. In every compiled module whose tree was lowered with them, each of them
implements its node. -/
theorem matchers_implement (p : Pattern) (s : State) : ∃ name new,
    p.lower s = .ok name ((s.use .matcher).matching new) ∧
    new.map (·.name) = (List.range' s.matchers.funcs.length p.postorder.length).map Family.matchers.name ∧
    new.getLast?.map (·.name) = some name ∧
    List.Forall₂ (fun q f => f.locals = q.locals) p.postorder new ∧
    (∀ d, p.MeetsLists d → ∃ found arena, p.select d .empty = .ok found arena) ∧
    ∀ ops settings types tree compiled code final, compile settings types tree = .ok compiled →
      tree.lower ⟨settings, types, .direct⟩ .initial = .ok code final → new ⊆ final.matchers.funcs →
      p.ImplementedBy ops compiled.module (settings.memoryPages.toNat * Module.pageSize) name ∧
      List.Forall₂ (fun q f => q.ImplementedBy ops compiled.module
        (settings.memoryPages.toNat * Module.pageSize) f.name) p.postorder new := by
  refine ⟨_, _, p.lower_eq s, ?_, p.getLast_matchers _, p.locals_matchers _, fun d hd => hd.select .empty,
    fun ops settings types tree compiled code final hcompiled hlower hmade => ?_⟩
  · rw [p.names_matchers, p.length_postorder]
  · let cx : Setup := ⟨settings, types, .direct⟩
    have hcx : cx.routes = .direct := rfl
    obtain ⟨hsupports, hfuncs⟩ := Setup.hosts_matchers hcx hcompiled hlower hmade
    have hlimit := (Settings.memory_le ((Setup.compile_eq_ok hcx).1 hcompiled).1).2
    exact ⟨(Pattern.matches_matchers hfuncs).implementedBy ops hsupports hlimit,
      (Pattern.forall₂_matches hfuncs).imp fun _ _ hq => hq.implementedBy ops hsupports hlimit⟩

/-- A name for the head of a list, and the same name for its tail. -/
def Pattern.shadowing : Pattern :=
  let here : Span := .point ⟨"", Source.defaultPath⟩ 0
  .cons here (.ident here "x") (.ident here "x")

/-- A match with such a pattern. -/
def Node.shadowing : Node :=
  let here : Span := .point ⟨"", Source.defaultPath⟩ 0
  .cases here (.cons here (.lit here (.int 7)) (.lit here .nil)) [(.shadowing, .ident here "x")]

/-- The module of such a tree has the matchers of the pattern, and room for a list of seven. -/
theorem Node.shadowing_compiled : ∃ (compiled : Compiled) (code : Code) (s : State) (σ : Store) (L : Layout),
    compile .default .empty shadowing = .ok compiled ∧
    shadowing.lower ⟨.default, .empty, .direct⟩ .initial = .ok code s ∧
    s.matchers.funcs = Pattern.shadowing.matchers 0 ∧
    L.LiesIn (Settings.default.memoryPages.toNat * Module.pageSize) σ ∧ L.top = 12 ∧
    L.Represents (.boxed 4#32 .list) (.list [.int 7]) := by
  let cx : Setup := ⟨.default, .empty, .direct⟩
  have hbound : shadowing.WellFormed [] := by
    simp [shadowing, Pattern.shadowing, WellFormed, WellFormedArms, Pattern.bindings]
  have happs : 0 < shadowing.applications → 0 < shadowing.literals := by decide
  obtain ⟨compiled, hcompiled⟩ := (Setup.succeeds_compile_iff (show cx.routes = .direct from rfl) rfl).2 ⟨hbound, happs⟩
  obtain ⟨-, code, s, hlower, -, -⟩ := (Setup.compile_eq_ok (show cx.routes = .direct from rfl)).1 hcompiled
  have hs : .allocator ∈ s.features ∧ s.matchers.funcs = Pattern.shadowing.matchers 0 := by
    cases hlower
    exact ⟨by decide, rfl⟩
  let σ := (cx.finish (s.program cx code)).initial
  have hheap : σ.UsedTo (cx.pages * Module.pageSize) 4 := usedTo_initial hs.1
  have hsize : 4 ≤ σ.memory.size := by
    rw [hheap.size]
    decide
  let L : Layout := ⟨σ.memory, 4, [], false, true, hsize, by decide, by simp, .nil⟩
  have hL : L.LiesIn (cx.pages * Module.pageSize) σ := ⟨rfl, hheap⟩
  have hfit : 4 + 8 ≤ cx.pages * Module.pageSize := by decide
  obtain ⟨L', htaken, hpair, hσ⟩ := hL.addPair (by decide) hfit .empty Word.emptyList (.pack 7)
  exact ⟨compiled, code, s, _, L', hcompiled, hlower, hs.2, hσ, htaken.cells,
    .cons (htaken.above.lists.trans rfl) hpair (.int 7) .nil⟩

theorem matchers_implement_shadowing :
    let limit := Settings.default.memoryPages.toNat * Module.pageSize
    ∃ (compiled : Compiled) (σ τ : Store) (w : Word) (L L' : Layout),
      compile .default .empty .shadowing = .ok compiled ∧ L.LiesIn limit σ ∧
      L.Represents (.boxed 4#32 .list) (.list [.int 7]) ∧
      compiled.module.Answers default "matcher_2" [.word (.boxed 4#32 .list), .word Word.rootEnv] σ
        (.next ([.word w], τ)) ∧
      L.Extends L' ∧ L'.LiesIn limit τ ∧ w ≠ 0#32 ∧ L'.Frames L.top Word.rootEnv w [.list [], .int 7] := by
  intro limit
  obtain ⟨compiled, code, s, σ, L, hcompiled, hlower, hfuncs, hσ, htop, hlist⟩ := Node.shadowing_compiled
  obtain ⟨name, new, hmatchers, -, -, -, -, himplement⟩ := matchers_implement .shadowing .initial
  rw [Pattern.lower_eq] at hmatchers
  obtain ⟨hname, hstate⟩ := EStateM.Result.ok.inj hmatchers
  have hnew : Pattern.shadowing.matchers 0 = new := congrArg (fun t : State => t.matchers.funcs) hstate
  obtain ⟨himplements, -⟩ := himplement default .default .empty .shadowing compiled code s hcompiled hlower
    (by rw [hfuncs, hnew]; exact List.Subset.refl _)
  have hrun := himplements L σ Word.rootEnv (.boxed 4#32 .list) (.list [.int 7]) [] hσ (by decide) hlist _ _ rfl
  rw [htop, if_pos (by decide), ← hname] at hrun
  obtain ⟨w, τ, L', hanswers, hext, hτ, hzero, hfound⟩ := hrun
  refine ⟨compiled, σ, τ, w, L, L', hcompiled, hσ, hlist, hanswers, hext, hτ, ?_, ?_⟩
  · exact fun hw => nomatch hzero.1 hw
  · rw [htop]
    exact (hfound _ rfl).2

end WasmBackend
