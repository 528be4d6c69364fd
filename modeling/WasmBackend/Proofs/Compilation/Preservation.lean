/-
**Compilation preserves meaning** (`compile_preserves_meaning`). A tree whose
names are bound is compiled, and if it evaluates to a value, its entry point
returns a word for that value, unless there is not enough memory for the
cells that the evaluation takes, in which case it traps where it would write
past the end.
-/
import WasmBackend.Proofs.Simulation.Programs

namespace WasmBackend

open Library

/-! ## Runs of whole modules -/

namespace Module

/-- The entry point of a module returns this word and leaves this store. -/
def Returns (ops : FloatOps) (m : Module) (w : Word) (σ : Store) : Prop :=
  m.Answers ops Compiled.entry [] m.initial (.next ([.word w], σ))

def Traps (ops : FloatOps) (m : Module) (t : Trap) : Prop :=
  m.Answers ops Compiled.entry [] m.initial (.trap t)

/-- A word stands for a value in a store: there is a layout of its memory in which it does, with
every closure of the arena in its place, where its code and its environment can be found. -/
def Shows (sem : Meaning) (m : Module) (arena : Arena) (σ : Store) (w : Word) (d : Datum) : Prop :=
  ∃ (T : Target) (L : Layout), T.module = m ∧ T.meaning = sem ∧ T.Sound ∧ T.Holds L arena σ ∧ L.Represents w d

end Module

section

variable {ops : FloatOps} {m : Module} {f : String} {s : Frame}

theorem Module.Answers.of_call_next {t : Frame} (h : Code.Settles ops m [.call f] s (.next t)) :
    m.Answers ops f s.stack s.store (.next (t.stack, t.store)) := by
  obtain ⟨d, hd⟩ := h
  refine ⟨d, fun n hn => ?_⟩
  have hrun := hd n hn
  simp only [Code.exec_cons, Code.exec_nil, Instr.exec, Frame.call, Outcome.bind_eq_next] at hrun
  obtain ⟨u, ⟨⟨stack, store⟩, hcall, hu⟩, ht⟩ := hrun
  cases hu
  cases ht
  exact hcall

theorem Module.Answers.of_call_trap {t : Trap} (h : Code.Settles ops m [.call f] s (.trap t)) :
    m.Answers ops f s.stack s.store (.trap t) := by
  obtain ⟨d, hd⟩ := h
  refine ⟨d, fun n hn => ?_⟩
  have hrun := hd n hn
  simp only [Code.exec_cons, Instr.exec, Frame.call] at hrun
  cases hcall : m.invoke ops n f s.stack s.store <;> rw [hcall] at hrun <;> cases hrun
  rfl

end

/-- Where there is a value, the entry point returns a word for it, or memory is exhausted. -/
theorem Target.Sim.returns {T : Target} {n : Nat} {L : Layout} {locals : String → Option Operand} {d : Datum}
    {arena : Arena} (h : T.Sim n L ⟨[], locals, T.module.initial⟩ [.call Compiled.entry] (.ok d arena)
      fun d L' t => ∃ w, L'.Represents w d ∧ t.stack = [.word w]) :
    (∃ w σ L', T.module.Returns T.ops w σ ∧ L.Extends L' ∧ T.Holds L' arena σ ∧ L'.Represents w d) ∨
      T.limit < 4 + 8 * arena.cells ∧ (T.reduced = false → T.module.Traps T.ops .storeOutOfBounds) := by
  rcases h with ⟨L', t, ht, hext, hholds, w, hw, hstack⟩ | ⟨hlimit, htrap⟩
  · have hanswers := Module.Answers.of_call_next ht
    rw [hstack] at hanswers
    exact .inl ⟨w, t.store, L', hanswers, hext, hholds, hw⟩
  · exact .inr ⟨hlimit, fun hr => .of_call_trap (htrap hr)⟩

/-! ## Programs -/

section

variable {apps : Prop} {cx : Setup} {s : State} {code : Code} {tree : Node}

/-- The target that the program of a lowered tree is, and the run of its entry point. -/
theorem program_sim (ops : FloatOps) (hvalid : cx.settings.validate = .ok ())
    (h : tree.Lowered apps cx [] .initial code s) (hm : (s.program cx code).WellNamed)
    (hliterals : tree.literals ≤ 2 ^ 32) :
    (s.target ops cx code).Sound ∧ ∃ L, (s.target ops cx code).Holds L .empty (s.target ops cx code).module.initial ∧
      ∀ n, (s.target ops cx code).Sim (n + 1) L ⟨[], fun _ => none, (s.target ops cx code).module.initial⟩
        [.call Compiled.entry] (tree.eval ⟨ops, cx.areWords⟩ n)
        fun d L' t => ∃ w, L'.Represents w d ∧ t.stack = [.word w] := by
  have hlen : s.functions.funcs.length ≤ 2 ^ 32 := by
    rw [h.literals]
    simpa [State.initial, Definitions.withRoot] using hliterals
  have hsound : (s.target ops cx code).Sound := sound_target ops h.tidy hvalid hm
  obtain ⟨L, hL⟩ := holds_initial ops s code hvalid
  have hmem : s.entry code ∈ s.ownFuncs code := by simp [State.ownFuncs]
  have hscoped := wellScoped_ownFuncs h.toMade hmem
  have hwords := h.tidy.words_entry code
  obtain ⟨c, hc, hthin, hbody⟩ := reduce_entry ops h.toMade (h.emits (realizes_target ops h.toMade hm hlen))
  have hrefs (x : String) (hx : (Space.locals, x) ∈ Code.refs (s.entryStart ++ c)) :
      x ∈ (s.entry code).locals.map (·.name) :=
    hscoped.refs x ((Peephole.Thinner.append (.refl s.entryStart) hthin).refs hx)
  exact ⟨hsound, L, hL, fun n => Target.entry_sim hsound hL (func_target ops hm hmem) rfl rfl hwords rfl hrefs hbody hc⟩

end

/-- **Compilation preserves meaning.** A tree in which every name is bound, and in which there is a
function literal if there is an application, is compiled. If it evaluates to a value, its entry
point returns a word that stands for the value in the memory it leaves, or the cells that the
evaluation takes do not fit into memory, and the first one that does not traps. -/
theorem compile_preserves_meaning (ops : FloatOps) (settings : Settings) (types : TypeMap) (tree : Node)
    (hvalid : settings.validate = .ok ()) (hdispatch : settings.dispatchUsingInferredType = false)
    (hreduce : settings.reduceInstructions = false) (hbound : tree.WellFormed [])
    (happs : 0 < tree.applications → 0 < tree.literals) (hliterals : tree.literals ≤ 2 ^ 32)
    {d : Datum} {arena : Arena} (heval : tree.Evaluates (.plain ops) d arena) :
    ∃ c, compile settings types tree = .ok c ∧
      ((∃ w σ, c.module.Returns ops w σ ∧ c.module.Shows (.plain ops) arena σ w d) ∨
        (settings.memoryPages.toNat * Module.pageSize < 4 + 8 * arena.cells ∧
          c.module.Traps ops .storeOutOfBounds)) := by
  let cx : Setup := ⟨settings, types, .direct⟩
  have hroutes : cx.routes = .direct := rfl
  obtain ⟨code, s, bytes, hcompile, hm, hlowered⟩ := Setup.compile_succeeds hroutes hvalid hbound happs
  have hwords : cx.areWords = fun _ _ => false := by
    funext left right
    simp [Setup.areWords, Setup.typeOf?, cx, hdispatch]
  obtain ⟨hsound, L, -, hsim⟩ := program_sim ops hvalid hlowered hm hliterals
  obtain ⟨n, heval⟩ := heval
  have hrun := hsim n
  rw [hwords] at hrun
  change Target.Sim _ _ _ _ _ (tree.eval (.plain ops) n) _ at hrun
  rw [heval] at hrun
  refine ⟨_, hcompile, ?_⟩
  rcases hrun.returns with ⟨w, σ, L', hreturns, -, hholds, hw⟩ | ⟨hlimit, htrap⟩
  · refine .inl ⟨w, σ, hreturns, s.target ops cx code, L', rfl, ?_, hsound, hholds, hw⟩
    rw [Target.meaning, Meaning.plain]
    simp only [State.target, hwords]
  · exact .inr ⟨hlimit, htrap hreduce⟩

/-- The length of a list, by recursion, for a list of two. -/
def Node.lengthOfTwo : Node :=
  let here : Span := .point ⟨"", Source.defaultPath⟩ 0
  .letRec here "length"
    (.lambda here "items" (.cases here (.ident here "items") [
      (.nil here, .lit here (.int 0)),
      (.cons here (.wildcard here) (.ident here "rest"),
        .binary here (.int .add) (.lit here (.int 1)) (.app here (.ident here "length") (.ident here "rest")))]))
    (.app here (.ident here "length")
      (.cons here (.lit here (.bool true)) (.cons here (.lit here (.bool false)) (.lit here .nil))))

theorem compile_preserves_meaning_lengthOfTwo : ∃ arena, Node.lengthOfTwo.Evaluates (.plain default) (.int 2) arena ∧
    ∃ c, compile .default .empty .lengthOfTwo = .ok c ∧
      ∃ w σ, c.module.Returns default w σ ∧ c.module.Shows (.plain default) arena σ w (.int 2) := by
  have heval : Node.lengthOfTwo.Evaluates (.plain default) (.int 2) _ := ⟨4, rfl⟩
  obtain ⟨c, hc, h⟩ := compile_preserves_meaning default .default .empty .lengthOfTwo rfl rfl rfl
    (by simp [Node.lengthOfTwo, Node.WellFormed, Node.WellFormedArms, Pattern.bindings]) (by decide) (by decide) heval
  exact ⟨_, heval, c, hc, h.resolve_right fun h => absurd h.1 (by decide)⟩

end WasmBackend
