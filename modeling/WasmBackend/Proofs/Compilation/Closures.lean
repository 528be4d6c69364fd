/-
**Closures point at their own code** (`closures_own_code`). The function
literals of a tree get the numbers from zero on in the order in which they are
finished, and the code of a literal makes a closure with the number of the
function that its own body became. The table has that function in the slot of
that number, and an indirect call is made with the type that all of them have.
-/
import WasmBackend.Proofs.Assembly.Meaning
import WasmBackend.Proofs.Binary.Faithful
import WasmBackend.Proofs.Lowering.Walks
import WasmBackend.Proofs.Simulation.Programs

namespace WasmBackend

open Library Definitions

namespace Node

mutual

/-- The function literals of a tree in the order in which lowering them is finished, each with the
frames in scope where it stands. -/
def functionLiterals : Node → Scopes → List FunctionLiteral
  | .lit _ _, _ => []
  | .ident _ _, _ => []
  | .unary _ _ operand, scopes => operand.functionLiterals scopes
  | .binary _ _ left right, scopes => left.functionLiterals scopes ++ right.functionLiterals scopes
  | .cond _ test yes no, scopes =>
    test.functionLiterals scopes ++ (yes.functionLiterals scopes ++ no.functionLiterals scopes)
  | .letIn _ name value body, scopes =>
    value.functionLiterals scopes ++ body.functionLiterals (scopes.pushAll [some name])
  | .letRec _ name (.lambda _ param inner) body, scopes =>
    inner.functionLiterals (scopes.pushAll [some name, some param]) ++
      ⟨some name, param, inner, scopes⟩ :: body.functionLiterals (scopes.pushAll [some name])
  | .letRec _ name value body, scopes =>
    value.functionLiterals scopes ++ body.functionLiterals (scopes.pushAll [some name])
  | .lambda _ param body, scopes =>
    body.functionLiterals (scopes.pushAll [none, some param]) ++ [⟨none, param, body, scopes⟩]
  | .app _ fn arg, scopes => arg.functionLiterals scopes ++ fn.functionLiterals scopes
  | .cons _ head tail, scopes => tail.functionLiterals scopes ++ head.functionLiterals scopes
  | .cases _ scrutinee arms, scopes => scrutinee.functionLiterals scopes ++ functionLiteralsIn arms scopes
termination_by structural node => node

def functionLiteralsIn : List (Pattern × Node) → Scopes → List FunctionLiteral
  | [], _ => []
  | (pattern, body) :: rest, scopes =>
    body.functionLiterals (scopes.pushAll (pattern.bindings.map some)) ++ functionLiteralsIn rest scopes
termination_by structural arms => arms

end

end Node

/-! ## Numbers -/

/-- On the way from one state to another these literals are closed, one after the other. -/
structure LiteralRun.Closes (cx : Setup) (s t : State) (runs : List LiteralRun) (literals : List FunctionLiteral) :
    Prop where
  scopes : t.scopes = s.scopes
  literals : runs.map (·.literal) = literals
  lowers : ∀ run ∈ runs, run.Lowers cx
  funcs : t.functions.funcs = s.functions.funcs ++ runs.map (·.func)
  numbers : runs.map (·.number) = List.range' s.functions.funcs.length runs.length

theorem State.funcs_declareAll (s : State) (xs : List String) :
    (s.declareAll xs).functions.funcs = s.functions.funcs := by
  induction xs generalizing s with
  | nil => rfl
  | cons x xs ih => exact (ih _).trans (Definitions.funcs_declare s.functions _)

theorem State.scopes_declareAll (s : State) (xs : List String) : (s.declareAll xs).scopes = s.scopes := by
  induction xs generalizing s with
  | nil => rfl
  | cons x xs ih => exact ih _

namespace LiteralRun.Closes

variable {cx : Setup} {s t u : State} {as bs : List LiteralRun} {ls ms : List FunctionLiteral}

/-- Nothing is closed. -/
theorem none (hscopes : t.scopes = s.scopes) (hfuncs : t.functions.funcs = s.functions.funcs) : Closes cx s t [] [] :=
  ⟨hscopes, rfl, nofun, by simpa using hfuncs, rfl⟩

theorem append (h : Closes cx s t as ls) (h' : Closes cx t u bs ms) : Closes cx s u (as ++ bs) (ls ++ ms) where
  scopes := h'.scopes.trans h.scopes
  literals := by rw [List.map_append, h.literals, h'.literals]
  lowers run hrun := (List.mem_append.1 hrun).elim (h.lowers run) (h'.lowers run)
  funcs := by rw [h'.funcs, h.funcs, List.map_append, List.append_assoc]
  numbers := by
    have hlength : t.functions.funcs.length = s.functions.funcs.length + as.length := by rw [h.funcs]; simp
    rw [List.map_append, h.numbers, h'.numbers, List.length_append, hlength, List.range'_append_1]

/-- Other frames are in scope for a while. -/
theorem within {scopes : Scopes} (h : Closes cx s t as ls) (hr : u.functions.funcs = s.functions.funcs)
    (hscopes : scopes = u.scopes) : Closes cx u (t.under scopes) as ls where
  scopes := hscopes
  literals := h.literals
  lowers := h.lowers
  funcs := hr ▸ h.funcs
  numbers := hr ▸ h.numbers

/-- A literal is closed after those in its body. -/
theorem close {run : LiteralRun} (hrun : run.Lowers cx) (h : Closes cx run.start run.after as ls) :
    Closes cx run.before run.done (as ++ [run]) (ls ++ [run.literal]) where
  scopes := rfl
  literals := by rw [List.map_append, h.literals]; rfl
  lowers r hr := (List.mem_append.1 hr).elim (h.lowers r) fun hr => List.mem_singleton.1 hr ▸ hrun
  funcs := by
    rw [List.map_append, ← List.append_assoc]
    exact congrArg (· ++ [run.func]) h.funcs
  numbers := by
    have hnumber : run.number = run.before.functions.funcs.length + as.length := by
      rw [number, h.funcs]
      simp [start, State.inside, State.use, Definitions.enter]
    rw [List.map_append, h.numbers, List.length_append, List.map_singleton, hnumber, List.length_singleton,
      List.range'_concat, Nat.one_mul]
    rfl

end LiteralRun.Closes

namespace Node

open LiteralRun (Closes)

variable {cx : Setup}

mutual

/-- **A walk closes the literals of its node.** -/
theorem closes_walk (node : Node) {s t : State} {code : Code} {runs : List LiteralRun} {scopes : Scopes}
    (h : node.Walk cx s code t runs) (hs : s.scopes = scopes) : Closes cx s t runs (node.functionLiterals scopes) := by
  cases node with
  | lit span value =>
    obtain ⟨h, rfl⟩ := h
    cases value <;> cases h <;> exact .none rfl rfl
  | ident span name =>
    obtain ⟨distance, -, rfl, rfl, rfl⟩ := h
    exact .none rfl rfl
  | unary span o operand =>
    cases o with
    | neg =>
      obtain ⟨e, he, rfl⟩ := h
      exact closes_walk operand he hs
    | floatNeg =>
      obtain ⟨e, he, rfl⟩ := h
      have hes := closes_walk operand he (s := s.use .float) hs
      exact ⟨hes.scopes, hes.literals, hes.lowers, hes.funcs, hes.numbers⟩
  | binary span o left right =>
    obtain ⟨l, s₁, ls, r, s₂, rs, hl, hr, hlast, rfl⟩ := h
    have hprepare : Closes cx s (o.prepare s) [] [] := by cases o <;> exact .none rfl rfl
    have hconclude : Closes cx s₂ t [] [] := by
      have ht : t = (o.conclude (cx.areWords left.span right.span) l r s₂).2 := congrArg Prod.snd hlast
      rcases o.conclude_state (cx.areWords left.span right.span) l r s₂ with h | ⟨c, h⟩ <;> rw [ht, h] <;>
        exact .none rfl rfl
    have hls := hprepare.append (closes_walk left hl (hprepare.scopes.trans hs))
    have hrs := (closes_walk right hr (hls.scopes.trans hs)).append hconclude
    rw [List.append_nil, List.append_nil] at hrs
    exact hls.append hrs
  | cond span test yes no =>
    obtain ⟨c, s₁, cs, y, s₂, ys, n, ns, hc, hy, hn, rfl, rfl⟩ := h
    have hcs := closes_walk test hc hs
    have hys := closes_walk yes hy (hcs.scopes.trans hs)
    have hns := closes_walk no hn (hys.scopes.trans (hcs.scopes.trans hs))
    exact hcs.append (hys.append hns)
  | letIn span name value body =>
    obtain ⟨v, s₁, vs, b, s₂, bs, hv, hb, rfl, rfl, rfl⟩ := h
    have hvs := closes_walk value hv hs
    have hbs := closes_walk body hb (congrArg (Scopes.pushAll · [some name]) (hvs.scopes.trans hs))
    exact hvs.append (hbs.within rfl hvs.scopes.symm)
  | letRec span name value body =>
    cases value with
    | lambda span' param inner =>
      obtain ⟨i, s₁, is, b, s₂, bs, hlowers, hi, hb, rfl, rfl, rfl⟩ := h
      have his := closes_walk inner hi (congrArg (Scopes.pushAll · [some name, some param]) hs)
      have hbs := closes_walk body hb (congrArg (Scopes.pushAll · [some name]) hs)
      subst hs
      have hrun := (his.close hlowers).append (hbs.within (u := LiteralRun.done ⟨some name, param, inner, s, i, s₁⟩) rfl rfl)
      rwa [List.append_assoc, List.append_assoc] at hrun
    | _ => exact h.elim
  | lambda span param body =>
    obtain ⟨b, s₁, bs, hlowers, hb, rfl, rfl, rfl⟩ := h
    subst hs
    exact (closes_walk body hb rfl).close hlowers
  | app span fn arg =>
    obtain ⟨a, s₁, as, f, fs, ha, hf, rfl, rfl⟩ := h
    have hdeclare : Closes cx s ((s.use .closure).declareAll [Emit.callee, Emit.argument]) [] [] :=
      .none (State.scopes_declareAll _ _) (State.funcs_declareAll _ _)
    have has := hdeclare.append (closes_walk arg ha (hdeclare.scopes.trans hs))
    exact has.append (closes_walk fn hf (has.scopes.trans hs))
  | cons span head tail =>
    obtain ⟨l, s₁, ls, hd, hds, hl, hh, rfl, rfl⟩ := h
    have huse : Closes cx s (s.use .list) [] [] := .none rfl rfl
    have hls := huse.append (closes_walk tail hl hs)
    exact hls.append (closes_walk head hh (hls.scopes.trans hs))
  | cases span scrutinee arms =>
    obtain ⟨e, s₁, es, branches, bs, he, hb, rfl, rfl⟩ := h
    have hsited : Closes cx s s.sited [] [] := .none (State.scopes_declareAll _ _) (State.funcs_declareAll _ _)
    have hes := hsited.append (closes_walk scrutinee he (hsited.scopes.trans hs))
    exact hes.append (closes_walkArms arms hb (hes.scopes.trans hs))
termination_by structural node

theorem closes_walkArms (arms : List (Pattern × Node)) {s t : State} {branches : List (String × Code)}
    {runs : List LiteralRun} {scopes : Scopes} (h : WalkArms cx arms s branches t runs) (hs : s.scopes = scopes) :
    Closes cx s t runs (functionLiteralsIn arms scopes) := by
  match arms with
  | [] =>
    obtain ⟨rfl, rfl, rfl⟩ := h
    exact .none rfl rfl
  | (pattern, body) :: rest =>
    obtain ⟨c, s₁, cs, others, os, hc, ho, rfl, rfl⟩ := h
    have hcs := closes_walk body hc (congrArg (Scopes.pushAll · (pattern.bindings.map some)) hs)
    exact (hcs.within (u := s) rfl rfl).append (closes_walkArms rest ho hs)
termination_by structural arms

end

end Node

/-! ## Types of indirect calls -/

namespace Instr

mutual

/-- The types that an instruction calls with through a table, those in its blocks included. -/
def indirectTypes {Ref : Type} : Instr Ref → List Ref
  | .callIndirect _ type => [type]
  | .cond _ yes no => indirectTypesAll yes ++ indirectTypesAll no
  | _ => []
termination_by structural i => i

def indirectTypesAll {Ref : Type} : List (Instr Ref) → List Ref
  | [] => []
  | i :: is => i.indirectTypes ++ indirectTypesAll is
termination_by structural is => is

end

variable {m : Module} {n : Names} {signatures : List Signature} {locals : List String}

mutual

/-- A type is resolved to the position of the signature that its name stands for. -/
theorem indirectTypes_resolve (hn : n.Of m) : ∀ {i : Instr String} {j : Instr Nat},
    i.resolve n signatures locals = .ok j → ∀ type ∈ j.indirectTypes,
      ∃ x s, m.signature? x = some s ∧ type = signatures.idxOf s
  | .callIndirect table x, j, h, type, htype => by
    obtain ⟨s, hs, h⟩ := bind_eq_ok.1 h
    obtain ⟨t, -, h⟩ := bind_eq_ok.1 h
    cases h
    rw [indirectTypes, List.mem_singleton] at htype
    exact ⟨x, s, (hn.signature hs).1, htype⟩
  | .cond result yes no, j, h, type, htype => by
    obtain ⟨yes', hyes, h⟩ := bind_eq_ok.1 h
    obtain ⟨no', hno, h⟩ := bind_eq_ok.1 h
    cases h
    rw [indirectTypes, List.mem_append] at htype
    exact htype.elim (indirectTypes_resolveAll hn hyes type) (indirectTypes_resolveAll hn hno type)
  | .op _, j, h, type, htype | .i32Const _, j, h, type, htype | .f64Const _, j, h, type, htype
  | .load _ _, j, h, type, htype | .store _ _, j, h, type, htype => by
    cases h
    cases htype
  | .localGet x, j, h, type, htype | .localSet x, j, h, type, htype | .localTee x, j, h, type, htype
  | .globalGet x, j, h, type, htype | .globalSet x, j, h, type, htype | .call x, j, h, type, htype => by
    obtain ⟨i, -, rfl⟩ := map_eq_ok.1 h
    cases htype
termination_by structural i => i

theorem indirectTypes_resolveAll (hn : n.Of m) : ∀ {c : Code} {js : List (Instr Nat)},
    resolveAll n signatures locals c = .ok js → ∀ type ∈ indirectTypesAll js,
      ∃ x s, m.signature? x = some s ∧ type = signatures.idxOf s
  | [], js, h, type, htype => by
    cases h
    cases htype
  | i :: c, js, h, type, htype => by
    obtain ⟨j, hj, h⟩ := bind_eq_ok.1 h
    obtain ⟨rest, hrest, h⟩ := bind_eq_ok.1 h
    cases h
    rw [indirectTypesAll, List.mem_append] at htype
    exact htype.elim (indirectTypes_resolve hn hj type) (indirectTypes_resolveAll hn hrest type)
termination_by structural c => c

end

end Instr

/-- The function of a name stands in an image where the name does, and has the type of its signature. -/
theorem Module.Resolved.func_at {m : Module} {n : Names} {image : Image} (h : m.Resolved n image) (hm : m.WellNamed)
    {f : Func} (hf : .func f ∈ m.fields) : ∃ (i : Nat) (g : Image.Func), image.funcs[i]? = some g ∧
      (∀ j, image.funcNames[j]? = some f.name ↔ j = i) ∧ g.type = m.signatures.idxOf f.signature := by
  have hnames : image.funcNames = m.funcs.map (·.name) := by
    rw [h.funcNames, h.names.funcs, declared_functions]
  have hnodup : image.funcNames.Nodup := by
    rw [hnames, ← declared_functions]
    exact hm.nodup .functions (by decide)
  obtain ⟨i, hi, hfi⟩ := List.getElem_of_mem (Module.mem_funcs.2 hf)
  have hi' : i < image.funcs.length := h.funcs.length_eq ▸ hi
  have hfunc := h.funcs.get hi hi'
  rw [List.get_eq_getElem, List.get_eq_getElem, hfi] at hfunc
  have hname : image.funcNames[i]? = some f.name := by simp [hnames, hi, hfi]
  refine ⟨i, image.funcs[i], List.getElem?_eq_getElem hi', fun j => ⟨fun hj => ?_, (· ▸ hname)⟩,
    (Image.Func.ofFunc_eq_ok hfunc).1⟩
  obtain ⟨hlt, -⟩ := List.getElem?_eq_some_iff.1 hj
  exact (List.getElem?_inj hlt hnodup).1 (hj.trans hname.symm)

theorem Module.Resolved.indirectTypes {m : Module} {n : Names} {image : Image} (h : m.Resolved n image)
    {g : Image.Func} (hg : g ∈ image.funcs) {type : Nat} (htype : type ∈ Instr.indirectTypesAll g.body) :
    ∃ x s, m.signature? x = some s ∧ type = m.signatures.idxOf s := by
  obtain ⟨f, -, hf⟩ := exists_of_forall₂ h.funcs hg
  obtain ⟨-, -, -, hbody⟩ := Image.Func.ofFunc_eq_ok hf
  exact Instr.indirectTypes_resolveAll h.names hbody type htype

section

variable {cx : Setup} {s : State} {code : Code}

theorem signature_of_program {x : String} {signature : Signature}
    (h : (s.program cx code).signature? x = some signature) : signature = ⟨[.i32], some .i32⟩ := by
  rcases program_cases (mem_of_signature? h) with ⟨f, h⟩ | ⟨_, _, _, h⟩ | ⟨-, h | h⟩ | ⟨-, h | h | h⟩ <;> cases h
  rfl

theorem tableSize_finish : (cx.finish (s.program cx code)).tableSize Closures.table = s.functions.funcs.length := by
  have hfinish : (cx.finish (s.program cx code)).tableSize Closures.table =
      (s.program cx code).tableSize Closures.table := by
    rw [cx.finish_eq, Module.tableSize, Module.tableSize, Module.mapBodies, findSome?_mapBodies fun _ => rfl]
  rw [hfinish]
  by_cases hfuncs : s.functions.funcs = []
  · have hnone : (s.program cx code).tableSize Closures.table = 0 := by
      rw [Module.tableSize, List.findSome?_eq_none_iff.2, Option.getD_none]
      intro field hfield
      rcases program_cases hfield with ⟨f, rfl⟩ | ⟨_, _, _, rfl⟩ | ⟨-, rfl | rfl⟩ | ⟨hne, -⟩
      all_goals first | rfl | exact absurd hfuncs hne
    rw [hnone, hfuncs, List.length_nil]
  · exact tableSize_program hfuncs

end

/-- **Closures point at their own code.** The function literals of a tree are closed in order, the one
of number `k` as a closure over the function of that number, made of the code of its own body. That
function is in slot `k` of the table, and has the type with which every indirect call is made. -/
theorem closures_own_code (cx : Setup) (hcx : cx.routes = .direct) (tree : Node) {code : Code} {s : State}
    (hlower : tree.lower cx .initial = .ok code s) :
    ∃ runs, tree.Walk cx .initial code s runs ∧ runs.map (·.literal) = tree.functionLiterals .empty ∧
      (∀ k run, runs[k]? = some run → run.code = Emit.closure k ∧ run.func.name = Family.literals.name k ∧
        run.Lowers cx) ∧
      s.functions.funcs = runs.map (·.func) ∧
      ∃ m, Compiled.assemble cx code s = .ok m ∧
        (cx.finish m).tableSize Closures.table = runs.length ∧
        ∀ k < runs.length, (cx.finish m).slot? Closures.table k = some (Family.literals.name k) ∧
          ∃ (image : Image) (i : Nat) (g : Image.Func), (cx.finish m).resolve = .ok image ∧ image.funcs[i]? = some g ∧
            (∀ j, image.funcNames[j]? = some (Family.literals.name k) ↔ j = i) ∧
            ∀ caller ∈ image.funcs, ∀ type ∈ Instr.indirectTypesAll caller.body, type = g.type := by
  have hspec := tree.lower_initial hcx (fun _ => trivial)
  rw [Lower.Spec, hlower] at hspec
  obtain ⟨-, hlowered⟩ := hspec
  obtain ⟨runs, hwalk⟩ := Node.exists_walk tree hlower
  have hcloses := tree.closes_walk hwalk rfl
  have hfuncs : s.functions.funcs = runs.map (·.func) := hcloses.funcs.trans (List.nil_append _)
  have hnumber (k : Nat) (run : LiteralRun) (hrun : runs[k]? = some run) : run.number = k := by
    have hk : (runs.map (·.number))[k]? = some run.number := by simp [hrun]
    rw [hcloses.numbers] at hk
    simpa [State.initial, Definitions.withRoot] using (List.getElem?_eq_some_iff.1 hk).2.symm
  refine ⟨runs, hwalk, hcloses.literals, fun k run hrun => ?_, hfuncs, s.program cx code,
    assemble_eq hlowered.tidy hlowered.grew.code, ?_, fun k hk => ?_⟩
  · obtain rfl := hnumber k run hrun
    exact ⟨rfl, rfl, hcloses.lowers run (List.mem_of_getElem? hrun)⟩
  · rw [tableSize_finish, hfuncs, List.length_map]
  · have hne : s.functions.funcs ≠ [] := List.ne_nil_of_length_pos (by simpa [hfuncs] using Nat.zero_lt_of_lt hk)
    have hm : (s.program cx code).WellNamed := wellNamed_program hlowered.toMade fun _ => hne
    have hfinish : (cx.finish (s.program cx code)).WellNamed := cx.finish_eq _ ▸ hm.mapBodies cx.thinner_reduce
    have hrun : runs[k]? = some runs[k] := List.getElem?_eq_getElem hk
    have hname : runs[k].func.name = Family.literals.name k := congrArg Family.literals.name (hnumber k _ hrun)
    have hfunc : s.functions.funcs[k]? = some runs[k].func := by simp [hfuncs, hk]
    have hmem : runs[k].func ∈ s.ownFuncs code := by simp [State.ownFuncs, List.mem_of_getElem? hfunc]
    obtain ⟨image, himage⟩ := resolve_succeeds_iff.2 hfinish
    obtain ⟨n, hresolved⟩ := Module.resolved_of_resolve himage
    obtain ⟨i, g, hg, hi, htype⟩ := hresolved.func_at hfinish
      (cx.finish_eq _ ▸ mem_mapBodies (mem_program_func hmem))
    refine ⟨?_, image, i, g, himage, hg, hname ▸ hi, fun caller hcaller type hcalled => ?_⟩
    · rw [cx.finish_eq, slot_mapBodies, slot_program hfunc, hname]
    · obtain ⟨x, signature, hx, rfl⟩ := hresolved.indirectTypes hcaller hcalled
      rw [cx.finish_eq, signature_mapBodies] at hx
      obtain rfl := signature_of_program hx
      exact htype.symm

/-- A function within a recursive one, and one that is applied to it. -/
def Node.nestedLiterals : Node :=
  let here : Span := .point ⟨"", Source.defaultPath⟩ 0
  .letRec here "f" (.lambda here "x" (.lambda here "y" (.app here (.ident here "f") (.ident here "x"))))
    (.app here (.lambda here "g" (.ident here "g")) (.ident here "f"))

/-- The inner function is finished before the one around it. -/
example : (Node.nestedLiterals.functionLiterals .empty).map (fun l => (l.self, l.param)) =
    [(none, "y"), (some "f", "x"), (none, "g")] := rfl

theorem closures_own_code_nestedLiterals :
    let cx : Setup := ⟨.default, .empty, .direct⟩
    ∃ code s runs m, Node.nestedLiterals.lower cx .initial = .ok code s ∧
      Node.nestedLiterals.Walk cx .initial code s runs ∧
      runs.map (fun run => (run.self, run.param, run.code)) =
        [(none, "y", Emit.closure 0), (some "f", "x", Emit.closure 1), (none, "g", Emit.closure 2)] ∧
      Compiled.assemble cx code s = .ok m ∧ (cx.finish m).tableSize Closures.table = 3 ∧
      (cx.finish m).slot? Closures.table 1 = some "fn_1" := by
  intro cx
  have hbound : Node.nestedLiterals.WellFormed [] := by simp [Node.nestedLiterals, Node.WellFormed]
  obtain ⟨code, s, hlower⟩ := hbound.lowers (show cx.routes = .direct from rfl)
  obtain ⟨runs, hwalk, hliterals, hcode, -, m, hassemble, hsize, hslots⟩ :=
    closures_own_code cx rfl .nestedLiterals hlower
  have hlength : (runs.map (·.literal)).length = 3 := congrArg List.length hliterals
  rw [List.length_map] at hlength
  refine ⟨code, s, runs, m, hlower, hwalk, ?_, hassemble, hsize.trans hlength, (hslots 1 (by omega)).1⟩
  obtain ⟨a, b, c, rfl⟩ := List.length_eq_three.1 hlength
  have hfields : [a, b, c].map (fun run => (run.self, run.param)) = [(none, "y"), (some "f", "x"), (none, "g")] :=
    congrArg (List.map fun l : FunctionLiteral => (l.self, l.param)) hliterals
  have ha := (hcode 0 a rfl).1
  have hb := (hcode 1 b rfl).1
  have hc := (hcode 2 c rfl).1
  simp only [List.map_cons, List.map_nil, List.cons.injEq, Prod.mk.injEq, and_true] at hfields ⊢
  exact ⟨⟨hfields.1.1, hfields.1.2, ha⟩, ⟨hfields.2.1.1, hfields.2.1.2, hb⟩, hfields.2.2.1, hfields.2.2.2, hc⟩

end WasmBackend
