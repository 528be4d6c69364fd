/-
Which trees are compiled (`compile_succeeds_iff`): those in which every name
is bound, what is defined recursively is a function, and there is a function
literal if a function is applied. The last condition is there because an
application calls through the table of function literals, and a tree without
literals has no such table, nor the signature that goes with it.
-/
import WasmBackend.Proofs.Assembly.Program

namespace WasmBackend

open Library

/-! ## Applications refer to the signature of literals -/

theorem Lower.inScope_eq_ok {α : Type} {frames : List (Option String)} {x : Lower α} {s u : State} {a : α}
    (h : inScope frames x s = .ok a u) : ∃ s' t, x s' = .ok a t := by
  unfold inScope at h
  split at h
  · rename_i b t hx
    cases h
    exact ⟨_, t, hx⟩
  · cases h

/-- The body of a binding is part of its code. -/
theorem Lower.withBinding_eq_ok {name : String} {v code : Code} {body : Lower Code} {s u : State}
    (h : withBinding name v body s = .ok code u) : ∃ c s' t, body s' = .ok c t ∧ code = Emit.bind v c := by
  simp only [withBinding, Lower.bind_eq_ok, Lower.pure_eq_ok] at h
  obtain ⟨_, _, _, c, _, hbody, hcode, _⟩ := h
  obtain ⟨s', t', hbody⟩ := inScope_eq_ok hbody
  exact ⟨c, s', t', hbody, hcode.symm⟩

namespace Node

open Lower

variable {cx : Setup}

mutual

/-- Where there are no function literals, all code of a node is in one place. -/
theorem signature_mem_refs (hcx : cx.routes = .direct) (node : Node) {s t : State} {code : Code}
    (h : node.lower cx s = .ok code t) (hlits : node.literals = 0) (happs : 0 < node.applications) :
    (Space.types, Closures.type) ∈ Code.refs code := by
  cases node with
  | lit span value => simp [applications] at happs
  | ident span name => simp [applications] at happs
  | unary span o operand =>
    cases o
    all_goals
      simp only [lower, route_direct hcx, pure_bind, Lower.bind_eq_ok, Lower.pure_eq_ok] at h
      simp only [literals, applications] at hlits happs
    · obtain ⟨e, _, he, rfl, _⟩ := h
      have ih := signature_mem_refs hcx operand he hlits happs
      simp [Emit.neg, ih]
    · obtain ⟨_, _, _, e, _, he, rfl, _⟩ := h
      have ih := signature_mem_refs hcx operand he hlits happs
      simp [Emit.floatNeg, ih]
  | binary span o left right =>
    simp only [literals, applications, Nat.add_eq_zero_iff] at hlits happs
    have hparts {l r : Code} {s₁ s₂ t₁ t₂ : State} (hl : left.lower cx s₁ = .ok l t₁)
        (hr : right.lower cx s₂ = .ok r t₂) : (Space.types, Closures.type) ∈ Code.refs l ∨
          (Space.types, Closures.type) ∈ Code.refs r := by
      rcases Nat.eq_zero_or_pos left.applications with h0 | hpos
      · exact .inr (signature_mem_refs hcx right hr hlits.2 (by omega))
      · exact .inl (signature_mem_refs hcx left hl hlits.1 hpos)
    cases o with
    | int o =>
      simp only [lower, route_direct hcx, pure_bind, Lower.bind_eq_ok, Lower.pure_eq_ok] at h
      obtain ⟨l, _, hl, r, _, hr, rfl, _⟩ := h
      have := hparts hl hr
      cases o <;> simpa [Emit.intOp, Emit.untag, Emit.retag, Instr.refs] using this
    | float o =>
      simp only [lower, route_direct hcx, pure_bind, Lower.bind_eq_ok, Lower.pure_eq_ok] at h
      obtain ⟨_, _, _, l, _, hl, r, _, hr, rfl, _⟩ := h
      simpa [Emit.floatOp, Instr.refs] using hparts hl hr
    | and | or =>
      simp only [lower, route_direct hcx, pure_bind, Lower.bind_eq_ok, Lower.pure_eq_ok] at h
      obtain ⟨l, _, hl, r, _, hr, rfl, _⟩ := h
      simpa [Emit.and, Emit.or, Instr.condWord, Instr.refs] using hparts hl hr
    | compare c =>
      simp only [lower, route_direct hcx, pure_bind, Lower.bind_eq_ok] at h
      obtain ⟨l, _, hl, r, _, hr, h⟩ := h
      split at h
      · obtain ⟨rfl, -⟩ := Lower.pure_eq_ok.1 h
        simpa [Emit.compareWords, Emit.toBool, Instr.refs] using hparts hl hr
      · obtain ⟨-, -, -, h⟩ := Lower.bind_eq_ok.1 h
        obtain ⟨rfl, -⟩ := Lower.pure_eq_ok.1 h
        simpa [Emit.compareAny, Emit.toBool, Instr.refs] using hparts hl hr
  | cond span test yes no =>
    simp only [literals, applications, Nat.add_eq_zero_iff] at hlits happs
    simp only [lower, route_direct hcx, pure_bind, Lower.bind_eq_ok, Lower.pure_eq_ok] at h
    obtain ⟨a, _, ha, b, _, hb, c, _, hc, rfl, _⟩ := h
    simp only [Emit.cond, Instr.condWord, Code.refs_append, Code.refs_cons, Code.refs_nil, Instr.refs, List.append_nil,
      List.mem_append]
    rcases Nat.eq_zero_or_pos test.applications with h0 | hpos
    · rcases Nat.eq_zero_or_pos yes.applications with h1 | hpos
      · exact .inr (.inr (signature_mem_refs hcx no hc hlits.2 (by omega)))
      · exact .inr (.inl (signature_mem_refs hcx yes hb hlits.1.2 hpos))
    · exact .inl (signature_mem_refs hcx test ha hlits.1.1 hpos)
  | letIn span name value body =>
    simp only [literals, applications, Nat.add_eq_zero_iff] at hlits happs
    simp only [lower, route_direct hcx, pure_bind, Lower.bind_eq_ok] at h
    obtain ⟨v, _, hv, h⟩ := h
    obtain ⟨c, _, _, hc, rfl⟩ := withBinding_eq_ok h
    simp only [Emit.bind, List.cons_append, Code.refs_append, Code.refs_cons, Code.refs_nil, Instr.refs, List.append_nil]
    rcases Nat.eq_zero_or_pos value.applications with h0 | hpos
    · have ih := signature_mem_refs hcx body hc hlits.2 (by omega)
      simp [ih]
    · have ih := signature_mem_refs hcx value hv hlits.1 hpos
      simp [ih]
  | letRec span name value body =>
    cases value with
    | lambda _ _ inner => simp [literals] at hlits
    | _ =>
      simp only [lower, route_direct hcx, pure_bind] at h
      cases h
  | lambda span param body => simp [literals] at hlits
  | app span fn arg =>
    simp only [lower, route_direct hcx, pure_bind, Lower.bind_eq_ok, Lower.pure_eq_ok] at h
    obtain ⟨_, _, _, _, _, _, _, _, _, a, _, _, f, _, _, rfl, _⟩ := h
    simp [Emit.app, Instr.refs]
  | cons span head tail =>
    simp only [literals, applications, Nat.add_eq_zero_iff] at hlits happs
    simp only [lower, route_direct hcx, pure_bind, Lower.bind_eq_ok, Lower.pure_eq_ok] at h
    obtain ⟨_, _, _, a, _, ha, b, _, hb, rfl, _⟩ := h
    simp only [Emit.cons, Code.refs_append, List.mem_append]
    rcases Nat.eq_zero_or_pos tail.applications with h0 | hpos
    · exact .inl (.inr (signature_mem_refs hcx head hb hlits.2 (by omega)))
    · exact .inl (.inl (signature_mem_refs hcx tail ha hlits.1 hpos))
  | cases span scrutinee arms =>
    simp only [literals, applications, Nat.add_eq_zero_iff] at hlits happs
    simp only [lower, route_direct hcx, pure_bind, Lower.bind_eq_ok, Lower.pure_eq_ok] at h
    obtain ⟨_, _, _, site, _, _, e, _, he, branches, _, hb, rfl, _⟩ := h
    simp only [Emit.cases, Code.refs_append, List.mem_append]
    rcases Nat.eq_zero_or_pos scrutinee.applications with h0 | hpos
    · exact .inr (signature_mem_refs_arms hcx arms hb hlits.2 (by omega) site)
    · exact .inl (.inl (signature_mem_refs hcx scrutinee he hlits.1 hpos))
termination_by structural node

theorem signature_mem_refs_arms (hcx : cx.routes = .direct) (arms : List (Pattern × Node)) {s t : State}
    {branches : List (String × Code)} (h : lowerArms cx arms s = .ok branches t) (hlits : literalsIn arms = 0)
    (happs : 0 < applicationsIn arms) (site : Emit.Site) :
    (Space.types, Closures.type) ∈ Code.refs (Emit.arms site branches) := by
  cases arms with
  | nil => simp [applicationsIn] at happs
  | cons arm rest =>
    obtain ⟨pattern, body⟩ := arm
    simp only [literalsIn, applicationsIn, Nat.add_eq_zero_iff] at hlits happs
    simp only [lowerArms, Lower.bind_eq_ok, Lower.pure_eq_ok] at h
    obtain ⟨f, _, _, c, _, hc, others, _, ho, rfl, _⟩ := h
    obtain ⟨_, _, hc⟩ := inScope_eq_ok hc
    simp only [Emit.arms, Instr.condWord, Code.refs_append, Code.refs_cons, Code.refs_nil, Instr.refs, List.append_nil,
      List.mem_append]
    rcases Nat.eq_zero_or_pos body.applications with h0 | hpos
    · have ih := signature_mem_refs_arms hcx rest ho hlits.2 (by omega) site
      simp [ih]
    · have ih := signature_mem_refs hcx body hc hlits.1 hpos
      simp [ih]
termination_by structural arms

end

end Node

/-! ## Reducing keeps signatures -/

theorem Code.mem_refs {d : Space × String} {c : Code} : d ∈ Code.refs c ↔ ∃ i ∈ c, d ∈ i.refs := by
  induction c with
  | nil => simp
  | cons i c ih => simp [ih]

namespace Peephole

variable {x : String}

/-- Boxing and unboxing refer to functions only. -/
theorem type_mem_push {stack : Code} {i : Instr String} (h : (Space.types, x) ∈ Code.refs (i :: stack)) :
    (Space.types, x) ∈ Code.refs (push stack i) := by
  cases stack with
  | nil => exact h
  | cons top rest =>
    rw [push]
    split
    · rename_i hcalls
      obtain ⟨htop, hi⟩ := Bool.and_eq_true_iff.1 hcalls
      rw [isCall_eq_true.1 htop, isCall_eq_true.1 hi] at h
      simpa [Instr.refs] using h
    · exact h

mutual

theorem type_mem_inner : ∀ i : Instr String, (Space.types, x) ∈ i.refs → (Space.types, x) ∈ (inner i).refs
  | .cond result thenCode elseCode, h => by
    simp only [inner, Instr.refs, List.mem_append] at h ⊢
    exact h.imp (fun h => type_mem_cancelOnto thenCode [] (.inr h)) fun h => type_mem_cancelOnto elseCode [] (.inr h)
  | .op _, h | .i32Const _, h | .f64Const _, h | .localGet _, h | .localSet _, h | .localTee _, h | .globalGet _, h
  | .globalSet _, h | .call _, h | .callIndirect _ _, h | .load _ _, h | .store _ _, h => by
    simpa only [inner] using h
termination_by structural i => i

theorem type_mem_cancelOnto : ∀ c stack : Code, (Space.types, x) ∈ Code.refs stack ∨ (Space.types, x) ∈ Code.refs c →
    (Space.types, x) ∈ Code.refs (cancelOnto stack c)
  | [], stack, h => by
    have hstack : (Space.types, x) ∈ Code.refs stack := by simpa using h
    simp only [cancelOnto, Code.mem_refs, List.mem_reverse] at hstack ⊢
    exact hstack
  | i :: c, stack, h => by
    rw [cancelOnto]
    refine type_mem_cancelOnto c _ ?_
    simp only [Code.refs_cons, List.mem_append] at h
    rcases h with h | h | h
    · exact .inl (type_mem_push (by simp [h]))
    · exact .inl (type_mem_push (by simp [type_mem_inner i h]))
    · exact .inr h
termination_by structural c => c

end

theorem Popped.type_mem {a c : Code} (h : Popped a c) (hc : (Space.types, x) ∈ Code.refs c) :
    (Space.types, x) ∈ Code.refs a := by
  induction h with
  | refl => exact hc
  | pop _ ih => exact ih (by simpa [popCode, Instr.refs] using hc)

theorem type_mem_reduce {c : Code} (h : (Space.types, x) ∈ Code.refs c) : (Space.types, x) ∈ Code.refs (reduce c) :=
  (popped_dropPops _).type_mem
    (cancelAll_induction (fun a ha => type_mem_cancelOnto a [] (.inr ha)) c h)

end Peephole

theorem Setup.type_mem_reduce (cx : Setup) {x : String} {c : Code} (h : (Space.types, x) ∈ Code.refs c) :
    (Space.types, x) ∈ Code.refs (cx.reduce c) := by
  unfold Setup.reduce
  split
  · exact Peephole.type_mem_reduce h
  · exact h

/-! ## Compiling -/

section

variable {cx : Setup} {tree : Node}

/-- A program that applies functions and whose names resolve has a function literal. -/
theorem literals_of_wellNamed (hcx : cx.routes = .direct) {code : Code} {s : State}
    (hlower : tree.lower cx .initial = .ok code s) (hm : (cx.finish (s.program cx code)).WellNamed)
    (happs : 0 < tree.applications) : 0 < tree.literals := by
  have hspec := tree.lower_initial hcx (fun _ => trivial)
  rw [Lower.Spec, hlower] at hspec
  refine Nat.pos_of_ne_zero fun hlits => ?_
  have hnone : s.functions.funcs = [] := by
    have hlen := hspec.2.literals
    rw [hlits] at hlen
    exact List.length_eq_zero_iff.1 hlen
  rw [cx.finish_eq] at hm
  have hentry : .func (s.entry code) ∈ (s.program cx code).fields :=
    List.mem_append_right _ (mem_ownFields.2 (.inl ⟨_, by simp [State.ownFuncs], rfl⟩))
  have href : (Space.types, Closures.type) ∈ Code.refs (s.entry code).body := by
    have hmem := tree.signature_mem_refs hcx hlower hlits happs
    simp [State.entry, Compiled.entryFunc, hmem]
  have hdecl := hm.refs _ (mem_mapBodies hentry) _ (List.mem_filter.2 ⟨cx.type_mem_reduce href, by decide⟩)
  rw [declared_mapBodies] at hdecl
  simp only [State.program, State.runtimeFields, declared_append, declared_ownFields, hnone, List.isEmpty_nil, if_true,
    List.append_nil, Compare.fields_comparator, declared_funcs] at hdecl
  -- the library declares no types
  have hlibrary : ∀ f ∈ Feature.all, f.declares .types = [] := by decide +kernel
  obtain ⟨f, -, hf⟩ := declared_library.1 (by simpa using hdecl)
  rw [hlibrary f (Feature.mem_all f)] at hf
  cases hf

theorem Setup.succeeds_compile_iff (hcx : cx.routes = .direct) (hvalid : cx.settings.validate = .ok ()) :
    Succeeds (cx.compile tree) ↔ tree.WellFormed [] ∧ (0 < tree.applications → 0 < tree.literals) := by
  constructor
  · rintro ⟨c, hc⟩
    obtain ⟨-, code, s, hlower, -, hencode⟩ := (Setup.compile_eq_ok hcx).1 hc
    have hspec := tree.lower_initial hcx (fun _ => trivial)
    rw [Lower.Spec, hlower] at hspec
    exact ⟨hspec.1, literals_of_wellNamed hcx hlower (Module.succeeds_encode.1 ⟨_, hencode⟩)⟩
  · rintro ⟨hbound, happs⟩
    obtain ⟨_, _, _, hc, -⟩ := Setup.compile_succeeds hcx hvalid hbound happs
    exact ⟨_, hc⟩

/-- A well-formed tree is lowered and linked, so nothing but the encoding of its module can fail. -/
theorem Setup.compile_malformed (hcx : cx.routes = .direct) (hvalid : cx.settings.validate = .ok ())
    (hbound : tree.WellFormed []) (hfails : ¬ Succeeds (cx.compile tree)) :
    ∃ e, cx.compile tree = .error (.rejected (.malformed e)) := by
  obtain ⟨code, s, hlower⟩ := hbound.lowers hcx
  have hspec := tree.lower_initial hcx (fun _ => trivial)
  rw [Lower.Spec, hlower] at hspec
  have hassemble : Compiled.assemble cx code s = .ok (s.program cx code) :=
    assemble_eq hspec.2.tidy hspec.2.grew.code
  have hcompile : cx.compile tree = (Compiled.ofModule cx (s.program cx code)).mapError .rejected := by
    simp only [Setup.compile, hvalid, hlower, hassemble]
  cases hm : (cx.finish (s.program cx code)).encode cx.settings.enableNameSection with
  | ok bytes => exact absurd ⟨⟨_, bytes⟩, (Setup.compile_eq_ok hcx).2 ⟨hvalid, code, s, hlower, rfl, hm⟩⟩ hfails
  | error e =>
    have hmodule : Compiled.ofModule cx (s.program cx code) = .error (.malformed e) := by
      rw [ofModule_eq, hm]
    exact ⟨e, by rw [hcompile, hmodule]; rfl⟩

end

/-- **Which trees are compiled**, with whatever types and settings: those in which every name is
bound, only functions are defined recursively, and there is a function literal if a function is
applied. Without the literal, names and recursive definitions are found to be in order and the
module is rejected for its encoding. -/
theorem compile_succeeds_iff (settings : Settings) (types : TypeMap) (tree : Node)
    (hvalid : settings.validate = .ok ()) :
    (Succeeds (compile settings types tree) ↔
      tree.WellFormed [] ∧ (0 < tree.applications → 0 < tree.literals)) ∧
    (tree.WellFormed [] → 0 < tree.applications → tree.literals = 0 →
      ∃ e, compile settings types tree = .error (.rejected (.malformed e))) := by
  have hiff : Succeeds (compile settings types tree) ↔
      tree.WellFormed [] ∧ (0 < tree.applications → 0 < tree.literals) := Setup.succeeds_compile_iff rfl hvalid
  refine ⟨hiff, fun hbound happs hlits => Setup.compile_malformed rfl hvalid hbound fun hok => ?_⟩
  have hpos := (hiff.1 hok).2 happs
  omega

/-- Applies the head of an empty list. -/
def Node.applyHead : Node :=
  let here : Span := .point ⟨"", Source.defaultPath⟩ 0
  .cases here (.lit here .nil) [
    (.nil here, .lit here (.int 0)),
    (.cons here (.ident here "f") (.wildcard here), .app here (.ident here "f") (.lit here (.int 1)))]

/-- The encoding is what rejects a tree that applies the head of a list and has no function. -/
theorem compile_succeeds_iff_applyHead : Settings.default.validate = .ok () ∧ Node.applyHead.WellFormed [] ∧
    (∃ e, compile .default .empty .applyHead = .error (.rejected (.malformed e))) := by
  have hbound : Node.applyHead.WellFormed [] := by
    simp [Node.applyHead, Node.WellFormed, Node.WellFormedArms, Pattern.bindings]
  exact ⟨rfl, hbound, (compile_succeeds_iff .default .empty .applyHead rfl).2 hbound (by decide) rfl⟩

/-- All names of a tree are bound, nothing in it is defined recursively, and yet it is not
compiled. -/
theorem applyHead_not_compiled : Node.applyHead.WellFormed [] ∧
    ¬ Succeeds (compile .default .empty .applyHead) := by
  refine ⟨by simp [Node.applyHead, Node.WellFormed, Node.WellFormedArms, Pattern.bindings], fun hok => ?_⟩
  have happs : 0 < Node.applyHead.applications := by decide
  have hlits : 0 < Node.applyHead.literals := ((Setup.succeeds_compile_iff rfl rfl).1 hok).2 happs
  exact absurd hlits (by decide)

end WasmBackend
