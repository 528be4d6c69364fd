/-
The code of a tree is typed: the code of a node leaves one word
(`Node.lower_typed`), and so do the bodies of the function literals and of
the matchers that are made on the way. Each construct is typed if its parts
are, whatever the state of the lowering; cancelling and dropping instructions
keep types (`Peephole.reduce_typed`).
-/
import WasmBackend.Proofs.Lowering.Nodes
import WasmBackend.Proofs.Typing.Library

namespace WasmBackend

open Library

/-- Code of a tree that leaves a word. -/
def Code.LeavesWord (memory : Bool) (c : Code) : Prop := Code.Typed (.compiled memory) c [] [.i32]

/-! ## Constructs -/

section

variable {memory : Bool} {e l r : Code}

/-- Code that follows code for one word. -/
theorem Code.LeavesWord.andThen {t : List ValType} (he : e.LeavesWord memory) {c : Code}
    (hc : Code.leads (.compiled memory) c [.i32] t = true) : Code.Typed (.compiled memory) (e ++ c) [] t :=
  he.append (Code.typed_of_leads hc)

/-- Code that follows code for two words. -/
theorem Code.LeavesWord.both (hl : l.LeavesWord memory) (hr : r.LeavesWord memory) :
    Code.Typed (.compiled memory) (l ++ r) [] [.i32, .i32] :=
  hl.append (hr.frame [.i32])

theorem Code.leavesWord_condWord {yes no : Code} (hyes : yes.LeavesWord memory) (hno : no.LeavesWord memory) :
    Code.Typed (.compiled memory) [.condWord yes no] [.i32] [.i32] :=
  Instr.Typed.code (.cond hyes hno)

namespace Emit

theorem typed_lookup (distance : Nat) : (lookup distance).LeavesWord memory := Code.typed_of_leads rfl

theorem typed_neg (he : e.LeavesWord memory) : (neg e).LeavesWord memory := by
  have hfirst : Code.Typed (.compiled memory) [.i32Const 2] [] [.i32] := Code.typed_of_leads rfl
  have hlast : Code.Typed (.compiled memory) [.op .i32Sub] [.i32, .i32] [.i32] := Code.typed_of_leads rfl
  exact (hfirst.append (he.frame [.i32])).append hlast

theorem typed_floatNeg (he : e.LeavesWord memory) : (floatNeg e).LeavesWord memory := he.andThen rfl

theorem typed_intOp (o : IntOp) (hl : l.LeavesWord memory) (hr : r.LeavesWord memory) :
    (intOp o l r).LeavesWord memory := by
  have huntag {e : Code} (he : e.LeavesWord memory) : (e ++ untag).LeavesWord memory := he.andThen rfl
  have hops {c : Code} (hc : Code.leads (.compiled memory) c [.i32, .i32] [.i32] = true) :
      (l ++ untag ++ (r ++ untag) ++ c).LeavesWord memory :=
    ((huntag hl).both (huntag hr)).append (Code.typed_of_leads hc)
  cases o with
  | add | sub => exact (hl.both hr).append (Code.typed_of_leads rfl)
  | mul | div =>
    simp only [intOp, List.append_assoc] at hops ⊢
    exact hops rfl

theorem typed_floatOp (o : FloatOp) (hl : l.LeavesWord memory) (hr : r.LeavesWord memory) :
    (floatOp o l r).LeavesWord memory := by
  have hleft : Code.Typed (.compiled memory) (l ++ [Instr.call Floats.get]) [] [.f64] := hl.andThen rfl
  have hlast : Code.Typed (.compiled memory) [.call Floats.get, .op (floatInstr o), .call Floats.new] [.i32, .f64] [.i32] := by
    cases o <;> exact Code.typed_of_leads rfl
  exact (hleft.append (hr.frame [.f64])).append hlast

theorem typed_compareWords (c : Comparison) (hl : l.LeavesWord memory) (hr : r.LeavesWord memory) :
    (compareWords c l r).LeavesWord memory := by
  have hop : Code.Typed (.compiled memory) [.op c.wordOp] [.i32, .i32] [.i32] := by
    cases c <;> exact Code.typed_of_leads rfl
  exact ((hl.both hr).append hop).append (Code.typed_of_leads rfl)

theorem typed_call {f : String} (h : signature f = ⟨[.i32, .i32], some .i32⟩) :
    Code.Typed (.compiled memory) [.call f] [.i32, .i32] [.i32] := by
  have hf : (Instr.call f).type? (.compiled memory) = some ([.i32, .i32], [.i32]) := by
    simp [Instr.type?, Context.compiled, h]
  exact Instr.Typed.code (.plain hf)

theorem typed_compareAny (c : Comparison) (hl : l.LeavesWord memory) (hr : r.LeavesWord memory) :
    (compareAny c l r).LeavesWord memory :=
  ((hl.both hr).append (typed_call (signature_function c))).append (Code.typed_of_leads rfl)

theorem typed_and (hl : l.LeavesWord memory) (hr : r.LeavesWord memory) : (Emit.and l r).LeavesWord memory :=
  hl.append (Code.leavesWord_condWord hr (Code.typed_of_leads rfl))

theorem typed_or (hl : l.LeavesWord memory) (hr : r.LeavesWord memory) : (Emit.or l r).LeavesWord memory :=
  hl.append (Code.leavesWord_condWord (Code.typed_of_leads rfl) hr)

theorem typed_bind (hl : l.LeavesWord memory) (hr : r.LeavesWord memory) : (Emit.bind l r).LeavesWord memory := by
  have hget : Code.Typed (.compiled memory) [.localGet Env.current] [] [.i32] := Code.typed_of_leads rfl
  have hopen : Code.Typed (.compiled memory) [.call Env.new, .localSet Env.current] [.i32, .i32] [] :=
    Code.typed_of_leads rfl
  have hclose : Code.Typed (.compiled memory) [.localGet Env.current, .call Env.parent, .localSet Env.current]
      [.i32] [.i32] := Code.typed_of_leads rfl
  exact (((hget.append (hl.frame [.i32])).append hopen).append hr).append hclose

theorem typed_app (hl : l.LeavesWord memory) (hr : r.LeavesWord memory) : (app l r).LeavesWord memory :=
  (hl.both hr).append (Code.typed_of_leads rfl)

theorem typed_cons (hl : l.LeavesWord memory) (hr : r.LeavesWord memory) : (Emit.cons l r).LeavesWord memory :=
  (hl.both hr).append (Code.typed_of_leads rfl)

theorem typed_arms (site : Site) {branches : List (String × Code)} (h : ∀ b ∈ branches,
    signature b.1 = ⟨[.i32, .i32], some .i32⟩ ∧ b.2.LeavesWord memory) : (arms site branches).LeavesWord memory := by
  induction branches with
  | nil => exact Instr.Typed.code .unreachable
  | cons b rest ih =>
    obtain ⟨matcher, body⟩ := b
    obtain ⟨hmatcher, hbody⟩ := h _ (.head _)
    have hget : Code.Typed (.compiled memory) [.localGet site.outer, .localGet site.value] [] [.i32, .i32] :=
      Code.typed_of_leads rfl
    have htee : Code.Typed (.compiled memory) [.localTee site.inner] [.i32] [.i32] := Code.typed_of_leads rfl
    have hset (x y : String) : Code.Typed (.compiled memory) [.localGet x, .localSet y] [] [] :=
      Code.typed_of_leads rfl
    have hyes := ((hset site.inner Env.current).append hbody).append ((hset site.outer Env.current).frame [.i32])
    have hno := ih fun b hb => h b (.tail _ hb)
    exact ((hget.append (typed_call hmatcher)).append htee).append (Code.leavesWord_condWord hyes hno)

theorem typed_cases (site : Site) {branches : List (String × Code)} (he : e.LeavesWord memory)
    (h : ∀ b ∈ branches, signature b.1 = ⟨[.i32, .i32], some .i32⟩ ∧ b.2.LeavesWord memory) :
    (cases site e branches).LeavesWord memory := by
  have hsave : Code.Typed (.compiled memory) (e ++ [Instr.localSet site.value, .localGet Env.current, .localSet site.outer])
      [] [] := he.andThen rfl
  exact hsave.append (typed_arms site h)

theorem typed_matchCons {h t : String} (hh : signature h = ⟨[.i32, .i32], some .i32⟩)
    (ht : signature t = ⟨[.i32, .i32], some .i32⟩) : (matchCons h t).LeavesWord memory := by
  have htest : Code.Typed (.compiled memory) [.localGet "value", .call Lists.isEmpty] [] [.i32] :=
    Code.typed_of_leads rfl
  have hhead : Code.Typed (.compiled memory) [.localGet "env", .localGet "value", .call Lists.head] [] [.i32, .i32] :=
    Code.typed_of_leads rfl
  have htail : Code.Typed (.compiled memory) [.localGet next, .localGet "value", .call Lists.tail] [] [.i32, .i32] :=
    Code.typed_of_leads rfl
  have htee : Code.Typed (.compiled memory) [.localTee next] [.i32] [.i32] := Code.typed_of_leads rfl
  have hfailure : Code.LeavesWord memory [.i32Const Matchers.failure] := Code.typed_of_leads rfl
  have hcell := ((hhead.append (typed_call hh)).append htee).append
    (Code.leavesWord_condWord (htail.append (typed_call ht)) hfailure)
  exact htest.append (Code.leavesWord_condWord hfailure hcell)

end Emit

end

/-! ## Lowering -/

namespace Definitions

/-- A typed function of a family. -/
structure Family.Makes (family : Family) (memory : Bool) (f : Func) : Prop where
  params : f.params = family.params.map .word
  result : f.result = some .i32
  locals : ∀ l ∈ f.locals, l.ty = .i32
  body : f.body.LeavesWord memory

/-- What was made is typed, and locals are words. -/
structure Typed (memory : Bool) (family : Family) (d : Definitions) : Prop where
  funcs : ∀ f ∈ d.funcs, family.Makes memory f
  frames : ∀ frame ∈ d.frames, ∀ l ∈ frame, l.ty = .i32

variable {memory : Bool} {family : Family} {d : Definitions}

theorem Typed.enter (h : d.Typed memory family) : d.enter.Typed memory family := by
  refine ⟨h.funcs, fun frame hframe => ?_⟩
  rcases List.mem_cons.1 hframe with rfl | hframe
  · exact nofun
  · exact h.frames frame hframe

theorem Typed.declare (h : d.Typed memory family) (x : String) : (d.declare (.word x)).Typed memory family := by
  unfold Definitions.declare
  split
  · exact h
  · rename_i frame outer hframes
    have hframe := h.frames frame (hframes ▸ .head _)
    refine ⟨h.funcs, fun frame' hmem l hl => ?_⟩
    rcases List.mem_cons.1 hmem with rfl | hmem
    · by_cases hnew : Local.word x ∈ frame
      · rw [if_pos hnew] at hl
        exact hframe l hl
      · rw [if_neg hnew] at hl
        rcases List.mem_append.1 hl with hl | hl
        · exact hframe l hl
        · rw [List.mem_singleton.1 hl]
          rfl
    · exact h.frames frame' (hframes ▸ .tail _ hmem) l hl

theorem Typed.leave (h : d.Typed memory family) {body : Code} (hbody : body.LeavesWord memory) :
    (d.leave family body).Typed memory family := by
  refine ⟨fun f hf => ?_, fun frame hframe => h.frames frame (List.mem_of_mem_drop hframe)⟩
  rcases List.mem_append.1 hf with hf | hf
  · exact h.funcs f hf
  · rw [List.mem_singleton.1 hf]
    refine ⟨rfl, rfl, ?_, hbody⟩
    intro l hl
    cases hframes : d.frames with
    | nil => simp [Definitions.close, hframes] at hl
    | cons frame outer =>
      have hl : l ∈ frame := by simpa [Definitions.close, hframes] using hl
      exact h.frames frame (hframes ▸ .head _) l hl

end Definitions

/-- What was made on the way is typed. -/
structure State.Typed (memory : Bool) (s : State) : Prop where
  functions : s.functions.Typed memory .literals
  matchers : s.matchers.Typed memory .matchers

theorem State.typed_initial (memory : Bool) : State.initial.Typed memory := by
  refine ⟨⟨nofun, fun frame hframe => ?_⟩, nofun, nofun⟩
  rw [List.mem_singleton.1 hframe]
  exact nofun

/-- A lowering that makes typed functions only, and what holds of its result. -/
def Lower.Yields {α : Type} (memory : Bool) (x : Lower α) (P : α → Prop) : Prop :=
  ∀ (s t : State) (a : α), x s = .ok a t → s.Typed memory → t.Typed memory ∧ P a

namespace Lower

variable {memory : Bool} {α β : Type} {x : Lower α} {P Q : α → Prop}

theorem Yields.pure {a : α} (h : P a) : Yields memory (Pure.pure a) P := by
  intro s t b hx hs
  obtain ⟨rfl, rfl⟩ := Lower.pure_eq_ok.1 hx
  exact ⟨hs, h⟩

theorem Yields.bind {f : α → Lower β} {R : β → Prop} (hx : Yields memory x P) (hf : ∀ a, P a → Yields memory (f a) R) :
    Yields memory (x >>= f) R := by
  intro s u b h hs
  obtain ⟨a, t, ha, hb⟩ := Lower.bind_eq_ok.1 h
  obtain ⟨ht, hP⟩ := hx _ _ _ ha hs
  exact hf a hP _ _ _ hb ht

theorem Yields.modify {g : State → State} (h : ∀ s : State, s.Typed memory → (g s).Typed memory) :
    Yields memory (modify g) fun _ => True := by
  intro s t a hx hs
  cases hx
  exact ⟨h s hs, trivial⟩

theorem Yields.inScope (hx : Yields memory x P) (frames : List (Option String)) :
    Yields memory (inScope frames x) P := by
  intro s u a h hs
  unfold Lower.inScope at h
  split at h
  · rename_i b t hb
    cases h
    obtain ⟨ht, ha⟩ := hx _ t a hb ⟨hs.functions, hs.matchers⟩
    exact ⟨⟨ht.functions, ht.matchers⟩, ha⟩
  · cases h

theorem Yields.use (f : Feature) : Yields memory (use f) fun _ => True :=
  .modify fun _ hs => ⟨hs.functions, hs.matchers⟩

theorem Yields.declare (name : String) : Yields memory (declare name) fun _ => True :=
  .modify fun _ hs => ⟨hs.functions.declare name, hs.matchers⟩

theorem Yields.leaveFunction {body : Code} (h : body.LeavesWord memory) :
    Yields memory (leaveFunction body) fun _ => True := by
  intro s t k hx hs
  cases hx
  exact ⟨⟨hs.functions.leave h, hs.matchers⟩, trivial⟩

theorem Yields.leaveMatcher {body : Code} (h : body.LeavesWord memory) :
    Yields memory (leaveMatcher body) fun name => signature name = ⟨[.i32, .i32], some .i32⟩ := by
  intro s t name hx hs
  cases hx
  exact ⟨⟨hs.functions, hs.matchers.leave h⟩, signature_matcher _⟩

theorem Yields.literal (value : Literal) : Yields memory (literal value) (Code.LeavesWord memory) := by
  cases value with
  | int n | bool b => exact .pure (Code.typed_of_leads rfl)
  | nil | float x => exact (Yields.use _).bind fun _ _ => .pure (Code.typed_of_leads rfl)

theorem Yields.reference (span : Span) (name : String) :
    Yields memory (reference span name) (Code.LeavesWord memory) := by
  intro s t code h hs
  rw [reference_apply] at h
  cases hdistance : s.scopes.distance? name with
  | none =>
    rw [hdistance] at h
    cases h
  | some distance =>
    rw [hdistance] at h
    exact (Yields.use .environment).bind (fun _ _ => .pure (Emit.typed_lookup distance)) _ _ _ h hs

theorem Yields.function {body : Lower Code} (hbody : Yields memory body (Code.LeavesWord memory)) (name : Option String)
    (param : String) : Yields memory (function name param body) (Code.LeavesWord memory) := by
  refine (Yields.use .closure).bind fun _ _ => ?_
  have henter : Yields memory enterFunction fun _ => True := .modify fun _ hs => ⟨hs.functions.enter, hs.matchers⟩
  refine ((henter.bind fun _ _ => hbody).inScope _).bind fun code hcode => ?_
  exact (Yields.leaveFunction hcode).bind fun k _ => .pure (Code.typed_of_leads rfl)

theorem Yields.withBinding {v : Code} {body : Lower Code} (hv : v.LeavesWord memory)
    (hbody : Yields memory body (Code.LeavesWord memory)) (name : String) :
    Yields memory (withBinding name v body) (Code.LeavesWord memory) :=
  (Yields.use .environment).bind fun _ _ => (hbody.inScope _).bind fun _ hcode => .pure (Emit.typed_bind hv hcode)

theorem Yields.matchSite : Yields memory matchSite fun _ => True := by
  have hsite : Yields memory site fun _ => True := by
    intro s t k hx hs
    cases hx
    exact ⟨⟨hs.functions, hs.matchers⟩, trivial⟩
  exact hsite.bind fun k _ => (Yields.declare _).bind fun _ _ => (Yields.declare _).bind fun _ _ =>
    (Yields.declare _).bind fun _ _ => .pure trivial

end Lower

open Lower

section

variable {memory : Bool} {cx : Setup}

/-- The matchers of a pattern take an environment and a value to an environment. -/
theorem Pattern.lower_typed (p : Pattern) :
    Yields memory p.lower fun name => signature name = ⟨[.i32, .i32], some .i32⟩ := by
  have henter : Yields memory enterMatcher fun _ => True := .modify fun _ hs => ⟨hs.functions, hs.matchers.enter⟩
  induction p with
  | wildcard | nil | ident =>
    exact (Yields.use .matcher).bind fun _ _ => henter.bind fun _ _ =>
      Yields.leaveMatcher (Code.typed_of_leads rfl)
  | cons span head tail ihead itail =>
    have hdeclare : Yields memory (declareInMatcher Emit.next) fun _ => True :=
      .modify fun _ hs => ⟨hs.functions, hs.matchers.declare _⟩
    exact (Yields.use .matcher).bind fun _ _ => henter.bind fun _ _ => ihead.bind fun h hh => itail.bind fun t ht =>
      hdeclare.bind fun _ _ => Yields.leaveMatcher (Emit.typed_matchCons hh ht)

namespace Node

/-- Code for one part, and code for the whole. -/
theorem yields_one {x : Lower Code} {emit : Code → Code} (hx : Yields memory x (Code.LeavesWord memory))
    (h : ∀ e, e.LeavesWord memory → (emit e).LeavesWord memory) :
    Yields memory (do let e ← x; return emit e) (Code.LeavesWord memory) :=
  hx.bind fun e he => .pure (h e he)

theorem yields_two {x y : Lower Code} {emit : Code → Code → Code} (hx : Yields memory x (Code.LeavesWord memory))
    (hy : Yields memory y (Code.LeavesWord memory))
    (h : ∀ l r, l.LeavesWord memory → r.LeavesWord memory → (emit l r).LeavesWord memory) :
    Yields memory (do let l ← x; let r ← y; return emit l r) (Code.LeavesWord memory) :=
  hx.bind fun l hl => hy.bind fun r hr => .pure (h l r hl hr)

mutual

/-- **The code of a node leaves a word.** -/
theorem lower_typed (hcx : cx.routes = .direct) (node : Node) :
    Yields memory (node.lower cx) (Code.LeavesWord memory) := by
  cases node with
  | lit span value =>
    simp only [lower, route_direct hcx, pure_bind]
    exact .literal value
  | ident span name =>
    simp only [lower, route_direct hcx, pure_bind]
    exact .reference span name
  | unary span o operand =>
    have ih := lower_typed hcx operand
    cases o with
    | neg =>
      simp only [lower, route_direct hcx, pure_bind]
      exact yields_one ih fun _ => Emit.typed_neg
    | floatNeg =>
      simp only [lower, route_direct hcx, pure_bind]
      exact (Yields.use .float).bind fun _ _ => yields_one ih fun _ => Emit.typed_floatNeg
  | binary span o left right =>
    have ihl := lower_typed hcx left
    have ihr := lower_typed hcx right
    cases o with
    | int o =>
      simp only [lower, route_direct hcx, pure_bind]
      exact yields_two ihl ihr fun _ _ => Emit.typed_intOp o
    | float o =>
      simp only [lower, route_direct hcx, pure_bind]
      exact (Yields.use .float).bind fun _ _ => yields_two ihl ihr fun _ _ => Emit.typed_floatOp o
    | and =>
      simp only [lower, route_direct hcx, pure_bind]
      exact yields_two ihl ihr fun _ _ => Emit.typed_and
    | or =>
      simp only [lower, route_direct hcx, pure_bind]
      exact yields_two ihl ihr fun _ _ => Emit.typed_or
    | compare c =>
      simp only [lower, route_direct hcx, pure_bind]
      refine ihl.bind fun l hl => ihr.bind fun r hr => ?_
      split
      · exact .pure (Emit.typed_compareWords c hl hr)
      · have huse : Yields memory (useComparison c) fun _ => True := .modify fun _ hs => ⟨hs.functions, hs.matchers⟩
        exact huse.bind fun _ _ => .pure (Emit.typed_compareAny c hl hr)
  | cond span test yes no =>
    simp only [lower, route_direct hcx, pure_bind]
    exact (lower_typed hcx test).bind fun t ht => yields_two (lower_typed hcx yes) (lower_typed hcx no)
      fun _ _ hy hn => ht.append (Code.leavesWord_condWord hy hn)
  | letIn span name value body =>
    simp only [lower, route_direct hcx, pure_bind]
    exact (lower_typed hcx value).bind fun v hv => .withBinding hv (lower_typed hcx body) name
  | letRec span name value body =>
    cases value with
    | lambda _ param inner =>
      simp only [lower, route_direct hcx, pure_bind]
      exact (Yields.function (lower_typed hcx inner) (some name) param).bind fun v hv =>
        .withBinding hv (lower_typed hcx body) name
    | _ =>
      simp only [lower, route_direct hcx, pure_bind]
      exact nofun
  | lambda span param body =>
    simp only [lower, route_direct hcx, pure_bind]
    exact .function (lower_typed hcx body) none param
  | app span fn arg =>
    simp only [lower, route_direct hcx, pure_bind]
    exact (Yields.use .closure).bind fun _ _ => (Yields.declare _).bind fun _ _ => (Yields.declare _).bind fun _ _ =>
      yields_two (lower_typed hcx arg) (lower_typed hcx fn) fun _ _ => Emit.typed_app
  | cons span head tail =>
    simp only [lower, route_direct hcx, pure_bind]
    exact (Yields.use .list).bind fun _ _ =>
      yields_two (lower_typed hcx tail) (lower_typed hcx head) fun _ _ => Emit.typed_cons
  | cases span scrutinee arms =>
    simp only [lower, route_direct hcx, pure_bind]
    exact (Yields.use .matcher).bind fun _ _ => Yields.matchSite.bind fun site _ =>
      (lower_typed hcx scrutinee).bind fun e he => (lowerArms_typed hcx arms).bind fun _ hb =>
        .pure (Emit.typed_cases site he hb)
termination_by structural node

theorem lowerArms_typed (hcx : cx.routes = .direct) (arms : List (Pattern × Node)) :
    Yields memory (lowerArms cx arms) fun branches => ∀ b ∈ branches,
      signature b.1 = ⟨[.i32, .i32], some .i32⟩ ∧ b.2.LeavesWord memory := by
  cases arms with
  | nil =>
    simp only [lowerArms]
    exact .pure nofun
  | cons arm rest =>
    obtain ⟨pattern, body⟩ := arm
    simp only [lowerArms]
    refine pattern.lower_typed.bind fun f hf => ((lower_typed hcx body).inScope _).bind fun c hc =>
      (lowerArms_typed hcx rest).bind fun others ho => .pure fun b hb => ?_
    rcases List.mem_cons.1 hb with rfl | hb
    · exact ⟨hf, hc⟩
    · exact ho b hb
termination_by structural arms

end

end Node

end

/-! ## Reducing -/

namespace Peephole

variable {Γ : Context} {s t u : List ValType}

/-- The context has the library functions that the passes look for. -/
structure Fits (Γ : Context) : Prop where
  box : Γ.funcs Floats.new = some ⟨[.f64], some .i32⟩
  unbox : Γ.funcs Floats.get = some ⟨[.i32], some .f64⟩
  parent : Γ.funcs Env.parent = some ⟨[.i32], some .i32⟩

theorem Fits.compiled (memory : Bool) (f : Func) : Fits ((Context.compiled memory).inside f) := ⟨rfl, rfl, rfl⟩

/-- Unboxing gives back what was boxed. -/
theorem Fits.box_unbox (h : Fits Γ) (hbox : (Instr.call Floats.new).Typed Γ s t)
    (hunbox : (Instr.call Floats.get).Typed Γ t u) : s = u := by
  have hnew : (Instr.call Floats.new).type? Γ = some ([.f64], [.i32]) := by simp [Instr.type?, h.box]
  have hget : (Instr.call Floats.get).type? Γ = some ([.i32], [.f64]) := by simp [Instr.type?, h.unbox]
  obtain ⟨r, rfl, rfl⟩ := (Instr.typed_iff hnew).1 hbox
  obtain ⟨r', hr, rfl⟩ := (Instr.typed_iff hget).1 hunbox
  simpa using hr

theorem Fits.push_typed (h : Fits Γ) {stack : Code} {i : Instr String} (hstack : Code.Typed Γ stack.reverse s t)
    (hi : i.Typed Γ t u) : Code.Typed Γ (push stack i).reverse s u := by
  cases stack with
  | nil => exact hstack.append hi.code
  | cons top rest =>
    rw [push]
    split
    · rename_i hcalls
      obtain ⟨htop, hcall⟩ := Bool.and_eq_true_iff.1 hcalls
      rw [isCall_eq_true.1 htop, List.reverse_cons] at hstack
      rw [isCall_eq_true.1 hcall] at hi
      obtain ⟨v, hrest, hlast⟩ := Code.typed_append.1 hstack
      obtain ⟨w, hbox, hnil⟩ := Code.typed_cons.1 hlast
      rw [Code.typed_nil] at hnil
      subst hnil
      exact h.box_unbox hbox hi ▸ hrest
    · rw [List.reverse_cons]
      exact hstack.append hi.code

mutual

theorem Fits.inner_typed (h : Fits Γ) : ∀ {i : Instr String} {s t : List ValType}, i.Typed Γ s t → (inner i).Typed Γ s t
  | .cond result yes no, s, t, hi => by
    obtain ⟨hyes, hno, hs⟩ := Instr.typed_cond.1 hi
    rw [inner]
    exact Instr.typed_cond.2 ⟨h.cancelOnto_typed .nil hyes, h.cancelOnto_typed .nil hno, hs⟩
  | .op _, s, t, hi | .i32Const _, s, t, hi | .f64Const _, s, t, hi | .localGet _, s, t, hi | .localSet _, s, t, hi
  | .localTee _, s, t, hi | .globalGet _, s, t, hi | .globalSet _, s, t, hi | .call _, s, t, hi
  | .callIndirect _ _, s, t, hi | .load _ _, s, t, hi | .store _ _, s, t, hi => by
    simpa only [inner] using hi
termination_by structural i => i

theorem Fits.cancelOnto_typed (h : Fits Γ) : ∀ {c stack : Code} {s t u : List ValType},
    Code.Typed Γ stack.reverse s t → Code.Typed Γ c t u → Code.Typed Γ (cancelOnto stack c) s u
  | [], stack, s, t, u, hstack, hc => by
    rw [cancelOnto, ← Code.typed_nil.1 hc]
    exact hstack
  | i :: c, stack, s, t, u, hstack, hc => by
    obtain ⟨v, hi, hc⟩ := Code.typed_cons.1 hc
    rw [cancelOnto]
    exact h.cancelOnto_typed (h.push_typed hstack (h.inner_typed hi)) hc
termination_by structural c => c

end

/-- Leaving a scope leaves the stack alone. -/
theorem Fits.popCode_typed (h : Fits Γ) (hc : Code.Typed Γ popCode s u) : s = u := by
  have hcall : (Instr.call Env.parent).type? Γ = some ([.i32], [.i32]) := by simp [Instr.type?, h.parent]
  simp only [popCode, Code.typed_cons, Code.typed_nil] at hc
  obtain ⟨v, hget, w, hparent, x, hset, rfl⟩ := hc
  obtain ⟨r, hv, hw⟩ := (Instr.typed_iff hcall).1 hparent
  obtain ⟨ty, -, hget⟩ := hget.localGet
  obtain ⟨ty', -, hset⟩ := hset.localSet
  rw [hv] at hget
  rw [hw] at hset
  cases hget
  cases hset
  rfl

theorem Fits.popped_typed (h : Fits Γ) {a c : Code} (hpop : Popped a c) (hc : Code.Typed Γ c s t) : Code.Typed Γ a s t := by
  induction hpop generalizing t with
  | refl => exact hc
  | pop _ ih =>
    obtain ⟨u, hc, hpop⟩ := Code.typed_append.1 hc
    exact ih (h.popCode_typed hpop ▸ hc)

/-- **Reducing keeps types.** -/
theorem Fits.reduce_typed (h : Fits Γ) {c : Code} (hc : Code.Typed Γ c s t) :
    Code.Typed Γ (reduce c) s t := by
  have hcancel : ∀ a, Code.Typed Γ a s t → Code.Typed Γ (cancel a) s t := fun a ha => h.cancelOnto_typed .nil ha
  exact h.popped_typed (popped_dropPops _) (cancelAll_induction hcancel c hc)

end Peephole

end WasmBackend
