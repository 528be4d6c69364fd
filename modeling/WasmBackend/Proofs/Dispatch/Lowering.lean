/-
Lowering with and without regard to types. Without, the code of a tree is that
with, with calls of the comparator where words are compared
(`Node.lower_general`), and reducing goes along with that
(`Peephole.reduce_general`).
-/
import WasmBackend.Proofs.Dispatch.Lockstep
import WasmBackend.Proofs.Lowering.Nodes

namespace WasmBackend

open Library

/-! ## Constructs -/

namespace Emit

variable {e l r : Code}

@[simp] theorem general_neg : Code.general true (neg e) = neg (Code.general true e) := by
  simp [neg, Instr.general, Op.comparison?]

@[simp] theorem general_floatNeg : Code.general true (floatNeg e) = floatNeg (Code.general true e) := by
  simp [floatNeg, Instr.general, Op.comparison?]

@[simp] theorem general_intOp (o : IntOp) :
    Code.general true (intOp o l r) = intOp o (Code.general true l) (Code.general true r) := by
  cases o <;> simp [intOp, untag, retag, Instr.general, Op.comparison?]

@[simp] theorem general_floatOp (o : FloatOp) :
    Code.general true (floatOp o l r) = floatOp o (Code.general true l) (Code.general true r) := by
  cases o <;> simp [floatOp, floatInstr, Instr.general, Op.comparison?]

/-- Words are compared by a call. -/
@[simp] theorem general_compareWords (c : Comparison) :
    Code.general true (compareWords c l r) = compareAny c (Code.general true l) (Code.general true r) := by
  cases c <;> simp [compareWords, compareAny, toBool, Comparison.wordOp, Instr.general, Op.comparison?]

@[simp] theorem general_compareAny (c : Comparison) :
    Code.general true (compareAny c l r) = compareAny c (Code.general true l) (Code.general true r) := by
  simp [compareAny, toBool, Instr.general, Op.comparison?]

@[simp] theorem general_and : Code.general true (Emit.and l r) = Emit.and (Code.general true l) (Code.general true r) := by
  simp [Emit.and, Instr.condWord, Instr.general]

@[simp] theorem general_or : Code.general true (Emit.or l r) = Emit.or (Code.general true l) (Code.general true r) := by
  simp [Emit.or, Instr.condWord, Instr.general]

@[simp] theorem general_cond : Code.general true (Emit.cond e l r) =
    Emit.cond (Code.general true e) (Code.general true l) (Code.general true r) := by
  simp [Emit.cond, Instr.condWord, Instr.general]

@[simp] theorem general_bind : Code.general true (Emit.bind l r) = Emit.bind (Code.general true l) (Code.general true r) := by
  simp [Emit.bind, Instr.general]

@[simp] theorem general_app : Code.general true (app l r) = app (Code.general true l) (Code.general true r) := by
  simp [app, Instr.general]

@[simp] theorem general_cons : Code.general true (Emit.cons l r) = Emit.cons (Code.general true l) (Code.general true r) := by
  simp [Emit.cons, Instr.general]

/-- The branches of a match, with calls of the comparator. -/
def generalBranches (branches : List (String × Code)) : List (String × Code) :=
  branches.map fun b => (b.1, Code.general true b.2)

theorem general_arms (site : Site) (branches : List (String × Code)) :
    Code.general true (arms site branches) = arms site (generalBranches branches) := by
  induction branches with
  | nil => simp [arms, generalBranches, Instr.general, Op.comparison?]
  | cons b rest ih =>
    rw [generalBranches] at ih
    simp [arms, generalBranches, Instr.condWord, Instr.general, ih]

@[simp] theorem general_cases (site : Site) (branches : List (String × Code)) :
    Code.general true (cases site e branches) = cases site (Code.general true e) (generalBranches branches) := by
  simp [cases, Instr.general, general_arms]

end Emit

/-! ## States -/

/-- Functions that call the comparator. -/
def Definitions.general (d : Definitions) : Definitions := { d with funcs := d.funcs.map Func.general }

/-- What is collected with regard to types, and without. -/
structure State.General (s t : State) : Prop where
  scopes : t.scopes = s.scopes
  functions : t.functions = s.functions.general
  matchers : t.matchers = s.matchers.general
  code : t.code = s.code
  features : t.features = s.features
  comparisons : s.comparisons ⊆ t.comparisons
  sites : t.sites = s.sites

theorem State.General.initial : State.initial.General .initial := ⟨rfl, rfl, rfl, rfl, rfl, fun _ => id, rfl⟩

theorem State.General.under {s t : State} {scopes scopes' : Scopes} (h : s.General t) (hscopes : scopes' = scopes) :
    (s.under scopes).General (t.under scopes') :=
  ⟨hscopes, h.functions, h.matchers, h.code, h.features, h.comparisons, h.sites⟩

theorem Definitions.Family.name_not_compare {family : Family} (h : family.stem ∈ ["fn_", "matcher_"]) (k : Nat) :
    family.name k ∉ Compare.names := by
  have hnone : ∀ x ∈ Compare.names, ∀ stem ∈ ["fn_", "matcher_"], ¬ stem.toList <+: x.toList := by
    decide +kernel
  refine fun hmem => hnone _ hmem _ h ?_
  rw [Family.name, String.toList_append]
  exact List.prefix_append _ _

theorem Definitions.general_leave (family : Family) (h : family.stem ∈ ["fn_", "matcher_"]) (d : Definitions)
    (body : Code) :
    (d.leave family body).general = d.general.leave family (Code.general true body) := by
  have hname := family.name_not_compare h d.funcs.length
  simp [Definitions.leave, Definitions.general, Definitions.close, Func.general, hname]

theorem Definitions.general_declare (d : Definitions) (l : Local) : (d.declare l).general = d.general.declare l := by
  unfold Definitions.declare Definitions.general
  simp only
  split <;> rfl

/-! ## Lowering -/

/-- Where `x` succeeds, `y` does from a state that goes with it, and its result is as `g` says. -/
def Lower.Generalizes {α : Type} (x y : Lower α) (g : α → α) : Prop :=
  ∀ s t a u, s.General t → x s = .ok a u → ∃ v, y t = .ok (g a) v ∧ u.General v

namespace Lower

variable {α β : Type} {x y : Lower α} {g : α → α}

theorem Generalizes.pure {a b : α} (hab : g a = b) : Generalizes (Pure.pure a) (Pure.pure b) g := by
  subst hab
  intro s t b u hst h
  obtain ⟨rfl, rfl⟩ := Lower.pure_eq_ok.1 h
  exact ⟨t, rfl, hst⟩

theorem Generalizes.bind {f f' : α → Lower β} {h : β → β} (hx : Generalizes x y g)
    (hf : ∀ a, Generalizes (f a) (f' (g a)) h) : Generalizes (x >>= f) (y >>= f') h := by
  intro s t b w hst hb
  obtain ⟨a, u, ha, hb⟩ := Lower.bind_eq_ok.1 hb
  obtain ⟨v, hv, huv⟩ := hx s t a u hst ha
  obtain ⟨w', hw, hww⟩ := hf a u v b w huv hb
  exact ⟨w', Lower.bind_eq_ok.2 ⟨g a, v, hv, hw⟩, hww⟩

/-- A result that is passed on as it is. -/
theorem Generalizes.then {f f' : α → Lower β} {h : β → β} (hx : Generalizes x y id)
    (hf : ∀ a, Generalizes (f a) (f' a) h) : Generalizes (x >>= f) (y >>= f') h := hx.bind hf

theorem Generalizes.modify {f : State → State} (h : ∀ s t : State, s.General t → (f s).General (f t)) :
    Generalizes (modify f) (modify f) id := by
  intro s t a u hst hx
  cases hx
  exact ⟨f t, rfl, h s t hst⟩

theorem Generalizes.inScope (hx : Generalizes x y g) (frames : List (Option String)) :
    Generalizes (inScope frames x) (inScope frames y) g := by
  intro s t a w hst h
  have hin : (s.under (s.scopes.pushAll frames)).General (t.under (t.scopes.pushAll frames)) :=
    hst.under (by rw [hst.scopes])
  unfold Lower.inScope at h ⊢
  split at h
  · rename_i b u hb
    cases h
    obtain ⟨v, hv, huv⟩ := hx _ _ a u hin hb
    simp only [State.under] at hv
    rw [hv]
    exact ⟨_, rfl, huv.under (by rw [huv.scopes, hst.scopes])⟩
  · cases h

theorem Generalizes.use (f : Feature) : Generalizes (use f) (use f) id :=
  .modify fun s t h => ⟨h.scopes, h.functions, h.matchers, h.code, by simp only [State.use, h.features], h.comparisons,
    h.sites⟩

theorem Generalizes.declare (name : String) : Generalizes (declare name) (declare name) id :=
  .modify fun s t h => ⟨h.scopes, by simp only [State.declare, h.functions, Definitions.general_declare], h.matchers,
    h.code, h.features, h.comparisons, h.sites⟩

theorem Generalizes.useComparison (c : Comparison) : Generalizes (useComparison c) (useComparison c) id :=
  .modify fun _ _ h => ⟨h.scopes, h.functions, h.matchers, h.code, h.features,
    List.cons_subset_cons c h.comparisons, h.sites⟩

/-- A comparison that is requested only without regard to types. -/
theorem Generalizes.request (c : Comparison) {a b : α} (hab : g a = b) :
    Generalizes (Pure.pure a) (do Lower.useComparison c; Pure.pure b) g := by
  subst hab
  intro s t b u hst h
  obtain ⟨rfl, rfl⟩ := Lower.pure_eq_ok.1 h
  exact ⟨t.useComparison c, rfl, hst.scopes, hst.functions, hst.matchers, hst.code, hst.features,
    List.subset_cons_of_subset c hst.comparisons, hst.sites⟩

theorem Generalizes.leaveFunction (body : Code) :
    Generalizes (leaveFunction body) (leaveFunction (Code.general true body)) id := by
  intro s t k u hst h
  cases h
  refine ⟨{ t with functions := t.functions.leave .literals (Code.general true body) }, ?_, ?_⟩
  · simp [Lower.leaveFunction, modifyGet, MonadStateOf.modifyGet, EStateM.modifyGet, hst.functions,
      Definitions.general]
  · exact ⟨hst.scopes, by simp only [hst.functions, Definitions.general_leave .literals (.head _)],
      hst.matchers, hst.code, hst.features, hst.comparisons, hst.sites⟩

theorem Generalizes.leaveMatcher (body : Code) :
    Generalizes (leaveMatcher body) (leaveMatcher (Code.general true body)) id := by
  intro s t k u hst h
  cases h
  refine ⟨{ t with matchers := t.matchers.leave .matchers (Code.general true body) }, ?_, ?_⟩
  · simp [Lower.leaveMatcher, modifyGet, MonadStateOf.modifyGet, EStateM.modifyGet, hst.matchers,
      Definitions.general]
  · exact ⟨hst.scopes, hst.functions,
      by simp only [hst.matchers, Definitions.general_leave .matchers (.tail _ (.head _))],
      hst.code, hst.features, hst.comparisons, hst.sites⟩

theorem Generalizes.literal (value : Literal) : Generalizes (literal value) (literal value) (Code.general true) := by
  cases value with
  | int | bool => exact .pure (by simp [Emit.int, Emit.bool, Instr.general])
  | nil | float => exact (Generalizes.use _).then fun _ => .pure (by simp [Emit.emptyList, Emit.float, Instr.general])

theorem Generalizes.reference (span : Span) (name : String) :
    Generalizes (reference span name) (reference span name) (Code.general true) := by
  intro s t code u hst h
  rw [reference_apply] at h ⊢
  rw [hst.scopes]
  cases hdistance : s.scopes.distance? name with
  | none =>
    rw [hdistance] at h
    cases h
  | some distance =>
    rw [hdistance] at h
    exact ((Generalizes.use .environment).then fun _ => .pure (by simp [Emit.lookup, Instr.general])) s t code u hst h

theorem Generalizes.function {body body' : Lower Code} (h : Generalizes body body' (Code.general true))
    (name : Option String) (param : String) :
    Generalizes (function name param body) (function name param body') (Code.general true) := by
  have henter : Generalizes enterFunction enterFunction id :=
    .modify fun s t h => ⟨h.scopes, by simp only [h.functions, Definitions.general, Definitions.enter], h.matchers,
      h.code, h.features, h.comparisons, h.sites⟩
  refine (Generalizes.use .closure).then fun _ => ((henter.then fun _ => h).inScope _).bind fun code => ?_
  exact (Generalizes.leaveFunction code).then fun k => .pure (by simp [Emit.closure, Instr.general])

theorem Generalizes.withBinding {v : Code} {body body' : Lower Code} (h : Generalizes body body' (Code.general true))
    (name : String) :
    Generalizes (withBinding name v body) (withBinding name (Code.general true v) body') (Code.general true) := by
  exact (Generalizes.use .environment).then fun _ => (h.inScope _).bind fun code => .pure Emit.general_bind

theorem Generalizes.matchSite : Generalizes matchSite matchSite id := by
  have hsite : Generalizes site site id := by
    intro s t k u hst h
    cases h
    refine ⟨{ t with sites := t.sites + 1 }, ?_, ?_⟩
    · simp [Lower.site, modifyGet, MonadStateOf.modifyGet, EStateM.modifyGet, hst.sites]
    · exact ⟨hst.scopes, hst.functions, hst.matchers, hst.code, hst.features, hst.comparisons, by simp only [hst.sites]⟩
  exact hsite.then fun k => (Generalizes.declare _).then fun _ => (Generalizes.declare _).then fun _ =>
    (Generalizes.declare _).then fun _ => .pure rfl

theorem Generalizes.one {x y : Lower Code} {emit : Code → Code} (h : Generalizes x y (Code.general true))
    (hemit : ∀ e, Code.general true (emit e) = emit (Code.general true e)) :
    Generalizes (do let e ← x; return emit e) (do let e ← y; return emit e) (Code.general true) :=
  h.bind fun e => .pure (hemit e)

theorem Generalizes.two {x y x' y' : Lower Code} {emit : Code → Code → Code}
    (hx : Generalizes x x' (Code.general true)) (hy : Generalizes y y' (Code.general true))
    (hemit : ∀ l r, Code.general true (emit l r) = emit (Code.general true l) (Code.general true r)) :
    Generalizes (do let l ← x; let r ← y; return emit l r) (do let l ← x'; let r ← y'; return emit l r)
      (Code.general true) :=
  hx.bind fun l => hy.bind fun r => .pure (hemit l r)

end Lower

open Lower

/-- Patterns compare no words. -/
theorem Pattern.lower_general (p : Pattern) : Generalizes p.lower p.lower id := by
  have henter : Generalizes enterMatcher enterMatcher id :=
    .modify fun s t h => ⟨h.scopes, h.functions, by simp only [h.matchers, Definitions.general, Definitions.enter],
      h.code, h.features, h.comparisons, h.sites⟩
  have hleave {code : Code} (h : Code.general true code = code) : Generalizes (leaveMatcher code) (leaveMatcher code) id := by
    have hcode := Generalizes.leaveMatcher code
    rwa [h] at hcode
  induction p with
  | wildcard | nil | ident =>
    exact (Generalizes.use .matcher).then fun _ => henter.then fun _ =>
      hleave (by simp [Emit.matchBy, Instr.general])
  | cons span head tail ihead itail =>
    have hdeclare : Generalizes (declareInMatcher Emit.next) (declareInMatcher Emit.next) id :=
      .modify fun s t h => ⟨h.scopes, h.functions, by simp only [h.matchers, Definitions.general_declare], h.code,
        h.features, h.comparisons, h.sites⟩
    exact (Generalizes.use .matcher).then fun _ => henter.then fun _ => ihead.then fun _ => itail.then fun _ =>
      hdeclare.then fun _ => hleave (by simp [Emit.matchCons, Instr.condWord, Instr.general])

namespace Node

variable {cx cx' : Setup}

mutual

/-- **Without regard to types**, the code of a node is the same with calls of the comparator. -/
theorem lower_general (hcx : cx.routes = .direct) (hcx' : cx'.routes = .direct)
    (hwords : ∀ left right, cx'.areWords left right = false) (node : Node) :
    Generalizes (node.lower cx) (node.lower cx') (Code.general true) := by
  cases node with
  | lit span value =>
    simp only [lower, route_direct hcx, route_direct hcx', pure_bind]
    exact .literal value
  | ident span name =>
    simp only [lower, route_direct hcx, route_direct hcx', pure_bind]
    exact .reference span name
  | unary span o operand =>
    have ih := lower_general hcx hcx' hwords operand
    cases o with
    | neg =>
      simp only [lower, route_direct hcx, route_direct hcx', pure_bind]
      exact .one ih fun _ => Emit.general_neg
    | floatNeg =>
      simp only [lower, route_direct hcx, route_direct hcx', pure_bind]
      exact (Generalizes.use .float).then fun _ => .one ih fun _ => Emit.general_floatNeg
  | binary span o left right =>
    have ihl := lower_general hcx hcx' hwords left
    have ihr := lower_general hcx hcx' hwords right
    cases o with
    | int o =>
      simp only [lower, route_direct hcx, route_direct hcx', pure_bind]
      exact .two ihl ihr fun _ _ => Emit.general_intOp o
    | float o =>
      simp only [lower, route_direct hcx, route_direct hcx', pure_bind]
      exact (Generalizes.use .float).then fun _ => .two ihl ihr fun _ _ => Emit.general_floatOp o
    | and =>
      simp only [lower, route_direct hcx, route_direct hcx', pure_bind]
      exact .two ihl ihr fun _ _ => Emit.general_and
    | or =>
      simp only [lower, route_direct hcx, route_direct hcx', pure_bind]
      exact .two ihl ihr fun _ _ => Emit.general_or
    | compare c =>
      simp only [lower, route_direct hcx, route_direct hcx', pure_bind, hwords, Bool.false_eq_true, if_false]
      refine ihl.bind fun l => ihr.bind fun r => ?_
      split
      · exact .request c (Emit.general_compareWords c)
      · exact (Generalizes.useComparison c).then fun _ => .pure (Emit.general_compareAny c)
  | cond span test yes no =>
    simp only [lower, route_direct hcx, route_direct hcx', pure_bind]
    exact (lower_general hcx hcx' hwords test).bind fun t => (lower_general hcx hcx' hwords yes).bind fun y =>
      (lower_general hcx hcx' hwords no).bind fun n => .pure Emit.general_cond
  | letIn span name value body =>
    simp only [lower, route_direct hcx, route_direct hcx', pure_bind]
    exact (lower_general hcx hcx' hwords value).bind fun v => .withBinding (lower_general hcx hcx' hwords body) name
  | letRec span name value body =>
    cases value with
    | lambda _ param inner =>
      simp only [lower, route_direct hcx, route_direct hcx', pure_bind]
      exact (Generalizes.function (lower_general hcx hcx' hwords inner) (some name) param).bind fun v =>
        .withBinding (lower_general hcx hcx' hwords body) name
    | _ =>
      simp only [lower, route_direct hcx, route_direct hcx', pure_bind]
      exact nofun
  | lambda span param body =>
    simp only [lower, route_direct hcx, route_direct hcx', pure_bind]
    exact .function (lower_general hcx hcx' hwords body) none param
  | app span fn arg =>
    simp only [lower, route_direct hcx, route_direct hcx', pure_bind]
    exact (Generalizes.use .closure).then fun _ => (Generalizes.declare _).then fun _ =>
      (Generalizes.declare _).then fun _ => .two (lower_general hcx hcx' hwords arg) (lower_general hcx hcx' hwords fn)
        fun _ _ => Emit.general_app
  | cons span head tail =>
    simp only [lower, route_direct hcx, route_direct hcx', pure_bind]
    exact (Generalizes.use .list).then fun _ =>
      .two (lower_general hcx hcx' hwords tail) (lower_general hcx hcx' hwords head) fun _ _ => Emit.general_cons
  | cases span scrutinee arms =>
    simp only [lower, route_direct hcx, route_direct hcx', pure_bind]
    exact (Generalizes.use .matcher).then fun _ => Generalizes.matchSite.then fun site =>
      (lower_general hcx hcx' hwords scrutinee).bind fun e => (lowerArms_general hcx hcx' hwords arms).bind fun b =>
        .pure (Emit.general_cases site b)
termination_by structural node

theorem lowerArms_general (hcx : cx.routes = .direct) (hcx' : cx'.routes = .direct)
    (hwords : ∀ left right, cx'.areWords left right = false) (arms : List (Pattern × Node)) :
    Generalizes (lowerArms cx arms) (lowerArms cx' arms) Emit.generalBranches := by
  cases arms with
  | nil =>
    simp only [lowerArms]
    exact .pure rfl
  | cons arm rest =>
    obtain ⟨pattern, body⟩ := arm
    simp only [lowerArms]
    exact pattern.lower_general.then fun f => ((lower_general hcx hcx' hwords body).inScope _).bind fun c =>
      (lowerArms_general hcx hcx' hwords rest).bind fun others => .pure rfl
termination_by structural arms

end

end Node

/-! ## Reducing -/

section

variable {own : Bool}

@[simp] theorem Code.general_reverse (c : Code) : Code.general own c.reverse = (Code.general own c).reverse := by
  induction c with
  | nil => rfl
  | cons i c ih => simp [ih]

/-- Only comparisons become calls, and only calls of the comparator. -/
theorem Instr.general_eq_call {f : String} (hf : ∀ c, f ≠ Compare.function c) {i : Instr String} :
    i.general own = .call f ↔ i = .call f := by
  cases i with
  | op o =>
    cases own with
    | false => simp [Instr.general]
    | true =>
      cases ho : o.comparison? with
      | none => simp [Instr.general, ho]
      | some c => simpa [Instr.general, ho] using Ne.symm (hf c)
  | _ => simp [Instr.general]

theorem Instr.eq_of_general {x : String} {i j : Instr String} (hj : j = .localGet x ∨ j = .localSet x)
    (h : i.general own = j) : i = j := by
  cases i with
  | op o =>
    cases own with
    | false => rcases hj with rfl | rfl <;> simp [Instr.general] at h
    | true => cases ho : o.comparison? <;> rcases hj with rfl | rfl <;> simp [Instr.general, ho] at h
  | cond => rcases hj with rfl | rfl <;> simp [Instr.general] at h
  | _ => simpa only [Instr.general] using h

mutual

theorem Instr.size_general : ∀ i : Instr String, (i.general own).size = i.size
  | .op o => by
    cases own with
    | false => simp [Instr.general]
    | true => cases ho : o.comparison? <;> simp [Instr.general, ho, Instr.size]
  | .cond result yes no => by
    simp only [Instr.general, Instr.size, Code.size_general yes, Code.size_general no]
  | .i32Const _ | .f64Const _ | .localGet _ | .localSet _ | .localTee _ | .globalGet _ | .globalSet _ | .call _
  | .callIndirect _ _ | .load _ _ | .store _ _ => by
    simp only [Instr.general]
termination_by structural i => i

theorem Code.size_general : ∀ c : Code, Instr.sizeAll (Code.general own c) = Instr.sizeAll c
  | [] => by simp
  | i :: c => by
    simp only [Code.general_cons, Instr.sizeAll, Instr.size_general i, Code.size_general c]
termination_by structural c => c

end

namespace Peephole

theorem isCall_general {f : String} (hf : ∀ c, f ≠ Compare.function c) (i : Instr String) :
    isCall f (i.general own) = isCall f i := by
  rw [Bool.eq_iff_iff, isCall_eq_true, isCall_eq_true, Instr.general_eq_call hf]

theorem push_general (stack : Code) (i : Instr String) :
    push (Code.general own stack) (i.general own) = Code.general own (push stack i) := by
  have hnew : ∀ c, Floats.new ≠ Compare.function c := fun c => by cases c <;> decide
  have hget : ∀ c, Floats.get ≠ Compare.function c := fun c => by cases c <;> decide
  cases stack with
  | nil => simp [push]
  | cons top rest =>
    simp only [Code.general_cons, push, isCall_general hnew, isCall_general hget]
    split <;> simp

mutual

theorem inner_general : ∀ i : Instr String, inner (i.general own) = (inner i).general own
  | .op o => by
    cases own with
    | false => simp [Instr.general, inner]
    | true => cases ho : o.comparison? <;> simp [Instr.general, ho, inner]
  | .cond result yes no => by
    have hyes := cancelOnto_general yes []
    have hno := cancelOnto_general no []
    rw [Code.general_nil] at hyes hno
    simp only [Instr.general, inner, hyes, hno]
  | .i32Const _ | .f64Const _ | .localGet _ | .localSet _ | .localTee _ | .globalGet _ | .globalSet _ | .call _
  | .callIndirect _ _ | .load _ _ | .store _ _ => by
    simp only [Instr.general, inner]
termination_by structural i => i

theorem cancelOnto_general : ∀ c stack : Code,
    cancelOnto (Code.general own stack) (Code.general own c) = Code.general own (cancelOnto stack c)
  | [], stack => by simp [cancelOnto]
  | i :: c, stack => by
    rw [Code.general_cons, cancelOnto, cancelOnto, inner_general i, push_general, cancelOnto_general c]
termination_by structural c => c

end

theorem cancel_general (c : Code) : cancel (Code.general own c) = Code.general own (cancel c) := by
  have h : cancelOnto (Code.general own []) (Code.general own c) = Code.general own (cancel c) :=
    cancelOnto_general c []
  rwa [Code.general_nil] at h

theorem cancelAll_general (c : Code) : cancelAll (Code.general own c) = Code.general own (cancelAll c) := by
  fun_induction cancelAll c with
  | case1 c h ih =>
    rw [cancelAll, cancel_general, Code.size_general, Code.size_general, if_pos h, ih]
  | case2 c h =>
    rw [cancelAll, cancel_general, Code.size_general, Code.size_general, if_neg h]

/-- Reversed code that does not start with leaving a scope. -/
theorem dropPopsReversed_of_not_pop {c : Code} (h : ∀ rest, c ≠ popCode.reverse ++ rest) : dropPopsReversed c = c := by
  unfold dropPopsReversed
  split
  · rename_i set f get rest
    rw [if_neg]
    rintro ⟨rfl, rfl, rfl⟩
    exact h rest rfl
  · rfl

/-- Calls of the comparator leave no scope. -/
theorem general_eq_pop {c rest : Code} (h : Code.general own c = popCode.reverse ++ rest) :
    ∃ rest', c = popCode.reverse ++ rest' := by
  have hparent : ∀ c, Env.parent ≠ Compare.function c := fun c => by cases c <;> decide
  match c with
  | [] | [_] | [_, _] => simp [popCode] at h
  | i :: j :: k :: c =>
    simp only [Code.general_cons, popCode, List.reverse_cons, List.reverse_nil, List.nil_append, List.cons_append,
      List.cons.injEq, Instr.general_eq_call hparent] at h
    obtain ⟨hi, rfl, hk, -⟩ := h
    rw [Instr.eq_of_general (.inr rfl) hi, Instr.eq_of_general (.inl rfl) hk]
    exact ⟨c, rfl⟩

theorem dropPopsReversed_general (c : Code) :
    dropPopsReversed (Code.general own c) = Code.general own (dropPopsReversed c) := by
  fun_induction dropPopsReversed c with
  | case1 set f get rest h ih =>
    simp only [Code.general_cons, Instr.general]
    rw [dropPopsReversed, if_pos h, ih]
  | case2 set f get rest h =>
    refine dropPopsReversed_of_not_pop fun rest' hpop => ?_
    obtain ⟨rest'', heq⟩ := general_eq_pop hpop
    simp only [popCode, List.reverse_cons, List.reverse_nil, List.nil_append, List.cons_append, List.cons.injEq,
      Instr.localSet.injEq, Instr.call.injEq, Instr.localGet.injEq] at heq
    exact h ⟨heq.2.2.1, heq.2.1, heq.1⟩
  | case3 c h =>
    refine dropPopsReversed_of_not_pop fun rest' hpop => ?_
    obtain ⟨rest'', heq⟩ := general_eq_pop hpop
    exact h _ _ _ rest'' heq

theorem dropPops_general (c : Code) : dropPops (Code.general own c) = Code.general own (dropPops c) := by
  rw [dropPops, dropPops, ← Code.general_reverse, dropPopsReversed_general, Code.general_reverse]

/-- Reducing does not look at comparisons. -/
theorem reduce_general (c : Code) : reduce (Code.general own c) = Code.general own (reduce c) := by
  rw [reduce, reduce, cancelAll_general, dropPops_general]

end Peephole

end

end WasmBackend
