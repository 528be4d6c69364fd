/-
Which trees can be lowered, and what lowering leaves behind. `Spec` says of a
lowering when it succeeds and what holds then. What has been collected only
grows (`State.Grew`), what was finished refers only to what is offered by then
(`State.Tidy`), and so does code that is being put together (`State.Made`).
-/
import WasmBackend.Proofs.Assembly.Linking
import WasmBackend.Proofs.Simulation.Reduced

namespace WasmBackend

open Library

/-! ## Trees -/

namespace Node

mutual

/-- Every name is bound in this scope, and what is defined recursively is a function. -/
def WellFormed (names : List String) : Node → Prop
  | .lit _ _ => True
  | .ident _ name => name ∈ names
  | .unary _ _ operand => operand.WellFormed names
  | .binary _ _ left right => left.WellFormed names ∧ right.WellFormed names
  | .cond _ test yes no => test.WellFormed names ∧ yes.WellFormed names ∧ no.WellFormed names
  | .letIn _ name value body => value.WellFormed names ∧ body.WellFormed (name :: names)
  | .letRec _ name (.lambda _ param inner) body =>
    inner.WellFormed (param :: name :: names) ∧ body.WellFormed (name :: names)
  | .letRec _ _ _ _ => False
  | .lambda _ param body => body.WellFormed (param :: names)
  | .app _ fn arg => arg.WellFormed names ∧ fn.WellFormed names
  | .cons _ head tail => tail.WellFormed names ∧ head.WellFormed names
  | .cases _ scrutinee arms => scrutinee.WellFormed names ∧ WellFormedArms names arms
termination_by structural node => node

def WellFormedArms (names : List String) : List (Pattern × Node) → Prop
  | [] => True
  | (pattern, body) :: rest => body.WellFormed (pattern.bindings.reverse ++ names) ∧ WellFormedArms names rest
termination_by structural arms => arms

end

mutual

/-- How many function literals there are. -/
def literals : Node → Nat
  | .lit _ _ => 0
  | .ident _ _ => 0
  | .unary _ _ operand => operand.literals
  | .binary _ _ left right => left.literals + right.literals
  | .cond _ test yes no => test.literals + yes.literals + no.literals
  | .letIn _ _ value body => value.literals + body.literals
  | .letRec _ _ value body => value.literals + body.literals
  | .lambda _ _ body => body.literals + 1
  | .app _ fn arg => arg.literals + fn.literals
  | .cons _ head tail => tail.literals + head.literals
  | .cases _ scrutinee arms => scrutinee.literals + literalsIn arms
termination_by structural node => node

def literalsIn : List (Pattern × Node) → Nat
  | [] => 0
  | (_, body) :: rest => body.literals + literalsIn rest
termination_by structural arms => arms

end

mutual

/-- How many applications there are. -/
def applications : Node → Nat
  | .lit _ _ => 0
  | .ident _ _ => 0
  | .unary _ _ operand => operand.applications
  | .binary _ _ left right => left.applications + right.applications
  | .cond _ test yes no => test.applications + yes.applications + no.applications
  | .letIn _ _ value body => value.applications + body.applications
  | .letRec _ _ value body => value.applications + body.applications
  | .lambda _ _ body => body.applications
  | .app _ fn arg => arg.applications + fn.applications + 1
  | .cons _ head tail => tail.applications + head.applications
  | .cases _ scrutinee arms => scrutinee.applications + applicationsIn arms
termination_by structural node => node

def applicationsIn : List (Pattern × Node) → Nat
  | [] => 0
  | (_, body) :: rest => body.applications + applicationsIn rest
termination_by structural arms => arms

end

end Node

theorem Scopes.frames_pushAll (frames : List (Option String)) (scopes : Scopes) :
    (scopes.pushAll frames).frames = frames.reverse ++ scopes.frames := by
  induction frames generalizing scopes with
  | nil => rfl
  | cons f fs ih => simpa [Scopes.pushAll, Scopes.push] using ih (scopes.push f)

/-- What was pushed is taken away again. -/
theorem Scopes.restore_pushAll (scopes : Scopes) (frames : List (Option String)) :
    (scopes.pushAll frames).restore scopes.depth = scopes := by
  simp [Scopes.restore, Scopes.depth, Scopes.frames_pushAll]

/-- A state with other frames in scope. -/
def State.under (s : State) (scopes : Scopes) : State := { s with scopes := scopes }

/-! ## Lowerings -/

namespace Lower

variable {α β : Type}

/-- A lowering succeeds if and only if `p` holds, and `P` says what it leaves then. -/
def Spec (x : Lower α) (s : State) (p : Prop) (P : α → State → Prop) : Prop :=
  match x s with
  | .ok a t => p ∧ P a t
  | .error _ _ => ¬ p

variable {x : Lower α} {s : State} {p q : Prop} {P Q : α → State → Prop}

theorem Spec.pure {a : α} (h : P a s) : Spec (Pure.pure a) s True P := ⟨trivial, h⟩

/-- A step that always succeeds. -/
theorem Spec.ok {a : α} {t : State} (hx : x s = .ok a t) (h : P a t) : Spec x s True P := by
  rw [Spec, hx]
  exact ⟨trivial, h⟩

theorem Spec.reject (e : CompileError) : Spec (Lower.reject e) s False P := id

theorem Spec.mono (h : Spec x s p P) (hP : ∀ a t, P a t → Q a t) : Spec x s p Q := by
  unfold Spec at h ⊢
  split
  · rename_i a t hx
    rw [hx] at h
    exact ⟨h.1, hP a t h.2⟩
  · rename_i e t hx
    rw [hx] at h
    exact h

theorem Spec.iff (h : Spec x s p P) (hpq : p ↔ q) : Spec x s q P := by
  rwa [← propext hpq]

theorem bind_apply (x : Lower α) (f : α → Lower β) (s : State) : (x >>= f) s = match x s with
    | .ok a t => f a t
    | .error e t => .error e t := by
  cases h : x s <;> simp [Bind.bind, EStateM.bind, h]

theorem bind_eq_ok {f : α → Lower β} {u : State} {b : β} :
    (x >>= f) s = .ok b u ↔ ∃ a t, x s = .ok a t ∧ f a t = .ok b u := by
  rw [Lower.bind_apply]
  cases x s with
  | ok a t => exact ⟨fun h => ⟨a, t, rfl, h⟩, by rintro ⟨_, _, ⟨⟩, h⟩; exact h⟩
  | error e t => exact ⟨fun h => (nomatch h), by rintro ⟨_, _, ⟨⟩, _⟩⟩

theorem pure_eq_ok {a b : α} {t : State} : (Pure.pure a : Lower α) s = .ok b t ↔ a = b ∧ s = t := by
  simp [Pure.pure, EStateM.pure]

/-- One lowering after another. -/
theorem Spec.bind {f : α → Lower β} {R : β → State → Prop} (hx : Spec x s p P)
    (hf : ∀ a t, P a t → Spec (f a) t q R) : Spec (x >>= f) s (p ∧ q) R := by
  unfold Spec at hx ⊢
  rw [bind_apply]
  cases hxs : x s with
  | ok a t =>
    rw [hxs] at hx
    have hy := hf a t hx.2
    unfold Spec at hy
    simp only
    split
    · rename_i b u hb
      rw [hb] at hy
      exact ⟨⟨hx.1, hy.1⟩, hy.2⟩
    · rename_i e u hb
      rw [hb] at hy
      exact fun h => hy h.2
  | error e t =>
    rw [hxs] at hx
    exact fun h => hx h.1

/-- A lowering whose result is used. -/
theorem Spec.map {f : α → β} {R : β → State → Prop} (hx : Spec x s p P) (hf : ∀ a t, P a t → R (f a) t) :
    Spec (x >>= fun a => Pure.pure (f a)) s p R :=
  (hx.bind fun a t h => Spec.pure (hf a t h)).iff (and_iff_left trivial)

/-- A step that always succeeds, before a lowering. -/
theorem Spec.step {f : α → Lower β} {a : α} {t : State} {R : β → State → Prop} (hx : x s = .ok a t)
    (hf : Spec (f a) t p R) : Spec (x >>= f) s p R := by
  have hbind : Spec (x >>= f) s (True ∧ p) R := (Spec.ok hx ⟨rfl, rfl⟩ : Spec x s True
    fun b u => b = a ∧ u = t).bind (by rintro b u ⟨rfl, rfl⟩; exact hf)
  exact hbind.iff (by simp)

theorem inScope_apply (frames : List (Option String)) (x : Lower α) (s : State) :
    Lower.inScope frames x s = match x (s.under (s.scopes.pushAll frames)) with
    | .ok a t => .ok a (t.under (t.scopes.restore s.scopes.depth))
    | .error e t => .error e (t.under (t.scopes.restore s.scopes.depth)) := rfl

/-- Frames that are in scope only for a while. -/
theorem Spec.inScope {frames : List (Option String)} {scopes : Scopes} (hs : s.scopes = scopes)
    (h : Spec x (s.under (scopes.pushAll frames)) p fun a t => t.scopes = scopes.pushAll frames ∧
      P a (t.under scopes)) : Spec (Lower.inScope frames x) s p P := by
  subst hs
  unfold Spec at h ⊢
  rw [inScope_apply]
  cases hx : x (s.under (s.scopes.pushAll frames)) with
  | ok a t =>
    rw [hx] at h
    obtain ⟨hp, ht, hP⟩ := h
    have hunder : t.under (t.scopes.restore s.scopes.depth) = t.under s.scopes := by
      rw [ht, Scopes.restore_pushAll]
    exact ⟨hp, hunder ▸ hP⟩
  | error e t =>
    rw [hx] at h
    exact h

end Lower

/-! ## States -/

/-- Locals of a function: words with different names, none of which is that of the environment. -/
structure TidyLocals (locals : List Local) : Prop where
  nodup : (locals.map (·.name)).Nodup
  words : ∀ l ∈ locals, l.ty = .i32
  env : Env.current ∉ locals.map (·.name)

theorem TidyLocals.nil : TidyLocals [] := ⟨.nil, nofun, nofun⟩

theorem TidyLocals.declare {frame : List Local} (h : TidyLocals frame) {x : String} (hx : x ≠ Env.current) :
    TidyLocals (if .word x ∈ frame then frame else frame ++ [Local.word x]) := by
  split
  · exact h
  · rename_i hnew
    have hname : x ∉ frame.map (·.name) := by
      intro hmem
      obtain ⟨l, hl, rfl⟩ := List.mem_map.1 hmem
      have hword : l = .word l.name := by
        have hty := h.words l hl
        obtain ⟨name, ty⟩ := l
        simp only at hty
        subst hty
        rfl
      exact hnew (hword ▸ hl)
    refine ⟨?_, ?_, ?_⟩
    · rw [List.map_append, List.nodup_append]
      refine ⟨h.nodup, by simp, ?_⟩
      rintro a ha b hb rfl
      simp only [Local.word, List.map_cons, List.map_nil, List.mem_singleton] at hb
      exact hname (hb ▸ ha)
    · intro l hl
      rcases List.mem_append.1 hl with hl | hl
      · exact h.words l hl
      · rw [List.mem_singleton.1 hl]
        rfl
    · simp only [List.map_append, List.mem_append, not_or]
      exact ⟨h.env, by simpa [Local.word] using Ne.symm hx⟩

namespace State

/-- The locals of the function that is being lowered. -/
def frame (s : State) : List Local := s.functions.frames.head?.getD []

/-- What code can refer to by now, in a function with these locals. -/
def Offers (s : State) (apps : Prop) (locals : List String) (d : Space × String) : Prop :=
  match d.1 with
  | .locals => (d.2 = Env.current ∧ .environment ∈ s.features) ∨ d.2 ∈ locals
  | .functions => (∃ g ∈ s.features, d.2 ∈ g.declares .functions) ∨
      (∃ c ∈ s.comparisons, d.2 = Compare.function c) ∨ d.2 ∈ s.matchers.funcs.map (·.name)
  | .types => d.2 = Closures.type ∧ apps
  | .tables => d.2 = Closures.table ∧ apps
  | _ => False

/-- What was collected is kept, and what is open stays open. -/
structure Grew (s t : State) : Prop where
  scopes : t.scopes = s.scopes
  features : s.features ⊆ t.features
  comparisons : s.comparisons ⊆ t.comparisons
  functions : s.functions.funcs <+: t.functions.funcs
  matchers : s.matchers.funcs <+: t.matchers.funcs
  frames : ∀ {frame outer}, s.functions.frames = frame :: outer →
    ∃ frame', t.functions.frames = frame' :: outer ∧ frame ⊆ frame'
  pending : t.matchers.frames = s.matchers.frames
  code : t.code = s.code
  sites : s.sites ≤ t.sites

/-- What has been finished is as it should be. -/
structure Tidy (apps : Prop) (s : State) : Prop where
  ordered : Feature.Ordered s.features
  literals : ∀ {k f}, s.functions.funcs[k]? = some f → f.name = Definitions.Family.literals.name k ∧
    f.params = [.word Env.current] ∧ f.result = some .i32 ∧ TidyLocals f.locals ∧
    ∀ d ∈ Code.refs f.body, s.Offers apps (f.locals.map (·.name)) d
  matchers : ∀ {k f}, s.matchers.funcs[k]? = some f → f.name = Definitions.Family.matchers.name k ∧
    f.WellScoped ∧ ∀ d ∈ Code.refs f.body, d.1 = .locals ∨ s.Offers apps [] d
  frames : s.functions.frames ≠ [] ∧ ∀ frame ∈ s.functions.frames, TidyLocals frame

variable {apps : Prop} {s t u : State}

theorem Grew.refl (s : State) : s.Grew s :=
  ⟨rfl, fun _ => id, fun _ => id, List.prefix_refl _, List.prefix_refl _, fun h => ⟨_, h, fun _ => id⟩, rfl, rfl,
    Nat.le_refl _⟩

theorem Grew.trans (h : s.Grew t) (h' : t.Grew u) : s.Grew u where
  scopes := h'.scopes.trans h.scopes
  features _ hf := h'.features (h.features hf)
  comparisons _ hc := h'.comparisons (h.comparisons hc)
  functions := h.functions.trans h'.functions
  matchers := h.matchers.trans h'.matchers
  frames hs := by
    obtain ⟨frame₁, ht, hsub⟩ := h.frames hs
    obtain ⟨frame₂, hu, hsub'⟩ := h'.frames ht
    exact ⟨frame₂, hu, fun l hl => hsub' (hsub hl)⟩
  pending := h'.pending.trans h.pending
  code := h'.code.trans h.code
  sites := Nat.le_trans h.sites h'.sites

theorem Tidy.frames_eq (h : s.Tidy apps) : ∃ outer, s.functions.frames = s.frame :: outer := by
  cases hf : s.functions.frames with
  | nil => exact absurd hf h.frames.1
  | cons frame outer => exact ⟨outer, by simp [State.frame, hf]⟩

theorem Grew.frame (h : s.Grew t) (hs : s.Tidy apps) : s.frame ⊆ t.frame := by
  obtain ⟨outer, hframes⟩ := hs.frames_eq
  obtain ⟨frame', ht, hsub⟩ := h.frames hframes
  simpa [State.frame, ht] using hsub

/-- More is offered as more is collected. -/
theorem Offers.mono {locals locals' : List String} {d : Space × String} (h : s.Offers apps locals d)
    (hgrew : s.Grew t) (hlocals : locals ⊆ locals') : t.Offers apps locals' d := by
  obtain ⟨space, x⟩ := d
  cases space with
  | locals => exact h.imp (fun h => ⟨h.1, hgrew.features h.2⟩) fun h => hlocals h
  | functions =>
    refine h.imp (fun ⟨g, hg, hx⟩ => ⟨g, hgrew.features hg, hx⟩) fun h => h.imp
      (fun ⟨c, hc, hx⟩ => ⟨c, hgrew.comparisons hc, hx⟩) fun h => ?_
    exact ((hgrew.matchers.map _).subset) h
  | types | tables => exact h
  | globals | memories => exact h

/-- Growing without a new function. -/
theorem Tidy.grow (h : s.Tidy apps) (hgrew : s.Grew t) (hordered : Feature.Ordered t.features)
    (hfuncs : t.functions.funcs = s.functions.funcs) (hmatchers : t.matchers.funcs = s.matchers.funcs)
    (hframes : t.functions.frames ≠ [] ∧ ∀ frame ∈ t.functions.frames, TidyLocals frame) : t.Tidy apps where
  ordered := hordered
  literals hf := by
    rw [hfuncs] at hf
    obtain ⟨hname, hparams, hresult, hlocals, hrefs⟩ := h.literals hf
    exact ⟨hname, hparams, hresult, hlocals, fun d hd => (hrefs d hd).mono hgrew fun _ => id⟩
  matchers hf := by
    rw [hmatchers] at hf
    obtain ⟨hname, hscoped, hrefs⟩ := h.matchers hf
    exact ⟨hname, hscoped, fun d hd => (hrefs d hd).imp_right fun h => h.mono hgrew fun _ => id⟩
  frames := hframes

theorem grew_use (s : State) (f : Feature) : s.Grew (s.use f) :=
  { Grew.refl s with features := List.subset_append_left _ _ }

theorem mem_use (s : State) (f : Feature) : f ∈ (s.use f).features := by
  by_cases h : f ∈ s.features
  · exact List.mem_append_left _ h
  · have hneeds : f ∈ f.needs := by cases f <;> decide
    exact List.mem_append_right _ (by simp [hneeds, h])

theorem Tidy.use (h : s.Tidy apps) (f : Feature) : (s.use f).Tidy apps :=
  h.grow (grew_use s f) (h.ordered.use f) rfl rfl h.frames

theorem grew_useComparison (s : State) (c : Comparison) : s.Grew (s.useComparison c) :=
  { Grew.refl s with comparisons := List.subset_cons_self _ _ }

theorem Tidy.useComparison (h : s.Tidy apps) (c : Comparison) : (s.useComparison c).Tidy apps :=
  h.grow (grew_useComparison s c) h.ordered rfl rfl h.frames

theorem grew_declare (s : State) (l : Local) : s.Grew (s.declare l) :=
  { Grew.refl s with
    functions := by
      unfold declare Definitions.declare
      cases s.functions.frames <;> exact List.prefix_refl _
    frames := by
      intro frame outer hs
      refine ⟨if l ∈ frame then frame else frame ++ [l], by simp [declare, Definitions.declare, hs], ?_⟩
      split
      · exact fun _ => id
      · exact List.subset_append_left _ _ }

theorem Tidy.declare (h : s.Tidy apps) {x : String} (hx : x ≠ Env.current) : (s.declare (.word x)).Tidy apps := by
  obtain ⟨outer, hframes⟩ := h.frames_eq
  have hall := h.frames.2
  rw [hframes] at hall
  refine h.grow (grew_declare s _) h.ordered ?_ rfl ?_
  · simp [State.declare, Definitions.declare, hframes]
  · simp only [State.declare, Definitions.declare, hframes]
    refine ⟨by simp, fun frame hf => ?_⟩
    rcases List.mem_cons.1 hf with rfl | hf
    · exact (hall _ (.head _)).declare hx
    · exact hall _ (.tail _ hf)

theorem mem_declare (h : s.Tidy apps) (l : Local) : l ∈ (s.declare l).frame := by
  cases hf : s.functions.frames with
  | nil => exact absurd hf h.frames.1
  | cons frame outer =>
    simp only [State.frame, State.declare, Definitions.declare, hf, List.head?_cons, Option.getD_some]
    split
    · assumption
    · simp

theorem grew_site (s : State) : s.Grew { s with sites := s.sites + 1 } :=
  { Grew.refl s with sites := Nat.le_succ _ }

theorem Tidy.site (h : s.Tidy apps) : Tidy apps { s with sites := s.sites + 1 } :=
  h.grow (grew_site s) h.ordered rfl rfl h.frames

/-! ## Function literals -/

/-- The state in which the body of a function literal is lowered. -/
def inside (s : State) (scopes : Scopes) : State :=
  { s with scopes := scopes, functions := s.functions.enter }

/-- The state after a function literal was lowered to a body. -/
def outside (t : State) (scopes : Scopes) (body : Code) : State :=
  { t with scopes := scopes, functions := t.functions.leave .literals body }

theorem Tidy.inside (h : s.Tidy apps) (scopes : Scopes) : (s.inside scopes).Tidy apps where
  ordered := h.ordered
  literals := h.literals
  matchers := h.matchers
  frames := by
    refine ⟨by simp [State.inside, Definitions.enter], fun frame hf => ?_⟩
    rcases List.mem_cons.1 hf with rfl | hf
    · exact .nil
    · exact h.frames.2 frame hf

theorem outside_frames {scopes : Scopes} {body : Code} (hgrew : (s.inside scopes).Grew t) :
    (t.outside s.scopes body).functions.frames = s.functions.frames := by
  obtain ⟨frame', ht, -⟩ := hgrew.frames (show (s.inside scopes).functions.frames = [] :: s.functions.frames from rfl)
  simp [outside, Definitions.leave, Definitions.close, ht]

/-- A function literal leaves the function around it as it was. -/
theorem grew_outside {scopes : Scopes} (body : Code) (hgrew : (s.inside scopes).Grew t) :
    s.Grew (t.outside s.scopes body) where
  scopes := rfl
  features := hgrew.features
  comparisons := hgrew.comparisons
  functions := hgrew.functions.trans (List.prefix_append _ _)
  matchers := hgrew.matchers
  frames hs := ⟨_, (outside_frames hgrew).trans hs, fun _ => id⟩
  pending := hgrew.pending
  code := hgrew.code
  sites := hgrew.sites

theorem Tidy.outside {scopes : Scopes} {body : Code} (hs : s.Tidy apps) (hgrew : (s.inside scopes).Grew t)
    (ht : t.Tidy apps) (hrefs : ∀ d ∈ Code.refs body, t.Offers apps (t.frame.map (·.name)) d) :
    (t.outside s.scopes body).Tidy apps where
  ordered := ht.ordered
  literals {k f} hf := by
    by_cases hk : k < t.functions.funcs.length
    · rw [State.outside, Definitions.leave, List.getElem?_append_left hk] at hf
      exact ht.literals hf
    · rw [State.outside, Definitions.leave, List.getElem?_append_right (by omega), List.getElem?_singleton] at hf
      split at hf
      · cases hf
        obtain ⟨outer, hframes⟩ := ht.frames_eq
        refine ⟨?_, rfl, rfl, ht.frames.2 _ (hframes ▸ .head _), hrefs⟩
        have hlen : k = t.functions.funcs.length := by omega
        rw [hlen]
      · cases hf
  matchers := ht.matchers
  frames := outside_frames hgrew ▸ hs.frames

/-! ## Matchers -/

/-- The state in which the parts of a matcher are lowered. -/
def begun (s : State) : State := { s with matchers := s.matchers.enter }

/-- The name of the next matcher. -/
def matcherName (t : State) : String := Definitions.Family.matchers.name t.matchers.funcs.length

/-- The state after a matcher with these locals was lowered to a body. -/
def closed (s t : State) (locals : List Local) (body : Code) : State :=
  { t with matchers := ⟨s.matchers.frames, t.matchers.funcs ++ [matcherFunc t.matcherName locals body]⟩ }

theorem Tidy.begun (h : s.Tidy apps) : s.begun.Tidy apps :=
  ⟨h.ordered, h.literals, h.matchers, h.frames⟩

/-- A matcher leaves those around it as they were. -/
theorem grew_closed (locals : List Local) (body : Code) (h : s.begun.Grew t) : s.Grew (closed s t locals body) :=
  { h with
    matchers := h.matchers.trans (List.prefix_append _ _)
    pending := rfl }

theorem Tidy.closed {locals : List Local} {body : Code} (ht : t.Tidy apps)
    (hscoped : ∀ name, (matcherFunc name locals body).WellScoped)
    (hrefs : ∀ d ∈ Code.refs body, d.1 = .locals ∨ t.Offers apps [] d) : (closed s t locals body).Tidy apps := by
  have hmore {locals' : List String} {d : Space × String} (h : t.Offers apps locals' d) :
      (State.closed s t locals body).Offers apps locals' d := by
    obtain ⟨space, x⟩ := d
    cases space with
    | functions =>
      exact h.imp_right fun h => h.imp_right fun h => ((List.prefix_append _ _).map _).subset h
    | _ => exact h
  refine ⟨ht.ordered, fun hf => ?_, fun {k f} hf => ?_, ht.frames⟩
  · obtain ⟨hname, hparams, hresult, hlocals, hbody⟩ := ht.literals hf
    exact ⟨hname, hparams, hresult, hlocals, fun d hd => hmore (hbody d hd)⟩
  · by_cases hk : k < t.matchers.funcs.length
    · rw [State.closed, List.getElem?_append_left hk] at hf
      obtain ⟨hname, hfun, hbody⟩ := ht.matchers hf
      exact ⟨hname, hfun, fun d hd => (hbody d hd).imp_right hmore⟩
    · rw [State.closed, List.getElem?_append_right (by omega), List.getElem?_singleton] at hf
      split at hf
      · cases hf
        have hlen : k = t.matchers.funcs.length := by omega
        exact ⟨hlen ▸ rfl, hscoped _, fun d hd => (hrefs d hd).imp_right hmore⟩
      · cases hf

end State

theorem Lower.leaveMatcher_apply {t : State} {locals : List Local} {outer : List (List Local)}
    (h : t.matchers.frames = locals :: outer) (body : Code) :
    Lower.leaveMatcher body t = .ok t.matcherName
      { t with matchers := ⟨outer, t.matchers.funcs ++ [matcherFunc t.matcherName locals body]⟩ } := by
  have hleave : t.matchers.leave .matchers body =
      ⟨outer, t.matchers.funcs ++ [matcherFunc t.matcherName locals body]⟩ := by
    simp only [Definitions.leave, Definitions.close, h]
    rfl
  show EStateM.Result.ok _ _ = _
  rw [← hleave]
  rfl

/-! ## Code -/

/-- All that code refers to is of a kind. -/
def Code.RefsIn (P : Space × String → Prop) (c : Code) : Prop := ∀ d ∈ Code.refs c, P d

/-- All locals that code assigns are of a kind. -/
def Code.AssignsIn (P : String → Prop) (c : Code) : Prop := ∀ x ∈ Code.assigns c, P x

section

variable {P Q : Space × String → Prop} {A B : String → Prop} {i : Instr String} {a b c : Code}

@[simp] theorem Code.refsIn_nil : Code.RefsIn P [] := by simp [Code.RefsIn]
@[simp] theorem Code.refsIn_cons : Code.RefsIn P (i :: c) ↔ (∀ d ∈ i.refs, P d) ∧ Code.RefsIn P c := by
  simp [Code.RefsIn, or_imp, forall_and]
@[simp] theorem Code.refsIn_append : Code.RefsIn P (a ++ b) ↔ Code.RefsIn P a ∧ Code.RefsIn P b := by
  simp [Code.RefsIn, or_imp, forall_and]
@[simp] theorem Code.refsIn_condWord : (∀ d ∈ (Instr.condWord a b).refs, P d) ↔ Code.RefsIn P a ∧ Code.RefsIn P b := by
  simp [Code.RefsIn, Instr.condWord, Instr.refs, or_imp, forall_and]

theorem Code.RefsIn.mono (h : Code.RefsIn P c) (hPQ : ∀ d, P d → Q d) : Code.RefsIn Q c :=
  fun d hd => hPQ d (h d hd)

@[simp] theorem Code.assignsIn_nil : Code.AssignsIn A [] := by simp [Code.AssignsIn]
@[simp] theorem Code.assignsIn_cons : Code.AssignsIn A (i :: c) ↔ (∀ x ∈ i.assigns, A x) ∧ Code.AssignsIn A c := by
  simp [Code.AssignsIn, or_imp, forall_and]
@[simp] theorem Code.assignsIn_append : Code.AssignsIn A (a ++ b) ↔ Code.AssignsIn A a ∧ Code.AssignsIn A b := by
  simp [Code.AssignsIn, or_imp, forall_and]
@[simp] theorem Code.assignsIn_condWord :
    (∀ x ∈ (Instr.condWord a b).assigns, A x) ↔ Code.AssignsIn A a ∧ Code.AssignsIn A b := by
  simp [Code.AssignsIn, Instr.condWord, Instr.assigns, or_imp, forall_and]

theorem Code.AssignsIn.mono (h : Code.AssignsIn A c) (hAB : ∀ x, A x → B x) : Code.AssignsIn B c :=
  fun x hx => hAB x (h x hx)

end

/-- The locals of a match. -/
def Emit.Site.names (site : Site) : List String := [site.value, site.outer, site.inner]

namespace State

/-- Locals that code from between two states assigns: those that all functions share, and those of
matches that were numbered in between. -/
def Assigned (s t : State) (x : String) : Prop :=
  x ∈ [Env.current, Emit.callee, Emit.argument] ∨
    ∃ k, s.sites ≤ k ∧ k < t.sites ∧ x ∈ (Emit.Site.ofNumber k).names

/-- Code that was made on the way from one state to another. -/
structure Made (apps : Prop) (s t : State) (code : Code) : Prop where
  grew : s.Grew t
  tidy : t.Tidy apps
  refs : Code.RefsIn (t.Offers apps (t.frame.map (·.name))) code
  assigns : Code.AssignsIn (Assigned s t) code

variable {apps : Prop} {s t u : State} {c a b : Code}

theorem Assigned.mono {r : State} {x : String} (h : Assigned s t x) (hs : r.sites ≤ s.sites)
    (ht : t.sites ≤ u.sites) : Assigned r u x := by
  refine h.imp_right fun ⟨k, hk, hk', hx⟩ => ⟨k, ?_, ?_, hx⟩ <;> omega

/-- More is collected after code was made, -/
theorem Made.after (h : Made apps s t c) (hgrew : t.Grew u) (hu : u.Tidy apps) : Made apps s u c where
  grew := h.grew.trans hgrew
  tidy := hu
  refs := h.refs.mono fun _ hd => hd.mono hgrew (List.map_subset _ (hgrew.frame h.tidy))
  assigns := h.assigns.mono fun _ hx => hx.mono (Nat.le_refl _) hgrew.sites

/-- or before it. -/
theorem Made.before (h : Made apps t u c) (hgrew : s.Grew t) : Made apps s u c where
  grew := hgrew.trans h.grew
  tidy := h.tidy
  refs := h.refs
  assigns := h.assigns.mono fun _ hx => hx.mono hgrew.sites (Nat.le_refl _)

theorem Made.append (ha : Made apps s t a) (hb : Made apps t u b) : Made apps s u (a ++ b) where
  grew := ha.grew.trans hb.grew
  tidy := hb.tidy
  refs := Code.refsIn_append.2 ⟨(ha.after hb.grew hb.tidy).refs, hb.refs⟩
  assigns := Code.assignsIn_append.2 ⟨(ha.after hb.grew hb.tidy).assigns, (hb.before ha.grew).assigns⟩

/-- Code that was made with other frames in scope. -/
theorem Made.scoped {scopes : Scopes} (h : Made apps (s.under scopes) t c) :
    Made apps s (t.under s.scopes) c where
  grew := { h.grew with scopes := rfl }
  tidy := ⟨h.tidy.ordered, h.tidy.literals, h.tidy.matchers, h.tidy.frames⟩
  refs := h.refs
  assigns := h.assigns

/-- The functions of a feature that was requested, and of those it builds on, are offered. -/
theorem Tidy.offers (h : t.Tidy apps) (locals : List String) {f g : Feature} (hf : f ∈ t.features)
    (hg : g ∈ f.needs) {x : String} (hx : x ∈ g.declares .functions) : t.Offers apps locals (.functions, x) :=
  .inl ⟨g, h.ordered.needs_mem hf hg, hx⟩

theorem Tidy.offers_env (h : t.Tidy apps) (locals : List String) {f : Feature} (hf : f ∈ t.features)
    (hg : .environment ∈ f.needs) : t.Offers apps locals (.locals, Env.current) :=
  .inl ⟨rfl, h.ordered.needs_mem hf hg⟩

end State

/-- A target has all that was collected, with functions reduced if it is one where they are. -/
structure Target.Realizes (T : Target) (cx : Setup) (s : State) : Prop where
  features : s.features ⊆ T.features
  comparisons : s.comparisons ⊆ T.comparisons
  literals : ∀ {k f}, s.functions.funcs[k]? = some f → T.Literal k { f with body := T.reduce f.body }
  matchers : ∀ f ∈ s.matchers.funcs, T.module.func? f.name = some { f with body := T.reduce f.body }
  asWords : T.asWords = cx.areWords

theorem Target.Realizes.of_grew {T : Target} {cx : Setup} {s t : State} (h : T.Realizes cx t) (hgrew : s.Grew t) :
    T.Realizes cx s where
  features _ hf := h.features (hgrew.features hf)
  comparisons _ hc := h.comparisons (hgrew.comparisons hc)
  literals {k f} hf := by
    obtain ⟨rest, hrest⟩ := hgrew.functions
    obtain ⟨hlt, -⟩ := List.getElem?_eq_some_iff.1 hf
    exact h.literals (by rw [← hrest, List.getElem?_append_left hlt, hf])
  matchers f hf := h.matchers f (hgrew.matchers.subset hf)
  asWords := h.asWords

end WasmBackend
