/-
Matching. A matcher extends a scope by what its pattern binds, or returns
zero, which stands for no scope (`matcher_sim`). The arms of a match are tried
in order, each from the environment around all of them (`Computes.cases`).
-/
import WasmBackend.Proofs.Simulation.Constructs
import WasmBackend.Proofs.Simulation.Matchers

namespace WasmBackend

open Library
open Eval (Grows)

/-- All that can be wrong about a match is the kind of the value. -/
theorem Pattern.select_error : ∀ (p : Pattern) {d : Datum} {arena arena' : Arena} {e : Stop},
    p.select d arena = .error e arena' → e = .wrong
  | .wildcard _, d, arena, arena', e, h => by cases h
  | .ident _ _, d, arena, arena', e, h => by cases h
  | .nil _, d, arena, arena', e, h => by
    cases d with
    | list items => cases items <;> cases h
    | _ =>
      cases h
      rfl
  | .cons _ head tail, d, arena, arena', e, h => by
    cases d with
    | list items =>
      cases items with
      | nil => cases h
      | cons first rest =>
        simp only [select, Eval.toList, pure_bind] at h
        rw [Eval.bind_apply] at h
        cases hhead : head.select first arena with
        | error e' arena₁ =>
          rw [hhead] at h
          cases h
          exact head.select_error hhead
        | ok outer arena₁ =>
          rw [hhead] at h
          cases outer with
          | none => cases h
          | some outer =>
            simp only at h
            rw [Eval.bind_apply] at h
            cases htail : tail.select (.list rest) arena₁ with
            | error e' arena₂ =>
              rw [htail] at h
              cases h
              exact tail.select_error htail
            | ok inner arena₂ =>
              rw [htail] at h
              cases inner <;> cases h
    | _ =>
      cases h
      rfl

namespace Target

variable {T : Target} {n : Nat} {L : Layout} {arena : Arena} {σ : Store} {stk : List Operand}
  {l : String → Option Operand} {v w : Word} {d : Datum} {frames : List (Option String)} {env : Bindings}

/-- What a matcher leaves for what a pattern binds. -/
structure Found (frames : List (Option String)) (env : Bindings) (stk : List Operand)
    (l : String → Option Operand) (names : List String) (found : Option Bindings) (L : Layout) (t : Frame) :
    Prop where
  locals : t.locals = l
  top : ∃ w, t.stack = .word w :: stk ∧
    match found with
    | some bindings => L.Chain w ((names.map some).reverse ++ frames) (bindings ++ env)
    | none => w = Matchers.failure

/-- A function extends environments by what a pattern binds. -/
def Selects (T : Target) (n : Nat) (p : Pattern) (f : String) : Prop :=
  ∀ {L arena σ stk l v w d frames env}, T.Holds L arena σ → L.Chain w frames env → L.Represents v d →
    T.Sim n L ⟨.word v :: .word w :: stk, l, σ⟩ [.call f] (p.select d arena) (Found frames env stk l p.bindings)

theorem Holds.liesIn (h : T.Holds L arena σ) (ha : .allocator ∈ T.features) : L.LiesIn T.limit σ where
  memory := h.memory
  used := by
    refine ⟨h.top ha, by rw [h.memory, h.size ha], h.start ha, ?_⟩
    have hle := L.top_le
    omega

/-- Cells that are no closures were added, as the evaluation says. -/
theorem Holds.taken (h : T.Holds L arena σ) (ha : .allocator ∈ T.features) {L' : Layout} {arena' : Arena}
    {τ : Store} (htaken : L.Taken arena L' arena') (hclosures : arena'.closures = arena.closures)
    (hτ : L'.LiesIn T.limit τ) : T.Holds L' arena' τ where
  memory := hτ.memory
  size _ := by rw [← hτ.memory, hτ.used.size]
  top _ := hτ.used.top
  start _ := hτ.used.start
  cells _ := by
    have hcells := h.cells ha
    have htop := htaken.cells
    omega
  exactly hr _ := by
    have hcells := h.exactly hr ha
    have htop := htaken.cells
    omega
  idle hno := absurd ha hno
  floats := htaken.above.floats.trans h.floats
  lists := htaken.above.lists.trans h.lists
  places := by rw [htaken.places, h.places, hclosures]
  closure {i c a} hc hplace := by
    rw [hclosures] at hc
    rw [htaken.places] at hplace
    obtain ⟨env, k, frames, hpair, hchain, hruns⟩ := h.closure hc hplace
    exact ⟨env, k, frames, hpair.mono htaken.above, hchain.mono htaken.above, hruns⟩

/-- **A matcher does what its pattern says**: it extends the environment, or returns zero. -/
theorem matcher_sim (hT : T.Sound) (hf : .matcher ∈ T.features) (p : Pattern) {f : String}
    (hp : p.Matches T.module f) : T.Selects n p f := by
  intro L arena σ stk l v w d frames env hs hchain hd
  have ha := hT.allocator hf
  cases hselect : p.select d arena with
  | error e arena' =>
    obtain rfl := p.select_error hselect
    exact .wrong
  | ok found arena' =>
    have hfinds := p.finds_of_select hselect
    obtain ⟨r, htests, hmatched⟩ :=
      hfinds.tests T.ops (hT.supports _ hf) hT.limit_le hp (hs.liesIn ha) hchain.ne_zero hd
    have hcall := htests.settles stk l
    cases r with
    | none =>
      have hcells := hs.cells ha
      simp only [Layout.Matched] at hmatched
      exact .inr ⟨by omega, fun _ => hcall⟩
    | some result =>
      obtain ⟨w', τ⟩ := result
      obtain ⟨L', htaken, hτ, hfound⟩ := hmatched
      refine .inl ⟨L', _, hcall, htaken.above, hs.taken ha htaken hfinds.only_cells.1 hτ, rfl, w', rfl, ?_⟩
      cases found with
      | none => exact hfound
      | some b =>
        have hnames : b.map (some ·.1) = (p.bindings.map some).reverse := by
          rw [← List.map_reverse, ← hfinds.names b rfl, List.map_map]
          rfl
        have hnew := Layout.Frames.chain (hchain.mono htaken.above) hchain.lt_top hfound
        rwa [hnames] at hnew

/-! ## Arms -/

/-- Code tries arms on a value: it is in a local, and the environment around the arms is in another
one and is current. -/
def Tries (T : Target) (n : Nat) (site : Emit.Site) (frames : List (Option String)) (env : Bindings) (d : Datum)
    (code : Code) (x : Eval Datum) : Prop :=
  ∀ L arena s v, T.Holds L arena s.store → T.Ready L frames env code s → L.Represents v d →
    s.locals site.value = some (.word v) → s.locals site.outer = s.locals Env.current →
    T.Sim n L s code (x arena) (Pushes Yield.word.Shows s)

theorem Tries.nil {site : Emit.Site} : T.Tries n site frames env d (Emit.arms site []) Eval.fault :=
  fun _ _ _ _ _ _ _ _ _ => .stop (by simp [Emit.arms, Outcome.Ends])

/-- The body of an arm runs in the environment that its matcher returned, and the one around the arms
comes back after it. -/
theorem Tries.body {site : Emit.Site} (hsite : site.outer ≠ Env.current) {c : Code} {x : Eval Datum}
    {frames' : List (Option String)} {env' : Bindings} {s : Frame} {w w' : Word} (hs : T.Holds L arena s.store)
    (hcode : site.outer ∉ Code.assigns c) (hbody : T.Computes n frames' env' Yield.word.Shows c x)
    (hready : T.Ready L frames env c s) (hw : s.locals site.outer = some (.word w))
    (hcur : s.locals Env.current = some (.word w)) (hinner : s.locals site.inner = some (.word w'))
    (hc : L.Chain w' frames' env') :
    T.Sim n L { s with stack := [] }
      ([Instr.localGet site.inner, Instr.localSet Env.current] ++ c ++
        [Instr.localGet site.outer, Instr.localSet Env.current])
      (x arena) (Pushes Yield.word.Shows { s with stack := [] }) := by
  have hset : Code.Settles T.ops T.module [.localGet site.inner, .localSet Env.current] { s with stack := [] }
      (.next ⟨[], withEnv s.locals w', s.store⟩) := by
    have hget : Code.Settles T.ops T.module [.localGet site.inner] { s with stack := [] }
        (.next { s with stack := [.word w'] }) := .of_eq 0 fun _ => by simp [hinner]
    exact hget.append (setEnv_settles (s := { s with stack := [] }) _ hcur)
  rw [List.append_assoc]
  refine Sim.prepend hset (.refl L) ?_
  refine (hbody L arena ⟨[], withEnv s.locals w', s.store⟩ hs (hready.enter hc [])).append
    fun d arena' L' t hext hσ hkept hQ => ?_
  obtain ⟨⟨v, hv, hstack⟩, henv⟩ := hQ
  have houter : t.locals site.outer = some (.word w) := by
    rw [hkept.same _ hcode]
    simpa [withEnv, hsite] using hw
  have hcur' : t.locals Env.current = some (.word w') := by simpa [withEnv] using henv
  have hget : Code.Settles T.ops T.module [.localGet site.outer] t (.next { t with stack := .word w :: t.stack }) :=
    .of_eq 0 fun _ => by simp [houter]
  refine ⟨_, hget.append (setEnv_settles _ hcur'), rfl, ⟨v, hv, hstack⟩, ?_⟩
  simp [withEnv, hcur]

theorem Tries.cons (he : .environment ∈ T.features) {site : Emit.Site}
    (hsite : [Env.current, site.value, site.outer, site.inner].Nodup) {p : Pattern} {f : String} {c : Code}
    {rest : List (String × Code)} {g : Bindings → Eval Datum} {x : Eval Datum} (hp : T.Selects n p f)
    (hbody : ∀ b, T.Computes n ((p.bindings.map some).reverse ++ frames) (b ++ env) Yield.word.Shows c (g b))
    (hgg : ∀ b, (g b).Grows) (hcode : site.outer ∉ Code.assigns c)
    (hrest : T.Tries n site frames env d (Emit.arms site rest) x) (hgx : x.Grows) :
    T.Tries n site frames env d (Emit.arms site ((f, c) :: rest)) (p.select d >>= fun found =>
      match found with
      | some b => g b
      | none => x) := by
  intro L arena s v hs hready hv hvalue houter
  obtain ⟨w, hw, hchain⟩ := hready.env he
  simp only [List.nodup_cons, List.mem_cons, List.not_mem_nil, or_false, not_or] at hsite
  obtain ⟨⟨-, hne₁, hne₂⟩, ⟨-, hne₃⟩, hne₄, -⟩ := hsite
  have hget : Code.Settles T.ops T.module [.localGet site.outer, .localGet site.value] s
      (.next ⟨.word v :: .word w :: s.stack, s.locals, s.store⟩) := .of_eq 0 fun _ => by simp [houter, hw, hvalue]
  rw [Emit.arms]
  refine Sim.prepend hget (.refl L) ?_
  refine Sim.bind (a := [.call f]) (hp hs hchain hv) (fun found => ?_) fun found arena₁ L₁ t₁ hext₁ hσ₁ _ hQ₁ => ?_
  · cases found with
    | some b => exact hgg b
    | none => exact hgx
  obtain ⟨hlocals₁, w₁, hstack₁, hfound₁⟩ := hQ₁
  obtain ⟨stk₁, l₁, σ₁⟩ := t₁
  simp only at hlocals₁ hstack₁
  subst hlocals₁ hstack₁
  obtain ⟨u, hu⟩ := hready.words site.inner (by simp [Emit.arms, Instr.refs])
  let l₂ : String → Option Operand := fun z => if z = site.inner then some (.word w₁) else s.locals z
  have htee : Code.Settles T.ops T.module [.localTee site.inner] ⟨.word w₁ :: s.stack, s.locals, σ₁⟩
      (.next ⟨.word w₁ :: s.stack, l₂, σ₁⟩) := .of_eq 0 fun _ => by simp [hu, l₂]
  have hkept := htee.locals
  have hcur : l₂ Env.current = s.locals Env.current := by simp [l₂, hne₂]
  refine Sim.prepend htee (.refl L₁) ?_
  have hready₂ {c' : Code} (hsub : Code.refs c' ⊆ Code.refs (Emit.arms site ((f, c) :: rest))) :
      T.Ready L₁ frames env c' ⟨[], l₂, σ₁⟩ := hready.mono hsub hext₁ hkept hcur
  cases found with
  | none =>
    obtain rfl : w₁ = 0 := hfound₁
    have hno := hrest L₁ arena₁ ⟨[], l₂, σ₁⟩ v hσ₁ (hready₂ fun z hz => by simp [Emit.arms, Instr.condWord, Instr.refs, hz])
      (hv.mono hext₁) (by simp [l₂, hne₃, hvalue]) (by simp [l₂, hne₄, hne₂, houter])
    exact Sim.cond (c := 0) hno fun _ _ _ _ => Pushes.leave hcur
  | some b =>
    have hyes := Tries.body (s := ⟨[], l₂, σ₁⟩) (Ne.symm hne₁) hσ₁ hcode (hbody b)
      (hready₂ fun z hz => by simp [Emit.arms, Instr.condWord, Instr.refs, hz]) (by simp [l₂, hne₄, houter, hw]) (hcur.trans hw)
      (by simp [l₂]) hfound₁
    refine Sim.cond (c := w₁) (Q := Pushes Yield.word.Shows ⟨[], l₂, σ₁⟩) ?_ fun _ _ _ _ => Pushes.leave hcur
    rw [if_pos hfound₁.ne_zero]
    exact hyes

/-- A match puts the value and the environment into locals, then tries the arms. -/
theorem Computes.cases (he : .environment ∈ T.features) {site : Emit.Site}
    (hsite : [Env.current, site.value, site.outer, site.inner].Nodup) {c : Code} {branches : List (String × Code)}
    {x : Eval Datum} {y : Datum → Eval Datum} (hx : T.Computes n frames env Yield.word.Shows c x)
    (hy : ∀ d, T.Tries n site frames env d (Emit.arms site branches) (y d)) (hgy : ∀ d, (y d).Grows) :
    T.Computes n frames env Yield.word.Shows (Emit.cases site c branches) (x >>= y) := by
  have hcode : Emit.cases site c branches = c ++ ([Instr.localSet site.value, .localGet Env.current,
      .localSet site.outer] ++ Emit.arms site branches) := by simp [Emit.cases]
  rw [hcode]
  refine hx.bind hgy fun d L arena v s hv hs hready => ?_
  obtain ⟨v, rfl, hv⟩ := hv
  obtain ⟨w, hw, hchain⟩ := hready.env he
  obtain ⟨u, hu⟩ := hready.words site.value (by simp [Instr.refs])
  obtain ⟨u', hu'⟩ := hready.words site.outer (by simp [Instr.refs])
  simp only [List.nodup_cons, List.mem_cons, List.not_mem_nil, or_false, not_or] at hsite
  obtain ⟨⟨hne₁, hne₂, -⟩, ⟨hne₃, -⟩, -, -⟩ := hsite
  let l : String → Option Operand := fun z => if z = site.outer then some (.word w)
    else if z = site.value then some (.word v) else s.locals z
  have hset : Code.Settles T.ops T.module [.localSet site.value, .localGet Env.current, .localSet site.outer]
      { s with stack := .word v :: s.stack } (.next ⟨s.stack, l, s.store⟩) :=
    .of_eq 0 fun _ => by simp [hu, hne₁, hw, Ne.symm hne₃, hu', l]
  have hcur : l Env.current = s.locals Env.current := by simp [l, hne₁, hne₂]
  refine Sim.prepend hset (.refl L) ?_
  have harms := hy d L arena ⟨s.stack, l, s.store⟩ v hs
    (hready.mono (fun z hz => by simp [hz]) (.refl L) hset.locals hcur) hv (by simp [l, hne₃])
    (by simp [l, hcur, hw])
  exact harms.mono fun d' L' t _ hQ => ⟨hQ.top, hQ.env.trans hcur⟩

end Target

end WasmBackend
