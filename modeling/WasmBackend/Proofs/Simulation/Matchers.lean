/-
What matchers do. A matcher is called with an environment, which can be any
word but zero, and a value. It returns an environment that extends the one it
was given by a frame for each name of its pattern, or zero if the value does
not match; all that it writes are these frames (`Pattern.Finds.tests`). It
traps only if there is no room for a frame.
-/
import WasmBackend.Proofs.Heap.Growth
import WasmBackend.Proofs.Simulation.Cells

namespace WasmBackend

open Library

/-! ## Matches -/

/-- How a match comes to an end, with the cells that were taken for it. -/
inductive Pattern.Finds : Pattern → Datum → Arena → Option Bindings → Arena → Prop
  | wildcard {span : Span} {d : Datum} {arena : Arena} : Finds (.wildcard span) d arena (some []) arena
  | ident {span : Span} {name : String} {d : Datum} {arena : Arena} :
      Finds (.ident span name) d arena (some [(name, d)]) { arena with cells := arena.cells + 1 }
  | nil {span : Span} {arena : Arena} : Finds (.nil span) (.list []) arena (some []) arena
  | notNil {span : Span} {first : Datum} {rest : List Datum} {arena : Arena} :
      Finds (.nil span) (.list (first :: rest)) arena none arena
  | notCell {span : Span} {head tail : Pattern} {arena : Arena} :
      Finds (.cons span head tail) (.list []) arena none arena
  | notHead {span : Span} {head tail : Pattern} {first : Datum} {rest : List Datum} {arena arena' : Arena} :
      Finds head first arena none arena' → Finds (.cons span head tail) (.list (first :: rest)) arena none arena'
  | cell {span : Span} {head tail : Pattern} {first : Datum} {rest : List Datum} {arena arena₁ arena₂ : Arena}
      {outer : Bindings} {inner : Option Bindings} :
      Finds head first arena (some outer) arena₁ → Finds tail (.list rest) arena₁ inner arena₂ →
      Finds (.cons span head tail) (.list (first :: rest)) arena (inner.map (· ++ outer)) arena₂

namespace Pattern

theorem finds_of_select : ∀ (p : Pattern) {d : Datum} {arena arena' : Arena} {found : Option Bindings},
    p.select d arena = .ok found arena' → p.Finds d arena found arena'
  | .wildcard _, d, arena, arena', found, h => by
    cases h
    exact .wildcard
  | .ident _ _, d, arena, arena', found, h => by
    cases h
    exact .ident
  | .nil _, d, arena, arena', found, h => by
    cases d with
    | list items =>
      cases items with
      | nil =>
        cases h
        exact .nil
      | cons first rest =>
        cases h
        exact .notNil
    | _ => cases h
  | .cons _ head tail, d, arena, arena', found, h => by
    cases d with
    | list items =>
      cases items with
      | nil =>
        cases h
        exact .notCell
      | cons first rest =>
        simp only [select, Eval.toList, pure_bind] at h
        rw [Eval.bind_apply] at h
        cases hhead : head.select first arena with
        | error e arena₁ =>
          rw [hhead] at h
          cases h
        | ok outer arena₁ =>
          rw [hhead] at h
          cases outer with
          | none =>
            cases h
            exact .notHead (head.finds_of_select hhead)
          | some outer =>
            simp only at h
            rw [Eval.bind_apply] at h
            cases htail : tail.select (.list rest) arena₁ with
            | error e arena₂ =>
              rw [htail] at h
              cases h
            | ok inner arena₂ =>
              rw [htail] at h
              cases inner <;> cases h <;> exact .cell (head.finds_of_select hhead) (tail.finds_of_select htail)
    | _ => cases h

variable {p : Pattern} {d : Datum} {arena arena' : Arena} {found : Option Bindings}

/-- Only cells are taken. -/
theorem Finds.only_cells (h : p.Finds d arena found arena') :
    arena'.closures = arena.closures ∧ arena.cells ≤ arena'.cells := by
  induction h with
  | wildcard | nil | notNil | notCell => exact ⟨rfl, Nat.le_refl _⟩
  | ident => exact ⟨rfl, Nat.le_add_right _ _⟩
  | notHead _ ih => exact ih
  | cell _ _ ihhead ihtail => exact ⟨ihtail.1.trans ihhead.1, Nat.le_trans ihhead.2 ihtail.2⟩

/-- A match finds a part for each name, the last name first. -/
theorem Finds.names (h : p.Finds d arena found arena') :
    ∀ b, found = some b → b.map Prod.fst = p.bindings.reverse := by
  induction h with
  | wildcard | nil | ident =>
    intro b hb
    cases hb
    rfl
  | notNil | notCell | notHead => exact nofun
  | cell _ _ ihhead ihtail =>
    intro b hb
    obtain ⟨inner, rfl, rfl⟩ := Option.map_eq_some_iff.1 hb
    rw [List.map_append, ihhead _ rfl, ihtail _ rfl, bindings, List.reverse_append]

end Pattern

/-! ## Frames on an environment -/

namespace Layout

/-- A word stands for an environment with frames on it, the innermost first, that hold these values.
The frames are in cells from `bottom` on, each above the one around it. -/
inductive Frames (L : Layout) (bottom : Nat) (e : Word) : Word → List Datum → Prop
  | none : Frames L bottom e e []
  | frame {a : Nat} {parent value : Word} {d : Datum} {ds : List Datum} : L.PairAt a parent value → bottom ≤ a →
      (parent = e ∨ parent.toNat < a) → L.Represents value d → Frames L bottom e parent ds →
      Frames L bottom e (.ofNat 32 a) (d :: ds)

variable {L L' : Layout} {bottom : Nat} {e w : Word} {ds : List Datum}

theorem Frames.mono (h : L.Frames bottom e w ds) (hext : L.Extends L') : L'.Frames bottom e w ds := by
  induction h with
  | none => exact .none
  | frame ha hbottom hparent hd _ ih => exact .frame (ha.mono hext) hbottom hparent (hd.mono hext) ih

theorem Frames.below_top (h : L.Frames bottom e w ds) : w = e ∨ w.toNat < L.top := by
  cases h with
  | none => exact .inl rfl
  | frame ha =>
    have hle := ha.le_top
    rw [ha.toNat]
    omega

theorem Frames.ne_zero (h : L.Frames bottom e w ds) (he : e ≠ 0#32) : w ≠ 0#32 := by
  cases h with
  | none => exact he
  | frame ha =>
    intro hzero
    have hstart := ha.start_le
    have hnat := ha.toNat
    rw [hzero] at hnat
    simp only [BitVec.toNat_ofNat] at hnat
    omega

/-- Frames on an environment that has frames itself. -/
theorem Frames.append {top : Nat} {v : Word} {outer : List Datum} (h : L.Frames top w v ds)
    (houter : L.Frames bottom e w outer) (htop : bottom ≤ top) (hw : w = e ∨ w.toNat < top) :
    L.Frames bottom e v (ds ++ outer) := by
  induction h with
  | none => exact houter
  | frame ha hbottom hparent hd _ ih =>
    refine .frame ha (Nat.le_trans htop hbottom) ?_ hd ih
    rcases hparent with rfl | hlt
    · exact hw.imp_right fun hlt => Nat.lt_of_lt_of_le hlt hbottom
    · exact .inr hlt

/-- Frames with names extend a scope. -/
theorem Frames.chain {frames : List (Option String)} {env : Bindings} (hchain : L.Chain e frames env)
    (he : e = Word.rootEnv ∨ e.toNat < bottom) {b : Bindings} (h : L.Frames bottom e w (b.map Prod.snd)) :
    L.Chain w (b.map (some ·.1) ++ frames) (b ++ env) := by
  induction b generalizing w with
  | nil =>
    cases h
    exact hchain
  | cons first b ih =>
    obtain ⟨name, d⟩ := first
    cases h with
    | frame ha hbottom hparent hd hrest =>
      refine .named ha ?_ hd (ih hrest)
      rcases hparent with rfl | hlt
      · exact he.imp_right fun hlt => Nat.lt_of_lt_of_le hlt hbottom
      · exact .inr hlt

/-! ## Cells that are taken -/

/-- The layout is what a store with memory of this size holds. -/
structure LiesIn (L : Layout) (limit : Nat) (σ : Store) : Prop where
  memory : σ.memory = L.memory
  used : σ.UsedTo limit L.top

/-- As many cells were added as an evaluation has taken, and none of them is a closure. -/
structure Taken (L : Layout) (arena : Arena) (L' : Layout) (arena' : Arena) : Prop where
  above : L.Extends L'
  places : L'.places = L.places
  cells : L'.top + 8 * arena.cells = L.top + 8 * arena'.cells

theorem Taken.refl (L : Layout) (arena : Arena) : L.Taken arena L arena := ⟨.refl L, rfl, rfl⟩

theorem Taken.trans {L₁ L₂ : Layout} {arena arena₁ arena₂ : Arena} (h : L.Taken arena L₁ arena₁)
    (h' : L₁.Taken arena₁ L₂ arena₂) : L.Taken arena L₂ arena₂ where
  above := h.above.trans h'.above
  places := h'.places.trans h.places
  cells := by
    have hfirst := h.cells
    have hsecond := h'.cells
    omega

theorem LiesIn.addPair {limit : Nat} {σ : Store} (h : L.LiesIn limit σ) (hlimit : limit ≤ 2 ^ 27)
    (hfit : L.top + 8 ≤ limit) (arena : Arena) (x y : Word) :
    ∃ L', L.Taken arena L' { arena with cells := arena.cells + 1 } ∧ L'.PairAt L.top x y ∧
      L'.LiesIn limit (σ.addPair (.ofNat 32 L.top) x y) := by
  have hsize : L.memory.size = limit := by rw [← h.memory, h.used.size]
  refine ⟨L.raise (L.memory.setPair L.top x y) rfl (hsize ▸ hfit) (by omega),
    ⟨extends_raise fun i hi => Memory.byte_setPair_of_lt hi, rfl, ?_⟩, pairAt_raise h.used.start, ?_,
    h.used.place hlimit hfit (.frame x y)⟩
  · simp only [raise]
    omega
  · rw [Store.addPair, h.memory, h.used.toNat]
    rfl

/-- What a matcher leaves: cells, and an environment with the parts that were found, or zero; or it
leaves nothing, because there was no room for the cells. -/
def Matched (L : Layout) (limit : Nat) (arena : Arena) (e : Word) (found : Option Bindings) (arena' : Arena) :
    Option (Word × Store) → Prop
  | some (w, τ) => ∃ L', L.Taken arena L' arena' ∧ L'.LiesIn limit τ ∧
    match found with
    | some b => L'.Frames L.top e w (b.map Prod.snd)
    | none => w = Matchers.failure
  | none => limit + 8 * arena.cells < L.top + 8 * arena'.cells

/-- The inner names are looked for where the outer ones were found. -/
theorem Matched.inner {limit : Nat} {arena arena₁ arena₂ : Arena} {L₁ : Layout} {outer : Bindings}
    {inner : Option Bindings} {r : Option (Word × Store)} (htaken : L.Taken arena L₁ arena₁)
    (houter : L₁.Frames L.top e w (outer.map Prod.snd)) (h : L₁.Matched limit arena₁ w inner arena₂ r) :
    L.Matched limit arena e (inner.map (· ++ outer)) arena₂ r := by
  cases r with
  | none =>
    have hcells := htaken.cells
    simp only [Matched] at h ⊢
    omega
  | some result =>
    obtain ⟨L₂, htaken₂, hσ, hfound⟩ := h
    refine ⟨L₂, htaken.trans htaken₂, hσ, ?_⟩
    cases inner with
    | none => exact hfound
    | some inner =>
      simp only [Option.map_some, List.map_append]
      exact Frames.append hfound (houter.mono htaken₂.above) htaken.above.top_le_top houter.below_top

end Layout

/-! ## Calls of matchers -/

section

variable {ops : FloatOps} {m : Module} {f g : String} {e v : Word} {σ : Store} {r : Option (Word × Store)}

/-- The locals of a matcher at its start. -/
def matcherLocals (e v : Word) (extra : List String) (x : String) : Option Operand :=
  (("env", Operand.word e) :: ("value", .word v) :: extra.map (·, .word 0)).lookup x

@[simp] theorem matcherLocals_env (extra : List String) : matcherLocals e v extra "env" = some (.word e) := rfl
@[simp] theorem matcherLocals_value (extra : List String) : matcherLocals e v extra "value" = some (.word v) := rfl
@[simp] theorem matcherLocals_next : matcherLocals e v [Emit.next] Emit.next = some (.word 0) := rfl

theorem matcher_enter (f : String) (extra : List String) (body : Code) (stk : List Operand) :
    (matcherFunc f (extra.map .word) body).enter (.word v :: .word e :: stk) =
      some (matcherLocals e v extra, stk) := by
  simp [matcherFunc, Local.word, Function.comp_def]
  rfl

/-- Code leaves a word, or there is no room for a cell. -/
def Frame.left (stk : List Operand) (l : String → Option Operand) : Option (Word × Store) → Outcome Frame
  | some (w, τ) => .next ⟨.word w :: stk, l, τ⟩
  | none => .trap .storeOutOfBounds

/-- A function tests a value in an environment: it returns a word, or there is no room for a cell. -/
def Module.Tests (ops : FloatOps) (m : Module) (f : String) (e v : Word) (σ : Store) (r : Option (Word × Store)) : Prop :=
  ∀ stk, m.Answers ops f (.word v :: .word e :: stk) σ
    (match r with
      | some (w, τ) => .next (.word w :: stk, τ)
      | none => .trap .storeOutOfBounds)

theorem Module.Tests.settles (h : m.Tests ops f e v σ r) (stk : List Operand) (l : String → Option Operand) :
    Code.Settles ops m [.call f] ⟨.word v :: .word e :: stk, l, σ⟩ (Frame.left stk l r) := by
  have hcall := Code.Settles.call (s := ⟨.word v :: .word e :: stk, l, σ⟩) (h stk)
  cases r <;> exact hcall

theorem Module.Tests.wildcard (hm : m.Supports .matcher) : m.Tests ops Matchers.wildcard e v σ (some (e, σ)) :=
  fun _ => .of_eq 1 fun _ => invoke_matchWildcard hm

theorem Module.Tests.emptyList (hm : m.Supports .matcher) :
    m.Tests ops Matchers.emptyList e v σ (some (if v = 0#32 then e else Matchers.failure, σ)) :=
  fun _ => .of_eq 2 fun _ => invoke_matchEmpty hm

theorem Module.Tests.identifier (hm : m.Supports .matcher) {a : Word} (ha : σ.globals Heap.top = some a) :
    m.Tests ops Matchers.identifier e v σ
      (if a.toNat + 8 ≤ σ.memory.size then some (a, σ.addPair a e v) else none) := by
  intro stk
  refine .of_eq 4 fun n => (invoke_matchIdent hm ha).trans ?_
  split <;> rfl

/-- A matcher returns what its body leaves. -/
theorem Module.Tests.of_body (extra : List String) {body : Code} {l : String → Option Operand}
    (hf : m.func? f = some (matcherFunc f (extra.map .word) body))
    (h : Code.Settles ops m body ⟨[], matcherLocals e v extra, σ⟩ (Frame.left [] l r)) : m.Tests ops f e v σ r := by
  intro stk
  have hcall := Module.Answers.of_body hf (matcher_enter f extra body stk) h
  cases r with
  | none => exact hcall
  | some result => exact hcall

/-- A matcher that leaves it to one of the library. -/
theorem Module.Tests.matchBy (hf : m.func? f = some (matcherFunc f [] (Emit.matchBy g)))
    (h : m.Tests ops g e v σ r) : m.Tests ops f e v σ r := by
  have hget : Code.Settles ops m [.localGet "env", .localGet "value"] ⟨[], matcherLocals e v [], σ⟩
      (.next ⟨[.word v, .word e], matcherLocals e v [], σ⟩) := .of_eq 0 fun _ => by simp
  exact .of_body [] hf (hget.append (h.settles [] _))

/-- A block runs on a stack of its own. -/
theorem Code.Settles.condWord {c : Word} {yes no : Code} {around : List Operand} {l l' : String → Option Operand}
    (h : Code.Settles ops m (if c ≠ 0#32 then yes else no) ⟨[], l, σ⟩ (Frame.left [] l' r)) :
    Code.Settles ops m [.condWord yes no] ⟨.word c :: around, l, σ⟩ (Frame.left around l' r) := by
  obtain ⟨d, hd⟩ := h
  refine ⟨d, fun n hn => ?_⟩
  have hrun := hd n hn
  by_cases hc : c = 0#32
  · rw [if_neg (not_not.2 hc)] at hrun
    cases r <;> simp [Instr.condWord, hc, hrun, Frame.left]
  · rw [if_pos hc] at hrun
    cases r <;> simp [Instr.condWord, hc, hrun, Frame.left]

section

variable {h t : String}

/-- The matcher of a cell on the empty list. -/
theorem Module.Tests.matchCons_nil (hm : m.Supports .list)
    (hf : m.func? f = some (matcherFunc f [.word Emit.next] (Emit.matchCons h t))) :
    m.Tests ops f e Word.emptyList σ (some (Matchers.failure, σ)) := by
  refine .of_body (l := matcherLocals e Word.emptyList [Emit.next]) [Emit.next] hf ?_
  have htest : Code.Settles ops m [.localGet "value", .call Lists.isEmpty]
      ⟨[], matcherLocals e Word.emptyList [Emit.next], σ⟩
      (.next ⟨[.word 1], matcherLocals e Word.emptyList [Emit.next], σ⟩) :=
    .of_eq 1 fun _ => by simp [invoke_listIsEmpty hm, Word.emptyList, Operand.ofBool]
  refine htest.append (Code.Settles.condWord (c := 1) ?_)
  exact .of_eq 0 fun _ => by simp [Frame.left]

/-- The matcher of a cell on a cell: if the head's matcher returns an environment, then the tail is
tested in it. -/
theorem Module.Tests.matchCons (hm : m.Supports .list)
    (hf : m.func? f = some (matcherFunc f [.word Emit.next] (Emit.matchCons h t))) (hv : v ≠ 0#32) {y : Word}
    (hy : σ.memory.loadWord (v.address + 4) = .ok y) (hhead : m.Tests ops h e y σ r) {k : Option (Word × Store)}
    (htail : ∀ w τ, r = some (w, τ) → w ≠ 0#32 →
      ∃ x, τ.memory.loadWord v.address = .ok x ∧ m.Tests ops t w x τ k) :
    m.Tests ops f e v σ (r.bind fun q => if q.1 = 0#32 then some (Matchers.failure, q.2) else k) := by
  let l := matcherLocals e v [Emit.next]
  have htest : Code.Settles ops m [.localGet "value", .call Lists.isEmpty] ⟨[], l, σ⟩ (.next ⟨[.word 0], l, σ⟩) :=
    .of_eq 1 fun _ => by simp [l, invoke_listIsEmpty hm, hv, Operand.ofBool]
  have hget : Code.Settles ops m [.localGet "env", .localGet "value", .call Lists.head] ⟨[], l, σ⟩
      (.next ⟨[.word y, .word e], l, σ⟩) :=
    .of_eq 2 fun _ => by simp [l, invoke_listHead hm hy]
  have hcall := hhead.settles [] l
  cases r with
  | none =>
    refine .of_body (l := l) [Emit.next] hf (htest.append (Code.Settles.condWord (c := 0) ?_))
    exact hget.append (hcall.append_trap _)
  | some result =>
    obtain ⟨w, τ⟩ := result
    let l' : String → Option Operand := fun x => if x = Emit.next then some (.word w) else l x
    have htee : Code.Settles ops m [.localTee Emit.next] ⟨[.word w], l, τ⟩ (.next ⟨[.word w], l', τ⟩) :=
      .of_eq 0 fun _ => by simp [l, l']
    refine .of_body (l := l') [Emit.next] hf (htest.append (Code.Settles.condWord (c := 0) ?_))
    refine hget.append (Code.Settles.append (a := [.call h]) hcall (htee.append (Code.Settles.condWord ?_)))
    simp only [Option.bind_some]
    by_cases hw : w = 0#32
    · rw [if_neg (not_not.2 hw), if_pos hw]
      exact .of_eq 0 fun _ => by simp [Frame.left]
    · rw [if_pos hw, if_neg hw]
      obtain ⟨x, hx, htests⟩ := htail w τ rfl hw
      have hget' : Code.Settles ops m [.localGet Emit.next, .localGet "value", .call Lists.tail] ⟨[], l', τ⟩
          (.next ⟨[.word x, .word w], l', τ⟩) :=
        .of_eq 2 fun _ => by simp [l, l', Emit.next, invoke_listTail hm hx]
      exact hget'.append (htests.settles [] l')

end

/-- **A matcher does what its pattern says**, in any environment: one case for each end that a match
can come to, of which a match in a cell is the one with two calls. -/
theorem Pattern.Finds.tests (ops : FloatOps) {limit : Nat} (hm : m.Supports .matcher) (hlimit : limit ≤ 2 ^ 27)
    {p : Pattern} {d : Datum} {arena arena' : Arena} {found : Option Bindings} (h : p.Finds d arena found arena') :
    ∀ {f : String} {L : Layout} {σ : Store} {e v : Word}, p.Matches m f → L.LiesIn limit σ → e ≠ 0#32 →
      L.Represents v d → ∃ r, m.Tests ops f e v σ r ∧ L.Matched limit arena e found arena' r := by
  have hlist := hm.of_matcher.1
  induction h with
  | wildcard =>
    intro f L σ e v hp hσ he hd
    exact ⟨_, .matchBy hp (.wildcard hm), L, .refl L _, hσ, .none⟩
  | @ident _ name d arena =>
    intro f L σ e v hp hσ he hd
    have htests : m.Tests ops Matchers.identifier e v σ _ := .identifier hm hσ.used.top
    rw [hσ.used.toNat, hσ.used.size] at htests
    refine ⟨_, .matchBy hp htests, ?_⟩
    by_cases hfit : L.top + 8 ≤ limit
    · obtain ⟨L', htaken, hpair, hσ'⟩ := hσ.addPair hlimit hfit arena e v
      rw [if_pos hfit]
      exact ⟨L', htaken, hσ', .frame hpair (Nat.le_refl _) (.inl rfl) (hd.mono htaken.above) .none⟩
    · rw [if_neg hfit]
      simp only [Layout.Matched]
      omega
  | nil =>
    intro f L σ e v hp hσ he hd
    cases hd
    exact ⟨_, .matchBy hp (.emptyList hm), L, .refl L _, hσ, .none⟩
  | notNil =>
    intro f L σ e v hp hσ he hd
    refine ⟨_, .matchBy hp (.emptyList hm), L, .refl L _, hσ, if_neg ?_⟩
    cases hd with
    | cons _ ha => exact ha.boxed_ne_zero .list
  | notCell =>
    intro f L σ e v hp hσ he hd
    obtain ⟨h, t, -, -, hf⟩ := hp
    cases hd
    exact ⟨_, .matchCons_nil hlist hf, L, .refl L _, hσ, rfl⟩
  | notHead _ ih =>
    intro f L σ e v hp hσ he hd
    obtain ⟨h, t, hhead, -, hf⟩ := hp
    cases hd with
    | cons _ ha hy _ =>
      obtain ⟨r, htests, hmatched⟩ := ih hhead hσ he hy
      refine ⟨_, .matchCons (k := none) hlist hf (ha.boxed_ne_zero .list) (ha.unbox hσ.memory).2 htests ?_, ?_⟩
      · rintro w τ rfl hw
        obtain ⟨_, _, _, hzero⟩ := hmatched
        exact absurd hzero hw
      · cases r with
        | none => exact hmatched
        | some result =>
          obtain ⟨L', htaken, hσ', hzero⟩ := hmatched
          simp only [Option.bind_some, if_pos (show result.1 = 0#32 from hzero)]
          exact ⟨L', htaken, hσ', rfl⟩
  | cell _ htail ihhead ihtail =>
    intro f L σ e v hp hσ he hd
    obtain ⟨h, t, hhead, htailp, hf⟩ := hp
    cases hd with
    | cons _ ha hy hx =>
      obtain ⟨r, htests, hmatched⟩ := ihhead hhead hσ he hy
      have hbox := ha.boxed_ne_zero .list
      have hload := (ha.unbox (t := .list) hσ.memory).2
      cases r with
      | none =>
        -- no cell comes back, so there is no room for those of the tail either
        refine ⟨none, .matchCons (k := none) hlist hf hbox hload htests nofun, ?_⟩
        have hcells := htail.only_cells.2
        simp only [Layout.Matched] at hmatched ⊢
        omega
      | some result =>
        obtain ⟨w, σ₁⟩ := result
        obtain ⟨L₁, htaken, hσ₁, houter⟩ := hmatched
        have hw := houter.ne_zero he
        obtain ⟨r', htests', hmatched'⟩ := ihtail htailp hσ₁ hw (hx.mono htaken.above)
        have htests₂ := Module.Tests.matchCons (k := r') hlist hf hbox hload htests fun w' τ heq _ => by
          cases heq
          exact ⟨_, ((ha.mono htaken.above).unbox hσ₁.memory).1, htests'⟩
        simp only [Option.bind_some, if_neg hw] at htests₂
        exact ⟨r', htests₂, hmatched'.inner htaken houter⟩

end

end WasmBackend
