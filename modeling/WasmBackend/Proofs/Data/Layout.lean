/-
How values lie in memory. A layout is a memory with the part of it that is in
use and the places of the closures in it; `Represents` says which words stand
for which values there, and `Chain` which words stand for which scopes. Both
survive whatever is added above (`Represents.mono`, `Chain.mono`).
-/
import WasmBackend.Proofs.Data.Evaluation
import WasmBackend.Proofs.Data.Words
import WasmBackend.Proofs.Machine.Memory

namespace WasmBackend

/-- A memory that is in use up to `top`, where closure `i` of an arena is at `places[i]`. -/
structure Layout where
  memory : Memory
  top : Nat
  places : List Nat
  /-- Whether there are boxed floats. -/
  floats : Bool
  /-- Whether there are list cells. -/
  lists : Bool
  top_le_size : top ≤ memory.size
  top_le : top ≤ 2 ^ 27
  place_lt : ∀ a ∈ places, 4 ≤ a ∧ a + 8 ≤ top
  places_nodup : places.Nodup

namespace Layout

/-- Two words are next to each other, in use, at an address that can be handed out. -/
structure PairAt (L : Layout) (a : Nat) (x y : Word) : Prop where
  start_le : 4 ≤ a
  le_top : a + 8 ≤ L.top
  first : L.memory.loadWord a = .ok x
  second : L.memory.loadWord (a + 4) = .ok y

structure DoubleAt (L : Layout) (a : Nat) (x : Double) : Prop where
  start_le : 4 ≤ a
  le_top : a + 8 ≤ L.top
  value : L.memory.loadDouble a = .ok x

/-- The word that stands for a value. -/
inductive Represents (L : Layout) : Word → Datum → Prop
  | int (n : BitVec 31) : Represents L (.pack n) (.int n)
  | bool (b : Bool) : Represents L (.bool b) (.bool b)
  | float {a : Nat} {x : Double} : L.floats = true → L.DoubleAt a x →
      Represents L (.boxed (.ofNat 32 a) .float) (.float x)
  | nil : Represents L Word.emptyList (.list [])
  | cons {a : Nat} {tail head : Word} {d : Datum} {ds : List Datum} : L.lists = true →
      L.PairAt a tail head → Represents L head d → Represents L tail (.list ds) →
      Represents L (.boxed (.ofNat 32 a) .list) (.list (d :: ds))
  | closure {a i : Nat} : L.places[i]? = some a →
      Represents L (.boxed (.ofNat 32 a) .closure) (.closure i)

/-- The word that stands for an environment: its frames, the innermost first, and the values of
those that have names. A frame is made after the one around it, so it is above it. -/
inductive Chain (L : Layout) : Word → List (Option String) → Bindings → Prop
  | root : Chain L Word.rootEnv [] []
  | named {a : Nat} {parent value : Word} {x : String} {d : Datum} {frames : List (Option String)}
      {env : Bindings} : L.PairAt a parent value → (parent = Word.rootEnv ∨ parent.toNat < a) →
      L.Represents value d → Chain L parent frames env →
      Chain L (.ofNat 32 a) (some x :: frames) ((x, d) :: env)
  | hidden {a : Nat} {parent value : Word} {frames : List (Option String)} {env : Bindings} :
      L.PairAt a parent value → (parent = Word.rootEnv ∨ parent.toNat < a) →
      Chain L parent frames env → Chain L (.ofNat 32 a) (none :: frames) env

/-- What is added to a layout leaves alone what was in use. -/
structure Extends (L L' : Layout) : Prop where
  size : L'.memory.size = L.memory.size
  byte : ∀ i, i < L.top → L'.memory.byte i = L.memory.byte i
  top_le_top : L.top ≤ L'.top
  places : L.places <+: L'.places
  floats : L'.floats = L.floats
  lists : L'.lists = L.lists

theorem Extends.refl (L : Layout) : Extends L L :=
  ⟨rfl, fun _ _ => rfl, Nat.le_refl _, List.prefix_refl _, rfl, rfl⟩

theorem Extends.trans {L₁ L₂ L₃ : Layout} (h : Extends L₁ L₂) (h' : Extends L₂ L₃) : Extends L₁ L₃ where
  size := h'.size.trans h.size
  byte i hi := (h'.byte i (Nat.lt_of_lt_of_le hi h.top_le_top)).trans (h.byte i hi)
  top_le_top := Nat.le_trans h.top_le_top h'.top_le_top
  places := h.places.trans h'.places
  floats := h'.floats.trans h.floats
  lists := h'.lists.trans h.lists

section

variable {L L' : Layout}

theorem Extends.place {i a : Nat} (h : Extends L L') (hi : L.places[i]? = some a) :
    L'.places[i]? = some a := by
  obtain ⟨rest, hrest⟩ := h.places
  obtain ⟨hlt, -⟩ := List.getElem?_eq_some_iff.1 hi
  rw [← hrest, List.getElem?_append_left hlt, hi]

theorem PairAt.mono {a : Nat} {x y : Word} (h : L.PairAt a x y) (he : Extends L L') : L'.PairAt a x y where
  start_le := h.start_le
  le_top := Nat.le_trans h.le_top he.top_le_top
  first := by
    rw [← h.first]
    exact Memory.loadWord_congr he.size fun i _ hi => he.byte i (by have := h.le_top; omega)
  second := by
    rw [← h.second]
    exact Memory.loadWord_congr he.size fun i _ hi => he.byte i (by have := h.le_top; omega)

theorem DoubleAt.mono {a : Nat} {x : Double} (h : L.DoubleAt a x) (he : Extends L L') : L'.DoubleAt a x where
  start_le := h.start_le
  le_top := Nat.le_trans h.le_top he.top_le_top
  value := by
    rw [← h.value]
    exact Memory.loadDouble_congr he.size fun i _ hi => he.byte i (by have := h.le_top; omega)

/-- **What a word stands for stays** when more is added. -/
theorem Represents.mono {w : Word} {d : Datum} (h : L.Represents w d) (he : Extends L L') :
    L'.Represents w d := by
  induction h with
  | int n => exact .int n
  | bool b => exact .bool b
  | float hf ha => exact .float (he.floats.trans hf) (ha.mono he)
  | nil => exact .nil
  | cons hl ha _ _ ihd ihds => exact .cons (he.lists.trans hl) (ha.mono he) ihd ihds
  | closure hp => exact .closure (he.place hp)

theorem Chain.mono {w : Word} {frames : List (Option String)} {env : Bindings}
    (h : L.Chain w frames env) (he : Extends L L') : L'.Chain w frames env := by
  induction h with
  | root => exact .root
  | named ha hp hd _ ih => exact .named (ha.mono he) hp (hd.mono he) ih
  | hidden ha hp _ ih => exact .hidden (ha.mono he) hp ih

theorem PairAt.lt {a : Nat} {x y : Word} (h : L.PairAt a x y) : a < 2 ^ 27 := by
  have := h.le_top
  have := L.top_le
  omega

theorem DoubleAt.lt {a : Nat} {x : Double} (h : L.DoubleAt a x) : a < 2 ^ 27 := by
  have := h.le_top
  have := L.top_le
  omega

theorem place_lt_pow {i a : Nat} (h : L.places[i]? = some a) : a < 2 ^ 27 := by
  have := L.place_lt a (List.mem_of_getElem? h)
  have := L.top_le
  omega

theorem PairAt.toNat {a : Nat} {x y : Word} (h : L.PairAt a x y) : (BitVec.ofNat 32 a).toNat = a := by
  have := h.lt
  rw [BitVec.toNat_ofNat]
  omega

/-- Frames lie on top of each other, so there are no more of them than addresses. -/
theorem Chain.length_le {w : Word} {frames : List (Option String)} {env : Bindings}
    (h : L.Chain w frames env) :
    (w = Word.rootEnv ∧ frames = []) ∨ (frames.length ≤ w.toNat ∧ w.toNat < 2 ^ 27) := by
  have step : ∀ {a : Nat} {parent value : Word} {rest : List (Option String)} (frame : Option String),
      L.PairAt a parent value → (parent = Word.rootEnv ∨ parent.toNat < a) →
      (parent = Word.rootEnv ∧ rest = []) ∨ (rest.length ≤ parent.toNat ∧ parent.toNat < 2 ^ 27) →
      (frame :: rest).length ≤ (BitVec.ofNat 32 a).toNat ∧ (BitVec.ofNat 32 a).toNat < 2 ^ 27 := by
    intro a parent value rest frame ha hp ih
    rw [ha.toNat, List.length_cons]
    have := ha.start_le
    have := ha.lt
    rcases ih with ⟨-, rfl⟩ | ⟨hl, hlt⟩
    · simp only [List.length_nil]
      omega
    · rcases hp with rfl | hp
      · exact absurd hlt (by decide)
      · omega
  induction h with
  | root => exact .inl ⟨rfl, rfl⟩
  | named ha hp _ _ ih => exact .inr (step _ ha hp ih)
  | hidden ha hp _ ih => exact .inr (step _ ha hp ih)

/-- No environment is the word that says that a match failed. -/
theorem Chain.ne_zero {w : Word} {frames : List (Option String)} {env : Bindings}
    (h : L.Chain w frames env) : w ≠ 0#32 := by
  rintro rfl
  rcases h.length_le with ⟨hw, -⟩ | ⟨hl, -⟩
  · exact absurd hw (by decide)
  · generalize hw : (0#32 : Word) = w at h
    cases h with
    | root => exact absurd hw (by decide)
    | named => simp at hl
    | hidden => simp at hl

end

/-! ## More cells -/

/-- One more cell is in use, and nothing below it has changed. -/
def raise (L : Layout) (memory : Memory) (hsize : memory.size = L.memory.size)
    (hfit : L.top + 8 ≤ L.memory.size) (hlim : L.top + 8 ≤ 2 ^ 27) : Layout where
  memory := memory
  top := L.top + 8
  places := L.places
  floats := L.floats
  lists := L.lists
  top_le_size := hsize ▸ hfit
  top_le := hlim
  place_lt a ha := ⟨(L.place_lt a ha).1, Nat.le_trans (L.place_lt a ha).2 (Nat.le_add_right _ _)⟩
  places_nodup := L.places_nodup

/-- A closure gets a place that no other one has. -/
def addPlace (L : Layout) (a : Nat) (ha : 4 ≤ a ∧ a + 8 ≤ L.top) (hnew : a ∉ L.places) : Layout :=
  { L with
    places := L.places ++ [a]
    place_lt := fun b hb => by
      rcases List.mem_append.1 hb with hb | hb
      · exact L.place_lt b hb
      · rwa [List.mem_singleton.1 hb]
    places_nodup := by
      rw [List.nodup_append]
      refine ⟨L.places_nodup, by simp, fun b hb c hc h => ?_⟩
      rw [List.mem_singleton.1 hc] at h
      exact hnew (h ▸ hb) }

variable {L : Layout} {memory : Memory} {hsize : memory.size = L.memory.size}
  {hfit : L.top + 8 ≤ L.memory.size} {hlim : L.top + 8 ≤ 2 ^ 27}

theorem extends_raise (h : ∀ i, i < L.top → memory.byte i = L.memory.byte i) :
    L.Extends (L.raise memory hsize hfit hlim) :=
  ⟨hsize, h, Nat.le_add_right _ _, List.prefix_refl _, rfl, rfl⟩

theorem extends_addPlace {a : Nat} {ha : 4 ≤ a ∧ a + 8 ≤ L.top} {hnew : a ∉ L.places} :
    L.Extends (L.addPlace a ha hnew) :=
  ⟨rfl, fun _ _ => rfl, Nat.le_refl _, List.prefix_append _ _, rfl, rfl⟩

theorem pairAt_raise {x y : Word} (h4 : 4 ≤ L.top) {hsize : (L.memory.setPair L.top x y).size = L.memory.size} :
    (L.raise (L.memory.setPair L.top x y) hsize hfit hlim).PairAt L.top x y :=
  ⟨h4, Nat.le_refl _, Memory.loadWord_setPair_first hfit, Memory.loadWord_setPair_second hfit⟩

theorem doubleAt_raise {x : Double} (h4 : 4 ≤ L.top)
    {hsize : (L.memory.setNumber L.top 8 x.toNat).size = L.memory.size} :
    (L.raise (L.memory.setNumber L.top 8 x.toNat) hsize hfit hlim).DoubleAt L.top x :=
  ⟨h4, Nat.le_refl _, Memory.loadDouble_setNumber_self hfit⟩

end Layout

end WasmBackend
