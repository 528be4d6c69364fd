/-
A name is looked up where its frame is (`lookup_agrees`). An environment is a
chain of frames, one for each frame in scope; how far out a name is, is counted
in the scopes, and the library's code goes out as many frames in memory.

Frames are made in any memory that words have addresses for, with other cells
made between and after them. A frame is above the frames around it
(`Memory.Links`), so that a chain has less frames than there are words, and
nothing that is made later changes one (`Links.mono`).
-/
import WasmBackend.Proofs.Heap.RoundTrip

namespace WasmBackend

open Library

/-- A chain of frames that were made one inside of the other, with the values in them, the innermost
first. Whatever else is made between and after them, the chain is still there. -/
inductive Module.Chained (ops : FloatOps) (m : Module) : Store → Word → List Word → Prop
  | outermost (w : Word) : Chained ops m m.initial w []
  | frame {σ τ : Store} {parent value w : Word} {values : List Word} : Chained ops m σ parent values →
      m.Answers ops Env.new [.word value, .word parent] σ (.next ([.word w], τ)) →
      Chained ops m τ w (value :: values)
  | later {σ τ : Store} {w made : Word} {values : List Word} (c : Alloc) : Chained ops m σ w values →
      m.Answers ops c.function c.arguments σ (.next ([.word made], τ)) → Chained ops m τ w values

/-! ## Frames in memory -/

/-- The frames of a chain are in memory below an address, each below those inside of it. -/
inductive Memory.Links (mem : Memory) : Nat → Word → List Word → Prop
  | outermost {top : Nat} (w : Word) : Links mem top w []
  | frame {top a : Nat} {parent value : Word} {values : List Word} : a + 8 ≤ top → mem.loadWord a = .ok parent →
      mem.loadWord (a + 4) = .ok value → Links mem a parent values → Links mem top (.ofNat 32 a) (value :: values)

namespace Memory.Links

variable {mem mem' : Memory} {top top' : Nat} {w : Word} {values : List Word}

/-- What is made above a chain leaves it as it is. -/
theorem mono (h : mem.Links top w values) (hsize : mem'.size = mem.size)
    (hbytes : ∀ i < top, mem'.byte i = mem.byte i) (htop : top ≤ top') : mem'.Links top' w values := by
  induction h generalizing top' with
  | outermost w => exact .outermost w
  | @frame top a parent value values hle hparent hvalue _ ih =>
    have hload (b : Nat) (hb : b + 4 ≤ a + 8) : mem'.loadWord b = mem.loadWord b :=
      Memory.loadWord_congr hsize fun i _ hi => hbytes i (by omega)
    refine .frame (by omega) ?_ ?_ (ih (fun i hi => hbytes i (by omega)) (Nat.le_refl a))
    · rw [hload a (by omega), hparent]
    · rw [hload (a + 4) (by omega), hvalue]

theorem length_le (h : mem.Links top w values) : 8 * values.length ≤ top := by
  induction h with
  | outermost => exact Nat.zero_le _
  | frame hle _ _ _ ih =>
    rw [List.length_cons]
    omega

/-- **Going out along a chain**, by as many frames as are asked for. -/
theorem get (ops : FloatOps) {m : Module} (hm : m.Supports .environment) {σ : Store} {k : Nat} {value : Word}
    (h : σ.memory.Links top w values) (htop : top ≤ 2 ^ 32) (hk : values[k]? = some value) :
    ∀ n stk, m.invoke ops (n + k + 2) Env.get (.word (.ofNat 32 k) :: .word w :: stk) σ =
      .next (.word value :: stk, σ) := by
  induction h generalizing k with
  | outermost => simp at hk
  | @frame top a parent found values hle hparent hvalue hrest ih =>
    intro n stk
    have haddress : (BitVec.ofNat 32 a).toNat = a := Nat.mod_eq_of_lt (by omega)
    cases k with
    | zero =>
      cases hk
      exact invoke_envGet_zero hm (haddress.symm ▸ hvalue)
    | succ k =>
      have hlength := hrest.length_le
      have hlt : k < values.length := Nat.lt_of_succ_lt_succ (List.getElem?_eq_some_iff.1 hk).1
      exact invoke_envGet_further (n := n + k + 1) hm (haddress.symm ▸ hparent) (by omega) (ih (by omega) hk n [])

end Memory.Links

/-! ## Making frames -/

variable {ops : FloatOps} {m : Module} {σ τ : Store} {limit a : Nat} {w : Word} {values : List Word}

/-- Cells of eight bytes are in use up to an address. -/
structure Store.CellsTo (σ : Store) (limit a : Nat) : Prop extends σ.UsedTo limit a where
  aligned : a % 8 = 4

/-- A cell is made above all that is in use. As the end of the heap is never at the end of memory, it
does not wrap around. -/
theorem Store.CellsTo.make (hm : ∀ f, m.Supports f) (hlimit : limit ≤ 2 ^ 32) (hσ : σ.CellsTo limit a) {c : Alloc}
    (h : m.Answers ops c.function c.arguments σ (.next ([.word w], τ))) :
    w = c.word (.ofNat 32 a) ∧ τ.CellsTo limit (a + 8) ∧ c.Stored τ.memory a ∧
      ∀ i < a, τ.memory.byte i = σ.memory.byte i := by
  obtain ⟨hfit, rfl, rfl⟩ := Alloc.made hm hσ.toUsedTo h
  have haligned := hσ.aligned
  refine ⟨rfl, ⟨hσ.place_of_lt (by omega) c, by omega⟩, (hσ.stored_place hfit c).2.2, fun i hi => ?_⟩
  exact Alloc.byte_place (hσ.toNat.symm ▸ hi)

/-- **A chain is in memory**, below the end of the heap. -/
theorem Module.Chained.links (hm : ∀ f, m.Supports f) (hlimit : limit ≤ 2 ^ 32)
    (hstart : m.initial.CellsTo limit Word.heapStart.toNat) (h : m.Chained ops σ w values) :
    ∃ a, σ.CellsTo limit a ∧ σ.memory.Links a w values := by
  induction h with
  | outermost w => exact ⟨_, hstart, .outermost w⟩
  | @frame σ τ parent value w values _ hanswers ih =>
    obtain ⟨a, hσ, hlinks⟩ := ih
    obtain ⟨rfl, hτ, ⟨hparent, hvalue⟩, hbytes⟩ := hσ.make (c := .frame parent value) hm hlimit hanswers
    have hsize : τ.memory.size = σ.memory.size := hτ.size.trans hσ.size.symm
    exact ⟨a + 8, hτ, .frame (Nat.le_refl _) hparent hvalue (hlinks.mono hsize hbytes (Nat.le_refl a))⟩
  | @later σ τ w made values c _ hanswers ih =>
    obtain ⟨a, hσ, hlinks⟩ := ih
    obtain ⟨-, hτ, -, hbytes⟩ := hσ.make hm hlimit hanswers
    exact ⟨a + 8, hτ, hlinks.mono (hτ.size.trans hσ.size.symm) hbytes (by omega)⟩

/-- Where there is room, every chain can be made. -/
theorem Module.exists_chained (ops : FloatOps) (hm : ∀ f, m.Supports f) (hlimit : limit ≤ 2 ^ 32)
    (hstart : m.initial.CellsTo limit Word.heapStart.toNat) (outermost : Word) (values : List Word)
    (hroom : Word.heapStart.toNat + 8 * values.length ≤ limit) :
    ∃ σ w, m.Chained ops σ w values ∧ σ.CellsTo limit (Word.heapStart.toNat + 8 * values.length) := by
  induction values with
  | nil => exact ⟨_, outermost, .outermost outermost, hstart⟩
  | cons value values ih =>
    rw [List.length_cons] at hroom
    obtain ⟨σ, parent, hchain, hσ⟩ := ih (by omega)
    have hanswers := Alloc.answers_of_fits ops hm hσ.toUsedTo (by omega) (.frame parent value)
    obtain ⟨-, hτ, -⟩ := hσ.make hm hlimit hanswers
    exact ⟨_, _, hchain.frame hanswers, hτ⟩

/-! ## Scopes -/

namespace Scopes

variable {name : String}

/-- The innermost frame of a name is as far out as its distance. -/
theorem lookup_distance? {frames : List (Option String)} {k : Nat} (hlength : values.length = frames.length)
    (hk : (⟨frames⟩ : Scopes).distance? name = some k) :
    ∃ value, values[k]? = some value ∧ (frames.zip values).lookup (some name) = some value := by
  induction frames generalizing values k with
  | nil => simp [distance?] at hk
  | cons frame frames ih =>
    obtain ⟨value, values, rfl⟩ := List.exists_cons_of_length_eq_add_one hlength
    rw [distance?, List.findIdx?_cons] at hk
    by_cases hframe : frame = some name
    · subst hframe
      simp only [decide_true, if_true, Option.some.injEq] at hk
      subst hk
      exact ⟨value, rfl, by simp⟩
    · simp only [hframe, decide_false, Bool.false_eq_true, if_false, Option.map_eq_some_iff] at hk
      obtain ⟨j, hj, rfl⟩ := hk
      obtain ⟨found, hfound, hlookup⟩ := ih (Nat.succ.inj hlength) hj
      have hne : (some name == frame) = false := beq_false_of_ne (Ne.symm hframe)
      exact ⟨found, hfound, by simp only [List.zip_cons_cons, List.lookup, hne, hlookup]⟩

end Scopes

theorem cellsTo_initial (pages : Nat) : (⟨library pages Feature.all⟩ : Module).initial.CellsTo
    (pages * Module.pageSize) Word.heapStart.toNat where
  top := rfl
  size := rfl
  start := Nat.le_refl _
  lt := by decide
  aligned := rfl

/-- **A name is looked up where its frame is.** In the library with as many pages as a memory can have, for
any scopes and any chain with a frame for each of theirs: a name has no distance if no frame bears it,
and otherwise going out by its distance ends with the value of the innermost frame that does. -/
theorem lookup_agrees (ops : FloatOps) (pages : Nat) (hpages : pages ≤ 65536) :
    ∃ m, (Library.whole pages).link [] = .ok m ∧ ∀ σ w values, m.Chained ops σ w values →
      ∀ scopes : Scopes, values.length = scopes.depth → ∀ name,
        (scopes.distance? name = none ↔ some name ∉ scopes.frames) ∧
        ∀ k, scopes.distance? name = some k → ∃ value,
          (scopes.frames.zip values).lookup (some name) = some value ∧
            m.Answers ops Env.get [.word (.ofNat 32 k), .word w] σ (.next ([.word value], σ)) := by
  have hlimit : pages * Module.pageSize ≤ 2 ^ 32 := by
    rw [Module.pageSize]
    omega
  have hm := supports_library pages
  refine ⟨_, link_whole pages, fun σ w values hchain scopes hdepth name =>
    ⟨Scopes.distance?_eq_none, fun k hk => ?_⟩⟩
  obtain ⟨a, hσ, hlinks⟩ := hchain.links hm hlimit (cellsTo_initial pages)
  obtain ⟨value, hvalue, hlookup⟩ := Scopes.lookup_distance? hdepth hk
  have hget := hlinks.get ops (hm .environment) (Nat.le_of_lt hσ.lt) hvalue
  exact ⟨value, hlookup, .of_eq (k + 2) fun n => by rw [← Nat.add_assoc]; exact hget n []⟩

/-- A name that is bound twice, around and inside of a frame without a name, is found in the inner frame, and
the name around both in the outermost one. -/
theorem lookup_agrees_shadowed :
    let scopes : Scopes := ⟨[some "x", none, some "x", some "f"]⟩
    ∃ m, (Library.whole 65536).link [] = .ok m ∧ ∃ σ w, m.Chained default σ w [7, 5, 3, 1] ∧
      m.Answers default Env.get [.word 0, .word w] σ (.next ([.word 7], σ)) ∧
      m.Answers default Env.get [.word 3, .word w] σ (.next ([.word 1], σ)) ∧ scopes.distance? "y" = none := by
  intro scopes
  obtain ⟨m, hlink, hlookup⟩ := lookup_agrees default 65536 (Nat.le_refl _)
  cases hlink.symm.trans (link_whole 65536)
  obtain ⟨σ, w, hchain, -⟩ := Module.exists_chained default (supports_library 65536) (Nat.le_refl _)
    (cellsTo_initial 65536) Word.rootEnv [7, 5, 3, 1] (by decide)
  obtain ⟨value, hvalue, hx⟩ := (hlookup σ w _ hchain scopes rfl "x").2 0 rfl
  obtain ⟨value', hvalue', hf⟩ := (hlookup σ w _ hchain scopes rfl "f").2 3 rfl
  cases hvalue
  cases hvalue'
  exact ⟨_, hlink, σ, w, hchain, hx, hf, (hlookup σ w _ hchain scopes rfl "y").1.2 (by decide)⟩

end WasmBackend
