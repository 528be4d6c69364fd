/-
The heap under any sequence of calls that allocate (`heap_discipline`). Each
call puts one cell of eight bytes where the one before it ended, until the
next cell would not fit into memory. Cells do not overlap, nothing that is
made later changes one, and what went into a cell is read back from it in
every later store.

A run of calls is a relation (`Module.Runs`), as calls are known by their
outcome only. What one call does is said once (`Alloc.answers`), and runs are
followed by induction on the calls.
-/
import WasmBackend.Proofs.Assembly.Linking
import WasmBackend.Proofs.Data.Readback

namespace WasmBackend

open Library

/-- A call that makes something on the heap, with its arguments. -/
inductive Alloc where
  | pair (first second : Word)
  | frame (parent value : Word)
  | cell (tail head : Word)
  | closure (env index : Word)
  | float (value : Double)
deriving DecidableEq, Repr

namespace Alloc

def function : Alloc → String
  | pair .. => Pair.new
  | frame .. => Env.new
  | cell .. => Lists.push
  | closure .. => Closures.new
  | float _ => Floats.new

/-- The arguments, the last one first. -/
def arguments : Alloc → List Operand
  | pair x y | frame x y | cell x y | closure x y => [.word y, .word x]
  | float x => [.double x]

/-- The tag of the word that is returned. Pairs and frames are returned as plain addresses. -/
def tag? : Alloc → Option Tag
  | pair .. | frame .. => none
  | cell .. => some .list
  | closure .. => some .closure
  | float _ => some .float

/-- The word for what is made at an address. -/
def word (c : Alloc) (a : Word) : Word :=
  match c.tag? with
  | none => a
  | some t => .boxed a t

/-- The address that a word leads to. -/
def address (c : Alloc) (w : Word) : Nat :=
  match c.tag? with
  | none => w.toNat
  | some _ => w.address

/-- The functions that read parts back: the arguments they take on top of the word, and the part. -/
def readers : Alloc → List (String × List Operand × Operand)
  | pair x y => [(Pair.first, [], .word x), (Pair.second, [], .word y)]
  | frame x y => [(Env.parent, [], .word x), (Env.get, [.word 0], .word y)]
  | cell x y => [(Lists.tail, [], .word x), (Lists.head, [], .word y)]
  | closure x y => [(Closures.env, [], .word x), (Closures.index, [], .word y)]
  | float x => [(Floats.get, [], .double x)]

/-- The store after something is made at an address. -/
def place (c : Alloc) (σ : Store) (a : Word) : Store :=
  match c with
  | pair x y | frame x y | cell x y | closure x y => σ.addPair a x y
  | float x => σ.addDouble a x

/-- What went into a cell is in memory at its address. -/
def Stored (c : Alloc) (m : Memory) (a : Nat) : Prop :=
  match c with
  | pair x y | frame x y | cell x y | closure x y => m.loadWord a = .ok x ∧ m.loadWord (a + 4) = .ok y
  | float x => m.loadDouble a = .ok x

end Alloc

/-- Something that a call made: the word it returned, and the store it left. -/
structure Cell where
  call : Alloc
  word : Word
  store : Store

namespace Cell

def address (c : Cell) : Nat := c.call.address c.word

/-- A cell is inside memory, above what is never handed out and below the top of the heap, and the
word for it gives back its tag and its address. -/
structure Placed (limit : Nat) (c : Cell) : Prop where
  low : Word.heapStart.toNat ≤ c.address
  high : c.address + 8 ≤ limit
  top : (c.store.globals Heap.top).map BitVec.toNat = some (c.address + 8)
  word : c.word = c.call.word (.ofNat 32 c.address)
  tagged : ∀ t, c.call.tag? = some t →
    c.word = .boxed (.ofNat 32 c.address) t ∧ 0 < c.word.toInt ∧ Tag.of? c.word = some t ∧ c.word.address = c.address

/-- Every part of a cell is read back in a store. -/
def Readable (ops : FloatOps) (m : Module) (σ : Store) (c : Cell) : Prop :=
  ∀ r ∈ c.call.readers, m.Answers ops r.1 (r.2.1 ++ [.word c.word]) σ (.next ([r.2.2], σ))

/-- A later cell is above an earlier one, and making it left the earlier one as it was. -/
structure Precedes (c d : Cell) : Prop where
  disjoint : c.address + 8 ≤ d.address
  kept : ∀ i, c.address ≤ i → i < c.address + 8 → d.store.memory.byte i = c.store.memory.byte i

end Cell

/-- Calls one after the other, up to the first trap, and what they make. -/
inductive Module.Runs (ops : FloatOps) (m : Module) : Store → List Alloc → List Cell → Prop
  | nil {σ : Store} : Runs ops m σ [] []
  | trapped {σ : Store} {c : Alloc} {calls : List Alloc} {t : Trap} :
      m.Answers ops c.function c.arguments σ (.trap t) → Runs ops m σ (c :: calls) []
  | made {σ σ' : Store} {c : Alloc} {calls : List Alloc} {w : Word} {rest : List Cell} :
      m.Answers ops c.function c.arguments σ (.next ([.word w], σ')) → Runs ops m σ' calls rest →
      Runs ops m σ (c :: calls) (⟨c, w, σ'⟩ :: rest)

variable {ops : FloatOps} {m : Module} {c : Alloc} {σ : Store}

/-! ## One call -/

namespace Alloc

/-- **What a call does**: it makes a cell at the top of the heap, if there is room for it. -/
theorem answers (ops : FloatOps) (hm : ∀ f, m.Supports f) {a : Word} (ha : σ.globals Heap.top = some a) (c : Alloc) :
    m.Answers ops c.function c.arguments σ
      (if a.toNat + 8 ≤ σ.memory.size then .next ([.word (c.word a)], c.place σ a) else .trap .storeOutOfBounds) := by
  cases c with
  | pair x y => exact .of_eq 2 fun n => invoke_pairNew (hm _) ha
  | frame x y => exact .of_eq 3 fun n => invoke_envNew (hm _) ha
  | cell x y => exact .of_eq 3 fun n => invoke_listPush (hm _) ha
  | closure x y => exact .of_eq 3 fun n => invoke_closureNew (hm _) ha
  | float x => exact .of_eq 2 fun n => invoke_floatNew (hm _) ha

@[simp] theorem top_place (c : Alloc) (σ : Store) (a : Word) : (c.place σ a).globals Heap.top = some (a + 8) := by
  cases c <;> simp [place, Store.addPair, Store.addDouble, Store.setTop]

@[simp] theorem size_place (c : Alloc) (σ : Store) (a : Word) : (c.place σ a).memory.size = σ.memory.size := by
  cases c <;> rfl

/-- Nothing below a new cell is changed. -/
theorem byte_place {a : Word} {i : Nat} (h : i < a.toNat) : (c.place σ a).memory.byte i = σ.memory.byte i := by
  cases c with
  | float x => exact Memory.byte_setNumber_of_lt h
  | _ x y => exact Memory.byte_setPair_of_lt h

theorem stored_place {a : Word} (h : a.toNat + 8 ≤ σ.memory.size) : c.Stored (c.place σ a).memory a.toNat := by
  cases c with
  | float x => exact Memory.loadDouble_setNumber_self h
  | _ x y => exact ⟨Memory.loadWord_setPair_first h, Memory.loadWord_setPair_second h⟩

/-- A cell whose bytes stay the same keeps what is in it. -/
theorem Stored.of_bytes {mem mem' : Memory} {a : Nat} (h : c.Stored mem a) (hsize : mem'.size = mem.size)
    (hbytes : ∀ i, a ≤ i → i < a + 8 → mem'.byte i = mem.byte i) : c.Stored mem' a := by
  cases c with
  | float x => exact (Memory.loadDouble_congr hsize hbytes).trans h
  | _ x y =>
    have hfirst : mem'.loadWord a = mem.loadWord a :=
      Memory.loadWord_congr hsize fun i hi hlt => hbytes i hi (by omega)
    have hsecond : mem'.loadWord (a + 4) = mem.loadWord (a + 4) :=
      Memory.loadWord_congr hsize fun i hi hlt => hbytes i (by omega) (by omega)
    exact ⟨hfirst.trans h.1, hsecond.trans h.2⟩

theorem address_word {a : Nat} (h : a < 2 ^ 28) (c : Alloc) : c.address (c.word (.ofNat 32 a)) = a := by
  have hplain : (BitVec.ofNat 32 a).toNat = a := Nat.mod_eq_of_lt (by omega)
  cases c with
  | pair x y | frame x y => exact hplain
  | cell x y | closure x y | float x => exact Word.address_boxed h

/-- The parts of a stored cell are read back. -/
theorem reads_of_stored (hm : ∀ f, m.Supports f) {a : Nat} (ha : a < 2 ^ 28) (h : c.Stored σ.memory a) :
    ∀ r ∈ c.readers,
      m.Answers ops r.1 (r.2.1 ++ [Operand.word (c.word (.ofNat 32 a))]) σ (.next ([r.2.2], σ)) := by
  have hplain : (BitVec.ofNat 32 a).toNat = a := Nat.mod_eq_of_lt (by omega)
  have hboxed (t : Tag) : (Word.boxed (.ofNat 32 a) t).address = a := Word.address_boxed ha
  cases c with
  | pair x y =>
    obtain ⟨hx, hy⟩ := h
    simp only [readers, List.forall_mem_cons]
    exact ⟨.of_eq 1 fun n => invoke_pairFirst (hm _) (hplain.symm ▸ hx),
      .of_eq 1 fun n => invoke_pairSecond (hm _) (hplain.symm ▸ hy), by simp⟩
  | frame x y =>
    obtain ⟨hx, hy⟩ := h
    simp only [readers, List.forall_mem_cons]
    exact ⟨.of_eq 2 fun n => invoke_envParent (hm _) (hplain.symm ▸ hx),
      .of_eq 2 fun n => invoke_envGet_zero (hm _) (hplain.symm ▸ hy), by simp⟩
  | cell x y =>
    obtain ⟨hx, hy⟩ := h
    simp only [readers, List.forall_mem_cons]
    exact ⟨.of_eq 2 fun n => invoke_listTail (hm _) ((hboxed .list).symm ▸ hx),
      .of_eq 2 fun n => invoke_listHead (hm _) ((hboxed .list).symm ▸ hy), by simp⟩
  | closure x y =>
    obtain ⟨hx, hy⟩ := h
    simp only [readers, List.forall_mem_cons]
    exact ⟨.of_eq 2 fun n => invoke_closureEnv (hm _) ((hboxed .closure).symm ▸ hx),
      .of_eq 2 fun n => invoke_closureIndex (hm _) ((hboxed .closure).symm ▸ hy), by simp⟩
  | float x =>
    simp only [readers, List.forall_mem_cons]
    exact ⟨.of_eq 1 fun n => invoke_floatGet (hm _) ((hboxed .float).symm ▸ h), by simp⟩

end Alloc

/-! ## Runs of calls -/

/-- The heap ends at an address, in a memory of this size. -/
structure Store.EndsAt (σ : Store) (limit a : Nat) : Prop where
  top : σ.globals Heap.top = some (.ofNat 32 a)
  size : σ.memory.size = limit
  start : Word.heapStart.toNat ≤ a
  le : a ≤ limit

variable {limit a : Nat}

theorem Store.EndsAt.toNat (h : σ.EndsAt limit a) (hlimit : limit ≤ 2 ^ 27) : (BitVec.ofNat 32 a).toNat = a := by
  have hle := h.le
  exact Nat.mod_eq_of_lt (by omega)

/-- A cell that fits moves the end of the heap. -/
theorem Store.EndsAt.place (h : σ.EndsAt limit a) (hfit : a + 8 ≤ limit) (c : Alloc) :
    (c.place σ (.ofNat 32 a)).EndsAt limit (a + 8) where
  top := by rw [c.top_place, BitVec.ofNat_add]; rfl
  size := by rw [c.size_place, h.size]
  start := Nat.le_trans h.start (Nat.le_add_right a 8)
  le := hfit

/-- The cell that a call makes. -/
theorem Store.EndsAt.placed (h : σ.EndsAt limit a) (hlimit : limit ≤ 2 ^ 27) (hfit : a + 8 ≤ limit) (c : Alloc) :
    (⟨c, c.word (.ofNat 32 a), c.place σ (.ofNat 32 a)⟩ : Cell).Placed limit ∧
      (⟨c, c.word (.ofNat 32 a), c.place σ (.ofNat 32 a)⟩ : Cell).address = a := by
  have haddress : c.address (c.word (.ofNat 32 a)) = a := c.address_word (by omega)
  refine ⟨⟨?_, ?_, ?_, ?_, ?_⟩, haddress⟩
  · simpa only [Cell.address, haddress] using h.start
  · simpa only [Cell.address, haddress] using hfit
  · have htop : (c.place σ (.ofNat 32 a)).globals Heap.top = some (.ofNat 32 (a + 8)) := (h.place hfit c).top
    have hnat : (BitVec.ofNat 32 (a + 8)).toNat = a + 8 := (h.place hfit c).toNat hlimit
    simp only [Cell.address, haddress, htop, Option.map_some, hnat]
  · simp only [Cell.address, haddress]
  · intro t ht
    have hword : c.word (.ofNat 32 a) = .boxed (.ofNat 32 a) t := by simp only [Alloc.word, ht]
    simp only [Cell.address, haddress]
    rw [hword]
    refine ⟨rfl, ?_, Tag.of?_boxed (by omega) t, Word.address_boxed (by omega)⟩
    rw [Word.toInt_boxed (by omega)]
    have hbits := Word.bits_pos t
    omega

/-- What is made by a run from a heap that ends at `a`: the calls that there is room for, each cell
above `a` and the cells before it. -/
structure Laid (σ : Store) (limit a : Nat) (calls : List Alloc) (made : List Cell) : Prop where
  calls : made.map (·.call) = calls.take ((limit - a) / 8)
  placed : ∀ c ∈ made, c.Placed limit
  above : ∀ c ∈ made, a ≤ c.address
  kept : ∀ c ∈ made, ∀ i < a, c.store.memory.byte i = σ.memory.byte i
  size : ∀ c ∈ made, c.store.memory.size = limit
  stored : ∀ c ∈ made, c.call.Stored c.store.memory c.address
  precedes : made.Pairwise Cell.Precedes

/-- A run makes nothing where there is no room. -/
theorem Laid.nil {calls : List Alloc} (h : calls.take ((limit - a) / 8) = []) : Laid σ limit a calls [] where
  calls := h.symm
  placed := nofun
  above := nofun
  kept := nofun
  size := nofun
  stored := nofun
  precedes := .nil

/-- A cell goes below those that are made after it. -/
theorem Laid.cons (hσ : σ.EndsAt limit a) (hlimit : limit ≤ 2 ^ 27) (hfit : a + 8 ≤ limit) {calls : List Alloc}
    {rest : List Cell} (h : Laid (c.place σ (.ofNat 32 a)) limit (a + 8) calls rest) :
    Laid σ limit a (c :: calls) (⟨c, c.word (.ofNat 32 a), c.place σ (.ofNat 32 a)⟩ :: rest) := by
  obtain ⟨hplaced, haddress⟩ := hσ.placed hlimit hfit c
  have hnat : (BitVec.ofNat 32 a).toNat = a := hσ.toNat hlimit
  have hroom : (limit - a) / 8 = (limit - (a + 8)) / 8 + 1 := by omega
  have hbelow (i : Nat) (hi : i < a) : (c.place σ (.ofNat 32 a)).memory.byte i = σ.memory.byte i :=
    Alloc.byte_place (by omega)
  have hstored : c.Stored (c.place σ (.ofNat 32 a)).memory (BitVec.ofNat 32 a).toNat :=
    Alloc.stored_place (by rw [hnat, hσ.size]; exact hfit)
  constructor
  · rw [hroom, List.take_succ_cons, List.map_cons, h.calls]
  · exact List.forall_mem_cons.2 ⟨hplaced, h.placed⟩
  · refine List.forall_mem_cons.2 ⟨Nat.le_of_eq haddress.symm, fun d hd => ?_⟩
    have habove := h.above d hd
    omega
  · refine List.forall_mem_cons.2 ⟨hbelow, fun d hd i hi => ?_⟩
    rw [h.kept d hd i (by omega), hbelow i hi]
  · exact List.forall_mem_cons.2 ⟨(c.size_place σ _).trans hσ.size, h.size⟩
  · refine List.forall_mem_cons.2 ⟨?_, h.stored⟩
    rw [haddress]
    rwa [hnat] at hstored
  · refine List.pairwise_cons.2 ⟨fun d hd => ⟨?_, fun i _ hi => ?_⟩, h.precedes⟩
    · rw [haddress]
      exact h.above d hd
    · rw [haddress] at hi
      exact h.kept d hd i hi

/-- **What a run makes**, whatever is called and whatever was made before. -/
theorem Module.Runs.laid (hm : ∀ f, m.Supports f) (hlimit : limit ≤ 2 ^ 27) {calls : List Alloc} {made : List Cell}
    (hσ : σ.EndsAt limit a) (h : m.Runs ops σ calls made) : Laid σ limit a calls made := by
  induction h generalizing a with
  | nil => exact .nil (List.take_nil)
  | @trapped σ c calls t htrap =>
    have hanswers := c.answers ops hm hσ.top
    rw [hσ.toNat hlimit, hσ.size] at hanswers
    by_cases hfit : a + 8 ≤ limit
    · rw [if_pos hfit] at hanswers
      cases htrap.unique hanswers
    · have hroom : (limit - a) / 8 = 0 := by omega
      exact .nil (by rw [hroom, List.take_zero])
  | @made σ σ' c calls w rest hmade hrest ih =>
    have hanswers := c.answers ops hm hσ.top
    rw [hσ.toNat hlimit, hσ.size] at hanswers
    by_cases hfit : a + 8 ≤ limit
    · rw [if_pos hfit] at hanswers
      cases hmade.unique hanswers
      exact .cons hσ hlimit hfit (ih (hσ.place hfit c))
    · rw [if_neg hfit] at hanswers
      cases hmade.unique hanswers

/-- Calls run, to their end or to a trap. -/
theorem Module.exists_runs (ops : FloatOps) (hm : ∀ f, m.Supports f) (hlimit : limit ≤ 2 ^ 27) (calls : List Alloc)
    (hσ : σ.EndsAt limit a) : ∃ made, m.Runs ops σ calls made := by
  induction calls generalizing σ a with
  | nil => exact ⟨[], .nil⟩
  | cons c calls ih =>
    have hanswers := c.answers ops hm hσ.top
    rw [hσ.toNat hlimit, hσ.size] at hanswers
    by_cases hfit : a + 8 ≤ limit
    · rw [if_pos hfit] at hanswers
      obtain ⟨rest, hrest⟩ := ih (hσ.place hfit c)
      exact ⟨_, .made hanswers hrest⟩
    · rw [if_neg hfit] at hanswers
      exact ⟨[], .trapped hanswers⟩

/-- A cell is readable wherever its bytes are as they were made. -/
theorem Cell.Placed.readable (hm : ∀ f, m.Supports f) (hlimit : limit ≤ 2 ^ 27) {c : Cell} (hc : c.Placed limit)
    (h : c.call.Stored σ.memory c.address) : c.Readable ops m σ := by
  have hhigh := hc.high
  unfold Cell.Readable
  rw [hc.word]
  exact Alloc.reads_of_stored hm (by omega) h

/-! ## The library -/

/-- All of the library, as one component. -/
def Library.whole (pages : Nat) : Component := ⟨"library", [], Feature.all.map (·.component pages)⟩

theorem Feature.ordered_all : Ordered all := by
  have hlist : Ordered [allocator, tuple, environment, list] := (ordered_needs .environment).snoc (by decide) (by decide)
  have hfloat : Ordered [allocator, tuple, environment, list, float] := hlist.snoc (by decide) (by decide)
  have hclosure : Ordered [allocator, tuple, environment, list, float, closure] := hfloat.snoc (by decide) (by decide)
  exact hclosure.snoc (by decide) (by decide)

theorem link_whole (pages : Nat) : (Library.whole pages).link [] = .ok ⟨library pages Feature.all⟩ := by
  have hname : ∀ f : Feature, f.name ≠ "library" := by
    intro f
    cases f <;> decide
  have horder : (Library.whole pages).order = Feature.all.map (·.component pages) ++ [] ++ [Library.whole pages] :=
    Component.order_features Feature.ordered_all hname (List.append_nil _).symm (.inl rfl)
  rw [List.append_nil] at horder
  have hattach : [Library.whole pages].foldlM Component.attach (library pages Feature.all) =
      .ok (library pages Feature.all) := by
    have hwell : Module.WellNamed ⟨library pages Feature.all ++ (Library.whole pages).fields⟩ := by
      simpa [Library.whole] using wellNamed_library pages Feature.ordered_all
    rw [List.foldlM_cons, Component.attach_wellNamed hwell]
    simp [Library.whole, bind, Except.bind, pure, Except.pure]
  simpa using Component.link_eq_ok Feature.ordered_all horder hattach []

/-- The heap of the library starts at its first address, in empty memory. -/
theorem endsAt_initial (pages : Nat) (h : Word.heapStart.toNat ≤ pages * Module.pageSize) :
    (⟨library pages Feature.all⟩ : Module).initial.EndsAt (pages * Module.pageSize) Word.heapStart.toNat where
  top := rfl
  size := rfl
  start := Nat.le_refl _
  le := h

/-- **The heap under any calls.** In the library with any valid number of pages, a sequence of
calls runs up to the first that there is no room for. Every call before it returns a word for a cell
of its own inside memory; the top of the heap moves up past it; no later call changes the cell, and
its parts are read back in every later store. -/
theorem heap_discipline (ops : FloatOps) (settings : Settings) (hvalid : settings.validate = .ok ()) :
    ∃ m, (Library.whole settings.memoryPages.toNat).link [] = .ok m ∧ ∀ calls : List Alloc,
      (∃ made, m.Runs ops m.initial calls made) ∧ ∀ made, m.Runs ops m.initial calls made →
        made.map (·.call) = calls.take ((settings.memoryPages.toNat * Module.pageSize - 4) / 8) ∧
        (∀ c ∈ made, c.Placed (settings.memoryPages.toNat * Module.pageSize) ∧ c.Readable ops m c.store) ∧
        made.Pairwise fun c d => c.Precedes d ∧ c.Readable ops m d.store := by
  obtain ⟨hstart, hlimit⟩ := Settings.memory_le hvalid
  refine ⟨_, link_whole settings.memoryPages.toNat, fun calls => ?_⟩
  have hm (f : Feature) : (⟨library settings.memoryPages.toNat Feature.all⟩ : Module).Supports f :=
    (wellNamed_library _ Feature.ordered_all).supports Feature.ordered_all (fun _ h => h) f.mem_all
  have hσ := endsAt_initial settings.memoryPages.toNat hstart
  refine ⟨Module.exists_runs ops hm hlimit calls hσ, fun made hruns => ?_⟩
  have hlaid := hruns.laid hm hlimit hσ
  refine ⟨hlaid.calls, fun c hc => ⟨hlaid.placed c hc, (hlaid.placed c hc).readable hm hlimit (hlaid.stored c hc)⟩, ?_⟩
  -- a later store has the bytes of an earlier cell, hence its parts
  refine hlaid.precedes.imp_of_mem fun {c d} hc hd hcd => ⟨hcd, (hlaid.placed c hc).readable hm hlimit ?_⟩
  exact (hlaid.stored c hc).of_bytes ((hlaid.size d hd).trans (hlaid.size c hc).symm) hcd.kept

/-- With as much memory as can be asked for, a boxed double, a list cell and a closure are made in
different places, and each is read back after the others are made. -/
theorem heap_discipline_threeCells :
    let settings := { Settings.default with memoryPages := 2048 }
    let calls : List Alloc := [.float 0x3FF8000000000000, .cell 0 (.pack 7), .closure (-1) 2]
    settings.validate = .ok () ∧ ∃ m, (Library.whole 2048).link [] = .ok m ∧
      ∃ made, m.Runs default m.initial calls made ∧ made.map (·.call) = calls ∧
        made.Pairwise fun c d => c.Precedes d ∧ c.Readable default m d.store := by
  intro settings calls
  obtain ⟨m, hm, h⟩ := heap_discipline default settings rfl
  obtain ⟨⟨made, hruns⟩, hall⟩ := h calls
  obtain ⟨hcalls, -, hcells⟩ := hall made hruns
  have htake : calls.take ((2048 * 65536 - 4) / 8) = calls := List.take_of_length_le (by decide)
  exact ⟨rfl, m, hm, made, hruns, hcalls.trans htake, hcells⟩

end WasmBackend
