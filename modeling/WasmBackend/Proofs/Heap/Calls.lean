/-
What the library's functions do when they are called, as equations that hold
at every depth that is deep enough. A cell is eight bytes at the top of the
heap; if it does not fit into memory, making it is a write out of bounds.
-/
import WasmBackend.Lower.State
import WasmBackend.Proofs.Machine.Memory
import WasmBackend.Proofs.Machine.Steps

namespace WasmBackend

open Library

/-- Valid settings give memory for the first address, and for no address that a boxed word has no
room for. -/
theorem Settings.memory_le {settings : Settings} (h : settings.validate = .ok ()) :
    4 ≤ settings.memoryPages.toNat * Module.pageSize ∧ settings.memoryPages.toNat * Module.pageSize ≤ 2 ^ 27 := by
  unfold Settings.validate at h
  split at h
  · cases h
  · rename_i hzero
    split at h
    · cases h
    · rename_i hmax
      have hpos : settings.memoryPages.toNat ≠ 0 := fun h0 => hzero (UInt32.toNat_inj.1 h0)
      have hle : settings.memoryPages.toNat ≤ 2048 := by
        rw [UInt32.lt_iff_toNat_lt] at hmax
        exact Nat.le_of_not_lt hmax
      simp only [Module.pageSize]
      omega

/-- The functions of a feature's component, which do not depend on the size of memory. -/
def Feature.funcs (f : Feature) : List Func := (f.component 0).fields.filterMap Field.func?

/-- The functions of a feature, and of all that it builds on, are found by their names. -/
def Module.Supports (m : Module) (f : Feature) : Prop :=
  ∀ g ∈ f.needs, ∀ fn ∈ g.funcs, m.func? fn.name = some fn

namespace Store

/-- Moves the top of the heap. -/
def setTop (σ : Store) (top : Word) : Store :=
  { σ with globals := fun y => if y = Heap.top then some top else σ.globals y }

/-- Makes a pair at the top of the heap. -/
def addPair (σ : Store) (a x y : Word) : Store :=
  { σ.setTop (a + 8) with memory := σ.memory.setPair a.toNat x y }

/-- Makes a double at the top of the heap. -/
def addDouble (σ : Store) (a : Word) (x : Double) : Store :=
  { σ.setTop (a + 8) with memory := σ.memory.setNumber a.toNat 8 x.toNat }

end Store

section

variable {ops : FloatOps} {m : Module} {n : Nat} {stk : List Operand} {σ : Store} {a w x y : Word}

/-! ## Pairs -/

theorem invoke_alloc (h : m.Supports .allocator) (ha : σ.globals Heap.top = some a) (size : Word) :
    m.invoke ops (n + 1) Heap.alloc (.word size :: stk) σ =
      .next (.word a :: stk, σ.setTop (a + size)) := by
  have hf : m.func? Heap.alloc = some _ := h .allocator (by decide) _ (.head _)
  simp [Module.invoke, hf, Func.words, Local.word, List.lookup, ha, Store.setTop]

theorem Module.Supports.allocator {f : Feature} (h : m.Supports f) : m.Supports .allocator := by
  intro g hg
  simp only [Feature.needs, List.mem_singleton] at hg
  subst hg
  exact h .allocator (by cases f <;> decide)

/-- A feature that builds on pairs. -/
theorem Module.Supports.tuple {f : Feature} (h : m.Supports f) (hf : .tuple ∈ f.needs) :
    m.Supports .tuple := by
  intro g hg
  simp only [Feature.needs, List.mem_cons, List.not_mem_nil, or_false] at hg
  rcases hg with rfl | rfl
  · exact h .allocator (by cases f <;> decide)
  · exact h .tuple hf

theorem invoke_pairNew (h : m.Supports .tuple) (ha : σ.globals Heap.top = some a) :
    m.invoke ops (n + 2) Pair.new (.word y :: .word x :: stk) σ =
      if a.toNat + 8 ≤ σ.memory.size then .next (.word a :: stk, σ.addPair a x y)
      else .trap .storeOutOfBounds := by
  have hf : m.func? Pair.new = some _ := h .tuple (by decide) _ (.head _)
  rw [Module.invoke]
  by_cases hfit : a.toNat + 8 ≤ σ.memory.size
  · have h4 : a.toNat + 4 ≤ σ.memory.size := by omega
    simp [hf, Func.words, Local.word, List.lookup, invoke_alloc h.allocator ha, Frame.storeTo, Frame.write,
      ValType.width, Store.setTop, h4, hfit, Nat.add_assoc, Store.addPair, Memory.setPair]
  · -- the first word may still fit, then the second one does not
    by_cases h4 : a.toNat + 4 ≤ σ.memory.size <;>
      simp [hf, Func.words, Local.word, List.lookup, invoke_alloc h.allocator ha, Frame.storeTo, Frame.write,
        ValType.width, Store.setTop, h4, hfit, Nat.add_assoc]

theorem invoke_pairFirst (h : m.Supports .tuple) (hx : σ.memory.loadWord a.toNat = .ok x) :
    m.invoke ops (n + 1) Pair.first (.word a :: stk) σ = .next (.word x :: stk, σ) := by
  have hf : m.func? Pair.first = some _ := h .tuple (by decide) _ (.tail _ (.head _))
  rw [Module.invoke]
  simp [hf, Func.words, Local.word, List.lookup, Frame.load_word 0 hx]

theorem invoke_pairSecond (h : m.Supports .tuple) (hx : σ.memory.loadWord (a.toNat + 4) = .ok x) :
    m.invoke ops (n + 1) Pair.second (.word a :: stk) σ = .next (.word x :: stk, σ) := by
  have hf : m.func? Pair.second = some _ := h .tuple (by decide) _ (.tail _ (.tail _ (.head _)))
  rw [Module.invoke]
  simp [hf, Func.words, Local.word, List.lookup, Frame.load_word 4 hx]

/-! ## Environments -/

theorem invoke_envNew (h : m.Supports .environment) (ha : σ.globals Heap.top = some a) :
    m.invoke ops (n + 3) Env.new (.word y :: .word x :: stk) σ =
      if a.toNat + 8 ≤ σ.memory.size then .next (.word a :: stk, σ.addPair a x y)
      else .trap .storeOutOfBounds := by
  have hf : m.func? Env.new = some _ := h .environment (by decide) _ (.head _)
  rw [Module.invoke]
  by_cases hfit : a.toNat + 8 ≤ σ.memory.size <;>
    simp [hfit, hf, Func.words, Local.word, List.lookup, invoke_pairNew (h.tuple (by decide)) ha]

theorem invoke_envParent (h : m.Supports .environment) (hx : σ.memory.loadWord a.toNat = .ok x) :
    m.invoke ops (n + 2) Env.parent (.word a :: stk) σ = .next (.word x :: stk, σ) := by
  have hf : m.func? Env.parent = some _ := h .environment (by decide) _ (.tail _ (.tail _ (.head _)))
  rw [Module.invoke]
  simp [hf, Func.words, Local.word, List.lookup, invoke_pairFirst (h.tuple (by decide)) hx]

theorem invoke_envGet_zero (h : m.Supports .environment)
    (hx : σ.memory.loadWord (a.toNat + 4) = .ok x) :
    m.invoke ops (n + 2) Env.get (.word 0#32 :: .word a :: stk) σ = .next (.word x :: stk, σ) := by
  have hf : m.func? Env.get = some _ := h .environment (by decide) _ (.tail _ (.head _))
  rw [Module.invoke]
  simp [hf, Func.words, Local.word, List.lookup, Instr.condWord, Operand.ofBool,
    invoke_pairSecond (h.tuple (by decide)) hx]

/-- Further out, the search goes on in the parent. -/
theorem invoke_envGet_succ (h : m.Supports .environment) (hx : σ.memory.loadWord a.toNat = .ok x)
    (hw : w ≠ 0#32) {out : Word}
    (hrec : m.invoke ops (n + 1) Env.get [.word (w - 1#32), .word x] σ = .next ([.word out], σ)) :
    m.invoke ops (n + 2) Env.get (.word w :: .word a :: stk) σ = .next (.word out :: stk, σ) := by
  have hf : m.func? Env.get = some _ := h .environment (by decide) _ (.tail _ (.head _))
  rw [Module.invoke]
  simp [hf, Func.words, Local.word, List.lookup, Instr.condWord, Operand.ofBool, hw,
    invoke_pairFirst (h.tuple (by decide)) hx, hrec]

/-- One frame further out than in the parent. -/
theorem invoke_envGet_further (h : m.Supports .environment) (hx : σ.memory.loadWord a.toNat = .ok x) {k : Nat}
    (hk : k + 1 < 2 ^ 32) {out : Word}
    (hget : m.invoke ops (n + 1) Env.get [.word (.ofNat 32 k), .word x] σ = .next ([.word out], σ)) :
    m.invoke ops (n + 2) Env.get (.word (.ofNat 32 (k + 1)) :: .word a :: stk) σ = .next (.word out :: stk, σ) := by
  have hne : BitVec.ofNat 32 (k + 1) ≠ 0#32 := by
    intro h0
    have hnat := congrArg BitVec.toNat h0
    simp only [BitVec.toNat_ofNat] at hnat
    omega
  have hpred : BitVec.ofNat 32 (k + 1) - 1#32 = BitVec.ofNat 32 k := by
    rw [BitVec.ofNat_add, BitVec.add_sub_cancel]
  refine invoke_envGet_succ h hx hne ?_
  rwa [hpred]

/-! ## Boxed words -/

/-- The functions that read one half of the pair behind a boxed word. -/
theorem invoke_half_first {name param : String} (h : m.Supports .tuple)
    (hf : m.func? name = some (half name param Pair.first))
    (hx : σ.memory.loadWord w.address = .ok x) :
    m.invoke ops (n + 2) name (.word w :: stk) σ = .next (.word x :: stk, σ) := by
  have hread : m.invoke ops (n + 1) Pair.first [.word (w >>> 4)] σ = .next ([.word x], σ) :=
    invoke_pairFirst h hx
  rw [Module.invoke]
  simp [hf, half, untagCode, Func.words, Local.word, List.lookup, Tag.shift, hread]

theorem invoke_half_second {name param : String} (h : m.Supports .tuple)
    (hf : m.func? name = some (half name param Pair.second))
    (hx : σ.memory.loadWord (w.address + 4) = .ok x) :
    m.invoke ops (n + 2) name (.word w :: stk) σ = .next (.word x :: stk, σ) := by
  have hread : m.invoke ops (n + 1) Pair.second [.word (w >>> 4)] σ = .next ([.word x], σ) :=
    invoke_pairSecond h hx
  rw [Module.invoke]
  simp [hf, half, untagCode, Func.words, Local.word, List.lookup, Tag.shift, hread]

theorem invoke_listEmpty (h : m.Supports .list) :
    m.invoke ops (n + 1) Lists.empty stk σ = .next (.word Word.emptyList :: stk, σ) := by
  have hf : m.func? Lists.empty = some _ := h .list (by decide) _ (.head _)
  rw [Module.invoke]
  simp [hf, Func.words]

theorem invoke_listPush (h : m.Supports .list) (ha : σ.globals Heap.top = some a) :
    m.invoke ops (n + 3) Lists.push (.word y :: .word x :: stk) σ =
      if a.toNat + 8 ≤ σ.memory.size then .next (.word (.boxed a .list) :: stk, σ.addPair a x y)
      else .trap .storeOutOfBounds := by
  have hf : m.func? Lists.push = some _ := h .list (by decide) _ (.tail _ (.head _))
  rw [Module.invoke]
  by_cases hfit : a.toNat + 8 ≤ σ.memory.size <;>
    simp [hfit, hf, tagCode, Func.words, Local.word, List.lookup, Word.boxed, Tag.shift,
    invoke_pairNew (h.tuple (by decide)) ha]

theorem invoke_listIsEmpty (h : m.Supports .list) :
    m.invoke ops (n + 1) Lists.isEmpty (.word w :: stk) σ = .next (.ofBool (w = 0) :: stk, σ) := by
  have hf : m.func? Lists.isEmpty = some _ := h .list (by decide) _ (.tail _ (.tail _ (.head _)))
  rw [Module.invoke]
  simp [hf, Func.words, Local.word, List.lookup, Operand.ofBool]

theorem invoke_listHead (h : m.Supports .list) (hx : σ.memory.loadWord (w.address + 4) = .ok x) :
    m.invoke ops (n + 2) Lists.head (.word w :: stk) σ = .next (.word x :: stk, σ) :=
  invoke_half_second (h.tuple (by decide))
    (h .list (by decide) _ (.tail _ (.tail _ (.tail _ (.head _))))) hx

theorem invoke_listTail (h : m.Supports .list) (hx : σ.memory.loadWord w.address = .ok x) :
    m.invoke ops (n + 2) Lists.tail (.word w :: stk) σ = .next (.word x :: stk, σ) :=
  invoke_half_first (h.tuple (by decide))
    (h .list (by decide) _ (.tail _ (.tail _ (.tail _ (.tail _ (.head _)))))) hx

theorem invoke_floatNew {d : Double} (h : m.Supports .float) (ha : σ.globals Heap.top = some a) :
    m.invoke ops (n + 2) Floats.new (.double d :: stk) σ =
      if a.toNat + 8 ≤ σ.memory.size then .next (.word (.boxed a .float) :: stk, σ.addDouble a d)
      else .trap .storeOutOfBounds := by
  have hf : m.func? Floats.new = some _ := h .float (by decide) _ (.head _)
  rw [Module.invoke]
  by_cases hfit : a.toNat + 8 ≤ σ.memory.size <;>
    simp [hf, tagCode, Local.word, List.lookup, Word.boxed, Tag.shift, Frame.storeTo, Frame.write,
      ValType.width, Store.addDouble, Store.setTop, hfit, invoke_alloc h.allocator ha]

theorem invoke_floatGet {d : Double} (h : m.Supports .float)
    (hd : σ.memory.loadDouble w.address = .ok d) :
    m.invoke ops (n + 1) Floats.get (.word w :: stk) σ = .next (.double d :: stk, σ) := by
  have hf : m.func? Floats.get = some _ := h .float (by decide) _ (.tail _ (.head _))
  have hread : Frame.load .f64 0 ⟨[.word (w >>> 4)], fun x => [("boxed", Operand.word w)].lookup x, σ⟩ =
      .next ⟨[.double d], fun x => [("boxed", Operand.word w)].lookup x, σ⟩ := Frame.load_double 0 hd
  rw [Module.invoke]
  simp [hf, untagCode, Local.word, List.lookup, Tag.shift] at hread ⊢
  simp [hread]

theorem invoke_closureNew (h : m.Supports .closure) (ha : σ.globals Heap.top = some a) :
    m.invoke ops (n + 3) Closures.new (.word y :: .word x :: stk) σ =
      if a.toNat + 8 ≤ σ.memory.size then .next (.word (.boxed a .closure) :: stk, σ.addPair a x y)
      else .trap .storeOutOfBounds := by
  have hf : m.func? Closures.new = some _ := h .closure (by decide) _ (.head _)
  rw [Module.invoke]
  by_cases hfit : a.toNat + 8 ≤ σ.memory.size <;>
    simp [hfit, hf, tagCode, Func.words, Local.word, List.lookup, Word.boxed, Tag.shift,
    invoke_pairNew (h.tuple (by decide)) ha]

theorem invoke_closureEnv (h : m.Supports .closure) (hx : σ.memory.loadWord w.address = .ok x) :
    m.invoke ops (n + 2) Closures.env (.word w :: stk) σ = .next (.word x :: stk, σ) :=
  invoke_half_first (h.tuple (by decide)) (h .closure (by decide) _ (.tail _ (.head _))) hx

theorem invoke_closureIndex (h : m.Supports .closure) (hx : σ.memory.loadWord (w.address + 4) = .ok x) :
    m.invoke ops (n + 2) Closures.index (.word w :: stk) σ = .next (.word x :: stk, σ) :=
  invoke_half_second (h.tuple (by decide)) (h .closure (by decide) _ (.tail _ (.tail _ (.head _)))) hx

/-! ## Matching primitives -/

/-- A feature that builds on lists, or on environments. -/
theorem Module.Supports.of_matcher (h : m.Supports .matcher) : m.Supports .list ∧ m.Supports .environment :=
  ⟨fun g hg => h g (by revert hg; cases g <;> decide), fun g hg => h g (by revert hg; cases g <;> decide)⟩

theorem invoke_matchWildcard (h : m.Supports .matcher) :
    m.invoke ops (n + 1) Matchers.wildcard (.word y :: .word x :: stk) σ = .next (.word x :: stk, σ) := by
  have hf : m.func? Matchers.wildcard = some _ := h .matcher (by decide) _ (.head _)
  rw [Module.invoke]
  simp [hf, Func.words, Local.word, List.lookup]

theorem invoke_matchEmpty (h : m.Supports .matcher) :
    m.invoke ops (n + 2) Matchers.emptyList (.word y :: .word x :: stk) σ =
      .next (.word (if y = 0#32 then x else Matchers.failure) :: stk, σ) := by
  have hf : m.func? Matchers.emptyList = some _ := h .matcher (by decide) _ (.tail _ (.head _))
  rw [Module.invoke]
  by_cases hy : y = 0#32 <;>
    simp [hf, Func.words, Local.word, List.lookup, Instr.condWord, Operand.ofBool, hy,
      invoke_listIsEmpty h.of_matcher.1]

theorem invoke_matchIdent (h : m.Supports .matcher) (ha : σ.globals Heap.top = some a) :
    m.invoke ops (n + 4) Matchers.identifier (.word y :: .word x :: stk) σ =
      if a.toNat + 8 ≤ σ.memory.size then .next (.word a :: stk, σ.addPair a x y)
      else .trap .storeOutOfBounds := by
  have hf : m.func? Matchers.identifier = some _ := h .matcher (by decide) _ (.tail _ (.tail _ (.head _)))
  rw [Module.invoke]
  by_cases hfit : a.toNat + 8 ≤ σ.memory.size <;>
    simp [hfit, hf, Func.words, Local.word, List.lookup, invoke_envNew h.of_matcher.2 ha]

end

end WasmBackend
