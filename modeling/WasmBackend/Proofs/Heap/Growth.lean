/-
Nothing that is in use is written to. A module makes cells with two functions
of the library, and moves the top of the heap with a third; if the rest of its
code neither writes to memory nor moves the top (`Code.quiet`), then a call of
any other function, on any operands, leaves the bytes below the top as they
were, and the top no lower (`Module.Careful.invoke_grows`).
-/
import WasmBackend.Proofs.Heap.Discipline

namespace WasmBackend

open Library

/-! ## Stores that grow -/

/-- Memory has this size, and nothing from `a` on is in use. As an allocation is not checked, `a` can
be beyond the end of memory. -/
structure Store.UsedTo (σ : Store) (limit a : Nat) : Prop where
  top : σ.globals Heap.top = some (.ofNat 32 a)
  size : σ.memory.size = limit
  start : Word.heapStart.toNat ≤ a
  lt : a < 2 ^ 32

/-- Whatever is in use stays as it is, and more may be in use. -/
def Store.Grows (limit : Nat) (σ τ : Store) : Prop :=
  ∀ a, σ.UsedTo limit a → ∃ b, a ≤ b ∧ τ.UsedTo limit b ∧ ∀ i < a, τ.memory.byte i = σ.memory.byte i

variable {ops : FloatOps} {m : Module} {c : Alloc} {σ τ υ : Store} {limit a : Nat}

namespace Store

theorem Grows.refl (limit : Nat) (σ : Store) : Grows limit σ σ :=
  fun a h => ⟨a, Nat.le_refl a, h, fun _ _ => rfl⟩

theorem Grows.trans (h : Grows limit σ τ) (h' : Grows limit τ υ) : Grows limit σ υ := by
  intro a hσ
  obtain ⟨b, hab, hτ, hbytes⟩ := h a hσ
  obtain ⟨d, hbd, hυ, hbytes'⟩ := h' b hτ
  refine ⟨d, by omega, hυ, fun i hi => ?_⟩
  rw [hbytes' i (by omega), hbytes i hi]

theorem EndsAt.usedTo (h : σ.EndsAt limit a) (hlimit : limit ≤ 2 ^ 27) : σ.UsedTo limit a where
  top := h.top
  size := h.size
  start := h.start
  lt := by
    have hle := h.le
    omega

theorem UsedTo.toNat (h : σ.UsedTo limit a) : (BitVec.ofNat 32 a).toNat = a := Nat.mod_eq_of_lt h.lt

theorem UsedTo.unique {b : Nat} (h : σ.UsedTo limit a) (h' : σ.UsedTo limit b) : a = b := by
  have htop : BitVec.ofNat 32 a = .ofNat 32 b := Option.some.inj (h.top.symm.trans h'.top)
  rw [← h.toNat, htop, h'.toNat]

theorem UsedTo.setTop (h : σ.UsedTo limit a) {size : Word} (hfit : a + size.toNat < 2 ^ 32) :
    (σ.setTop (.ofNat 32 a + size)).UsedTo limit (a + size.toNat) where
  top := by
    have hsum : (BitVec.ofNat 32 a + size) = .ofNat 32 (a + size.toNat) := by
      rw [BitVec.ofNat_add, BitVec.ofNat_toNat, BitVec.setWidth_eq]
    simp [Store.setTop, hsum]
  size := h.size
  start := Nat.le_trans h.start (Nat.le_add_right _ _)
  lt := hfit

/-- More is in use after a cell is made, unless the end of it wraps around. -/
theorem UsedTo.place_of_lt (h : σ.UsedTo limit a) (hlt : a + 8 < 2 ^ 32) (c : Alloc) :
    (c.place σ (.ofNat 32 a)).UsedTo limit (a + 8) where
  top := by rw [c.top_place, BitVec.ofNat_add]; rfl
  size := by rw [c.size_place, h.size]
  start := Nat.le_trans h.start (Nat.le_add_right a 8)
  lt := hlt

theorem UsedTo.place (h : σ.UsedTo limit a) (hlimit : limit ≤ 2 ^ 27) (hfit : a + 8 ≤ limit) (c : Alloc) :
    (c.place σ (.ofNat 32 a)).UsedTo limit (a + 8) :=
  h.place_of_lt (by omega) c

end Store

/-- Making a cell leaves alone what is below it. -/
theorem Alloc.grows_place (c : Alloc) (hlimit : limit ≤ 2 ^ 27) (h : σ.UsedTo limit a) (hfit : a + 8 ≤ limit) :
    σ.Grows limit (c.place σ (.ofNat 32 a)) := by
  intro b hb
  cases hb.unique h
  refine ⟨a + 8, by omega, h.place hlimit hfit c, fun i hi => Alloc.byte_place ?_⟩
  rw [h.toNat]
  exact hi

namespace Outcome

variable {α β : Type} {f : α → Store} {g : β → Store}

/-- If there is a store after a computation, it has grown. -/
def GrownFrom (limit : Nat) (σ : Store) (store : α → Store) : Outcome α → Prop
  | next x => σ.Grows limit (store x)
  | returned _ τ => σ.Grows limit τ
  | _ => True

theorem GrownFrom.bind {x : Outcome α} {k : α → Outcome β} (hx : x.GrownFrom limit σ f)
    (hk : ∀ r, x = next r → (k r).GrownFrom limit (f r) g) : (x.bind k).GrownFrom limit σ g := by
  cases x with
  | next r =>
    have hr := hk r rfl
    simp only [next_bind]
    cases h : k r with
    | next y =>
      rw [h] at hr
      exact Store.Grows.trans hx hr
    | returned stack τ =>
      rw [h] at hr
      exact Store.Grows.trans hx hr
    | _ => trivial
  | _ => exact hx

/-- Only stores with a heap matter. -/
theorem GrownFrom.of_usedTo {x : Outcome α} (h : ∀ a, σ.UsedTo limit a → x.GrownFrom limit σ f) :
    x.GrownFrom limit σ f := by
  cases x with
  | next r => exact fun a hσ => h a hσ a hσ
  | returned stack τ => exact fun a hσ => h a hσ a hσ
  | _ => trivial

end Outcome

/-! ## Code that does not write -/

mutual

/-- An instruction neither writes to memory, nor moves the top of the heap. -/
def Instr.quiet : Instr String → Bool
  | .store _ _ | .globalSet _ => false
  | .call f => f ≠ Heap.alloc
  | .cond _ yes no => Code.quiet yes && Code.quiet no
  | _ => true
termination_by structural i => i

def Code.quiet : Code → Bool
  | [] => true
  | i :: c => i.quiet && Code.quiet c
termination_by structural c => c

end

/-- Every call but that of the allocator leaves what is in use as it was. -/
def Calls.Grow (limit : Nat) (calls : Calls) : Prop :=
  ∀ f, f ≠ Heap.alloc → ∀ stack σ, (calls f stack σ).GrownFrom limit σ Prod.snd

/-- Indirect calls do not reach the allocator. -/
def Module.HidesAlloc (m : Module) : Prop :=
  ∀ table type i f, m.target table type i = .next f → f ≠ Heap.alloc

section

variable {calls : Calls}

/-- Operators do not return. -/
theorem Op.apply_ne_returned (o : Op) (s stack : List Operand) (τ : Store) : o.apply ops s ≠ .returned stack τ := by
  intro h
  unfold Op.apply at h
  repeat' split at h
  all_goals cases h

theorem Frame.op_grown (o : Op) (s : Frame) : (s.op ops o).GrownFrom limit s.store Frame.store := by
  by_cases ho : o = .ret
  · subst ho
    exact Store.Grows.refl limit s.store
  · rw [Frame.op_eq ho]
    cases h : o.apply ops s.stack with
    | next stack => exact Store.Grows.refl limit s.store
    | returned stack τ => exact absurd h (o.apply_ne_returned _ _ _)
    | _ => trivial

theorem Frame.assign_grown (x : String) (v : Operand) (stack : List Operand) (s : Frame) :
    (s.assign x v stack).GrownFrom limit s.store Frame.store := by
  unfold Frame.assign
  split
  · split
    · exact Store.Grows.refl limit s.store
    · trivial
  · trivial

theorem Frame.load_grown (ty : ValType) (offset : Nat) (s : Frame) :
    (s.load ty offset).GrownFrom limit s.store Frame.store := by
  unfold Frame.load
  split
  · split
    · exact Store.Grows.refl limit s.store
    · trivial
  · trivial

theorem Frame.leaveBlock_grown (result : Option ValType) (around : List Operand) (s : Frame) :
    (s.leaveBlock result around).GrownFrom limit s.store Frame.store := by
  unfold Frame.leaveBlock
  split
  · exact Store.Grows.refl limit s.store
  · trivial

theorem Frame.call_grown (hcalls : calls.Grow limit) {f : String} (hf : f ≠ Heap.alloc) (s : Frame) :
    (s.call calls f).GrownFrom limit s.store Frame.store :=
  (hcalls f hf s.stack s.store).bind fun r _ => Store.Grows.refl limit r.2

theorem Frame.callIndirect_grown (hcalls : calls.Grow limit) (hm : m.HidesAlloc) (table type : String) (s : Frame) :
    (s.callIndirect m calls table type).GrownFrom limit s.store Frame.store := by
  unfold Frame.callIndirect
  split
  · rename_i i stack _
    obtain ⟨f, -, h, -⟩ | ⟨t, h⟩ | h := m.target_cases table type i
    · rw [h]
      exact Frame.call_grown hcalls (hm table type i f h) { s with stack := stack }
    · rw [h]
      trivial
    · rw [h]
      trivial
  · trivial

mutual

theorem Instr.exec_grown (hcalls : calls.Grow limit) (hm : m.HidesAlloc) :
    ∀ (i : Instr String) (s : Frame), i.quiet = true → (i.exec ops m calls s).GrownFrom limit s.store Frame.store
  | .op o, s, _ => by
    rw [Instr.exec]
    exact s.op_grown o
  | .i32Const _, s, _ | .f64Const _, s, _ => by
    rw [Instr.exec]
    exact Store.Grows.refl limit s.store
  | .localGet x, s, _ => by
    rw [Instr.exec, Frame.getLocal]
    split
    · exact Store.Grows.refl limit s.store
    · trivial
  | .localSet x, s, _ => by
    rw [Instr.exec, Frame.setLocal]
    split
    · exact s.assign_grown x _ _
    · trivial
  | .localTee x, s, _ => by
    rw [Instr.exec, Frame.teeLocal]
    split
    · exact s.assign_grown x _ _
    · trivial
  | .globalGet x, s, _ => by
    rw [Instr.exec, Frame.getGlobal]
    split
    · exact Store.Grows.refl limit s.store
    · trivial
  | .load ty offset, s, _ => by
    rw [Instr.exec]
    exact s.load_grown ty offset
  | .call f, s, h => by
    rw [Instr.exec]
    rw [Instr.quiet, decide_eq_true_eq] at h
    exact s.call_grown hcalls h
  | .callIndirect table type, s, _ => by
    rw [Instr.exec]
    exact s.callIndirect_grown hcalls hm table type
  | .cond result yes no, s, h => by
    rw [Instr.exec]
    rw [Instr.quiet, Bool.and_eq_true] at h
    split
    · rename_i w around _
      refine Outcome.GrownFrom.bind (f := Frame.store) ?_ fun t _ => t.leaveBlock_grown result around
      split
      · exact Code.exec_grown hcalls hm yes _ h.1
      · exact Code.exec_grown hcalls hm no _ h.2
    · trivial
  | .globalSet _, _, h | .store _ _, _, h => by
    rw [Instr.quiet] at h
    cases h
termination_by structural i => i

/-- **Code that does not write** leaves what is in use as it was, if the calls in it do. -/
theorem Code.exec_grown (hcalls : calls.Grow limit) (hm : m.HidesAlloc) :
    ∀ (c : Code) (s : Frame), c.quiet = true → (c.exec ops m calls s).GrownFrom limit s.store Frame.store
  | [], s, _ => by
    rw [Code.exec]
    exact Store.Grows.refl limit s.store
  | i :: c, s, h => by
    rw [Code.quiet, Bool.and_eq_true] at h
    rw [Code.exec]
    exact (Instr.exec_grown hcalls hm i s h.1).bind fun t _ => Code.exec_grown hcalls hm c t h.2
termination_by structural c => c

end

theorem Func.finish_grown {x : Outcome Frame} (f : Func) (below : List Operand)
    (h : x.GrownFrom limit σ Frame.store) : (f.finish below x).GrownFrom limit σ Prod.snd := by
  cases x with
  | next s =>
    rw [Func.finish_next]
    split
    · exact h
    · trivial
  | returned stack τ =>
    simp only [Func.finish]
    split
    · exact h
    · trivial
  | _ => trivial

end

/-! ## Calls -/

/-- The functions that write to memory or move the top of the heap. -/
def Library.writers : List String := [Heap.alloc, Pair.new, Floats.new]

/-- All code but that of three functions of the library is quiet. -/
structure Module.Careful (m : Module) : Prop where
  quiet : ∀ f fn, m.func? f = some fn → f ∈ writers ∨ fn.body.quiet = true
  tuple : (m.func? Pair.new).isSome → m.Supports .tuple
  float : (m.func? Floats.new).isSome → m.Supports .float
  hidesAlloc : m.HidesAlloc

/-- A call of a function that makes cells, if its outcome is known for the operands it takes. -/
theorem Module.grown_of_answers {n : Nat} {f : String} {stack : List Operand} (c : Alloc) (results : Word → List Operand)
    (hlimit : limit ≤ 2 ^ 27)
    (h : ∀ a, σ.globals Heap.top = some a → m.Answers ops f stack σ
      (if a.toNat + 8 ≤ σ.memory.size then .next (results a, c.place σ a) else .trap .storeOutOfBounds)) :
    (m.invoke ops n f stack σ).GrownFrom limit σ Prod.snd := by
  refine .of_usedTo fun a hσ => ?_
  have hanswers := h _ hσ.top
  rw [hσ.toNat, hσ.size] at hanswers
  by_cases hcut : m.invoke ops n f stack σ = .unfinished
  · rw [hcut]
    trivial
  · rw [(Module.Answers.of_invoke rfl hcut).unique hanswers]
    split
    · rename_i hfit
      exact c.grows_place hlimit hσ hfit
    · trivial

theorem Module.Supports.pairNew_grown (h : m.Supports .tuple) (hlimit : limit ≤ 2 ^ 27) (n : Nat) (stack : List Operand)
    (σ : Store) : (m.invoke ops n Pair.new stack σ).GrownFrom limit σ Prod.snd := by
  have hf : m.func? Pair.new = some _ := h .tuple (by decide) _ (.head _)
  match stack with
  | .word y :: .word x :: below =>
    exact grown_of_answers (.pair x y) (.word · :: below) hlimit fun a ha => .of_eq 2 fun n => invoke_pairNew h ha
  | [] | [_] | .double _ :: _ :: _ | .word _ :: .double _ :: _ =>
    cases n <;> simp [Module.invoke, hf, Func.words, Local.word, Outcome.GrownFrom]

theorem Module.Supports.floatNew_grown (h : m.Supports .float) (hlimit : limit ≤ 2 ^ 27) (n : Nat) (stack : List Operand)
    (σ : Store) : (m.invoke ops n Floats.new stack σ).GrownFrom limit σ Prod.snd := by
  have hf : m.func? Floats.new = some _ := h .float (by decide) _ (.head _)
  match stack with
  | .double x :: below =>
    exact grown_of_answers (.float x) (fun a => .word (.boxed a .float) :: below) hlimit fun a ha =>
      .of_eq 2 fun n => invoke_floatNew h ha
  | [] | .word _ :: _ =>
    cases n <;> simp [Module.invoke, hf, Outcome.GrownFrom]

/-- **No call writes to what is in use**, whatever it is given, unless it is one of the allocator. -/
theorem Module.Careful.invoke_grows (hm : m.Careful) (hlimit : limit ≤ 2 ^ 27) (n : Nat) :
    Calls.Grow limit (m.invoke ops n) := by
  induction n with
  | zero => exact fun _ _ _ _ => trivial
  | succ n ih =>
    intro f hf stack σ
    cases hfn : m.func? f with
    | none =>
      rw [Module.invoke, hfn]
      trivial
    | some fn =>
      rcases hm.quiet f fn hfn with hwriter | hquiet
      · simp only [writers, List.mem_cons, List.not_mem_nil, or_false] at hwriter
        rcases hwriter with rfl | rfl | rfl
        · exact absurd rfl hf
        · exact (hm.tuple (hfn ▸ rfl)).pairNew_grown hlimit (n + 1) stack σ
        · exact (hm.float (hfn ▸ rfl)).floatNew_grown hlimit (n + 1) stack σ
      · rw [Module.invoke, hfn]
        simp only
        split
        · trivial
        · exact fn.finish_grown _ (fn.body.exec_grown ih hm.hidesAlloc _ hquiet)

/-! ## The library -/

/-- Without types there are no indirect calls. -/
theorem Module.hidesAlloc_of_types (h : declared m.fields .types = []) : m.HidesAlloc := by
  intro table type i f htarget
  have hnone : m.signature? type = none := by
    refine List.findSome?_eq_none_iff.2 fun field hfield => ?_
    cases field with
    | type name signature =>
      have hmem : name ∈ declared m.fields .types := mem_declared.2 ⟨_, List.mem_reverse.1 hfield, rfl⟩
      rw [h] at hmem
      cases hmem
    | _ => rfl
  rw [Module.target, hnone] at htarget
  cases htarget

theorem supports_library (pages : Nat) (f : Feature) : (⟨library pages Feature.all⟩ : Module).Supports f :=
  (wellNamed_library pages Feature.ordered_all).supports Feature.ordered_all (fun _ h => h) f.mem_all

theorem careful_library (pages : Nat) : (⟨library pages Feature.all⟩ : Module).Careful := by
  have hquiet : ∀ g ∈ Feature.all, ∀ fn ∈ g.funcs, fn.name ∈ writers ∨ fn.body.quiet = true := by
    decide +kernel
  have htypes : ∀ g ∈ Feature.all, ∀ x, x ∉ g.declares .types := by
    decide +kernel
  refine ⟨fun f fn hfn => ?_, fun _ => supports_library pages .tuple, fun _ => supports_library pages .float,
    Module.hidesAlloc_of_types ?_⟩
  · obtain ⟨g, hg, hfield⟩ := mem_library.1 (Module.mem_funcs.1 (List.mem_of_find?_eq_some hfn))
    have hname : fn.name = f := by simpa using List.find?_some hfn
    exact hname ▸ hquiet g hg fn (Feature.funcs_component.1 hfield)
  · refine List.eq_nil_iff_forall_not_mem.2 fun x hx => ?_
    obtain ⟨g, hg, hxg⟩ := declared_library.1 hx
    exact htypes g hg x hxg

end WasmBackend
