/-
Making cells. Where the evaluation counts a cell, code makes a frame, a list
cell, a boxed float or a closure at the top of the heap, or there is no room
for it (`Sim.newPair`, `Sim.newClosure`, `Sim.box`). Names are found again
along the frames (`Layout.Chain.get`).
-/
import WasmBackend.Proofs.Simulation.Rules

namespace WasmBackend

open Library

namespace Layout

variable {L : Layout}

theorem toNat_top (L : Layout) : (BitVec.ofNat 32 L.top).toNat = L.top := by
  have := L.top_le
  rw [BitVec.toNat_ofNat]
  omega

/-- The environment in a new frame is below it. -/
theorem Chain.lt_top {w : Word} {frames : List (Option String)} {env : Bindings} (h : L.Chain w frames env) :
    w = Word.rootEnv ∨ w.toNat < L.top := by
  cases h with
  | root => exact .inl rfl
  | named ha | hidden ha =>
    have := ha.le_top
    rw [ha.toNat]
    omega

/-- A name is found as many frames out as its frame is. -/
theorem Chain.get (ops : FloatOps) {m : Module} (hm : m.Supports .environment) {σ : Store}
    (hσ : σ.memory = L.memory) {name : String} {w : Word} {frames : List (Option String)} {env : Bindings}
    (h : L.Chain w frames env) {k : Nat} (hk : frames.findIdx? (· = some name) = some k) :
    ∃ v d, env.lookup name = some d ∧ L.Represents v d ∧ ∀ n stk,
      m.invoke ops (n + k + 2) Env.get (.word (.ofNat 32 k) :: .word w :: stk) σ = .next (.word v :: stk, σ) := by
  have further {a j : Nat} {parent value v : Word} {rest : List (Option String)}
      (ha : L.PairAt a parent value) (hrest : rest.length < 2 ^ 27)
      (hj : rest.findIdx? (· = some name) = some j)
      (hget : ∀ n stk, m.invoke ops (n + j + 2) Env.get (.word (.ofNat 32 j) :: .word parent :: stk) σ =
        .next (.word v :: stk, σ)) (n : Nat) (stk : List Operand) :
      m.invoke ops (n + (j + 1) + 2) Env.get (.word (.ofNat 32 (j + 1)) :: .word (.ofNat 32 a) :: stk) σ =
        .next (.word v :: stk, σ) := by
    have hlt : j < rest.length := (List.findIdx?_eq_some_iff_findIdx_eq.1 hj).1
    refine invoke_envGet_further (n := n + j + 1) (x := parent) hm ?_ (by omega) (hget n [])
    rw [ha.toNat, hσ]
    exact ha.first
  induction h generalizing k with
  | root => simp at hk
  | @named a parent value x d frames env ha hp hd hc ih =>
    rw [List.findIdx?_cons] at hk
    by_cases hx : x = name
    · subst hx
      simp only [decide_true, if_true, Option.some.injEq] at hk
      subst hk
      refine ⟨value, d, by simp [List.lookup], hd, fun n stk => invoke_envGet_zero hm ?_⟩
      rw [ha.toNat, hσ]
      exact ha.second
    · have hsome : ¬ some x = some name := fun h => hx (Option.some.inj h)
      simp only [hsome, decide_false, Bool.false_eq_true, if_false, Option.map_eq_some_iff] at hk
      obtain ⟨j, hj, rfl⟩ := hk
      obtain ⟨v, d', hlookup, hv, hget⟩ := ih hj
      have hlen := (Chain.named (x := x) ha hp hd hc).length_le
      refine ⟨v, d', ?_, hv, further ha ?_ hj hget⟩
      · have hbeq : (name == x) = false := beq_false_of_ne (Ne.symm hx)
        simp only [List.lookup, hbeq, hlookup]
      · simp only [reduceCtorEq, and_false, false_or, List.length_cons] at hlen
        omega
  | @hidden a parent value frames env ha hp hc ih =>
    rw [List.findIdx?_cons] at hk
    simp only [reduceCtorEq, decide_false, Bool.false_eq_true, if_false, Option.map_eq_some_iff] at hk
    obtain ⟨j, hj, rfl⟩ := hk
    obtain ⟨v, d', hlookup, hv, hget⟩ := ih hj
    have hlen := (Chain.hidden ha hp hc).length_le
    refine ⟨v, d', hlookup, hv, further ha ?_ hj hget⟩
    simp only [reduceCtorEq, and_false, false_or, List.length_cons] at hlen
    omega

end Layout

namespace Target

variable {T : Target} {n : Nat} {L : Layout} {arena : Arena} {σ : Store}

/-- One more cell, wherever its contents come from. -/
theorem Holds.raise (h : T.Holds L arena σ) (ha : .allocator ∈ T.features) {memory : Memory} {hsize : memory.size = L.memory.size}
    {hfit : L.top + 8 ≤ L.memory.size} {hlim : L.top + 8 ≤ 2 ^ 27}
    (hbyte : ∀ i, i < L.top → memory.byte i = L.memory.byte i) :
    T.Holds (L.raise memory hsize hfit hlim) { arena with cells := arena.cells + 1 }
      { σ.setTop (.ofNat 32 L.top + 8) with memory := memory } where
  memory := rfl
  size ha := hsize.trans (h.size ha)
  top ha := by
    have hadd : BitVec.ofNat 32 L.top + 8#32 = .ofNat 32 (L.top + 8) := by
      rw [BitVec.ofNat_add]
    simp [Store.setTop, Layout.raise, hadd]
  start ha := Nat.le_trans (h.start ha) (Nat.le_add_right _ _)
  cells ha := by
    have := h.cells ha
    simp only [Layout.raise]
    omega
  exactly hr ha := by
    have := h.exactly hr ha
    simp only [Layout.raise]
    omega
  idle hno := absurd ha hno
  floats := h.floats
  lists := h.lists
  places := h.places
  closure {i c a} hc ha := by
    have hext : L.Extends (L.raise memory hsize hfit hlim) := Layout.extends_raise hbyte
    obtain ⟨env, k, frames, hpair, hchain, hruns⟩ := h.closure hc ha
    exact ⟨env, k, frames, hpair.mono hext, hchain.mono hext, hruns⟩

theorem Holds.addPair (h : T.Holds L arena σ) (ha : .allocator ∈ T.features) (x y : Word) (hfit : L.top + 8 ≤ L.memory.size)
    (hlim : L.top + 8 ≤ 2 ^ 27) :
    T.Holds (L.raise (L.memory.setPair L.top x y) rfl hfit hlim) { arena with cells := arena.cells + 1 }
      (σ.addPair (.ofNat 32 L.top) x y) := by
  rw [Store.addPair, h.memory, L.toNat_top]
  exact h.raise ha fun i hi => Memory.byte_setPair_of_lt hi

theorem Holds.addDouble (h : T.Holds L arena σ) (ha : .allocator ∈ T.features) (x : Double) (hfit : L.top + 8 ≤ L.memory.size)
    (hlim : L.top + 8 ≤ 2 ^ 27) :
    T.Holds (L.raise (L.memory.setNumber L.top 8 x.toNat) rfl hfit hlim)
      { arena with cells := arena.cells + 1 } (σ.addDouble (.ofNat 32 L.top) x) := by
  rw [Store.addDouble, h.memory, L.toNat_top]
  exact h.raise ha fun i hi => Memory.byte_setNumber_of_lt hi

/-- Reduced code may leave out a cell. -/
theorem Holds.skip (h : T.Holds L arena σ) (ha : .allocator ∈ T.features) (hr : T.reduced = true) :
    T.Holds L { arena with cells := arena.cells + 1 } σ :=
  { h with
    cells := fun ha => Nat.le_trans (h.cells ha) (by simp only; omega)
    exactly := fun hr' => by simp [hr] at hr'
    idle := fun hno => absurd ha hno }

/-- A closure at a place that is new. -/
theorem Holds.addPlace (h : T.Holds L arena σ) {a k : Nat} {env : Word} {c : Closure}
    {frames : List (Option String)} (ha : L.PairAt a env (.ofNat 32 k)) (hnew : a ∉ L.places)
    (hchain : L.Chain env frames c.env)
    (hruns : T.Runs (c.body.Emits T .word (some c.param :: c.self :: frames)) k) :
    T.Holds (L.addPlace a ⟨ha.start_le, ha.le_top⟩ hnew)
      { arena with closures := arena.closures ++ [c] } σ :=
  have hext : L.Extends (L.addPlace a ⟨ha.start_le, ha.le_top⟩ hnew) := Layout.extends_addPlace
  { h with
    places := by simp [Layout.addPlace, h.places]
    closure := by
      intro i c' a' hc ha'
      simp only [Layout.addPlace] at ha'
      by_cases hi : i < arena.closures.length
      · rw [List.getElem?_append_left hi] at hc
        rw [List.getElem?_append_left (h.places ▸ hi)] at ha'
        obtain ⟨env', k', frames', hpair, hchain', hruns'⟩ := h.closure hc ha'
        exact ⟨env', k', frames', hpair.mono hext, hchain'.mono hext, hruns'⟩
      · rw [List.getElem?_append_right (by omega), List.getElem?_singleton] at hc
        rw [List.getElem?_append_right (h.places ▸ by omega), List.getElem?_singleton] at ha'
        split at hc
        · split at ha'
          · cases hc
            cases ha'
            exact ⟨env, k, frames, ha.mono hext, hchain.mono hext, hruns⟩
          · cases ha'
        · cases hc }

/-! ## Code that makes cells -/

section

variable {s : Frame} {stk : List Operand} {l : String → Option Operand} {x y : Word} {α : Type}

/-- A call that makes one cell if it fits, beside an evaluation that counts one. -/
theorem Sim.alloc (hT : T.Sound) (ha : .allocator ∈ T.features) (hs : T.Holds L arena s.store) {f : String}
    {stk : List Operand} {σ : Store} {v : α} {arena' : Arena} {Q : α → Layout → Frame → Prop}
    (hcells : arena'.cells = arena.cells + 1)
    (hcall : T.module.Answers T.ops f s.stack s.store
      (if L.top + 8 ≤ L.memory.size then .next (stk, σ) else .trap .storeOutOfBounds))
    (hnext : L.top + 8 ≤ L.memory.size → L.top + 8 ≤ 2 ^ 27 →
      ∃ L', L.Extends L' ∧ T.Holds L' arena' σ ∧ Q v L' ⟨stk, s.locals, σ⟩) :
    T.Sim n L s [.call f] (.ok v arena') Q := by
  have hsize := hs.size ha
  have hrun := Code.Settles.call hcall
  by_cases hfit : L.top + 8 ≤ L.memory.size
  · have hlim : L.top + 8 ≤ 2 ^ 27 := Nat.le_trans hfit (hsize ▸ hT.limit_le)
    obtain ⟨L', hext, hσ, hQ⟩ := hnext hfit hlim
    rw [if_pos hfit] at hrun
    exact .inl ⟨L', _, hrun, hext, hσ, hQ⟩
  · rw [if_neg hfit] at hrun
    have htop := hs.cells ha
    exact .inr ⟨by omega, fun _ => hrun⟩

/-- A function that makes a pair and puts its address, or a box of it, on the stack. -/
def MakesPairs (T : Target) (f : String) (box : Word → Word) : Prop :=
  ∀ x y a stk σ, σ.globals Heap.top = some a → T.module.Answers T.ops f (.word y :: .word x :: stk) σ
    (if a.toNat + 8 ≤ σ.memory.size then .next (.word (box a) :: stk, σ.addPair a x y)
      else .trap .storeOutOfBounds)

theorem Sim.newPair (hT : T.Sound) (ha : .allocator ∈ T.features) {f : String} {box : Word → Word}
    (hf : T.MakesPairs f box) (hs : T.Holds L arena σ) (v : α) :
    T.Sim n L ⟨.word y :: .word x :: stk, l, σ⟩ [.call f] ((Eval.take 1 >>= fun _ => pure v) arena) fun a L' t =>
      a = v ∧ L'.PairAt L.top x y ∧ L'.places = L.places ∧
        t.stack = .word (box (.ofNat 32 L.top)) :: stk ∧ t.locals = l := by
  have hcall := hf x y _ stk σ (hs.top ha)
  rw [L.toNat_top, hs.memory] at hcall
  exact Sim.alloc (v := v) hT ha hs rfl hcall fun hfit hlim =>
    ⟨_, Layout.extends_raise fun i hi => Memory.byte_setPair_of_lt hi, hs.addPair ha x y hfit hlim,
      rfl, Layout.pairAt_raise (hs.start ha), rfl, rfl, rfl⟩

theorem Sound.envNew (hT : T.Sound) (h : .environment ∈ T.features) : T.MakesPairs Env.new id :=
  fun _ _ _ _ _ ha => .of_eq 3 fun _ => invoke_envNew (hT.supports _ h) ha

theorem Sound.listPush (hT : T.Sound) (h : .list ∈ T.features) : T.MakesPairs Lists.push (.boxed · .list) :=
  fun _ _ _ _ _ ha => .of_eq 3 fun _ => invoke_listPush (hT.supports _ h) ha

theorem Sound.closureNew (hT : T.Sound) (h : .closure ∈ T.features) :
    T.MakesPairs Closures.new (.boxed · .closure) :=
  fun _ _ _ _ _ ha => .of_eq 3 fun _ => invoke_closureNew (hT.supports _ h) ha

/-- Every feature builds on the allocator. -/
theorem Sound.allocator (hT : T.Sound) {f : Feature} (h : f ∈ T.features) : .allocator ∈ T.features :=
  hT.needs f h _ (by cases f <;> decide)

/-- A frame inside of an environment. -/
theorem Sim.newFrame (hT : T.Sound) (ha : .allocator ∈ T.features) {f : String} (hf : T.MakesPairs f id)
    (hs : T.Holds L arena σ) {x : String}
    {d : Datum} {w v : Word} {frames : List (Option String)} {env : Bindings} (hc : L.Chain w frames env)
    (hv : L.Represents v d) :
    T.Sim n L ⟨.word v :: .word w :: stk, l, σ⟩ [.call f] (Eval.take 1 arena) fun _ L' t =>
      ∃ a, L'.PairAt a w v ∧ L'.Chain (.ofNat 32 a) (some x :: frames) ((x, d) :: env) ∧
        L'.Chain (.ofNat 32 a) (none :: frames) env ∧ t.stack = .word (.ofNat 32 a) :: stk ∧ t.locals = l := by
  refine (Sim.newPair hT ha hf hs ()).mono fun _ L' t hext hQ => ?_
  obtain ⟨-, hpair, -, hstack, hlocals⟩ := hQ
  exact ⟨L.top, hpair, .named hpair hc.lt_top (hv.mono hext) (hc.mono hext),
    .hidden hpair hc.lt_top (hc.mono hext), hstack, hlocals⟩

/-- A closure of the current environment. -/
theorem Sim.newClosure (hT : T.Sound) (hf : .closure ∈ T.features) (hs : T.Holds L arena σ) {c : Closure}
    {k : Nat} {w : Word} {frames : List (Option String)} (hc : L.Chain w frames c.env)
    (hruns : T.Runs (c.body.Emits T .word (some c.param :: c.self :: frames)) k) :
    T.Sim n L ⟨.word (.ofNat 32 k) :: .word w :: stk, l, σ⟩ [.call Closures.new] (Eval.close c arena)
      fun d L' t => ∃ v, L'.Represents v d ∧ t.stack = .word v :: stk ∧ t.locals = l := by
  have hgrows (u : Unit) : Eval.Grows (modifyGet fun s : Arena =>
      (Datum.closure s.closures.length, { s with closures := s.closures ++ [c] }) : Eval Datum) := by
    intro s a s' h
    cases h
    exact Nat.le_refl _
  rw [← List.append_nil [Instr.call Closures.new], Eval.close]
  refine (Sim.newPair hT (hT.allocator hf) (hT.closureNew hf) hs ()).bind hgrows
    fun _ arena' L' t hext hσ _ hQ => ?_
  obtain ⟨-, hpair, hplaces, hstack, hlocals⟩ := hQ
  have hnew : L.top ∉ L'.places := by
    intro hmem
    have := L.place_lt _ (hplaces ▸ hmem)
    omega
  refine .inl ⟨_, t, .of_eq 0 fun _ => Code.exec_nil t, Layout.extends_addPlace,
    hσ.addPlace hpair hnew (hc.mono hext) hruns, _, .closure ?_, hstack, hlocals⟩
  have hlen := hσ.places
  simp [Layout.addPlace, ← hlen]

end

end Target

end WasmBackend
