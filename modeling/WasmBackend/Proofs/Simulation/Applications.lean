/-
Applications. A closure's code is called with the frames of the closure
itself and of its argument on top of the environment it was made in
(`Computes.app`).

A reduced function may leave its last environments current, which nobody sees
after it has returned (`Sim.of_popped`).
-/
import WasmBackend.Proofs.Simulation.Constructs
import WasmBackend.Proofs.Simulation.Reduced

namespace WasmBackend

open Library
open Eval (Grows)

open Peephole (Popped popCode)

/-! ## Pops at the end of a function -/

section

variable {ops : FloatOps} {m : Module} {n : Nat} {σ σ' : Store} {stk stk' : List Operand} {v : Operand}

/-- If the parent of an environment is found at all, nothing has changed but the operand on top. -/
theorem invoke_envParent_inv (hm : m.Supports .environment)
    (h : m.invoke ops n Env.parent (v :: stk) σ = .next (stk', σ')) : ∃ v', stk' = v' :: stk ∧ σ' = σ := by
  have hparent : m.func? Env.parent = some _ := hm .environment (by decide) _ (.tail _ (.tail _ (.head _)))
  have hfirst : m.func? Pair.first = some _ := hm .tuple (by decide) _ (.tail _ (.head _))
  cases n with
  | zero => cases h
  | succ n =>
    rw [Module.invoke] at h
    cases v with
    | double x => simp [hparent, Func.words, Local.word] at h
    | word a =>
      cases n with
      | zero => simp [hparent, Func.words, Local.word, List.lookup, Module.invoke] at h
      | succ n =>
        simp only [hparent, Func.words, Local.word, List.map_cons, List.map_nil, Module.invoke] at h
        by_cases hfit : a.toNat + 4 ≤ σ.memory.size
        · simp [List.lookup, hfirst, Func.words, Local.word, Frame.load, ValType.width, Operand.ofNumber, hfit] at h
          obtain ⟨rfl, rfl⟩ := h
          exact ⟨_, rfl, rfl⟩
        · simp [List.lookup, hfirst, Func.words, Local.word, Frame.load, ValType.width, hfit] at h

end

namespace Target

variable {T : Target} {n : Nat} {L : Layout} {arena : Arena} {s : Frame} {σ : Store} {stk : List Operand}
  {l : String → Option Operand} {w : Word} {frames : List (Option String)} {env : Bindings}

/-- Code that goes on to a pop goes on without it, to the same operands and memory. -/
theorem settles_of_pop (hm : T.module.Supports .environment) {c : Code} {t : Frame}
    (h : Code.Settles T.ops T.module (c ++ popCode) s (.next t)) :
    ∃ u, c.Settles T.ops T.module s (.next u) ∧ u.stack = t.stack ∧ u.store = t.store := by
  obtain ⟨d, hd⟩ := h
  have hrun := hd d (Nat.le_refl d)
  rw [Code.exec_append, Outcome.bind_eq_next] at hrun
  obtain ⟨u, hu, hpop⟩ := hrun
  refine ⟨u, .of_exec hu nofun, ?_⟩
  cases hcur : u.locals Env.current with
  | none => simp [popCode, hcur] at hpop
  | some v =>
    simp only [popCode, Code.exec_cons, Instr.exec, Frame.getLocal, hcur, Outcome.next_bind, Frame.push, Frame.call,
      Outcome.bind_assoc, Outcome.bind_eq_next] at hpop
    obtain ⟨r, hparent, hset⟩ := hpop
    obtain ⟨v', hstk, hstore⟩ := invoke_envParent_inv hm hparent
    obtain ⟨stk', σ'⟩ := r
    simp only at hstk hstore
    subst hstk hstore
    simp only [Code.exec_nil, Frame.setLocal, Frame.assign, hcur] at hset
    obtain ⟨t', hset, ht⟩ := hset
    cases ht
    split at hset
    · cases hset
      exact ⟨rfl, rfl⟩
    · cases hset

/-- Reduced code does what the code with its pops does, up to the locals it leaves. -/
theorem Sim.of_popped (hm : T.module.Supports .environment) (hr : T.reduced = true) {α : Type} {a b : Code}
    {r : EStateM.Result Stop Arena α} {Q : α → Layout → Frame → Prop} (h : Popped a b)
    (hQ : ∀ v L t u, u.stack = t.stack → Q v L t → Q v L u) (hb : T.Sim n L s b r Q) : T.Sim n L s a r Q := by
  induction h with
  | refl => exact hb
  | pop _ ih =>
    refine ih ?_
    cases r with
    | ok v arena =>
      rcases hb with ⟨L', t, ht, hext, hσ, hv⟩ | ⟨hlimit, -⟩
      · obtain ⟨u, hu, hstack, hstore⟩ := settles_of_pop hm ht
        exact .inl ⟨L', u, hu, hext, hstore ▸ hσ, hQ v L' t u hstack hv⟩
      · exact .inr ⟨hlimit, by simp [hr]⟩
    | error e arena => cases e <;> simp [Sim, hr]

/-! ## Calls of function literals -/

theorem lookup_locals {x : String} : ∀ {locals : List Local}, (∀ l ∈ locals, l.ty = .i32) →
    x ∈ locals.map (·.name) → (locals.map fun l => (l.name, Operand.zero l.ty)).lookup x = some (.word 0)
  | [], _, hx => by cases hx
  | y :: ys, hty, hx => by
    simp only [List.map_cons, List.lookup]
    by_cases hxy : x = y.name
    · simp [hxy, hty y (.head _)]
    · have hbeq : (x == y.name) = false := beq_false_of_ne hxy
      simp only [hbeq]
      exact lookup_locals (fun l hl => hty l (.tail _ hl)) (by simpa [hxy] using hx)

/-- The locals of a function literal at its start. -/
theorem Literal.enter {k : Nat} {f : Func} (hf : T.Literal k f) (w : Word) (stk : List Operand) :
    ∃ l, f.enter (.word w :: stk) = some (l, stk) ∧ l Env.current = some (.word w) ∧
      ∀ x ∈ f.declared, ∃ u, l x = some (.word u) := by
  refine ⟨fun x => ((Env.current, Operand.word w) :: f.locals.map fun l => (l.name, .zero l.ty)).lookup x,
    by simp [hf.params, Local.word], by simp [List.lookup], fun x hx => ?_⟩
  simp only [List.lookup]
  by_cases hcur : x = Env.current
  · exact ⟨w, by simp [hcur]⟩
  · have hbeq : (x == Env.current) = false := beq_false_of_ne hcur
    refine ⟨0, ?_⟩
    simp only [hbeq]
    refine lookup_locals hf.locals ?_
    simpa [Func.declared, hf.params, Local.word, hcur] using hx

/-- An indirect call to the function literal of a number. -/
theorem Literal.exec {k : Nat} {f : Func} (hf : T.Literal k f) (calls : Calls) :
    Code.exec T.ops T.module calls [.callIndirect Closures.table Closures.type] ⟨.word (.ofNat 32 k) :: stk, l, σ⟩ =
      Frame.call calls f.name ⟨stk, l, σ⟩ := by
  have hk : (BitVec.ofNat 32 k).toNat = k := by
    rw [BitVec.toNat_ofNat]
    exact Nat.mod_eq_of_lt hf.lt
  have hsignature : f.signature = ⟨[.i32], some .i32⟩ := by simp [Func.signature, hf.params, hf.result, Local.word]
  simp [Frame.callIndirect, Module.target, hk, hf.type, hf.slot, hf.func, hsignature]

/-- The code of a function literal runs in the environment it is called with. -/
theorem Sim.literal (hT : T.Sound) (hf : .closure ∈ T.features) {code : Code → Prop} {k : Nat} {x : Eval Datum}
    (hruns : T.Runs code k) (hbody : ∀ body, code body → T.Computes n frames env Yield.word.Shows body x)
    (hs : T.Holds L arena σ) (hc : L.Chain w frames env) :
    T.Sim (n + 1) L ⟨.word (.ofNat 32 k) :: .word w :: stk, l, σ⟩ [.callIndirect Closures.table Closures.type]
      (x arena) fun d L' t => ∃ v, L'.Represents v d ∧ t.stack = .word v :: stk ∧ t.locals = l := by
  obtain ⟨f, body, hlit, hcode, hfbody⟩ := hruns
  obtain ⟨lf, henter, hcur, hwords⟩ := hlit.enter w stk
  have hpopped : Popped f.body body := by
    rw [hfbody]
    split
    · exact Peephole.popped_dropPops body
    · exact .refl
  have hready : T.Ready L frames env body ⟨[], lf, σ⟩ := by
    refine ⟨fun x hx => ?_, fun _ => ⟨w, hcur, hc⟩⟩
    rcases hpopped.locals hx with hx | rfl
    · exact hwords x (hlit.wellScoped.refs x hx)
    · exact ⟨w, hcur⟩
  have hsim : T.Sim n L ⟨[], lf, σ⟩ body (x arena) fun d L' t => ∃ v, L'.Represents v d ∧ t.stack = [.word v] := by
    refine (hbody body hcode L arena ⟨[], lf, σ⟩ hs hready).mono fun d L' t _ hQ => ?_
    obtain ⟨⟨_, ⟨v, rfl, hv⟩, hstack⟩, -⟩ := hQ
    exact ⟨v, hv, hstack⟩
  have hsim' : T.Sim n L ⟨[], lf, σ⟩ f.body (x arena) fun d L' t => ∃ v, L'.Represents v d ∧ t.stack = [.word v] := by
    cases hr : T.reduced with
    | true =>
      exact hsim.of_popped (hT.supports _ (hT.needs _ hf _ (by decide))) hr hpopped
        fun d L' t u hstack ⟨v, hv, ht⟩ => ⟨v, hv, hstack.trans ht⟩
    | false =>
      rw [hr] at hfbody
      exact hfbody ▸ hsim
  refine Sim.call (fun calls => hlit.exec calls) hlit.func henter hlit.result hsim' fun d L' t _ hQ => ?_
  obtain ⟨v, hv, hstack⟩ := hQ
  exact ⟨v, hstack, v, hv, rfl, rfl⟩

/-! ## Applications -/

/-- All code that stands for a node does what the node does, with applications nested `n` deep. -/
def Bodies (T : Target) (n : Nat) : Prop :=
  ∀ node frames env code, Node.Emits T node .word frames code →
    T.Computes n frames env Yield.word.Shows code (node.evalWith T.meaning (T.meaning.apply n) env)

/-- The code that applies a closure to an argument. -/
def applyCode : Code := Emit.app [] []

/-- The environment of a closure, extended by the closure itself. -/
theorem Sim.newSelf (hT : T.Sound) (he : .environment ∈ T.features) (hs : T.Holds L arena σ) {c : Closure}
    {d : Datum} {v : Word} (hc : L.Chain w frames c.env) (hv : L.Represents v d) :
    T.Sim n L ⟨.word v :: .word w :: stk, l, σ⟩ [.call Env.new] (Eval.take 1 arena) fun _ L' t =>
      ∃ a, L'.Chain a (c.self :: frames) (c.self.toList.map (·, d) ++ c.env) ∧
        t.stack = .word a :: stk ∧ t.locals = l := by
  cases hself : c.self with
  | none =>
    refine (Sim.newFrame (x := "") hT (hT.allocator he) (hT.envNew he) hs hc hv).mono fun _ L' t _ hQ => ?_
    obtain ⟨a, -, -, hhidden, hstack, hlocals⟩ := hQ
    exact ⟨_, hhidden, hstack, hlocals⟩
  | some x =>
    refine (Sim.newFrame (x := x) hT (hT.allocator he) (hT.envNew he) hs hc hv).mono fun _ L' t _ hQ => ?_
    obtain ⟨a, -, hnamed, -, hstack, hlocals⟩ := hQ
    exact ⟨_, hnamed, hstack, hlocals⟩

theorem apply_closure (n id : Nat) (a : Datum) (arena : Arena) :
    T.meaning.apply (n + 1) (.closure id) a arena = match arena.closures[id]? with
      | some c => (Eval.take 1 >>= fun _ => Eval.take 1 >>= fun _ =>
          c.body.evalWith T.meaning (T.meaning.apply n) (c.scope (.closure id) a)) arena
      | none => .error .wrong arena := by
  rw [Meaning.apply, Eval.bind_apply]
  show (match arena.closures[id]? with | some c => _ | none => _ : Eval Datum) arena = _
  cases arena.closures[id]? <;> rfl

/-- A closure is applied in the scope that it gives its body. -/
theorem Sim.applyClosure (hT : T.Sound) (hf : .closure ∈ T.features) {c : Closure} {a : Datum} {va : Word}
    {p k id : Nat} (hbodies : T.Bodies n) (hs : T.Holds L arena s.store) (hplace : L.places[id]? = some p)
    (hpair : L.PairAt p w (.ofNat 32 k)) (hchain : L.Chain w frames c.env)
    (hruns : T.Runs (c.body.Emits T .word (some c.param :: c.self :: frames)) k) (hva : L.Represents va a)
    (hcallee : ∃ u, s.locals Emit.callee = some (.word u))
    (hargument : ∃ u, s.locals Emit.argument = some (.word u)) :
    T.Sim (n + 1) L { s with stack := .word (.boxed (.ofNat 32 p) .closure) :: .word va :: s.stack } applyCode
      ((Eval.take 1 >>= fun _ => Eval.take 1 >>= fun _ =>
        c.body.evalWith T.meaning (T.meaning.apply n) (c.scope (.closure id) a)) arena)
      (Pushes Yield.word.Shows s) := by
  obtain ⟨u, hu⟩ := hcallee
  obtain ⟨u', hu'⟩ := hargument
  have he : .environment ∈ T.features := hT.needs _ hf _ (by decide)
  have hne : Emit.callee ≠ Emit.argument := by decide
  have hgrows : (c.body.evalWith T.meaning (T.meaning.apply n) (c.scope (.closure id) a)).Grows :=
    Node.evalWith_grows (T.meaning.apply_grows n) _ _
  let l : String → Option Operand := fun z => if z = Emit.argument then some (.word va)
    else if z = Emit.callee then some (.word (.boxed (.ofNat 32 p) .closure)) else s.locals z
  have hcur : l Env.current = s.locals Env.current := rfl
  have hlcallee : l Emit.callee = some (.word (.boxed (.ofNat 32 p) .closure)) := rfl
  have hlargument : l Emit.argument = some (.word va) := rfl
  -- the closure's environment, with the closure to go on top
  have henv : Code.Settles T.ops T.module [.localSet Emit.callee, .localSet Emit.argument, .localGet Emit.callee,
      .call Closures.env, .localGet Emit.callee]
      { s with stack := .word (.boxed (.ofNat 32 p) .closure) :: .word va :: s.stack }
      (.next ⟨.word (.boxed (.ofNat 32 p) .closure) :: .word w :: s.stack, l, s.store⟩) :=
    .of_eq 2 fun _ => by
      simp [hu, hu', hne, hne.symm, invoke_closureEnv (hT.supports _ hf) (hpair.unbox hs.memory).1, l]
  have hcode : applyCode = ([.localSet Emit.callee, .localSet Emit.argument, .localGet Emit.callee,
      .call Closures.env, .localGet Emit.callee] : Code) ++ (([.call Env.new] : Code) ++
      (([.localGet Emit.argument] : Code) ++ (([.call Env.new] : Code) ++
      (([.localGet Emit.callee, .call Closures.index] : Code) ++
      [Instr.callIndirect Closures.table Closures.type])))) := rfl
  rw [hcode]
  refine Sim.prepend henv (.refl L) ?_
  refine Sim.bind (a := [.call Env.new]) (Sim.newSelf hT he hs hchain (.closure hplace))
    (fun _ => (Grows.take 1).bind fun _ => hgrows) fun _ arena₁ L₁ t₁ hext₁ hσ₁ _ hQ₁ => ?_
  obtain ⟨w₁, hself, hstack₁, hlocals₁⟩ := hQ₁
  obtain ⟨stk₁, l₁, σ₁⟩ := t₁
  simp only at hstack₁ hlocals₁
  subst hstack₁ hlocals₁
  have harg : Code.Settles T.ops T.module [.localGet Emit.argument] ⟨.word w₁ :: s.stack, l, σ₁⟩
      (.next ⟨.word va :: .word w₁ :: s.stack, l, σ₁⟩) := .of_eq 0 fun _ => by simp [hlargument]
  refine Sim.prepend harg (.refl L₁) ?_
  refine Sim.bind (a := [.call Env.new]) (Sim.newFrame (x := c.param) hT (hT.allocator he) (hT.envNew he) hσ₁ hself
    (hva.mono hext₁)) (fun _ => hgrows) fun _ arena₂ L₂ t₂ hext₂ hσ₂ _ hQ₂ => ?_
  obtain ⟨b, -, hscope, -, hstack₂, hlocals₂⟩ := hQ₂
  obtain ⟨stk₂, l₂, σ₂⟩ := t₂
  simp only at hstack₂ hlocals₂
  subst hstack₂ hlocals₂
  have hindex : Code.Settles T.ops T.module [.localGet Emit.callee, .call Closures.index]
      ⟨.word (.ofNat 32 b) :: s.stack, l, σ₂⟩
      (.next ⟨.word (.ofNat 32 k) :: .word (.ofNat 32 b) :: s.stack, l, σ₂⟩) :=
    .of_eq 2 fun _ => by
      simp [hlcallee, invoke_closureIndex (hT.supports _ hf) ((hpair.mono (hext₁.trans hext₂)).unbox hσ₂.memory).2]
  refine Sim.prepend hindex (.refl L₂) ?_
  refine (Sim.literal hT hf hruns (fun body hbody => hbodies c.body _ _ body hbody) hσ₂ hscope).mono
    fun d L' t _ hQ => ?_
  obtain ⟨v, hv, hstack, hlocals⟩ := hQ
  exact ⟨⟨_, ⟨v, rfl, hv⟩, hstack⟩, by rw [hlocals, hcur]⟩

theorem Sim.apply (hT : T.Sound) (hf : .closure ∈ T.features) {f a : Datum} {vf va : Word}
    (hbodies : ∀ m, n = m + 1 → T.Bodies m) (hs : T.Holds L arena s.store) (hvf : L.Represents vf f)
    (hva : L.Represents va a) (hcallee : ∃ u, s.locals Emit.callee = some (.word u))
    (hargument : ∃ u, s.locals Emit.argument = some (.word u)) :
    T.Sim n L { s with stack := .word vf :: .word va :: s.stack } applyCode (T.meaning.apply n f a arena)
      (Pushes Yield.word.Shows s) := by
  cases n with
  | zero =>
    obtain ⟨u, hu⟩ := hcallee
    obtain ⟨u', hu'⟩ := hargument
    have hne : Emit.callee ≠ Emit.argument := by decide
    refine .stop ?_
    simp [applyCode, Emit.app, hu, hu', hne, hne.symm, Module.invoke, Outcome.Ends]
  | succ n =>
    cases hvf with
    | @closure p id hplace =>
      rw [apply_closure]
      cases hc : arena.closures[id]? with
      | none => exact .wrong
      | some c =>
        obtain ⟨w, k, frames, hpair, hchain, hruns⟩ := hs.closure hc hplace
        exact Sim.applyClosure hT hf (hbodies n rfl) hs hplace hpair hchain hruns hva hcallee hargument
    | _ => exact .wrong

theorem Computes.app (hT : T.Sound) (hf : .closure ∈ T.features) (hbodies : ∀ m, n = m + 1 → T.Bodies m)
    {ca cf : Code} {x y : Eval Datum} (hx : T.Computes n frames env Yield.word.Shows ca x)
    (hy : T.Computes n frames env Yield.word.Shows cf y) (hgy : y.Grows) :
    T.Computes n frames env Yield.word.Shows (Emit.app ca cf)
      (x >>= fun a => y >>= fun f => T.meaning.apply n f a) := by
  show T.Computes n frames env Yield.word.Shows (ca ++ cf ++ applyCode) _
  refine hx.bind₂ (.shows _) hy hgy (fun a f => T.meaning.apply_grows n f a)
    fun a f L arena v w s hv hw hs hready => ?_
  obtain ⟨v, rfl, hv⟩ := hv
  obtain ⟨w, rfl, hw⟩ := hw
  exact Sim.apply hT hf hbodies hs hw hv (hready.words _ (by simp [applyCode, Emit.app, Instr.refs]))
    (hready.words _ (by simp [applyCode, Emit.app, Instr.refs]))

end Target

end WasmBackend
