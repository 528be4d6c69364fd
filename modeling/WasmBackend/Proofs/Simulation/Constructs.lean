/-
Code for one construct, from code for its parts. `Computes` says that code
does what a computation does and leaves one operand for its result on the
stack; there is one rule for each construct, which says so of the construct
if it holds of the parts.
-/
import WasmBackend.Proofs.Simulation.Cells

namespace WasmBackend

open Library
open Eval (Grows)

/-- The operand that code of a shape leaves for a value. -/
def Yield.Shows : Yield → Datum → Layout → Operand → Prop
  | word, d, L, v => ∃ w, v = .word w ∧ L.Represents w d
  | double, d, _, v => ∃ x, v = .double x ∧ d = .float x

/-- One operand for each result, wherever things are in memory. -/
def Operand.Is {α : Type} (φ : α → Operand) (a : α) (_ : Layout) (v : Operand) : Prop := v = φ a

/-- Code leaves one operand on top, and the environment as it was. -/
structure Pushes {α : Type} (R : α → Layout → Operand → Prop) (s : Frame) (a : α) (L : Layout) (t : Frame) :
    Prop where
  top : ∃ v, R a L v ∧ t.stack = v :: s.stack
  env : t.locals Env.current = s.locals Env.current

/-- What a block leaves on a stack of its own, it leaves on top of the operands around it. -/
theorem Pushes.leave {d : Datum} {s t : Frame} {L : Layout} {l : String → Option Operand} {σ : Store}
    (hl : l Env.current = s.locals Env.current) (h : Pushes Yield.word.Shows ⟨[], l, σ⟩ d L t) :
    ∃ w, t.stack = [.word w] ∧ Pushes Yield.word.Shows s d L ⟨.word w :: s.stack, t.locals, t.store⟩ := by
  obtain ⟨⟨v, ⟨w, rfl, hw⟩, hstack⟩, henv⟩ := h
  exact ⟨w, hstack, ⟨⟨_, ⟨w, rfl, hw⟩, rfl⟩, henv.trans hl⟩⟩

/-- What an operand shows, it shows in every layout that extends the one it was made in. -/
def Stable {α : Type} (R : α → Layout → Operand → Prop) : Prop :=
  ∀ a L L' v, L.Extends L' → R a L v → R a L' v

theorem Stable.is {α : Type} (φ : α → Operand) : Stable (Operand.Is φ) :=
  fun _ _ _ _ _ h => h

theorem Stable.shows (shape : Yield) : Stable shape.Shows := by
  intro d L L' v hext h
  cases shape with
  | word =>
    obtain ⟨w, rfl, hw⟩ := h
    exact ⟨w, rfl, hw.mono hext⟩
  | double => exact h

namespace Target

/-- Code does what a computation does, in scope of these names, and leaves its result on the stack. -/
def Computes (T : Target) (n : Nat) (frames : List (Option String)) (env : Bindings) {α : Type}
    (R : α → Layout → Operand → Prop) (code : Code) (x : Eval α) : Prop :=
  ∀ L arena s, T.Holds L arena s.store → T.Ready L frames env code s →
    T.Sim n L s code (x arena) (Pushes R s)

variable {T : Target} {n : Nat} {frames : List (Option String)} {env : Bindings} {α β γ : Type}
  {R : α → Layout → Operand → Prop} {S : β → Layout → Operand → Prop} {U : γ → Layout → Operand → Prop}
  {c l r tail : Code} {x : Eval α} {y : Eval β}

/-- Code is ready to run if code it is part of was, and the environment is that of then. -/
theorem Ready.mono {L L' : Layout} {code : Code} {s t : Frame} {a : List String}
    (h : T.Ready L frames env code s) (hsub : Code.refs c ⊆ Code.refs code) (hext : L.Extends L')
    (hl : LocalsKept a s.locals t.locals) (he : t.locals Env.current = s.locals Env.current) :
    T.Ready L' frames env c t where
  words x hx := by
    obtain ⟨w, hw⟩ := h.words x (hsub hx)
    have hty := hl.types x
    rw [hw] at hty
    cases ht : t.locals x with
    | none => simp [ht] at hty
    | some v =>
      cases v with
      | word w' => exact ⟨w', rfl⟩
      | double _ => simp [ht] at hty
  env hfeature := by
    obtain ⟨w, hw, hchain⟩ := h.env hfeature
    exact ⟨w, he.trans hw, hchain.mono hext⟩

/-- A part of code is ready where the whole is. -/
theorem Ready.part {L : Layout} {code : Code} {s : Frame} (h : T.Ready L frames env code s)
    (hsub : Code.refs c ⊆ Code.refs code) (stk : List Operand) : T.Ready L frames env c { s with stack := stk } :=
  h.mono hsub (.refl L) (.refl s.locals) rfl

/-- The locals with another environment. -/
def withEnv (locals : String → Option Operand) (w : Word) (x : String) : Option Operand :=
  if x = Env.current then some (.word w) else locals x

/-- Code is ready in another scope once its environment is the current one. -/
theorem Ready.enter {L : Layout} {s : Frame} {w : Word} {frames' : List (Option String)} {env' : Bindings}
    (h : T.Ready L frames env c s) (hc : L.Chain w frames' env') (stk : List Operand) :
    T.Ready L frames' env' c ⟨stk, withEnv s.locals w, s.store⟩ where
  words x hx := by
    by_cases hcur : x = Env.current
    · exact ⟨w, by simp [withEnv, hcur]⟩
    · simpa [withEnv, hcur] using h.words x hx
  env _ := ⟨w, by simp [withEnv], hc⟩

/-- Code that goes on with one more operand. -/
theorem Sim.push {L : Layout} {arena : Arena} {s s' : Frame} {code : Code} {a : α} {v : Operand}
    (h : code.Settles T.ops T.module s' (.next { s with stack := v :: s.stack }))
    (hs : T.Holds L arena s.store) (hv : R a L v) : T.Sim n L s' code (.ok a arena) (Pushes R s) :=
  .next h hs ⟨⟨v, hv, rfl⟩, rfl⟩

/-- **Code after code**: what comes next finds the operand on top. -/
theorem Computes.bind {f : α → Eval γ} (hx : T.Computes n frames env R c x) (hf : ∀ a, (f a).Grows)
    (htail : ∀ a L arena v s, R a L v → T.Holds L arena s.store → T.Ready L frames env tail s →
      T.Sim n L { s with stack := v :: s.stack } tail (f a arena) (Pushes U s)) :
    T.Computes n frames env U (c ++ tail) (x >>= f) := by
  intro L arena s hs hready
  refine (hx L arena s hs (hready.part (by simp) s.stack)).bind hf fun a arena' L' t hext hσ hl hQ => ?_
  obtain ⟨⟨v, hv, hstack⟩, henv⟩ := hQ
  have htail' := htail a L' arena' v { t with stack := s.stack } hv hσ (hready.mono (by simp) hext hl henv)
  rw [← hstack] at htail'
  exact htail'.mono fun b L'' u _ hu => ⟨hu.top, hu.env.trans henv⟩

/-- The same where the computation goes on with a second operand. -/
theorem Computes.bind₂ {f : α → β → Eval γ} (hx : T.Computes n frames env R l x) (hR : Stable R)
    (hy : T.Computes n frames env S r y) (hgy : y.Grows) (hf : ∀ a b, (f a b).Grows)
    (htail : ∀ a b L arena v w s, R a L v → S b L w → T.Holds L arena s.store → T.Ready L frames env tail s →
      T.Sim n L { s with stack := w :: v :: s.stack } tail (f a b arena) (Pushes U s)) :
    T.Computes n frames env U (l ++ r ++ tail) (x >>= fun a => y >>= fun b => f a b) := by
  rw [List.append_assoc]
  refine hx.bind (fun a => hgy.bind (hf a)) fun a L arena v s hv hs hready => ?_
  refine (hy L arena { s with stack := v :: s.stack } hs (hready.part (by simp) _)).bind (hf a)
    fun b arena' L' t hext hσ hl hQ => ?_
  obtain ⟨⟨w, hw, hstack⟩, henv⟩ := hQ
  have htail' := htail a b L' arena' v w { t with stack := s.stack } (hR _ _ _ _ hext hv) hw hσ
    (hready.mono (by simp) hext hl henv)
  rw [← hstack] at htail'
  exact htail'.mono fun b L'' u _ hu => ⟨hu.top, hu.env.trans henv⟩

/-- Code that only replaces the operand on top. -/
theorem Computes.step {U : α → Layout → Operand → Prop} (hx : T.Computes n frames env R c x)
    (htail : ∀ a L v stk locals σ, R a L v → σ.memory = L.memory → ∃ v', U a L v' ∧
      tail.Settles T.ops T.module ⟨v :: stk, locals, σ⟩ (.next ⟨v' :: stk, locals, σ⟩)) :
    T.Computes n frames env U (c ++ tail) x := by
  have hbind : T.Computes n frames env U (c ++ tail) (x >>= pure) := by
    refine hx.bind (fun a => .pure a) fun a L arena v s hv hs _ => ?_
    obtain ⟨v', hv', hrun⟩ := htail a L v s.stack s.locals s.store hv hs.memory
    exact .push hrun hs hv'
  rwa [bind_pure] at hbind

/-- A value is looked at as one of its kind; all else is wrong. -/
theorem Computes.view {view : α → Eval β} (hx : T.Computes n frames env R c x)
    (hview : ∀ a arena, view a arena = .error .wrong arena ∨
      ∃ b, view a arena = .ok b arena ∧ ∀ L v, R a L v → S b L v) :
    T.Computes n frames env S c (x >>= view) := by
  have hgrows (a : α) : (view a).Grows := by
    intro s b s' h
    rcases hview a s with hw | ⟨b', hb', -⟩
    · rw [hw] at h
      cases h
    · rw [hb'] at h
      cases h
      exact Nat.le_refl _
  rw [← List.append_nil c]
  refine hx.bind hgrows fun a L arena v s hv hs _ => ?_
  rcases hview a arena with hw | ⟨b, hb, hRS⟩
  · rw [hw]
    exact .wrong
  · rw [hb]
    exact .push (.of_eq 0 fun _ => Code.exec_nil _) hs (hRS L v hv)

/-! ## Operands of one kind -/

section

variable {d : Eval Datum}

theorem Computes.int (h : T.Computes n frames env Yield.word.Shows c d) :
    T.Computes n frames env (Operand.Is fun a => .word (.pack a)) c (d >>= Eval.toInt) := by
  refine h.view fun v arena => ?_
  cases v with
  | int a =>
    refine .inr ⟨a, rfl, fun L v hv => ?_⟩
    obtain ⟨w, rfl, hw⟩ := hv
    cases hw
    rfl
  | _ => exact .inl rfl

theorem Computes.bool (h : T.Computes n frames env Yield.word.Shows c d) :
    T.Computes n frames env (Operand.Is fun b => .word (.bool b)) c (d >>= Eval.toBool) := by
  refine h.view fun v arena => ?_
  cases v with
  | bool b =>
    refine .inr ⟨b, rfl, fun L v hv => ?_⟩
    obtain ⟨w, rfl, hw⟩ := hv
    cases hw
    rfl
  | _ => exact .inl rfl

theorem Computes.list (h : T.Computes n frames env Yield.word.Shows c d) :
    T.Computes n frames env (fun ds => Yield.word.Shows (.list ds)) c (d >>= Eval.toList) := by
  refine h.view fun v arena => ?_
  cases v with
  | list ds => exact .inr ⟨ds, rfl, fun _ _ hv => hv⟩
  | _ => exact .inl rfl

/-- An operand of an operation on doubles, which is unboxed if it has been boxed. -/
theorem Computes.double (hT : T.Sound) (hf : .float ∈ T.features) {code : Yield → Code → Prop}
    (h : ∀ shape c, (shape = .double → T.reduced = true) → code shape c →
      T.Computes n frames env shape.Shows c d)
    (hc : T.Unboxed code c) : T.Computes n frames env (Operand.Is .double) c (d >>= Eval.toDouble) := by
  rcases hc with ⟨c₀, hc₀, rfl⟩ | ⟨hr, hc⟩
  · have hbox : T.Computes n frames env (fun x => Yield.word.Shows (.float x)) c₀ (d >>= Eval.toDouble) := by
      refine (h .word c₀ (by simp) hc₀).view fun v arena => ?_
      cases v with
      | float x => exact .inr ⟨x, rfl, fun _ _ hv => hv⟩
      | _ => exact .inl rfl
    refine hbox.step fun x L v stk locals σ hv hσ => ?_
    obtain ⟨w, rfl, hw⟩ := hv
    cases hw with
    | @float a _ hfl ha =>
      have hload : σ.memory.loadDouble (Word.boxed (.ofNat 32 a) .float).address = .ok x := by
        rw [Word.address_boxed (Nat.lt_trans ha.lt (by decide)), hσ]
        exact ha.value
      refine ⟨.double x, rfl, ?_⟩
      exact .call_next (.of_eq 1 fun n => invoke_floatGet (hT.supports _ hf) hload)
  · refine (h .double c (fun _ => hr) hc).view fun v arena => ?_
    cases v with
    | float x =>
      refine .inr ⟨x, rfl, fun L v hv => ?_⟩
      obtain ⟨y, rfl, hy⟩ := hv
      cases hy
      rfl
    | _ => exact .inl rfl

end

/-! ## Literals and arithmetic -/

section

variable {d e : Eval Datum}

/-- Code that is one constant. -/
theorem Computes.const {a : α} {i : Instr String} {v : Operand}
    (hi : ∀ calls s, Code.exec T.ops T.module calls [i] s = .next (s.push v)) (hv : ∀ L, R a L v) :
    T.Computes n frames env R [i] (pure a) :=
  fun L _ s hs _ => .push (.of_eq 0 fun _ => hi _ s) hs (hv L)

/-- A double gets its box, unless it is to stay as it is. -/
theorem Sim.box (hT : T.Sound) (hf : .float ∈ T.features) {shape : Yield}
    (hshape : shape = .double → T.reduced = true) {L : Layout} {arena : Arena} {s : Frame} (z : Double)
    (hs : T.Holds L arena s.store) :
    T.Sim n L { s with stack := .double z :: s.stack } shape.box (Eval.float z arena) (Pushes shape.Shows s) := by
  cases shape with
  | double =>
    exact .push (.of_eq 0 fun _ => Code.exec_nil _) (hs.skip (hT.allocator hf) (hshape rfl)) ⟨z, rfl, rfl⟩
  | word =>
    have ha := hT.allocator hf
    have hcall : T.module.Answers T.ops Floats.new (.double z :: s.stack) s.store _ :=
      .of_eq 2 fun n => invoke_floatNew (hT.supports _ hf) (hs.top ha)
    rw [L.toNat_top, hs.memory] at hcall
    exact Sim.alloc (s := { s with stack := .double z :: s.stack }) hT ha hs rfl hcall fun hfit hlim =>
      ⟨_, Layout.extends_raise fun i hi => Memory.byte_setNumber_of_lt hi, hs.addDouble (hT.allocator hf) z hfit hlim,
        ⟨⟨_, ⟨_, rfl, .float (by simpa [Layout.raise, hs.floats] using hf)
          (Layout.doubleAt_raise (hs.start ha))⟩, rfl⟩, rfl⟩⟩

theorem Computes.floatLit (hT : T.Sound) (hf : .float ∈ T.features) {shape : Yield}
    (hshape : shape = .double → T.reduced = true) (z : Double) :
    T.Computes n frames env shape.Shows (.f64Const z :: shape.box) (Eval.float z) := by
  intro L arena s hs _
  have hconst : Code.Settles T.ops T.module [.f64Const z] s (.next (s.push (.double z))) :=
    .of_eq 0 fun _ => by simp
  exact (Sim.box hT hf hshape z hs).prepend hconst (.refl L)

theorem Computes.neg (h : T.Computes n frames env Yield.word.Shows c d) :
    T.Computes n frames env Yield.word.Shows (Emit.neg c) (d >>= fun d => Eval.toInt d >>= fun a =>
      pure (.int (-a))) := by
  intro L arena s hs hready
  have hconst : Code.Settles T.ops T.module [.i32Const 2] s (.next (s.push (.word 2))) :=
    .of_eq 0 fun _ => by simp
  have hsub : Code.refs c ⊆ Code.refs (Emit.neg c) := by simp [Emit.neg]
  refine Sim.prepend (b := c ++ [Instr.op .i32Sub]) hconst (.refl L) ?_
  rw [← bind_assoc]
  refine (h.int L arena (s.push (.word 2)) hs (hready.part hsub _)).bind (fun a => .pure _)
    fun a arena' L' t hext hσ hl hQ => ?_
  obtain ⟨⟨v, rfl, hstack⟩, henv⟩ := hQ
  refine .next (t := { t with stack := .word (.pack (-a)) :: s.stack }) (.of_eq 0 fun _ => ?_) hσ
    ⟨⟨_, ⟨_, rfl, .int (-a)⟩, rfl⟩, henv⟩
  simp [hstack, ← Word.pack_neg]

theorem Computes.floatNeg (hT : T.Sound) (hf : .float ∈ T.features) {shape : Yield}
    (hshape : shape = .double → T.reduced = true)
    (h : T.Computes n frames env (Operand.Is .double) c (d >>= Eval.toDouble)) :
    T.Computes n frames env shape.Shows (c ++ .op .f64Neg :: shape.box)
      (d >>= fun d => Eval.toDouble d >>= fun z => Eval.float (T.ops.neg z)) := by
  rw [← bind_assoc]
  refine h.bind (fun z => .float _) fun z L arena v s hv hs _ => ?_
  cases hv
  have hop : Code.Settles T.ops T.module [.op .f64Neg] { s with stack := .double z :: s.stack }
      (.next { s with stack := .double (T.ops.neg z) :: s.stack }) := .of_eq 0 fun _ => by simp
  exact (Sim.box hT hf hshape _ hs).prepend hop (.refl L)

theorem Computes.floatOp (hT : T.Sound) (hf : .float ∈ T.features) {shape : Yield}
    (hshape : shape = .double → T.reduced = true) (o : FloatOp)
    (hd : T.Computes n frames env (Operand.Is .double) l (d >>= Eval.toDouble))
    (he : T.Computes n frames env (Operand.Is .double) r (e >>= Eval.toDouble)) (hge : e.Grows) :
    T.Computes n frames env shape.Shows (l ++ r ++ .op (Emit.floatInstr o) :: shape.box)
      (d >>= fun d => Eval.toDouble d >>= fun z => e >>= fun e => Eval.toDouble e >>= fun z' =>
        Eval.float (T.ops.arith o z z')) := by
  suffices hbind : T.Computes n frames env shape.Shows (l ++ r ++ .op (Emit.floatInstr o) :: shape.box)
      ((d >>= Eval.toDouble) >>= fun z => (e >>= Eval.toDouble) >>= fun z' => Eval.float (T.ops.arith o z z')) by
    simpa only [bind_assoc] using hbind
  refine hd.bind₂ (.is _) he (hge.bind .toDouble) (fun _ _ => .float _) fun z z' L arena v w s hv hw hs _ => ?_
  cases hv
  cases hw
  have hop : Code.Settles T.ops T.module [.op (Emit.floatInstr o)]
      { s with stack := .double z' :: .double z :: s.stack }
      (.next { s with stack := .double (T.ops.arith o z z') :: s.stack }) :=
    .of_eq 0 fun _ => by cases o <;> rfl
  exact (Sim.box hT hf hshape _ hs).prepend hop (.refl L)

/-- Integers are taken out of their words for products and quotients. -/
theorem Computes.untag {a : Eval (BitVec 31)}
    (h : T.Computes n frames env (Operand.Is fun a => .word (.pack a)) c a) :
    T.Computes n frames env (Operand.Is fun a : BitVec 31 => .word (a.signExtend 32)) (c ++ Emit.untag) a := by
  refine h.step fun a L v stk locals σ hv _ => ⟨_, rfl, .of_eq 0 fun _ => ?_⟩
  cases hv
  have hunpack : (Word.pack a).sshiftRight 1 = a.signExtend 32 := Word.unpack_pack a
  simp [Emit.untag, hunpack]

theorem retag_settles (a : Word) (s : Frame) :
    Code.Settles T.ops T.module Emit.retag { s with stack := .word a :: s.stack }
      (.next { s with stack := .word (.int a) :: s.stack }) :=
  .of_eq 0 fun _ => by simp [Emit.retag, Word.int, Word.intFlag]

theorem Computes.intOp (o : IntOp) (hd : T.Computes n frames env Yield.word.Shows l d)
    (he : T.Computes n frames env Yield.word.Shows r e) (hge : e.Grows) :
    T.Computes n frames env Yield.word.Shows (Emit.intOp o l r)
      (d >>= fun d => Eval.toInt d >>= fun a => e >>= fun e => Eval.toInt e >>= fun b => o.eval a b) := by
  have hgrows : (e >>= Eval.toInt).Grows := hge.bind .toInt
  simp only [← bind_assoc]
  cases o with
  | add =>
    refine hd.int.bind₂ (.is _) he.int hgrows (IntOp.add.eval_grows) fun a b L arena v w s hv hw hs _ => ?_
    cases hv
    cases hw
    refine .push (.of_eq 0 fun _ => ?_) hs ⟨_, rfl, .int (a + b)⟩
    simp [← Word.pack_add]
  | sub =>
    refine hd.int.bind₂ (.is _) he.int hgrows (IntOp.sub.eval_grows) fun a b L arena v w s hv hw hs _ => ?_
    cases hv
    cases hw
    refine .push (.of_eq 0 fun _ => ?_) hs ⟨_, rfl, .int (a - b)⟩
    simp [← Word.pack_sub]
  | mul =>
    have hcode : Emit.intOp .mul l r = (l ++ Emit.untag) ++ (r ++ Emit.untag) ++ (.op .i32Mul :: Emit.retag) := by
      simp [Emit.intOp]
    rw [hcode]
    refine hd.int.untag.bind₂ (.is _) he.int.untag hgrows (IntOp.mul.eval_grows)
      fun a b L arena v w s hv hw hs _ => ?_
    cases hv
    cases hw
    have hop : Code.Settles T.ops T.module [.op .i32Mul]
        { s with stack := .word (b.signExtend 32) :: .word (a.signExtend 32) :: s.stack }
        (.next { s with stack := .word (a.signExtend 32 * b.signExtend 32) :: s.stack }) :=
      .of_eq 0 fun _ => by simp
    refine .push (hop.append (retag_settles _ s)) hs ⟨_, rfl, ?_⟩
    rw [Word.pack_mul]
    exact .int (a * b)
  | div =>
    have hcode : Emit.intOp .div l r = (l ++ Emit.untag) ++ (r ++ Emit.untag) ++ (.op .i32DivS :: Emit.retag) := by
      simp [Emit.intOp]
    rw [hcode]
    refine hd.int.untag.bind₂ (.is _) he.int.untag hgrows (IntOp.div.eval_grows)
      fun a b L arena v w s hv hw hs _ => ?_
    cases hv
    cases hw
    simp only [IntOp.eval]
    split
    · rename_i hb
      refine .stop ?_
      have hzero : b.signExtend 32 = 0#32 := Word.signExtend_eq_zero.2 hb
      simp [Op.apply, hzero, Outcome.Ends]
    · rename_i hb
      have hne : ¬ b.signExtend 32 = 0#32 := fun h => hb (Word.signExtend_eq_zero.1 h)
      have hop : Code.Settles T.ops T.module [.op .i32DivS]
          { s with stack := .word (b.signExtend 32) :: .word (a.signExtend 32) :: s.stack }
          (.next { s with stack := .word ((a.signExtend 32).sdiv (b.signExtend 32)) :: s.stack }) :=
        .of_eq 0 fun _ => by simp [Op.apply, hne, Word.signExtend_ne_intMin]
      refine .push (hop.append (retag_settles _ s)) hs ⟨_, rfl, ?_⟩
      rw [Word.pack_div]
      exact .int (a.sdiv b)

/-! ## Comparisons and branches -/

theorem toBool_settles (b : Bool) (s : Frame) :
    Code.Settles T.ops T.module Emit.toBool { s with stack := .ofBool b :: s.stack }
      (.next { s with stack := .word (.bool b) :: s.stack }) :=
  .of_eq 0 fun _ => by cases b <;> simp [Emit.toBool, Operand.ofBool, Word.bool, Word.falseWord]

/-- The words of integers and booleans are odd or zero. -/
theorem unboxed_of_isWord {L : Layout} {w : Word} {d : Datum} (h : L.Represents w d) (hd : d.isWord = true) :
    w &&& Word.intFlag ≠ 0#32 ∨ w = 0#32 := by
  cases h with
  | int a =>
    rw [Word.pack_and_intFlag]
    exact .inl (by decide)
  | bool b => cases b <;> decide
  | _ => simp [Datum.isWord] at hd

/-- A comparison leaves one or zero, whether it looks at tags or not. -/
theorem compare_settles (hT : T.Sound) {L : Layout} {arena : Arena} {s : Frame} {k : Comparison} {words : Bool}
    {d e : Datum} {v w : Word} {b : Bool} (hs : T.Holds L arena s.store) (hv : L.Represents v d)
    (hw : L.Represents w e) (hb : d.holds? T.ops k e = some b) (hd : words = true → d.isWord = true)
    (hk : words = false → k ∈ T.comparisons) :
    Code.Settles T.ops T.module [if words then .op k.wordOp else .call (Compare.function k)]
      { s with stack := .word w :: .word v :: s.stack } (.next { s with stack := .ofBool b :: s.stack }) := by
  obtain ⟨verdict, hverdict, rfl⟩ := Option.map_eq_some_iff.1 hb
  cases words with
  | true =>
    have hunboxed := unboxed_of_isWord hv (hd rfl)
    have hret : k.wordOp ≠ .ret := by cases k <;> decide
    refine .of_eq 0 fun _ => ?_
    rw [← Word.verdict_represented (c := k) hv hw hunboxed hverdict]
    simp [-Frame.op, Frame.op_eq hret, Op.apply_wordOp]
  | false =>
    have hclosure : k ∈ Compare.closure T.request :=
      Comparison.mem_closure.2 (by simp [Compare.needs, request, hk rfl])
    exact .call_next (compare_represented hT.compares hs.floats.symm.trans hs.lists.symm.trans
      hs.memory hclosure hv hw hverdict s.stack)

theorem Computes.compare (hT : T.Sound) (k : Comparison) (words : Bool)
    (hk : words = false → k ∈ T.comparisons) (hd : T.Computes n frames env Yield.word.Shows l d)
    (he : T.Computes n frames env Yield.word.Shows r e) (hge : e.Grows) :
    T.Computes n frames env Yield.word.Shows
      (l ++ r ++ ([if words then .op k.wordOp else .call (Compare.function k)] ++ Emit.toBool))
      (d >>= fun d => e >>= fun e => if words && !(d.isWord && e.isWord) then Eval.wrong
        else match d.holds? T.ops k e with
          | some b => pure (.bool b)
          | none => Eval.wrong) := by
  refine hd.bind₂ (.shows _) he hge (fun d e => ?_) fun d e L arena v w s hv hw hs _ => ?_
  · split
    · exact .throw _
    · split
      · exact .pure _
      · exact .throw _
  · obtain ⟨v, rfl, hv⟩ := hv
    obtain ⟨w, rfl, hw⟩ := hw
    by_cases hwords : (words && !(d.isWord && e.isWord)) = true
    · rw [if_pos hwords]
      exact .wrong
    · rw [if_neg hwords]
      cases hb : d.holds? T.ops k e with
      | none => exact .wrong
      | some b =>
        have hword : words = true → d.isWord = true := by
          rintro rfl
          cases hd : d.isWord <;> simp_all
        exact .push ((compare_settles hT hs hv hw hb hword hk).append (toBool_settles b s)) hs
          ⟨_, rfl, .bool b⟩

/-- One of two codes, each on a stack of its own. -/
theorem Computes.branch {b : Eval Bool} {yes no : Code}
    (hb : T.Computes n frames env (Operand.Is fun b => .word (.bool b)) c b)
    (hd : T.Computes n frames env Yield.word.Shows yes d) (hgd : d.Grows)
    (he : T.Computes n frames env Yield.word.Shows no e) (hge : e.Grows) :
    T.Computes n frames env Yield.word.Shows (c ++ [Instr.condWord yes no]) (b >>= fun b => if b then d else e) := by
  have hgrows (b : Bool) : (if b then d else e).Grows := by
    cases b
    · exact hge
    · exact hgd
  refine hb.bind hgrows fun b L arena v s hv hs hready => ?_
  cases hv
  cases b with
  | true =>
    have hyes := hd L arena ⟨[], s.locals, s.store⟩ hs (hready.part (by simp [Instr.condWord, Instr.refs]) _)
    exact Sim.cond (c := Word.bool true) hyes fun _ _ _ _ => Pushes.leave rfl
  | false =>
    have hno := he L arena ⟨[], s.locals, s.store⟩ hs (hready.part (by simp [Instr.condWord, Instr.refs]) _)
    exact Sim.cond (c := Word.bool false) hno fun _ _ _ _ => Pushes.leave rfl

/-- A boolean that is given back as it is. -/
theorem Computes.asBool (h : T.Computes n frames env Yield.word.Shows c d) :
    T.Computes n frames env Yield.word.Shows c (d >>= fun d => Eval.toBool d >>= fun b => pure (.bool b)) := by
  refine h.view fun v arena => ?_
  cases v with
  | bool b => exact .inr ⟨.bool b, rfl, fun _ _ hv => hv⟩
  | _ => exact .inl rfl

theorem Computes.boolLit (b : Bool) :
    T.Computes n frames env Yield.word.Shows [.i32Const (.bool b)] (pure (.bool b)) :=
  .const (fun _ _ => by simp) fun _ => ⟨_, rfl, .bool b⟩

theorem Computes.and (hd : T.Computes n frames env Yield.word.Shows l d)
    (he : T.Computes n frames env Yield.word.Shows r e) (hge : e.Grows) :
    T.Computes n frames env Yield.word.Shows (Emit.and l r) (d >>= fun d => Eval.toBool d >>= fun b =>
      if b then e >>= fun e => Eval.toBool e >>= fun b => pure (.bool b) else pure (.bool false)) := by
  rw [← bind_assoc]
  exact hd.bool.branch he.asBool (hge.bind fun _ => (Grows.toBool _).bind fun _ => .pure _) (.boolLit false) (.pure _)

theorem Computes.or (hd : T.Computes n frames env Yield.word.Shows l d)
    (he : T.Computes n frames env Yield.word.Shows r e) (hge : e.Grows) :
    T.Computes n frames env Yield.word.Shows (Emit.or l r) (d >>= fun d => Eval.toBool d >>= fun b =>
      if b then pure (.bool true) else e >>= fun e => Eval.toBool e >>= fun b => pure (.bool b)) := by
  rw [← bind_assoc]
  exact hd.bool.branch (.boolLit true) (.pure _) he.asBool (hge.bind fun _ => (Grows.toBool _).bind fun _ => .pure _)

/-! ## Lists, names and closures -/

theorem Computes.emptyList (hT : T.Sound) (hf : .list ∈ T.features) :
    T.Computes n frames env Yield.word.Shows Emit.emptyList (pure (.list [])) :=
  fun _ _ _ hs _ => .push (.call_next (.of_eq 1 fun _ => invoke_listEmpty (hT.supports _ hf))) hs ⟨_, rfl, .nil⟩

theorem Computes.cons (hT : T.Sound) (hf : .list ∈ T.features)
    (hd : T.Computes n frames env Yield.word.Shows l d)
    (he : T.Computes n frames env Yield.word.Shows r e) (hge : e.Grows) :
    T.Computes n frames env Yield.word.Shows (Emit.cons l r) (d >>= fun d => Eval.toList d >>= fun ds =>
      e >>= fun e => Eval.take 1 >>= fun _ => pure (.list (e :: ds))) := by
  rw [← bind_assoc]
  refine hd.list.bind₂ (fun ds => Stable.shows .word (.list ds)) he hge
    (fun _ _ => (Grows.take 1).bind fun _ => .pure _) fun ds e L arena v w s hv hw hs _ => ?_
  obtain ⟨v, rfl, hv⟩ := hv
  obtain ⟨w, rfl, hw⟩ := hw
  refine (Sim.newPair hT (hT.allocator hf) (hT.listPush hf) hs _).mono fun a L' t hext hQ => ?_
  obtain ⟨rfl, hpair, -, hstack, hlocals⟩ := hQ
  have hlists : L'.lists = true := by simpa [hext.lists, hs.lists] using hf
  exact ⟨⟨_, ⟨_, rfl, .cons hlists hpair (hw.mono hext) (hv.mono hext)⟩, hstack⟩, by rw [hlocals]⟩

theorem Computes.lookup (hT : T.Sound) (hf : .environment ∈ T.features) {name : String} {k : Nat}
    (hk : frames.findIdx? (· = some name) = some k) :
    T.Computes n frames env Yield.word.Shows (Emit.lookup k)
      (match env.lookup name with
        | some d => pure d
        | none => Eval.wrong) := by
  intro L arena s hs hready
  obtain ⟨w, hw, hchain⟩ := hready.env hf
  obtain ⟨v, d, hlookup, hv, hget⟩ := hchain.get T.ops (hT.supports _ hf) hs.memory hk
  rw [hlookup]
  refine .push (.of_eq (k + 2) fun m => ?_) hs ⟨v, rfl, hv⟩
  simp [Emit.lookup, hw, ← Nat.add_assoc, hget]

theorem Computes.closure (hT : T.Sound) (hf : .closure ∈ T.features) {k : Nat} {a : Closure} (ha : a.env = env)
    (hruns : T.Runs (a.body.Emits T .word (some a.param :: a.self :: frames)) k) :
    T.Computes n frames env Yield.word.Shows (Emit.closure k) (Eval.close a) := by
  intro L arena s hs hready
  obtain ⟨w, hw, hchain⟩ := hready.env (hT.needs _ hf _ (by decide))
  have hget : Code.Settles T.ops T.module [.localGet Env.current, .i32Const (.ofNat 32 k)] s
      (.next ⟨.word (.ofNat 32 k) :: .word w :: s.stack, s.locals, s.store⟩) := .of_eq 0 fun _ => by simp [hw]
  refine ((Sim.newClosure hT hf hs (ha ▸ hchain) hruns).mono fun d L' t _ hQ => ?_).prepend hget (.refl L)
  obtain ⟨v, hv, hstack, hlocals⟩ := hQ
  exact ⟨⟨_, ⟨v, rfl, hv⟩, hstack⟩, by rw [hlocals]⟩

theorem setEnv_settles {s : Frame} {w : Word} (w' : Word) (hw : s.locals Env.current = some (.word w)) :
    Code.Settles T.ops T.module [.localSet Env.current] { s with stack := .word w' :: s.stack }
      (.next { s with locals := withEnv s.locals w' }) :=
  .of_eq 0 fun _ => by
    simp [hw]
    rfl

/-- Leaving a scope, the environment around it comes back. -/
theorem pop_settles (hT : T.Sound) (hf : .environment ∈ T.features) {L : Layout} {s : Frame} {a : Nat} {w v : Word}
    (ha : L.PairAt a w v) (hs : s.store.memory = L.memory)
    (hcur : s.locals Env.current = some (.word (.ofNat 32 a))) :
    Code.Settles T.ops T.module [.localGet Env.current, .call Env.parent, .localSet Env.current] s
      (.next { s with locals := withEnv s.locals w }) := by
  have hload : s.store.memory.loadWord (BitVec.ofNat 32 a).toNat = .ok w := by
    rw [ha.toNat, hs]
    exact ha.first
  have hget : Code.Settles T.ops T.module [.localGet Env.current] s
      (.next { s with stack := .word (.ofNat 32 a) :: s.stack }) := .of_eq 0 fun _ => by simp [hcur]
  have hparent : Code.Settles T.ops T.module [.call Env.parent] { s with stack := .word (.ofNat 32 a) :: s.stack }
      (.next { s with stack := .word w :: s.stack }) :=
    .call_next (.of_eq 2 fun _ => invoke_envParent (hT.supports _ hf) hload)
  exact hget.append (hparent.append (setEnv_settles _ hcur))

/-- A body with one more name in scope. -/
theorem Computes.scope (hT : T.Sound) (hf : .environment ∈ T.features) {name : String} {f : Datum → Eval Datum}
    (hd : T.Computes n frames env Yield.word.Shows l d)
    (hbody : ∀ v, T.Computes n (some name :: frames) ((name, v) :: env) Yield.word.Shows r (f v))
    (hgf : ∀ v, (f v).Grows) :
    T.Computes n frames env Yield.word.Shows (Emit.bind l r) (d >>= fun v => Eval.take 1 >>= fun _ => f v) := by
  intro L arena s hs hready
  obtain ⟨w, hw, hchain⟩ := hready.env hf
  have hget : Code.Settles T.ops T.module [.localGet Env.current] s (.next (s.push (.word w))) :=
    .of_eq 0 fun _ => by simp [hw]
  have hcode : Emit.bind l r = ([.localGet Env.current] : Code) ++ (l ++ (([.call Env.new] : Code) ++
      (([.localSet Env.current] : Code) ++
      (r ++ ([.localGet Env.current, .call Env.parent, .localSet Env.current] : Code))))) := by
    simp [Emit.bind]
  have hl : Code.refs l ⊆ Code.refs (Emit.bind l r) := by
    rw [hcode]
    simp
  have hr : Code.refs r ⊆ Code.refs (Emit.bind l r) := by
    intro z hz
    simp [hcode, hz]
  rw [hcode]
  refine Sim.prepend hget (.refl L) ?_
  refine (hd L arena (s.push (.word w)) hs (hready.part hl _)).bind (fun v => (Grows.take 1).bind fun _ => hgf v)
    fun v arena₁ L₁ t₁ hext₁ hσ₁ hkept₁ hQ₁ => ?_
  obtain ⟨⟨_, ⟨u, rfl, hu⟩, hstack₁⟩, henv₁⟩ := hQ₁
  obtain ⟨stk₁, locals₁, σ₁⟩ := t₁
  simp only [Frame.push] at hstack₁ henv₁ hkept₁ hσ₁
  subst hstack₁
  have hchain₁ := hchain.mono hext₁
  refine (Sim.newFrame (x := name) hT (hT.allocator hf) (hT.envNew hf) hσ₁ hchain₁ hu).bind (fun _ => hgf v)
    fun _ arena₂ L₂ t₂ hext₂ hσ₂ _ hQ₂ => ?_
  obtain ⟨a, hpair, hnamed, -, hstack₂, rfl⟩ := hQ₂
  have hcur : t₂.locals Env.current = some (.word w) := henv₁.trans hw
  have hset := setEnv_settles (T := T) (s := { t₂ with stack := s.stack }) (.ofNat 32 a) hcur
  rw [← hstack₂] at hset
  refine Sim.prepend hset (.refl L₂) ?_
  have hready₂ : T.Ready L₂ frames env r t₂ := hready.mono hr (hext₁.trans hext₂) hkept₁ henv₁
  refine (hbody v L₂ arena₂ ⟨s.stack, withEnv t₂.locals (.ofNat 32 a), t₂.store⟩ hσ₂
    (hready₂.enter hnamed s.stack)).append fun v' arena₃ L₃ t₃ hext₃ hσ₃ _ hQ₃ => ?_
  obtain ⟨⟨o, ho, hstack₃⟩, henv₃⟩ := hQ₃
  have hcur₃ : t₃.locals Env.current = some (.word (.ofNat 32 a)) := by simpa [withEnv] using henv₃
  refine ⟨_, pop_settles hT hf (hpair.mono hext₃) hσ₃.memory hcur₃, rfl, ⟨o, ho, hstack₃⟩, ?_⟩
  simp [withEnv, hw]

end

end Target

end WasmBackend
