/-
Code of trees gives back what it works with: it leaves one word on the stack,
and the environment and the heap as it found them (`Code.Adds`). This is shown
construct by construct, of code that ends, whatever its operands are and
whatever functions it calls on the way.

Two constructs change the environment. A binding reads the one around it back
from the cell that it made (`Code.adds_bind`), which is still there, as nothing
in use is written to. A match has it in a local (`Code.adds_cases`) that
nothing in the match assigns.
-/
import WasmBackend.Proofs.Lowering.Emitted
import WasmBackend.Proofs.Typing.Library
import WasmBackend.Proofs.Typing.Runs

namespace WasmBackend

open Library Definitions

/-- The functions that code of trees calls by name, matchers aside. -/
def Emit.calls : List String :=
  [Lists.empty, Lists.push, Floats.new, Floats.get, Env.new, Env.get, Env.parent, Closures.new, Closures.env,
    Closures.index] ++ Comparison.all.map Compare.function

def Emit.Calls (f : String) : Prop := f ∈ Emit.calls ∨ ∃ k, f = Family.matchers.name k

theorem Emit.Calls.ne_alloc {f : String} (h : Emit.Calls f) : f ≠ Heap.alloc := by
  have hcalls : ∀ f ∈ Emit.calls, f ≠ Heap.alloc := by decide
  rcases h with h | ⟨k, rfl⟩
  · exact hcalls f h
  · exact Family.matcher_ne_alloc k

/-- A module whose functions are what code of trees takes them for. -/
structure Module.Orderly (m : Module) (limit : Nat) : Prop where
  careful : m.Careful
  limit_le : limit ≤ 2 ^ 27
  environment : (m.func? Env.new).isSome → m.Supports .environment
  signatures : ∀ f fn, Emit.Calls f → m.func? f = some fn → fn.signature = Library.signature f
  types : ∀ x signature, m.signature? x = some signature → signature = ⟨[.i32], some .i32⟩

/-- If a module allocates, nothing beyond the top of its heap is in use. -/
def Module.HeapIn (m : Module) (limit : Nat) (σ : Store) : Prop := (m.func? Heap.alloc).isSome → ∃ a, σ.UsedTo limit a

/-- From one frame to another, operands of these types are added to the stack, and the rest is kept. -/
structure Frame.Adds (limit : Nat) (s : Frame) (operands : List ValType) (t : Frame) : Prop where
  stack : ∃ top, top.map (·.type) = operands ∧ t.stack = top ++ s.stack
  env : t.locals Env.current = s.locals Env.current
  grows : s.store.Grows limit t.store

/-- Code that ends adds operands of these types, whatever it is run with. -/
def Code.Adds (ops : FloatOps) (m : Module) (limit n : Nat) (c : Code) (operands : List ValType) : Prop :=
  ∀ s : Frame, m.HeapIn limit s.store → (c.exec ops m (m.invoke ops n) s).GoesOn (s.Adds limit operands)

section

variable {ops : FloatOps} {m : Module} {limit n : Nat}

theorem Module.HeapIn.grows {σ τ : Store} (h : m.HeapIn limit σ) (hgrows : σ.Grows limit τ) : m.HeapIn limit τ := by
  intro halloc
  obtain ⟨a, ha⟩ := h halloc
  obtain ⟨b, -, hb, -⟩ := hgrows a ha
  exact ⟨b, hb⟩

/-! ## Instructions -/

section

variable {calls : Calls} {x : String} {c : Code} {stack : List Operand} {l : String → Option Operand} {σ : Store}
  {P : Frame → Prop}

theorem Code.goesOn_localGet (h : ∀ v, l x = some v → (c.exec ops m calls ⟨v :: stack, l, σ⟩).GoesOn P) :
    (Code.exec ops m calls (.localGet x :: c) ⟨stack, l, σ⟩).GoesOn P := by
  simp only [Code.exec_cons, Instr.exec, Frame.getLocal]
  cases hv : l x with
  | none => trivial
  | some v => exact h v hv

/-- Locals after one was set. -/
def setTo (l : String → Option Operand) (x : String) (v : Operand) : String → Option Operand :=
  fun y => if y = x then some v else l y

@[simp] theorem setTo_self (l : String → Option Operand) (x : String) (v : Operand) : setTo l x v x = some v :=
  if_pos rfl

theorem setTo_of_ne {y : String} (l : String → Option Operand) {v : Operand} (h : y ≠ x) : setTo l x v y = l y :=
  if_neg h

theorem Code.goesOn_localSet {v : Operand} (h : (c.exec ops m calls ⟨stack, setTo l x v, σ⟩).GoesOn P) :
    (Code.exec ops m calls (.localSet x :: c) ⟨v :: stack, l, σ⟩).GoesOn P := by
  simp only [Code.exec_cons, Instr.exec, Frame.setLocal, Frame.assign]
  cases l x with
  | none => trivial
  | some old =>
    simp only
    split
    · exact h
    · trivial

theorem Code.goesOn_localTee {v : Operand} (h : (c.exec ops m calls ⟨v :: stack, setTo l x v, σ⟩).GoesOn P) :
    (Code.exec ops m calls (.localTee x :: c) ⟨v :: stack, l, σ⟩).GoesOn P := by
  simp only [Code.exec_cons, Instr.exec, Frame.teeLocal, Frame.assign]
  cases l x with
  | none => trivial
  | some old =>
    simp only
    split
    · exact h
    · trivial

theorem Code.goesOn_call {f : String} {Q : List Operand × Store → Prop} (hcall : (calls f stack σ).GoesOn Q)
    (h : ∀ r, Q r → (c.exec ops m calls ⟨r.1, l, r.2⟩).GoesOn P) :
    (Code.exec ops m calls (.call f :: c) ⟨stack, l, σ⟩).GoesOn P := by
  rw [Code.exec, Instr.exec, Frame.call, Outcome.bind_assoc]
  exact hcall.bind fun r _ hr => h r hr

/-- Either block adds a word to what is around it. -/
theorem Code.goesOn_condWord {yes no : Code} {w : Word} {s : Frame}
    (hyes : (yes.exec ops m calls ⟨[], l, σ⟩).GoesOn fun t => s.Adds limit [.i32] { t with stack := t.stack ++ s.stack })
    (hno : (no.exec ops m calls ⟨[], l, σ⟩).GoesOn fun t => s.Adds limit [.i32] { t with stack := t.stack ++ s.stack }) :
    (Code.exec ops m calls [.condWord yes no] ⟨.word w :: s.stack, l, σ⟩).GoesOn (s.Adds limit [.i32]) := by
  rw [Code.exec_singleton, Instr.condWord, Instr.exec]
  have hblock : (if w ≠ 0 then yes.exec ops m calls ⟨[], l, σ⟩ else no.exec ops m calls ⟨[], l, σ⟩).GoesOn
      fun t => s.Adds limit [.i32] { t with stack := t.stack ++ s.stack } := by
    split
    · exact hyes
    · exact hno
  refine hblock.bind fun t _ ht => ?_
  unfold Frame.leaveBlock
  split
  · exact ht
  · trivial

end

/-- A function of two words is given two words, and leaves one. -/
theorem Func.Exchanges.words {f : Func} {x y : Operand} {rest after : List Operand}
    (h : f.Exchanges (x :: y :: rest) after) (hf : f.signature = ⟨[.i32, .i32], some .i32⟩) :
    ∃ a b w, x = .word a ∧ y = .word b ∧ after = .word w :: rest := by
  obtain ⟨args, results, below, heq, hargs, hresults, rfl⟩ := h
  rw [hf] at hargs hresults
  obtain ⟨a, others, rfl, hothers⟩ := exists_word hargs
  obtain ⟨b, none, rfl, hnone⟩ := exists_word hothers
  obtain ⟨w, no, rfl, hno⟩ := exists_word hresults
  obtain rfl := List.map_eq_nil_iff.1 hnone
  obtain rfl := List.map_eq_nil_iff.1 hno
  cases heq
  exact ⟨a, b, w, rfl, rfl, rfl⟩

theorem Module.Orderly.calls_grow (hm : m.Orderly limit) (ops : FloatOps) (n : Nat) : Calls.Grow limit (m.invoke ops n) :=
  hm.careful.invoke_grows hm.limit_le n

theorem Module.Orderly.exec_grows (hm : m.Orderly limit) {c : Code} (hquiet : c.quiet = true) {s t : Frame}
    (h : c.exec ops m (m.invoke ops n) s = .next t) : s.store.Grows limit t.store := by
  have hgrown : (c.exec ops m (m.invoke ops n) s).GrownFrom limit s.store Frame.store :=
    Code.exec_grown (hm.calls_grow ops n) hm.careful.hidesAlloc c s hquiet
  rwa [h] at hgrown

theorem Module.Orderly.call_words (hm : m.Orderly limit) {f : String} (hf : Emit.Calls f)
    (hsignature : Library.signature f = ⟨[.i32, .i32], some .i32⟩) {x y : Operand} {rest : List Operand} {σ : Store} :
    (m.invoke ops n f (x :: y :: rest) σ).GoesOn fun r => (∃ w, r.1 = .word w :: rest) ∧ σ.Grows limit r.2 := by
  refine (m.invoke_goesOn n f _ σ).mono fun r hr ⟨fn, hfn, hexchanges⟩ => ?_
  obtain ⟨-, -, w, -, -, hw⟩ := hexchanges.words ((hm.signatures f fn hf hfn).trans hsignature)
  have hgrown := hm.calls_grow ops n f hf.ne_alloc (x :: y :: rest) σ
  rw [hr] at hgrown
  exact ⟨⟨w, hw⟩, hgrown⟩

/-! ## Code after parts -/

/-- Code that can follow that of the parts of a construct: it neither returns nor writes, calls what
code of trees calls, and does not assign the environment. -/
def Code.canFollow (c : Code) : Bool :=
  c.straight && c.quiet && (Code.refs c).all (fun d => d.1 ≠ .functions ∨ d.2 ∈ Emit.calls) && Env.current ∉ c.assigns

/-- Typed code goes on with other operands in place of those that were added. -/
theorem Frame.Adds.follow (hm : m.Orderly limit) {s t : Frame} {a b : List ValType} (h : s.Adds limit a t) {c : Code}
    (hc : c.canFollow = true) (hleads : Code.leads (.compiled true) c a b = true)
    (hlocals : (Context.compiled true).Allows (Code.refs c) t.locals) :
    (c.exec ops m (m.invoke ops n) t).GoesOn (s.Adds limit b) := by
  simp only [Code.canFollow, Bool.and_eq_true, List.all_eq_true, decide_eq_true_eq] at hc
  obtain ⟨⟨⟨hstraight, hquiet⟩, hcalls⟩, hassigns⟩ := hc
  obtain ⟨stack, l, σ⟩ := t
  obtain ⟨top, htop, rfl⟩ : ∃ top, top.map (·.type) = a ∧ stack = top ++ s.stack := h.stack
  have hdescribes : (Context.compiled true).Describes m (Code.refs c) := by
    refine ⟨fun f fn hf hfn => ?_, fun x signature _ hx => ?_⟩
    · have hcalled : f ∈ Emit.calls := (hcalls _ hf).resolve_left fun hne => hne rfl
      exact congrArg some (hm.signatures f fn (.inl hcalled) hfn).symm
    · rw [hm.types x signature hx]
      rfl
  have htyped : (c.exec ops m (m.invoke ops n) ⟨top ++ s.stack, l, σ⟩).Leaves s.stack b :=
    Code.Typed.exec c top s.stack (Code.typed_of_leads hleads) hstraight hdescribes hlocals htop
  refine htyped.mono fun u hu hstack => ⟨hstack, ?_, ?_⟩
  · rw [(Code.exec_locals c hu).same _ hassigns]
    exact h.env
  · exact h.grows.trans (hm.exec_grows hquiet hu)

/-- A block adds its operands to the stack around it. -/
theorem Frame.Adds.leave {s t u : Frame} {x y : List ValType} (h : s.Adds limit x t)
    (h' : Frame.Adds limit ⟨[], t.locals, t.store⟩ y u) : s.Adds limit y { u with stack := u.stack ++ s.stack } where
  stack := by
    obtain ⟨top, htop, hstack⟩ := h'.stack
    exact ⟨top, htop, by rw [hstack, List.append_nil]⟩
  env := h'.env.trans h.env
  grows := h.grows.trans h'.grows

/-- One word was added. -/
theorem Frame.Adds.word {s t : Frame} (h : s.Adds limit [.i32] t) : ∃ w, t.stack = .word w :: s.stack := by
  obtain ⟨top, htop, hstack⟩ := h.stack
  obtain ⟨w, below, rfl, hbelow⟩ := exists_word htop
  obtain rfl := List.map_eq_nil_iff.1 hbelow
  exact ⟨w, hstack⟩

namespace Code.Adds

variable {a b c : Code} {x y : List ValType}

theorem append (ha : a.Adds ops m limit n x) (hb : b.Adds ops m limit n y) : (a ++ b).Adds ops m limit n (y ++ x) := by
  intro s hs
  refine Code.goesOn_append (ha s hs) fun t _ ht => (hb t (hs.grows ht.grows)).mono fun u _ hu => ?_
  obtain ⟨top, htop, hstack⟩ := ht.stack
  obtain ⟨top', htop', hstack'⟩ := hu.stack
  exact ⟨⟨top' ++ top, by rw [List.map_append, htop', htop], by rw [hstack', hstack, List.append_assoc]⟩,
    hu.env.trans ht.env, ht.grows.trans hu.grows⟩

/-- Code without locals follows. -/
theorem follow (hm : m.Orderly limit) (ha : a.Adds ops m limit n x) (hc : c.canFollow = true)
    (hlocals : (Code.refs c).all (·.1 ≠ .locals) = true) (hleads : Code.leads (.compiled true) c x y = true) :
    (a ++ c).Adds ops m limit n y := by
  refine fun s hs => Code.goesOn_append (ha s hs) fun t _ ht => ht.follow hm hc hleads fun z v hz => ?_
  have hne := List.all_eq_true.1 hlocals _ hz
  simp at hne

theorem nil : Code.Adds ops m limit n [] [] := fun s _ => ⟨⟨[], rfl, rfl⟩, rfl, .refl limit s.store⟩

/-- One of two blocks follows. -/
theorem condWord (ha : a.Adds ops m limit n [.i32]) (hb : b.Adds ops m limit n [.i32])
    (hc : c.Adds ops m limit n [.i32]) : (a ++ [Instr.condWord b c]).Adds ops m limit n [.i32] := by
  intro s hs
  refine Code.goesOn_append (ha s hs) fun ⟨stack, l, σ⟩ _ ht => ?_
  obtain ⟨w, rfl⟩ := ht.word
  have hσ := hs.grows ht.grows
  exact Code.goesOn_condWord ((hb ⟨[], l, σ⟩ hσ).mono fun u _ hu => ht.leave hu)
    ((hc ⟨[], l, σ⟩ hσ).mono fun u _ hu => ht.leave hu)

end Code.Adds

/-! ## Constructs -/

/-- The environment goes to a function, with a word. -/
theorem Code.adds_withEnv (hm : m.Orderly limit) {f : String} (hf : Emit.Calls f)
    (hsignature : Library.signature f = ⟨[.i32, .i32], some .i32⟩) (w : Word) :
    Code.Adds ops m limit n [.localGet Env.current, .i32Const w, .call f] [.i32] := by
  intro ⟨stack, l, σ⟩ _
  refine Code.goesOn_localGet fun v _ => ?_
  show (Code.exec ops m _ [.call f] ⟨.word w :: v :: stack, l, σ⟩).GoesOn _
  refine Code.goesOn_call (hm.call_words hf hsignature) fun r ⟨⟨w', hw'⟩, hgrows⟩ => ?_
  rw [Code.exec_nil]
  exact ⟨⟨[.word w'], rfl, hw'⟩, rfl, hgrows⟩

/-- The address of a frame, in use, holds the environment around it. -/
def Store.HasParent (limit : Nat) (σ : Store) (frame parent : Word) : Prop :=
  ∃ a, σ.UsedTo limit a ∧ frame.toNat + 4 ≤ a ∧ σ.memory.loadWord frame.toNat = .ok parent

theorem Store.HasParent.grows {σ τ : Store} {frame parent : Word} (h : σ.HasParent limit frame parent)
    (hgrows : σ.Grows limit τ) : τ.HasParent limit frame parent := by
  obtain ⟨a, ha, hle, hload⟩ := h
  obtain ⟨b, hab, hb, hbytes⟩ := hgrows a ha
  refine ⟨b, hb, by omega, ?_⟩
  rw [← hload]
  exact Memory.loadWord_congr (hb.size.trans ha.size.symm) fun i _ hi => hbytes i (by omega)

/-- A new frame has the environment that it was made with. -/
theorem Module.Orderly.envNew (hm : m.Orderly limit) {x y : Operand} {rest : List Operand} {σ : Store}
    (hσ : m.HeapIn limit σ) : (m.invoke ops n Env.new (x :: y :: rest) σ).GoesOn fun r =>
      ∃ parent frame, y = .word parent ∧ r.1 = .word frame :: rest ∧ σ.Grows limit r.2 ∧ m.Supports .environment ∧
        r.2.HasParent limit frame parent := by
  refine (m.invoke_goesOn n Env.new _ σ).mono fun r hr ⟨fn, hfn, hexchanges⟩ => ?_
  have henv : m.Supports .environment := hm.environment (by rw [hfn]; rfl)
  have halloc : m.func? Heap.alloc = some _ := henv .allocator (by decide) _ (.head _)
  obtain ⟨a, ha⟩ := hσ (by rw [halloc]; rfl)
  have hcalls : Emit.Calls Env.new := .inl (by decide)
  obtain ⟨value, parent, -, rfl, rfl, -⟩ := hexchanges.words ((hm.signatures _ fn hcalls hfn).trans (by decide))
  have hanswers : m.Answers ops Env.new (.word value :: .word parent :: rest) σ _ :=
    .of_eq 3 fun k => invoke_envNew henv ha.top
  have hnext := hanswers.unique (.of_invoke hr nofun)
  rw [ha.toNat, ha.size] at hnext
  split at hnext
  · rename_i hfit
    cases hnext
    have hstored : (Alloc.frame parent value).Stored ((Alloc.frame parent value).place σ (.ofNat 32 a)).memory
        (BitVec.ofNat 32 a).toNat := Alloc.stored_place (by rw [ha.toNat, ha.size]; exact hfit)
    refine ⟨parent, .ofNat 32 a, rfl, rfl, (Alloc.frame parent value).grows_place hm.limit_le ha hfit, henv, a + 8,
      ha.place hm.limit_le hfit (.frame parent value), ?_, hstored.1⟩
    rw [ha.toNat]
    omega
  · cases hnext

theorem Module.Supports.envParent (h : m.Supports .environment) {frame parent : Word} {rest : List Operand} {σ : Store}
    (hparent : σ.HasParent limit frame parent) :
    (m.invoke ops n Env.parent (.word frame :: rest) σ).GoesOn (· = (.word parent :: rest, σ)) := by
  obtain ⟨a, -, -, hload⟩ := hparent
  have hanswers : m.Answers ops Env.parent (.word frame :: rest) σ _ := .of_eq 2 fun k => invoke_envParent h hload
  refine (m.invoke_goesOn n Env.parent _ σ).mono fun r hr _ => ?_
  exact Outcome.next.inj ((Module.Answers.of_invoke hr nofun).unique hanswers)

/-- **A binding gives back the environment**, which its frame has. -/
theorem Code.adds_bind (hm : m.Orderly limit) {value body : Code} (hvalue : value.Adds ops m limit n [.i32])
    (hbody : body.Adds ops m limit n [.i32]) : (Emit.bind value body).Adds ops m limit n [.i32] := by
  have hcode : Emit.bind value body = .localGet Env.current :: (value ++ (Instr.call Env.new :: .localSet Env.current ::
      (body ++ [Instr.localGet Env.current, .call Env.parent, .localSet Env.current]))) := by simp [Emit.bind]
  intro ⟨stack, l, σ⟩ hσ
  rw [hcode]
  refine Code.goesOn_localGet fun outer houter => ?_
  refine Code.goesOn_append (hvalue _ hσ) fun ⟨stack₁, l₁, σ₁⟩ _ h₁ => ?_
  obtain ⟨w, rfl⟩ := h₁.word
  have hσ₁ := hσ.grows h₁.grows
  refine Code.goesOn_call (hm.envNew hσ₁) fun ⟨stack₂, σ₂⟩ ⟨parent, frame, hparent, hstack₂, hgrows₂, henv, hframe⟩ => ?_
  obtain rfl : stack₂ = .word frame :: stack := hstack₂
  refine Code.goesOn_localSet ?_
  refine Code.goesOn_append (hbody _ (hσ₁.grows hgrows₂)) fun ⟨stack₃, l₃, σ₃⟩ _ h₃ => ?_
  obtain ⟨result, rfl⟩ := h₃.word
  refine Code.goesOn_localGet fun current hcurrent => ?_
  have hframe₃ : l₃ Env.current = some (.word frame) := h₃.env.trans (setTo_self l₁ Env.current (.word frame))
  obtain rfl : current = .word frame := Option.some.inj (hcurrent.symm.trans hframe₃)
  refine Code.goesOn_call (henv.envParent (hframe.grows h₃.grows)) fun r hr => ?_
  subst hr
  refine Code.goesOn_localSet ?_
  rw [Code.exec_nil]
  refine ⟨⟨[.word result], rfl, rfl⟩, (setTo_self l₃ Env.current (.word parent)).trans ?_,
    (h₁.grows.trans hgrows₂).trans h₃.grows⟩
  rw [← hparent]
  exact houter.symm

theorem Code.adds_app (hm : m.Orderly limit) {arg fn : Code} (harg : arg.Adds ops m limit n [.i32])
    (hfn : fn.Adds ops m limit n [.i32]) : (Emit.app arg fn).Adds ops m limit n [.i32] := by
  intro s hs
  refine Code.goesOn_append (harg.append hfn s hs) fun ⟨stack, l, σ⟩ _ ht => ?_
  obtain ⟨top, htop, hstack⟩ := ht.stack
  obtain ⟨callee, others, rfl, hothers⟩ := exists_word htop
  obtain ⟨argument, none, rfl, hnone⟩ := exists_word hothers
  obtain rfl := List.map_eq_nil_iff.1 hnone
  obtain rfl : stack = .word callee :: .word argument :: s.stack := hstack
  refine Code.goesOn_localSet (Code.goesOn_localSet ?_)
  -- from here on only these two locals are read
  let l' := setTo (setTo l Emit.callee (.word callee)) Emit.argument (.word argument)
  have hargument : l' Emit.argument = some (.word argument) := setTo_self _ _ _
  have hcallee : l' Emit.callee = some (.word callee) := (setTo_of_ne _ (by decide)).trans (setTo_self _ _ _)
  have henv : l' Env.current = l Env.current := (setTo_of_ne _ (by decide)).trans (setTo_of_ne _ (by decide))
  have hadds : s.Adds limit [] ⟨s.stack, l', σ⟩ := ⟨⟨[], rfl, rfl⟩, henv.trans ht.env, ht.grows⟩
  refine hadds.follow hm (by decide) rfl fun x v hx hv => ?_
  have hnames : x = Emit.callee ∨ x = Emit.argument := by
    simp [Instr.refs] at hx
    tauto
  rcases hnames with rfl | rfl
  · cases hcallee.symm.trans hv
    rfl
  · cases hargument.symm.trans hv
    rfl

/-- The locals of a match that matter here are different ones. -/
structure Emit.Site.Apart (site : Site) : Prop where
  value : site.value ≠ Env.current
  outer : site.outer ≠ Env.current
  inner : site.inner ≠ Env.current
  outer_inner : site.outer ≠ site.inner

theorem Emit.Site.apart (k : Nat) : (ofNumber k).Apart where
  value := ne_env k _ (by simp [names])
  outer := ne_env k _ (by simp [names])
  inner := ne_env k _ (by simp [names])
  outer_inner h := by
    have hlist := congrArg String.toList h
    simp [ofNumber] at hlist

/-- An arm gives back the environment around the match, which a local has. -/
theorem Code.goesOn_arms (hm : m.Orderly limit) {site : Emit.Site} (hsite : site.Apart) {branches : List (String × Code)}
    (h : ∀ b ∈ branches, (∃ k, b.1 = Family.matchers.name k) ∧ site.outer ∉ Code.assigns b.2 ∧
      b.2.Adds ops m limit n [.i32]) {s : Frame} (hs : m.HeapIn limit s.store)
    (houter : s.locals site.outer = s.locals Env.current) :
    ((Emit.arms site branches).exec ops m (m.invoke ops n) s).GoesOn (s.Adds limit [.i32]) := by
  induction branches generalizing s with
  | nil =>
    rw [Emit.arms, Code.exec_singleton]
    trivial
  | cons b rest ih =>
    obtain ⟨matcher, body⟩ := b
    obtain ⟨⟨⟨k, rfl⟩, hassigns, hbody⟩, hrest⟩ := List.forall_mem_cons.1 h
    obtain ⟨stack, l, σ⟩ := s
    refine Code.goesOn_localGet fun outer hl => Code.goesOn_localGet fun value _ => ?_
    refine Code.goesOn_call (hm.call_words (.inr ⟨k, rfl⟩) (signature_matcher k)) fun ⟨stack₁, σ₁⟩ ⟨⟨w, hw⟩, hgrows⟩ => ?_
    obtain rfl : stack₁ = .word w :: stack := hw
    refine Code.goesOn_localTee ?_
    have hadds : Frame.Adds limit ⟨stack, l, σ⟩ [.i32] ⟨.word w :: stack, setTo l site.inner (.word w), σ₁⟩ :=
      ⟨⟨[.word w], rfl, rfl⟩, setTo_of_ne l hsite.inner.symm, hgrows⟩
    have hσ₁ := hs.grows hgrows
    have houter₁ : setTo l site.inner (.word w) site.outer = some outer := (setTo_of_ne l hsite.outer_inner).trans hl
    refine Code.goesOn_condWord (s := ⟨stack, l, σ⟩) ?_ ?_
    · simp only [List.cons_append, List.nil_append]
      refine Code.goesOn_localGet fun inner _ => Code.goesOn_localSet ?_
      refine Code.goesOn_append (hbody _ hσ₁) fun ⟨stack₂, l₂, σ₂⟩ hexec h₂ => ?_
      have houter₂ : l₂ site.outer = some outer :=
        ((Code.exec_locals body hexec).same _ hassigns).trans ((setTo_of_ne _ hsite.outer).trans houter₁)
      refine Code.goesOn_localGet fun v hv => Code.goesOn_localSet ?_
      rw [Code.exec_nil]
      obtain rfl : v = outer := Option.some.inj (hv.symm.trans houter₂)
      refine ⟨?_, ?_, hgrows.trans h₂.grows⟩
      · obtain ⟨result, hresult⟩ := h₂.word
        exact ⟨[.word result], rfl, congrArg (· ++ stack) hresult⟩
      · exact (setTo_self l₂ Env.current v).trans (hl.symm.trans houter)
    · refine (ih hrest hσ₁ ?_).mono fun u _ hu => hadds.leave hu
      exact houter₁.trans ((hl.symm.trans houter).trans hadds.env.symm)

/-- **A match gives back the environment**, which it keeps in a local. -/
theorem Code.adds_cases (hm : m.Orderly limit) {site : Emit.Site} (hsite : site.Apart) {scrutinee : Code}
    (hscrutinee : scrutinee.Adds ops m limit n [.i32]) {branches : List (String × Code)}
    (h : ∀ b ∈ branches, (∃ k, b.1 = Family.matchers.name k) ∧ site.outer ∉ Code.assigns b.2 ∧
      b.2.Adds ops m limit n [.i32]) : (Emit.cases site scrutinee branches).Adds ops m limit n [.i32] := by
  intro s hs
  rw [Emit.cases, List.append_assoc]
  refine Code.goesOn_append (hscrutinee s hs) fun ⟨stack, l, σ⟩ _ ht => ?_
  obtain ⟨w, rfl⟩ := ht.word
  refine Code.goesOn_localSet (Code.goesOn_localGet fun v hv => Code.goesOn_localSet ?_)
  have henv : l Env.current = some v := (setTo_of_ne l hsite.value.symm).symm.trans hv
  have hkept : setTo (setTo l site.value (.word w)) site.outer v Env.current = some v :=
    (setTo_of_ne _ hsite.outer.symm).trans hv
  have harms := Code.goesOn_arms (s := ⟨s.stack, setTo (setTo l site.value (.word w)) site.outer v, σ⟩) hm hsite h
    (hs.grows ht.grows) ((setTo_self _ _ _).trans hkept.symm)
  refine harms.mono fun u _ hu => ?_
  exact ⟨hu.stack, (hu.env.trans (hkept.trans henv.symm)).trans ht.env, ht.grows.trans hu.grows⟩

/-! ## Trees -/

/-- The operands of an operation are put together. -/
theorem Code.adds_binary (hm : m.Orderly limit) (o : BinaryOp) (asWords : Bool) (s : State) {l r : Code}
    (hl : l.Adds ops m limit n [.i32]) (hr : r.Adds ops m limit n [.i32]) :
    (o.conclude asWords l r s).1.Adds ops m limit n [.i32] := by
  have hboth : (l ++ r).Adds ops m limit n [.i32, .i32] := hl.append hr
  cases o with
  | int o =>
    have hleft : (l ++ Emit.untag).Adds ops m limit n [.i32] := hl.follow hm (by decide) rfl rfl
    have huntagged : (l ++ Emit.untag ++ r ++ Emit.untag).Adds ops m limit n [.i32, .i32] :=
      (hleft.append hr).follow hm (by decide) rfl rfl
    cases o with
    | add | sub => exact hboth.follow hm (by decide) rfl rfl
    | mul | div => exact (huntagged.follow (y := [.i32]) hm (by decide) rfl rfl).follow hm (by decide) rfl rfl
  | float o =>
    have hleft : (l ++ [Instr.call Floats.get]).Adds ops m limit n [.f64] := hl.follow hm (by decide) rfl rfl
    cases o <;> exact (hleft.append hr).follow hm (by decide) rfl rfl
  | and => exact hl.condWord hr (Code.Adds.nil.follow hm (by decide) rfl rfl)
  | or => exact hl.condWord (Code.Adds.nil.follow hm (by decide) rfl rfl) hr
  | compare c =>
    cases asWords <;> cases c <;>
      exact (hboth.follow (y := [.i32]) hm (by decide) rfl rfl).follow hm (by decide) rfl rfl

namespace Node

variable {cx : Setup}

mutual

/-- **The code of a node adds a word**, and gives back the rest. -/
theorem adds_walk (hm : m.Orderly limit) (node : Node) {s t : State} {code : Code} {runs : List LiteralRun}
    (h : node.Walk cx s code t runs) : code.Adds ops m limit n [.i32] := by
  cases node with
  | lit span value =>
    obtain ⟨h, rfl⟩ := h
    cases value <;> cases h <;> exact Code.Adds.nil.follow hm rfl rfl rfl
  | ident span name =>
    obtain ⟨distance, -, rfl, rfl, rfl⟩ := h
    exact Code.adds_withEnv hm (.inl (by decide)) (by decide) _
  | unary span o operand =>
    cases o with
    | neg =>
      obtain ⟨e, he, rfl⟩ := h
      have hconst : Code.Adds ops m limit n [.i32Const 2] [.i32] := Code.Adds.nil.follow hm (by decide) rfl rfl
      exact (hconst.append (adds_walk hm operand he)).follow hm (by decide) rfl rfl
    | floatNeg =>
      obtain ⟨e, he, rfl⟩ := h
      exact (adds_walk hm operand he).follow hm (by decide) rfl rfl
  | binary span o left right =>
    obtain ⟨l, s₁, ls, r, s₂, rs, hl, hr, hlast, rfl⟩ := h
    have hcode := Code.adds_binary hm o (cx.areWords left.span right.span) s₂ (adds_walk hm left hl) (adds_walk hm right hr)
    rwa [← hlast] at hcode
  | cond span test yes no =>
    obtain ⟨c, s₁, cs, y, s₂, ys, k, ns, hc, hy, hn, rfl, rfl⟩ := h
    exact (adds_walk hm test hc).condWord (adds_walk hm yes hy) (adds_walk hm no hn)
  | letIn span name value body =>
    obtain ⟨v, s₁, vs, b, s₂, bs, hv, hb, rfl, rfl, rfl⟩ := h
    exact Code.adds_bind hm (adds_walk hm value hv) (adds_walk hm body hb)
  | letRec span name value body =>
    cases value with
    | lambda span' param inner =>
      obtain ⟨i, s₁, is, b, s₂, bs, -, -, hb, rfl, rfl, rfl⟩ := h
      exact Code.adds_bind hm (Code.adds_withEnv hm (.inl (by decide)) (by decide) _) (adds_walk hm body hb)
    | _ => exact h.elim
  | lambda span param body =>
    obtain ⟨b, s₁, bs, -, -, rfl, rfl, rfl⟩ := h
    exact Code.adds_withEnv hm (.inl (by decide)) (by decide) _
  | app span fn arg =>
    obtain ⟨a, s₁, as, f, fs, ha, hf, rfl, rfl⟩ := h
    exact Code.adds_app hm (adds_walk hm arg ha) (adds_walk hm fn hf)
  | cons span head tail =>
    obtain ⟨l, s₁, ls, hd, hds, hl, hh, rfl, rfl⟩ := h
    exact ((adds_walk hm tail hl).append (adds_walk hm head hh)).follow hm (by decide) rfl rfl
  | cases span scrutinee arms =>
    obtain ⟨e, s₁, es, branches, bs, he, hb, rfl, rfl⟩ := h
    -- the match is numbered before its arms, so that they do not assign its local
    have hsites : s.sites < s₁.sites := (wrote_walk scrutinee he).sites
    refine Code.adds_cases hm (Emit.Site.apart _) (adds_walk hm scrutinee he) fun b hmem => ?_
    obtain ⟨hname, hassigns, -⟩ := (wrote_walkArms arms hb).each b hmem
    exact ⟨hname, fun hx => Emit.Site.outer_not_assigned hsites (hassigns _ hx), adds_walkArms hm arms hb b hmem⟩
termination_by structural node

theorem adds_walkArms (hm : m.Orderly limit) (arms : List (Pattern × Node)) {s t : State}
    {branches : List (String × Code)} {runs : List LiteralRun} (h : WalkArms cx arms s branches t runs) :
    ∀ b ∈ branches, b.2.Adds ops m limit n [.i32] := by
  match arms with
  | [] =>
    obtain ⟨rfl, rfl, rfl⟩ := h
    exact nofun
  | (pattern, body) :: rest =>
    obtain ⟨c, s₁, cs, others, os, hc, ho, rfl, rfl⟩ := h
    exact List.forall_mem_cons.2 ⟨adds_walk hm body hc, adds_walkArms hm rest ho⟩
termination_by structural arms

end

end Node

end

end WasmBackend
