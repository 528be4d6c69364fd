/-
Which modules are encoded, and what is said of the others
(`encode_criterion`). A module is encoded if its names are in order
(`Module.WellNamed`). If they are not, the error is the first of all offences:
those of definitions come first, then those of functions, each with its locals
before its body, then those of the other fields (`Module.offences`).

A computation that stops at the first of some errors (`Reports`) is put
together as lists of errors are, so each part of resolving has a list of its
own.
-/
import WasmBackend.Proofs.Assembly.Faults
import WasmBackend.Proofs.Assembly.Program

namespace WasmBackend

/-! ## Computations that stop at the first error -/

/-- A computation fails with the first of these errors, and succeeds if there is none. -/
def Reports {ε α : Type} (x : Except ε α) (errors : List ε) : Prop := ∀ e, x = .error e ↔ errors.head? = some e

section

variable {ε α β : Type} {x : Except ε α} {errors later : List ε}

theorem reports_ok (a : α) : Reports (.ok a : Except ε α) [] := by
  simp [Reports]

theorem reports_error (e : ε) : Reports (.error e : Except ε α) [e] := by
  simp [Reports]

theorem Reports.map (h : Reports x errors) (f : α → β) : Reports (x.map f) errors :=
  fun e => map_eq_error.trans (h e)

/-- What comes second is met only if nothing is met before it. -/
theorem Reports.bind {f : α → Except ε β} (hx : Reports x errors) (hf : ∀ a, x = .ok a → Reports (f a) later) :
    Reports (x >>= f) (errors ++ later) := by
  intro e
  rw [bind_eq_error, List.head?_append]
  cases x with
  | error e' =>
    have hhead := (hx e').1 rfl
    simp [hhead]
  | ok a =>
    have hnone : errors.head? = none := by
      cases hhead : errors.head? with
      | none => rfl
      | some e' => cases (hx e').2 hhead
    have hfa := hf a rfl e
    simp [hnone, hfa]

theorem Reports.mapM {f : α → Except ε β} {g : α → List ε} {xs : List α} (h : ∀ x ∈ xs, Reports (f x) (g x)) :
    Reports (xs.mapM f) (xs.flatMap g) := by
  induction xs with
  | nil => exact reports_ok []
  | cons x xs ih =>
    rw [List.mapM_cons, List.flatMap_cons]
    refine (h x (by simp)).bind fun y _ => ?_
    have hrest := (ih fun z hz => h z (by simp [hz])).bind fun ys _ => reports_ok (ε := ε) (y :: ys)
    rwa [List.append_nil] at hrest

theorem Reports.foldlM {f : β → α → Except ε β} {g : α → List ε} {xs : List α}
    (h : ∀ b, ∀ x ∈ xs, Reports (f b x) (g x)) (b : β) : Reports (xs.foldlM f b) (xs.flatMap g) := by
  induction xs generalizing b with
  | nil => exact reports_ok b
  | cons x xs ih =>
    rw [List.foldlM_cons, List.flatMap_cons]
    exact (h b x (by simp)).bind fun b' _ => ih (fun b z hz => h b z (by simp [hz])) b'

end

/-! ## Offences in the order in which they are met -/

/-- The members of a list that come again, where some were seen before it. -/
def repeated {α : Type} [BEq α] [LawfulBEq α] (seen : List α) : List α → List α
  | [] => []
  | x :: xs => (if x ∈ seen then [x] else []) ++ repeated (seen ++ [x]) xs

/-- The references to what is not there. -/
def dangling (there : Space → List String) (refs : List (Space × String)) : List NameError :=
  (refs.filter fun d => d.2 ∉ there d.1).map fun d => .undefined d.1 d.2

theorem dangling_append (there : Space → List String) (a b : List (Space × String)) :
    dangling there (a ++ b) = dangling there a ++ dangling there b := by
  simp [dangling]

theorem flatMap_dangling (there : Space → List String) (refs : List (Space × String)) :
    refs.flatMap (fun d => dangling there [d]) = dangling there refs := by
  induction refs with
  | nil => rfl
  | cons d refs ih => rw [List.flatMap_cons, ih, ← dangling_append, List.singleton_append]

/-- What the body of a function can refer to: its own locals, and what the fields define. -/
def Func.visible (fields : List Field) (f : Func) : Space → List String
  | .locals => f.declared
  | space => WasmBackend.declared fields space

/-- What is wrong with a function: its locals first, then its body. -/
def Func.offences (fields : List Field) (f : Func) : List NameError :=
  (repeated [] f.declared).map .duplicate ++ dangling (f.visible fields) (Code.refs f.body)

/-- What is wrong with a field that is not a function. -/
def Field.offences (fields : List Field) : Field → List NameError
  | .func _ => []
  | field => dangling (declared fields) field.refs

namespace Module

/-- The names that fields define, in order, but for those of types, which may be shared. -/
def unshared (m : Module) : List (Space × String) := (m.fields.filterMap Field.defines).filter (·.1 ≠ .types)

/-- All that is wrong with a module: definitions first, then functions, then the other fields. -/
def offences (m : Module) : List NameError :=
  (repeated [] m.unshared).map (fun d => .duplicate d.2) ++ m.funcs.flatMap (Func.offences m.fields) ++
    m.fields.flatMap (Field.offences m.fields)

end Module

/-! ## Definitions -/

namespace Names

theorem reports_define (names : List String) (x : String) :
    Reports (define names x) (if x ∈ names then [.duplicate x] else []) := by
  unfold define
  split
  · exact reports_error _
  · exact reports_ok _

theorem reports_foldlM_define (locals : List Local) (names : List String) :
    Reports (locals.foldlM (fun names l => define names l.name) names)
      ((repeated names (locals.map (·.name))).map .duplicate) := by
  induction locals generalizing names with
  | nil => exact reports_ok names
  | cons l locals ih =>
    rw [List.foldlM_cons, List.map_cons, repeated, List.map_append]
    have hdefine := reports_define names l.name
    rw [← List.map_singleton (f := NameError.duplicate), ← List.map_nil (f := NameError.duplicate), ← apply_ite] at hdefine
    refine hdefine.bind fun r hr => ?_
    rw [← (define_eq_ok.1 hr).2]
    exact ih (names ++ [l.name])

theorem reports_ofLocals (f : Func) : Reports (ofLocals f) ((repeated [] f.declared).map .duplicate) :=
  reports_foldlM_define _ []

/-- A field offends if its name is among those seen. -/
theorem reports_add {n : Names} {seen : List (Space × String)}
    (hseen : ∀ space x, space ≠ .types → (x ∈ n.get space ↔ (space, x) ∈ seen)) (field : Field) :
    Reports (n.add field) ((field.defines.toList.filter fun d => d.1 ≠ .types ∧ d ∈ seen).map fun d => .duplicate d.2) := by
  intro e
  constructor
  · intro h
    obtain ⟨space, x, hdefines, hspace, hx, rfl⟩ := add_eq_error h
    simp [hdefines, hspace, (hseen space x hspace).1 hx]
  · intro h
    cases hdefines : field.defines with
    | none => simp [hdefines] at h
    | some d =>
      by_cases hd : d.1 ≠ .types ∧ d ∈ seen
      · have hfails : ¬ Succeeds (n.add field) := fun hok =>
          succeeds_add.1 hok d hdefines hd.1 ((hseen d.1 d.2 hd.1).2 hd.2)
        cases hadd : n.add field with
        | ok n' => exact absurd ⟨n', hadd⟩ hfails
        | error e' =>
          obtain ⟨space, x, hdefines', -, -, rfl⟩ := add_eq_error hadd
          rw [hdefines] at hdefines'
          cases hdefines'
          simpa [hdefines, hd] using h
      · simp [hdefines, hd] at h

theorem reports_foldlM_add (fields : List Field) {n : Names} (seen : List (Space × String))
    (hseen : ∀ space x, space ≠ .types → (x ∈ n.get space ↔ (space, x) ∈ seen)) :
    Reports (fields.foldlM add n)
      ((repeated seen (Module.unshared ⟨fields⟩)).map fun d => .duplicate d.2) := by
  induction fields generalizing n seen with
  | nil => exact reports_ok n
  | cons field fields ih =>
    rw [List.foldlM_cons]
    -- what is seen once this field is added
    have hnext {n' : Names} (hn' : n.add field = .ok n') {seen' : List (Space × String)}
        (hseen' : ∀ d : Space × String, d.1 ≠ .types → (d ∈ seen' ↔ d ∈ seen ∨ field.defines = some d)) :
        ∀ space x, space ≠ .types → (x ∈ n'.get space ↔ (space, x) ∈ seen') := by
      intro space x hspace
      rw [get_add hn', hseen space x hspace, hseen' (space, x) hspace]
    have hfield := reports_add hseen field
    cases hdefines : field.defines with
    | none =>
      simp only [Module.unshared, List.filterMap_cons, hdefines]
      simp only [hdefines, Option.toList_none, List.filter_nil, List.map_nil] at hfield
      exact hfield.bind fun n' hn' => ih seen (hnext hn' (by simp [hdefines]))
    | some d =>
      simp only [hdefines, Option.toList_some] at hfield
      simp only [Module.unshared, List.filterMap_cons, hdefines]
      by_cases hd : d.1 = .types
      · rw [List.filter_cons_of_neg (by simp [hd])] at hfield ⊢
        exact hfield.bind fun n' hn' => ih seen (hnext hn' (by
          intro d' hd'
          have hne : d ≠ d' := by
            rintro rfl
            exact hd' hd
          simp [hdefines, hne]))
      · rw [List.filter_cons_of_pos (by simp [hd]), repeated, List.map_append]
        have heq : ([d].filter fun d => d.1 ≠ .types ∧ d ∈ seen) = if d ∈ seen then [d] else [] := by
          by_cases hmem : d ∈ seen <;> simp [hd, hmem]
        rw [heq] at hfield
        exact hfield.bind fun n' hn' => ih (seen ++ [d]) (hnext hn' (by simp [hdefines, eq_comm]))

theorem reports_ofFields (m : Module) :
    Reports (ofFields m.fields) ((repeated [] m.unshared).map fun d => .duplicate d.2) := by
  refine reports_foldlM_add m.fields [] fun space x _ => ?_
  cases space <;> simp [empty, get]

end Names

/-! ## References -/

section

variable {n : Names} {there : Space → List String} {signatures : List Signature} {locals : List String}

theorem reports_position (space : Space) {names : List String} (h : ∀ x, x ∈ names ↔ x ∈ there space) (x : String) :
    Reports (Names.position space names x) (dangling there [(space, x)]) := by
  by_cases hx : x ∈ names
  · have hok : Succeeds (Names.position space names x) := Names.succeeds_position.2 hx
    obtain ⟨i, hi⟩ := hok
    rw [hi]
    simpa [dangling, (h x).1 hx] using reports_ok i
  · cases hposition : Names.position space names x with
    | ok i => exact absurd (Names.succeeds_position.1 ⟨i, hposition⟩) hx
    | error e =>
      rw [(Names.position_eq_error hposition).2]
      simpa [dangling, mt (h x).2 hx] using reports_error _

theorem reports_signature (h : ∀ x, x ∈ n.get .types ↔ x ∈ there .types) (x : String) :
    Reports (n.signature x) (dangling there [(.types, x)]) := by
  by_cases hx : x ∈ n.get .types
  · obtain ⟨s, hs⟩ := Names.succeeds_signature.2 hx
    rw [hs]
    simpa [dangling, (h x).1 hx] using reports_ok s
  · cases hsignature : n.signature x with
    | ok s => exact absurd (Names.succeeds_signature.1 ⟨s, hsignature⟩) hx
    | error e =>
      rw [(Names.signature_eq_error hsignature).2]
      simpa [dangling, mt (h x).2 hx] using reports_error _

/-- What a body can refer to is what it is resolved with. -/
structure Names.Provide (n : Names) (locals : List String) (there : Space → List String) : Prop where
  locals : ∀ x, x ∈ locals ↔ x ∈ there .locals
  fields : ∀ space, space ≠ .locals → ∀ x, x ∈ n.get space ↔ x ∈ there space

mutual

theorem Instr.reports_resolve (h : n.Provide locals there) : ∀ i : Instr String,
    Reports (i.resolve n signatures locals) (dangling there i.refs)
  | .op _ | .i32Const _ | .f64Const _ | .load _ _ | .store _ _ => by
    simp only [Instr.resolve, Instr.refs]
    exact reports_ok _
  | .localGet x | .localSet x | .localTee x => by
    simp only [Instr.resolve, Instr.refs]
    exact (reports_position .locals h.locals x).map _
  | .globalGet x | .globalSet x => by
    simp only [Instr.resolve, Instr.refs]
    exact (reports_position .globals (h.fields .globals nofun) x).map _
  | .call f => by
    simp only [Instr.resolve, Instr.refs]
    exact (reports_position .functions (h.fields .functions nofun) f).map _
  | .callIndirect table type => by
    simp only [Instr.resolve, Instr.refs]
    rw [← List.singleton_append, dangling_append]
    refine (reports_signature (h.fields .types nofun) type).bind fun s _ => ?_
    have htable := (reports_position .tables (h.fields .tables nofun) table).bind fun t _ =>
      reports_ok (ε := NameError) (Instr.callIndirect t (signatures.idxOf s))
    rwa [List.append_nil] at htable
  | .cond result thenCode elseCode => by
    simp only [Instr.resolve, Instr.refs]
    rw [dangling_append]
    refine (Code.reports_resolveAll h thenCode).bind fun yes _ => ?_
    have helse := (Code.reports_resolveAll h elseCode).bind fun no _ =>
      reports_ok (ε := NameError) (Instr.cond result yes no)
    rwa [List.append_nil] at helse
termination_by structural i => i

theorem Code.reports_resolveAll (h : n.Provide locals there) : ∀ c : Code,
    Reports (Instr.resolveAll n signatures locals c) (dangling there (Code.refs c))
  | [] => by
    simp only [Instr.resolveAll, Code.refs_nil]
    exact reports_ok _
  | i :: c => by
    simp only [Instr.resolveAll, Code.refs_cons]
    rw [dangling_append]
    refine (Instr.reports_resolve h i).bind fun first _ => ?_
    have hrest := (Code.reports_resolveAll h c).bind fun rest _ => reports_ok (ε := NameError) (first :: rest)
    rwa [List.append_nil] at hrest
termination_by structural c => c

end

end

/-! ## Functions and other fields -/

section

variable {n : Names} {fields : List Field}

theorem provide_visible (hn : ∀ space x, x ∈ n.get space ↔ x ∈ declared fields space) (f : Func) :
    n.Provide f.declared (f.visible fields) where
  locals _ := Iff.rfl
  fields space hspace x := by
    rw [hn]
    cases space with
    | locals => exact absurd rfl hspace
    | _ => rfl

theorem reports_ofFunc (hn : ∀ space x, x ∈ n.get space ↔ x ∈ declared fields space) (signatures : List Signature)
    (f : Func) : Reports (Image.Func.ofFunc n signatures f) (f.offences fields) := by
  refine (Names.reports_ofLocals f).bind fun names hnames => ?_
  obtain ⟨-, rfl⟩ := ofLocals_eq_ok.1 hnames
  have hbody : Reports (Instr.resolveAll n signatures f.declared f.body) (dangling (f.visible fields) (Code.refs f.body)) :=
    Code.reports_resolveAll (provide_visible hn f) f.body
  have hfunc := hbody.bind fun body _ =>
    reports_ok (ε := NameError) (⟨signatures.idxOf f.signature, f.locals.map (·.ty), body, f.declared⟩ : Image.Func)
  rwa [List.append_nil] at hfunc

theorem reports_imageAdd (hn : ∀ space x, x ∈ n.get space ↔ x ∈ declared fields space) (image : Image) (field : Field) :
    Reports (image.add n field) (field.offences fields) := by
  cases field with
  | type _ _ | func _ | global _ _ _ | memory _ _ | table _ _ => exact reports_ok _
  | elem table offset funcs =>
    have htable := reports_position .tables (hn .tables) table
    have hfuncs : Reports (funcs.mapM (Names.position .functions n.funcs))
        (funcs.flatMap fun f => dangling (declared fields) [(.functions, f)]) :=
      Reports.mapM fun f _ => reports_position .functions (hn .functions) f
    have hflat : funcs.flatMap (fun f => dangling (declared fields) [(.functions, f)]) =
        dangling (declared fields) (funcs.map (.functions, ·)) := by
      rw [← flatMap_dangling, List.flatMap_map]
    rw [hflat] at hfuncs
    have hall := htable.bind fun t _ => hfuncs.bind fun fs _ =>
      reports_ok (ε := NameError) ({ image with elems := image.elems ++ [⟨t, offset, fs⟩] } : Image)
    rwa [List.append_nil, ← dangling_append] at hall
  | exports name kind target =>
    have htarget : Reports (Image.exportTarget n kind target)
        (dangling (declared fields) (Field.exports name kind target).refs) := by
      cases kind with
      | func => exact reports_position .functions (hn .functions) target
      | memory => exact reports_position .memories (hn .memories) target
      | global => exact reports_position .globals (hn .globals) target
    have hall := htarget.bind fun t _ =>
      reports_ok (ε := NameError) ({ image with exports := image.exports ++ [⟨name, kind, t⟩] } : Image)
    rwa [List.append_nil] at hall

end

/-- **Resolving stops at the first offence.** -/
theorem Module.reports_resolve (m : Module) : Reports m.resolve m.offences := by
  rw [Module.offences, List.append_assoc]
  refine (Names.reports_ofFields m).bind fun n hn => ?_
  have hall := Names.get_ofFields hn
  exact (Reports.mapM fun f _ => reports_ofFunc hall m.signatures f).bind fun funcs _ =>
    Reports.foldlM (fun image field _ => reports_imageAdd hall image field) _

/-- **Which modules are encoded**, with names or without: those in which functions, globals, memories
and tables have different names, and so have the parameters and locals of each function, and in which
whatever is referred to is defined. Of a module that is not encoded, the first offence is reported. -/
theorem encode_criterion (m : Module) (names : Bool) :
    (Succeeds (m.encode names) ↔ m.WellNamed) ∧
      ∀ e, m.encode names = .error e ↔ m.offences.head? = some e :=
  ⟨Module.succeeds_encode, m.reports_resolve.map _⟩

/-- Definitions come before references, the name of a type before that of a table, and functions
before other fields. -/
example : Module.offences ⟨[
    .exports "out" .func "nowhere",
    .func (.words "f" ["x", "x"] [] [.condWord [.localGet "y"] [.callIndirect "t" "s"]]),
    .func (.words "f" [] [] [])]⟩ =
    [.duplicate "f", .duplicate "x", .undefined .locals "y", .undefined .types "s", .undefined .tables "t",
      .undefined .functions "nowhere"] := by
  decide

end WasmBackend
