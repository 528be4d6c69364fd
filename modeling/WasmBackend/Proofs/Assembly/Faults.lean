/-
What the errors of resolving and linking say. An error is about one field: it
defines a name that is taken, or refers to one that is not defined
(`Field.Fault`, `resolve_eq_error`). Fields that are added after others that
resolve do not make those fail, so that the error is about one of the fields
that were added (`Field.Fault.added`), and linking names the component that
brought it (`link_blames_culprit`).
-/
import WasmBackend.Proofs.Assembly.Linking

namespace WasmBackend

section

variable {ε α β : Type}

theorem bind_eq_error {x : Except ε α} {f : α → Except ε β} {e : ε} :
    (x >>= f) = .error e ↔ x = .error e ∨ ∃ a, x = .ok a ∧ f a = .error e := by
  cases x <;> simp [bind, Except.bind]

theorem map_eq_error {x : Except ε α} {f : α → β} {e : ε} : x.map f = .error e ↔ x = .error e := by
  cases x <;> simp [Except.map]

/-- A fold fails at one of its steps, the first one to fail. -/
theorem foldlM_eq_error {f : β → α → Except ε β} {e : ε} :
    ∀ {xs : List α} {b : β}, xs.foldlM f b = .error e →
      ∃ (before : List α) (x : α) (after : List α) (b' : β), xs = before ++ x :: after ∧ before.foldlM f b = .ok b' ∧ f b' x = .error e
  | [], b, h => by cases h
  | x :: xs, b, h => by
    rw [List.foldlM_cons] at h
    rcases bind_eq_error.1 h with hx | ⟨b', hx, h⟩
    · exact ⟨[], x, xs, b, rfl, rfl, hx⟩
    · obtain ⟨before, y, after, b'', rfl, hbefore, hy⟩ := foldlM_eq_error h
      exact ⟨x :: before, y, after, b'', rfl, by rw [List.foldlM_cons, hx]; exact hbefore, hy⟩

theorem mapM_eq_error {f : α → Except ε β} {e : ε} : ∀ {xs : List α}, xs.mapM f = .error e → ∃ x ∈ xs, f x = .error e
  | [], h => by cases h
  | x :: xs, h => by
    rw [List.mapM_cons] at h
    rcases bind_eq_error.1 h with hx | ⟨b, -, h⟩
    · exact ⟨x, by simp, hx⟩
    · rcases bind_eq_error.1 h with h | ⟨bs, -, h⟩
      · obtain ⟨y, hy, hf⟩ := mapM_eq_error h
        exact ⟨y, by simp [hy], hf⟩
      · cases h

end

/-- What is wrong with a field, where some come before it and it is resolved among all. -/
inductive Field.Fault (before all : List Field) : Field → NameError → Prop
  | repeated {field : Field} {space : Space} {name : String} : field.defines = some (space, name) →
      space ≠ .types → name ∈ declared before space → Fault before all field (.duplicate name)
  | repeatedLocal {f : Func} {name : String} : 2 ≤ f.declared.count name →
      Fault before all (.func f) (.duplicate name)
  | undefined {field : Field} {space : Space} {name : String} : (space, name) ∈ field.refs →
      name ∉ declared all space → Fault before all field (.undefined space name)
  | undefinedLocal {f : Func} {name : String} : (.locals, name) ∈ Code.refs f.body → name ∉ f.declared →
      Fault before all (.func f) (.undefined .locals name)

/-! ## Errors of definitions -/

namespace Names

variable {n : Names} {e : NameError}

theorem define_eq_error {names : List String} {x : String} :
    define names x = .error e ↔ x ∈ names ∧ e = .duplicate x := by
  unfold define
  split <;> simp_all [eq_comm]

theorem position_eq_error {space : Space} {names : List String} {x : String}
    (h : position space names x = .error e) : x ∉ names ∧ e = .undefined space x := by
  have hfails : ¬ Succeeds (position space names x) := by simp [h]
  rw [succeeds_position] at hfails
  refine ⟨hfails, ?_⟩
  unfold position at h
  split at h <;> cases h
  rfl

theorem signature_eq_error {x : String} (h : n.signature x = .error e) :
    x ∉ n.get .types ∧ e = .undefined .types x := by
  have hfails : ¬ Succeeds (n.signature x) := by simp [h]
  rw [succeeds_signature] at hfails
  refine ⟨hfails, ?_⟩
  unfold signature at h
  split at h <;> cases h
  rfl

/-- A field is not added if it defines a name that is taken. -/
theorem add_eq_error {f : Field} (h : n.add f = .error e) :
    ∃ space x, f.defines = some (space, x) ∧ space ≠ .types ∧ x ∈ n.get space ∧ e = .duplicate x := by
  cases f with
  | func f =>
    obtain ⟨hx, he⟩ := define_eq_error.1 (map_eq_error.1 h)
    exact ⟨.functions, f.name, rfl, nofun, hx, he⟩
  | global name _ _ =>
    obtain ⟨hx, he⟩ := define_eq_error.1 (map_eq_error.1 h)
    exact ⟨.globals, name, rfl, nofun, hx, he⟩
  | memory name _ =>
    obtain ⟨hx, he⟩ := define_eq_error.1 (map_eq_error.1 h)
    exact ⟨.memories, name, rfl, nofun, hx, he⟩
  | table name _ =>
    obtain ⟨hx, he⟩ := define_eq_error.1 (map_eq_error.1 h)
    exact ⟨.tables, name, rfl, nofun, hx, he⟩
  | type _ _ | elem _ _ _ | exports _ _ _ => cases h

theorem ofFields_eq_error {fields : List Field} (h : ofFields fields = .error e) :
    ∃ before, ∃ field : Field, ∃ after, fields = before ++ field :: after ∧ field.Fault before fields e := by
  obtain ⟨before, field, after, n, hfields, hbefore, hfield⟩ := foldlM_eq_error h
  obtain ⟨space, x, hdefines, hspace, hx, rfl⟩ := add_eq_error hfield
  exact ⟨before, field, after, hfields, .repeated hdefines hspace ((get_ofFields hbefore space x).1 hx)⟩

theorem ofLocals_eq_error {f : Func} (h : ofLocals f = .error e) : ∃ x, 2 ≤ f.declared.count x ∧ e = .duplicate x := by
  obtain ⟨before, l, after, names, hlocals, hbefore, hl⟩ := foldlM_eq_error h
  obtain ⟨hx, rfl⟩ := define_eq_error.1 hl
  obtain ⟨-, rfl⟩ := foldlM_define_eq_ok.1 hbefore
  refine ⟨l.name, ?_, rfl⟩
  have hcount : 1 ≤ (before.map (·.name)).count l.name := List.count_pos_iff.2 hx
  simp only [Func.declared, hlocals, List.map_append, List.map_cons, List.count_append, List.count_cons_self]
  omega

end Names

/-! ## Errors of references -/

section

variable {n : Names} {signatures : List Signature} {locals : List String} {e : NameError}

/-- A reference, among some, to a name that is not defined. -/
def NameError.DanglingIn (n : Names) (locals : List String) (refs : List (Space × String)) (e : NameError) : Prop :=
  ∃ d ∈ refs, e = .undefined d.1 d.2 ∧ if d.1 = .locals then d.2 ∉ locals else d.2 ∉ n.get d.1

theorem NameError.DanglingIn.mono {refs refs' : List (Space × String)} (h : e.DanglingIn n locals refs)
    (hrefs : refs ⊆ refs') : e.DanglingIn n locals refs' := by
  obtain ⟨d, hd, he⟩ := h
  exact ⟨d, hrefs hd, he⟩

mutual

theorem Instr.resolve_eq_error : ∀ i : Instr String, i.resolve n signatures locals = .error e →
    e.DanglingIn n locals i.refs
  | .op _, h | .i32Const _, h | .f64Const _, h | .load _ _, h | .store _ _, h => by
    simp only [Instr.resolve] at h
    cases h
  | .localGet x, h | .localSet x, h | .localTee x, h => by
    simp only [Instr.resolve] at h
    obtain ⟨hx, rfl⟩ := Names.position_eq_error (map_eq_error.1 h)
    exact ⟨(.locals, x), by simp [Instr.refs], rfl, hx⟩
  | .globalGet x, h | .globalSet x, h => by
    simp only [Instr.resolve] at h
    obtain ⟨hx, rfl⟩ := Names.position_eq_error (map_eq_error.1 h)
    exact ⟨(.globals, x), by simp [Instr.refs], rfl, hx⟩
  | .call f, h => by
    simp only [Instr.resolve] at h
    obtain ⟨hx, rfl⟩ := Names.position_eq_error (map_eq_error.1 h)
    exact ⟨(.functions, f), by simp [Instr.refs], rfl, hx⟩
  | .callIndirect table type, h => by
    simp only [Instr.resolve] at h
    rcases bind_eq_error.1 h with h | ⟨s, -, h⟩
    · obtain ⟨hx, rfl⟩ := Names.signature_eq_error h
      exact ⟨(.types, type), by simp [Instr.refs], rfl, hx⟩
    · rcases bind_eq_error.1 h with h | ⟨t, -, h⟩
      · obtain ⟨hx, rfl⟩ := Names.position_eq_error h
        exact ⟨(.tables, table), by simp [Instr.refs], rfl, hx⟩
      · cases h
  | .cond result thenCode elseCode, h => by
    simp only [Instr.resolve] at h
    rw [Instr.refs]
    rcases bind_eq_error.1 h with h | ⟨yes, -, h⟩
    · exact (Code.resolveAll_eq_error thenCode h).mono (List.subset_append_left _ _)
    · rcases bind_eq_error.1 h with h | ⟨no, -, h⟩
      · exact (Code.resolveAll_eq_error elseCode h).mono (List.subset_append_right _ _)
      · cases h
termination_by structural i => i

theorem Code.resolveAll_eq_error : ∀ c : Code, Instr.resolveAll n signatures locals c = .error e →
    e.DanglingIn n locals (Code.refs c)
  | [], h => by
    simp only [Instr.resolveAll] at h
    cases h
  | i :: c, h => by
    simp only [Instr.resolveAll] at h
    rw [Code.refs_cons]
    rcases bind_eq_error.1 h with h | ⟨first, -, h⟩
    · exact (Instr.resolve_eq_error i h).mono (List.subset_append_left _ _)
    · rcases bind_eq_error.1 h with h | ⟨rest, -, h⟩
      · exact (Code.resolveAll_eq_error c h).mono (List.subset_append_right _ _)
      · cases h
termination_by structural c => c

end

/-- A function does not resolve if a local is declared twice or something in it is not defined. -/
theorem ofFunc_eq_error {f : Func} (h : Image.Func.ofFunc n signatures f = .error e) {before all : List Field}
    (hall : ∀ space x, x ∈ n.get space ↔ x ∈ declared all space) : (Field.func f).Fault before all e := by
  rcases bind_eq_error.1 h with h | ⟨names, hnames, h⟩
  · obtain ⟨x, hx, rfl⟩ := Names.ofLocals_eq_error h
    exact .repeatedLocal hx
  · obtain ⟨-, rfl⟩ := ofLocals_eq_ok.1 hnames
    rcases bind_eq_error.1 h with h | ⟨body, -, h⟩
    · obtain ⟨⟨space, x⟩, hd, rfl, hx⟩ := Code.resolveAll_eq_error f.body h
      by_cases hspace : space = .locals
      · subst hspace
        exact .undefinedLocal hd (by simpa using hx)
      · rw [if_neg hspace, hall] at hx
        exact .undefined (by simp [Field.refs, hd, hspace]) hx
    · cases h

theorem imageAdd_eq_error {image : Image} {field : Field} (h : image.add n field = .error e) {before all : List Field}
    (hall : ∀ space x, x ∈ n.get space ↔ x ∈ declared all space) : field.Fault before all e := by
  cases field with
  | elem table offset funcs =>
    rcases bind_eq_error.1 h with h | ⟨t, -, h⟩
    · obtain ⟨hx, rfl⟩ := Names.position_eq_error h
      exact .undefined (by simp [Field.refs]) (mt (hall .tables table).2 hx)
    · rcases bind_eq_error.1 h with h | ⟨fs, -, h⟩
      · obtain ⟨f, hf, h⟩ := mapM_eq_error h
        obtain ⟨hx, rfl⟩ := Names.position_eq_error h
        exact .undefined (by simp [Field.refs, hf]) (mt (hall .functions f).2 hx)
      · cases h
  | exports name kind target =>
    rcases bind_eq_error.1 h with h | ⟨t, -, h⟩
    · cases kind with
      | func =>
        obtain ⟨hx, rfl⟩ := Names.position_eq_error h
        exact .undefined (by simp [Field.refs]) (mt (hall .functions target).2 hx)
      | memory =>
        obtain ⟨hx, rfl⟩ := Names.position_eq_error h
        exact .undefined (by simp [Field.refs]) (mt (hall .memories target).2 hx)
      | global =>
        obtain ⟨hx, rfl⟩ := Names.position_eq_error h
        exact .undefined (by simp [Field.refs]) (mt (hall .globals target).2 hx)
    · cases h
  | type _ _ | func _ | global _ _ _ | memory _ _ | table _ _ => cases h

end

/-- **An error is about a field** that has the fault it tells of. -/
theorem resolve_eq_error {m : Module} {e : NameError} (h : m.resolve = .error e) :
    ∃ before, ∃ field : Field, ∃ after, m.fields = before ++ field :: after ∧ field.Fault before m.fields e := by
  rcases bind_eq_error.1 h with h | ⟨n, hn, h⟩
  · exact Names.ofFields_eq_error h
  · have hall := Names.get_ofFields hn
    rcases bind_eq_error.1 h with h | ⟨funcs, -, h⟩
    · obtain ⟨f, hf, h⟩ := mapM_eq_error h
      obtain ⟨before, after, hfields⟩ := List.append_of_mem (Module.mem_funcs.1 hf)
      exact ⟨before, .func f, after, hfields, ofFunc_eq_error h hall⟩
    · obtain ⟨before, field, after, image, hfields, -, h⟩ := foldlM_eq_error h
      exact ⟨before, field, after, hfields, imageAdd_eq_error h hall⟩

/-! ## Errors of linking -/

theorem check_eq_ok {m : Module} : m.check = .ok () ↔ m.WellNamed := by
  rw [← resolve_succeeds_iff, Module.check]
  cases m.resolve <;> simp [Except.map]

/-- Fields that resolve have no fault, whatever comes after them. -/
theorem Field.Fault.not_resolved {before after fields : List Field} {field : Field} {e : NameError}
    (h : Module.WellNamed ⟨before ++ field :: after⟩) : ¬ field.Fault before (before ++ field :: after ++ fields) e := by
  intro hfault
  have hmem : field ∈ before ++ field :: after := by simp
  cases hfault with
  | @repeated _ space name hdefines hspace hbefore =>
    have hnodup := h.nodup space hspace
    rw [declared_append, declared_cons_self hdefines, List.nodup_append] at hnodup
    exact hnodup.2.2 name hbefore name (by simp) rfl
  | @repeatedLocal f name hcount =>
    have hone := List.nodup_iff_count_le_one.1 (h.locals f (Module.mem_funcs.2 hmem)).nodup name
    omega
  | @undefined _ space name href hnot =>
    refine hnot ?_
    rw [declared_append]
    exact List.mem_append_left _ (h.refs field hmem (space, name) href)
  | @undefinedLocal f name href hnot => exact hnot ((h.locals f (Module.mem_funcs.2 hmem)).refs name href)

/-- An error that comes up when fields are added is about one of those. -/
theorem Field.Fault.added {fields added before after : List Field} {field : Field} {e : NameError}
    (h : Module.WellNamed ⟨fields⟩) (hsplit : fields ++ added = before ++ field :: after)
    (hfault : field.Fault before (fields ++ added) e) :
    ∃ earlier later, added = earlier ++ field :: later ∧ field.Fault (fields ++ earlier) (fields ++ added) e := by
  rcases List.append_eq_append_iff.1 hsplit with ⟨earlier, rfl, hadded⟩ | ⟨rest, rfl, hrest⟩
  · exact ⟨earlier, after, hadded, hfault⟩
  · cases rest with
    | nil =>
      rw [List.append_nil] at hfault ⊢
      exact ⟨[], after, by simpa using hrest.symm, by simpa using hfault⟩
    | cons f rest =>
      cases hrest
      exact absurd hfault (Field.Fault.not_resolved h)

namespace Component

theorem attach_eq_ok {fields r : List Field} {c : Component} :
    attach fields c = .ok r ↔ r = fields ++ c.fields ∧ Module.check ⟨r⟩ = .ok () := by
  unfold attach
  split
  · rename_i u hcheck
    constructor
    · intro h
      cases h
      exact ⟨rfl, hcheck⟩
    · rintro ⟨rfl, -⟩
      rfl
  · rename_i cause hcheck
    constructor
    · intro h
      cases h
    · rintro ⟨rfl, h⟩
      rw [hcheck] at h
      cases h

theorem attach_eq_error {fields : List Field} {c : Component} {e : LinkError} (h : attach fields c = .error e) :
    e.component = c.name ∧ Module.check ⟨fields ++ c.fields⟩ = .error e.cause := by
  unfold attach at h
  split at h
  · cases h
  · rename_i cause hcheck
    cases h
    exact ⟨rfl, hcheck⟩

/-- What is linked passes at every step. -/
theorem foldlM_attach_passes {cs : List Component} {fields r : List Field} (h : cs.foldlM attach fields = .ok r)
    (hfields : Module.check ⟨fields⟩ = .ok ()) {before after : List Component} (hcs : cs = before ++ after) :
    Module.check ⟨fields ++ before.flatMap (·.fields)⟩ = .ok () := by
  subst hcs
  induction before generalizing fields with
  | nil => simpa using hfields
  | cons c before ih =>
    rw [List.cons_append, List.foldlM_cons] at h
    obtain ⟨fields', hattach, h⟩ := bind_eq_ok.1 h
    obtain ⟨rfl, hpass⟩ := attach_eq_ok.1 hattach
    have hrest := ih hpass h
    rwa [List.flatMap_cons, ← List.append_assoc]

/-- **Linking names the component at fault.** If it fails, it names the first component in order at
which the fields so far do not pass, and the error tells of a fault of one of its own fields. If it
does not, the module has the fields of all components in order, then those that were added, and a
component refers only to what it defines itself or one before it does. -/
theorem link_blames_culprit (root : Component) (extra : List Field) :
    (∀ e, root.link extra = .error e → ∃ before c after, root.order = before ++ c :: after ∧
      e.component = c.name ∧
      (∀ cs, cs <+: before → Module.check ⟨cs.flatMap (·.fields)⟩ = .ok ()) ∧
      Module.check ⟨(before ++ [c]).flatMap (·.fields)⟩ = .error e.cause ∧
      ∃ earlier field later, c.fields = earlier ++ field :: later ∧
        field.Fault (before.flatMap (·.fields) ++ earlier) ((before ++ [c]).flatMap (·.fields)) e.cause) ∧
    (∀ m, root.link extra = .ok m → m.fields = root.order.flatMap (·.fields) ++ extra ∧
      ∀ before c after, root.order = before ++ c :: after → ∀ field ∈ c.fields,
        (∀ d ∈ field.refs, d.2 ∈ declared ((before ++ [c]).flatMap (·.fields)) d.1) ∧
        ∀ f, field = .func f → ∀ x, (.locals, x) ∈ Code.refs f.body → x ∈ f.declared) := by
  have hempty : Module.check ⟨[]⟩ = .ok () := rfl
  constructor
  · intro e h
    unfold link at h
    rcases bind_eq_error.1 h with h | ⟨fields, -, h⟩
    · obtain ⟨before, c, after, fields, horder, hbefore, hc⟩ := foldlM_eq_error h
      obtain ⟨hname, hcheck⟩ := attach_eq_error hc
      obtain rfl : fields = before.flatMap (·.fields) := fields_foldlM_attach hbefore
      have hpasses : ∀ cs, cs <+: before → Module.check ⟨cs.flatMap (·.fields)⟩ = .ok () := by
        rintro cs ⟨rest, hrest⟩
        simpa using foldlM_attach_passes hbefore hempty hrest.symm
      have hwell : Module.WellNamed ⟨before.flatMap (·.fields)⟩ := check_eq_ok.1 (hpasses before List.prefix_rfl)
      obtain ⟨before', field, after', hsplit, hfault⟩ := resolve_eq_error (map_eq_error.1 hcheck)
      obtain ⟨earlier, later, hfields, hfault⟩ := Field.Fault.added hwell hsplit hfault
      have hflat : (before ++ [c]).flatMap (·.fields) = before.flatMap (·.fields) ++ c.fields := by simp
      rw [← hflat] at hcheck hfault
      exact ⟨before, c, after, horder, hname, hpasses, hcheck, earlier, field, later, hfields, hfault⟩
    · cases h
  · intro m h
    refine ⟨fields_link h, fun before c after horder field hfield => ?_⟩
    unfold link at h
    obtain ⟨fields, hfold, -⟩ := bind_eq_ok.1 h
    have hsplit : root.order = (before ++ [c]) ++ after := by simp [horder]
    have hwell := check_eq_ok.1 (foldlM_attach_passes hfold hempty hsplit)
    rw [List.nil_append] at hwell
    have hmem : field ∈ (before ++ [c]).flatMap (·.fields) := List.mem_flatMap.2 ⟨c, by simp, hfield⟩
    refine ⟨hwell.refs field hmem, ?_⟩
    rintro f rfl
    exact (hwell.locals f (Module.mem_funcs.2 hmem)).refs

/-- A component with a function that takes the head of a list. -/
def heads (requires : List Component) : Component :=
  .ofFuncs "heads" [.words "first" ["list"] [] [.localGet "list", .call Library.Lists.head]] requires

/-- Without the lists that it calls into, this component is named, though the one that it requires
passes; with them it is linked. -/
theorem link_blames_culprit_heads :
    (heads [Library.tuple 1]).link [] = .error ⟨"heads", .undefined .functions "list_head"⟩ ∧
      (∃ before c after, (heads [Library.tuple 1]).order = before ++ c :: after ∧ "heads" = c.name ∧
        (∀ cs, cs <+: before → Module.check ⟨cs.flatMap (·.fields)⟩ = .ok ()) ∧
        ∃ earlier field later, c.fields = earlier ++ field :: later ∧
          field.Fault (before.flatMap (·.fields) ++ earlier) ((before ++ [c]).flatMap (·.fields))
            (.undefined .functions "list_head")) ∧
      ∃ m, (heads [Library.list 1]).link [] = .ok m ∧
        m.fields = (heads [Library.list 1]).order.flatMap (·.fields) ++ [] := by
  have hfails : ((heads [Library.tuple 1]).link []).map (fun _ => ()) =
      .error ⟨"heads", .undefined .functions "list_head"⟩ := by decide +kernel
  have hlinks : ((heads [Library.list 1]).link []).map (fun _ => ()) = .ok () := by decide +kernel
  rw [map_eq_error] at hfails
  obtain ⟨m, hlinks⟩ := succeeds_map.1 ⟨(), hlinks⟩
  obtain ⟨before, c, after, horder, hname, hpasses, -, hfault⟩ := (link_blames_culprit _ _).1 _ hfails
  obtain ⟨hfields, -⟩ := (link_blames_culprit _ _).2 m hlinks
  exact ⟨hfails, ⟨before, c, after, horder, hname, hpasses, hfault⟩, m, hlinks, hfields⟩

end Component

end WasmBackend
