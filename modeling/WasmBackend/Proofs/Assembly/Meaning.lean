/-
What the names in a module stand for. In a module that passes the check, no
two functions, globals, memories or tables share a name, and whatever is
referred to is one field; fields that are added later do not change which
(`check_fixes_meaning`).

Types are the exception. A name that several types share stands for the last
of them, so a type that is added later can take the place of one that is
already referred to (`laterType_accepted`).
-/
import WasmBackend.Proofs.Assembly.Faults
import WasmBackend.Proofs.Binary.Faithful

namespace WasmBackend

/-- The definitions of a space, in order: a name is resolved to a position among them. -/
def definitions (fields : List Field) (space : Space) : List Field :=
  fields.filter fun f => f.defines.any (·.1 = space)

/-- What a reference is resolved to: the definition at the position that its name has, or, for a
type, the signature that its name has. -/
inductive Module.Denotes (m : Module) : Space × String → Field → Prop
  | entry {n : Names} {space : Space} {x : String} {i : Nat} {field : Field} : space ≠ .types →
      Names.ofFields m.fields = .ok n → Names.position space (n.get space) x = .ok i →
      (definitions m.fields space)[i]? = some field → m.Denotes (space, x) field
  | type {n : Names} {x : String} {s : Signature} : Names.ofFields m.fields = .ok n → n.signature x = .ok s →
      m.Denotes (.types, x) (.type x s)

/-! ## Definitions of one name -/

section

variable {fields : List Field} {d : Space × String}

/-- The names of definitions are those that are declared, in the same order. -/
theorem map_defines_definitions (fields : List Field) (space : Space) :
    (definitions fields space).map Field.defines = (declared fields space).map fun x => some (space, x) := by
  induction fields with
  | nil => rfl
  | cons f fields ih =>
    rw [definitions] at ih ⊢
    cases hf : f.defines with
    | none =>
      rw [List.filter_cons_of_neg (by simp [hf]), declared_cons_of_ne (by simp [hf])]
      exact ih
    | some d =>
      obtain ⟨s, x⟩ := d
      by_cases hs : s = space
      · subst hs
        rw [List.filter_cons_of_pos (by simp [hf]), declared_cons_self hf, List.map_cons, List.map_cons, hf, ih]
      · rw [List.filter_cons_of_neg (by simp [hf, hs]), declared_cons_of_ne (by simp [hf, hs])]
        exact ih

theorem mem_definitions {space : Space} {field : Field} :
    field ∈ definitions fields space ↔ field ∈ fields ∧ ∃ x, field.defines = some (space, x) := by
  rw [definitions, List.mem_filter]
  cases field.defines with
  | none => simp
  | some d =>
    obtain ⟨s, x⟩ := d
    simp

/-- How often a name is defined. -/
theorem count_defines (fields : List Field) (space : Space) (x : String) :
    (fields.filterMap Field.defines).count (space, x) = (declared fields space).count x := by
  induction fields with
  | nil => rfl
  | cons f fields ih =>
    cases hf : f.defines with
    | none => rw [List.filterMap_cons_none hf, declared_cons_of_ne (by simp [hf]), ih]
    | some d =>
      obtain ⟨s, y⟩ := d
      rw [List.filterMap_cons_some hf, List.count_cons]
      by_cases hs : s = space
      · subst hs
        rw [declared_cons_self hf, List.count_cons, ih]
        simp
      · rw [declared_cons_of_ne (by simp [hf, hs]), ih]
        simp [hs]

/-- Fields that define the same name are the same where it is defined once. -/
theorem eq_of_defines (h : (fields.filterMap Field.defines).count d ≤ 1) {f g : Field} (hf : f ∈ fields)
    (hg : g ∈ fields) (hfd : f.defines = some d) (hgd : g.defines = some d) : f = g := by
  induction fields with
  | nil => cases hf
  | cons k fields ih =>
    have hrest {k' : Field} (hk' : k' ∈ fields) (hd : k'.defines = some d) : 0 < (fields.filterMap Field.defines).count d :=
      List.count_pos_iff.2 (List.mem_filterMap.2 ⟨k', hk', hd⟩)
    have hhere (hk : k.defines = some d) : (fields.filterMap Field.defines).count d = 0 := by
      rw [List.filterMap_cons_some hk, List.count_cons_self] at h
      omega
    rcases List.mem_cons.1 hf with rfl | hf' <;> rcases List.mem_cons.1 hg with rfl | hg'
    · rfl
    · have hpos := hrest hg' hgd
      have hzero := hhere hfd
      omega
    · have hpos := hrest hf' hfd
      have hzero := hhere hgd
      omega
    · refine ih ?_ hf' hg'
      cases hk : k.defines with
      | none => rwa [List.filterMap_cons_none hk] at h
      | some d' =>
        rw [List.filterMap_cons_some hk] at h
        exact Nat.le_trans (List.count_le_count_cons) h

theorem Module.WellNamed.count_le {m : Module} (h : m.WellNamed) (hd : d.1 ≠ .types) :
    (m.fields.filterMap Field.defines).count d ≤ 1 := by
  rw [count_defines]
  exact List.nodup_iff_count_le_one.1 (h.nodup d.1 hd) d.2

end

/-! ## Signatures -/

section

variable {a b : List Field} {x : String} {s : Signature}

/-- Types that come later are looked at first. -/
theorem signature?_append : Module.signature? ⟨a ++ b⟩ x = (Module.signature? ⟨b⟩ x).or (Module.signature? ⟨a⟩ x) := by
  rw [Module.signature?, Module.signature?, Module.signature?, List.reverse_append, List.findSome?_append]

theorem mem_of_signature? (h : Module.signature? ⟨a⟩ x = some s) : .type x s ∈ a := by
  obtain ⟨field, hfield, hs⟩ := List.exists_of_findSome?_eq_some h
  cases field with
  | type name s' =>
    simp only [Option.ite_none_right_eq_some, Option.some.injEq] at hs
    obtain ⟨rfl, rfl⟩ := hs
    exact List.mem_reverse.1 hfield
  | _ => cases hs

end

/-! ## What references denote -/

/-- The names of a space are those that are declared, in the same order. -/
theorem Names.get_ofFields_eq {fields : List Field} {n : Names} (h : Names.ofFields fields = .ok n) {space : Space}
    (hspace : space ≠ .types) : n.get space = declared fields space := by
  have hnil : Names.empty.get space = [] := by cases space <;> rfl
  rw [(Names.foldlM_add h).1 space hspace, hnil, List.nil_append]

namespace Module

variable {m : Module} {d : Space × String} {field : Field}

theorem Denotes.defines (h : m.Denotes d field) : field ∈ m.fields ∧ field.defines = some d := by
  cases h with
  | @entry n space x i field hspace hn hi hfield =>
    have hx : (declared m.fields space)[i]? = some x :=
      Names.get_ofFields_eq hn hspace ▸ Names.getElem?_of_position hi
    have hmap := congrArg (·[i]?) (map_defines_definitions m.fields space)
    simp only [List.getElem?_map, hfield, hx, Option.map_some, Option.some.injEq] at hmap
    exact ⟨(mem_definitions.1 (List.mem_of_getElem? hfield)).1, hmap⟩
  | @type n x s hn hs => exact ⟨mem_of_signature? ((Names.of_ofFields hn).signature hs).1, rfl⟩

/-- The one field that defines a name is what the name denotes. -/
theorem WellNamed.denotes_iff (h : m.WellNamed) (hd : d.1 ≠ .types) :
    m.Denotes d field ↔ field ∈ m.fields ∧ field.defines = some d := by
  refine ⟨Denotes.defines, fun ⟨hmem, hdefines⟩ => ?_⟩
  obtain ⟨space, x⟩ := d
  obtain ⟨n, hn⟩ := Names.succeeds_ofFields.2 h.nodup
  have hx : x ∈ n.get space := (Names.get_ofFields hn space x).2 (mem_declared.2 ⟨field, hmem, hdefines⟩)
  have hposition : Succeeds (Names.position space (n.get space) x) := Names.succeeds_position.2 hx
  obtain ⟨i, hi⟩ := hposition
  have hlt : i < (definitions m.fields space).length := by
    have hlen := congrArg List.length (map_defines_definitions m.fields space)
    rw [List.length_map, List.length_map, ← Names.get_ofFields_eq hn hd] at hlen
    exact hlen ▸ Names.position_lt hi
  have hdenotes : m.Denotes (space, x) (definitions m.fields space)[i] :=
    .entry hd hn hi (List.getElem?_eq_getElem hlt)
  obtain ⟨hmem', hdefines'⟩ := hdenotes.defines
  rwa [eq_of_defines (h.count_le hd) hmem' hmem hdefines' hdefines] at hdenotes

/-- The name of a type denotes the last type of that name. -/
theorem WellNamed.denotes_type_iff (h : m.WellNamed) {x : String} :
    m.Denotes (.types, x) field ↔ ∃ s, m.signature? x = some s ∧ field = .type x s := by
  constructor
  · intro hdenotes
    cases hdenotes with
    | entry hspace => exact absurd rfl hspace
    | @type n x s hn hs => exact ⟨s, ((Names.of_ofFields hn).signature hs).1, rfl⟩
  · rintro ⟨s, hs, rfl⟩
    obtain ⟨n, hn⟩ := Names.succeeds_ofFields.2 h.nodup
    have hx : x ∈ n.get .types := (Names.get_ofFields hn .types x).2 (mem_declared.2 ⟨_, mem_of_signature? hs, rfl⟩)
    obtain ⟨s', hs'⟩ := Names.succeeds_signature.2 hx
    have hsame := ((Names.of_ofFields hn).signature hs').1
    rw [hs] at hsame
    cases hsame
    exact .type hn hs'

/-- What is defined denotes something, and only one thing. -/
theorem WellNamed.denotes_one (h : m.WellNamed) (hd : d.2 ∈ declared m.fields d.1) :
    ∃ target ∈ m.fields, target.defines = some d ∧ ∀ field, m.Denotes d field ↔ field = target := by
  obtain ⟨space, x⟩ := d
  by_cases hspace : space = .types
  · subst hspace
    obtain ⟨n, hn⟩ := Names.succeeds_ofFields.2 h.nodup
    obtain ⟨s, hs⟩ := Names.succeeds_signature.2 ((Names.get_ofFields hn .types x).2 hd)
    have hsignature := ((Names.of_ofFields hn).signature hs).1
    refine ⟨.type x s, mem_of_signature? hsignature, rfl, fun field => ?_⟩
    rw [h.denotes_type_iff, hsignature]
    simp
  · obtain ⟨target, hmem, hdefines⟩ := mem_declared.1 hd
    refine ⟨target, hmem, hdefines, fun field => ?_⟩
    rw [h.denotes_iff hspace]
    constructor
    · rintro ⟨hmem', hdefines'⟩
      exact eq_of_defines (h.count_le hspace) hmem' hmem hdefines' hdefines
    · rintro rfl
      exact ⟨hmem, hdefines⟩

/-- Fields that are added do not change what is denoted in other spaces than that of types. -/
theorem WellNamed.denotes_append {more : List Field} (h : m.WellNamed) (hmore : WellNamed ⟨m.fields ++ more⟩)
    (hspace : d.1 ≠ .types) (hd : d.2 ∈ declared m.fields d.1) :
    Denotes ⟨m.fields ++ more⟩ d field ↔ m.Denotes d field := by
  obtain ⟨target, htarget, hdefines⟩ := mem_declared.1 hd
  rw [h.denotes_iff hspace, hmore.denotes_iff hspace]
  constructor
  · rintro ⟨hmem, hfield⟩
    have heq := eq_of_defines (hmore.count_le hspace) hmem (List.mem_append_left _ htarget) hfield hdefines
    exact ⟨heq ▸ htarget, hfield⟩
  · rintro ⟨hmem, hfield⟩
    exact ⟨List.mem_append_left _ hmem, hfield⟩

/-- Fields that are added change what a type's name denotes if they have a type of that name with
another signature. -/
theorem WellNamed.denotes_type_append {more : List Field} (h : m.WellNamed) (hmore : WellNamed ⟨m.fields ++ more⟩)
    (x : String) : (∀ field, Denotes ⟨m.fields ++ more⟩ (.types, x) field ↔ m.Denotes (.types, x) field) ↔
      ∀ s, Module.signature? ⟨more⟩ x = some s → m.signature? x = some s := by
  simp only [h.denotes_type_iff, hmore.denotes_type_iff, signature?_append]
  constructor
  · intro hall s hs
    obtain ⟨s', hs', heq⟩ := (hall (.type x s)).1 ⟨s, by simp [hs], rfl⟩
    cases heq
    exact hs'
  · intro hall field
    cases hs : Module.signature? ⟨more⟩ x with
    | none => simp
    | some s => simp [hall s hs]

end Module

/-- **The check fixes what names stand for.** In a module that passes, no two functions, globals,
memories or tables have one name, and whatever a field refers to is one field. It stays that field
when others are added, provided that the module still passes, and, if it is a type, that those added
have no type of that name with another signature. -/
theorem check_fixes_meaning (m : Module) (hm : m.check = .ok ()) :
    (∀ d : Space × String, d.1 ≠ .types → (m.fields.filterMap Field.defines).count d ≤ 1) ∧
    (∀ field ∈ m.fields, ∀ d ∈ field.refs,
      ∃ target ∈ m.fields, target.defines = some d ∧ ∀ f, m.Denotes d f ↔ f = target) ∧
    ∀ more, Module.check ⟨m.fields ++ more⟩ = .ok () → ∀ field ∈ m.fields, ∀ d ∈ field.refs,
      ((∀ f, Module.Denotes ⟨m.fields ++ more⟩ d f ↔ m.Denotes d f) ↔
        (d.1 = .types → ∀ s, Module.signature? ⟨more⟩ d.2 = some s → m.signature? d.2 = some s)) := by
  have hwell := check_eq_ok.1 hm
  refine ⟨fun d hd => hwell.count_le hd, fun field hfield d hd => hwell.denotes_one (hwell.refs field hfield d hd), ?_⟩
  intro more hmore field hfield d hd
  have hdefined := hwell.refs field hfield d hd
  obtain ⟨space, x⟩ := d
  by_cases hspace : space = .types
  · subst hspace
    rw [hwell.denotes_type_append (check_eq_ok.1 hmore)]
    simp
  · have hkept : ∀ f, Module.Denotes ⟨m.fields ++ more⟩ (space, x) f ↔ m.Denotes (space, x) f :=
      fun f => hwell.denotes_append (check_eq_ok.1 hmore) hspace hdefined
    exact iff_of_true hkept fun htypes => absurd htypes hspace

namespace Module

/-- A function that calls through a table. -/
def caller : Func := ⟨"run", [], none, [], [.i32Const 0, .callIndirect "slots" "shape"]⟩

/-- The table and the signature that the function needs, which has no parameters. -/
def callsThrough : Module := ⟨[.type "shape" ⟨[], none⟩, .table "slots" 1, .func caller]⟩

/-- A type of the same name, with a parameter. -/
def laterType : List Field := [.type "shape" ⟨[.i32], none⟩]

end Module

theorem check_fixes_meaning_callsThrough : Module.callsThrough.check = .ok () ∧
    Module.check ⟨Module.callsThrough.fields ++ Module.laterType⟩ = .ok () ∧
    (∃ target, ∀ f, Module.callsThrough.Denotes (.tables, "slots") f ↔ f = target) ∧
    (∀ f, Module.Denotes ⟨Module.callsThrough.fields ++ Module.laterType⟩ (.tables, "slots") f ↔
      Module.callsThrough.Denotes (.tables, "slots") f) ∧
    ¬ ∀ f, Module.Denotes ⟨Module.callsThrough.fields ++ Module.laterType⟩ (.types, "shape") f ↔
      Module.callsThrough.Denotes (.types, "shape") f := by
  have hmore : Module.check ⟨Module.callsThrough.fields ++ Module.laterType⟩ = .ok () := rfl
  obtain ⟨-, hone, hkept⟩ := check_fixes_meaning .callsThrough rfl
  have hfunc : .func Module.caller ∈ Module.callsThrough.fields := by simp [Module.callsThrough]
  have htable : (Space.tables, "slots") ∈ (Field.func Module.caller).refs := by decide
  have htype : (Space.types, "shape") ∈ (Field.func Module.caller).refs := by decide
  obtain ⟨target, -, -, htarget⟩ := hone _ hfunc _ htable
  refine ⟨rfl, hmore, ⟨target, htarget⟩, (hkept _ hmore _ hfunc _ htable).2 nofun, fun hall => ?_⟩
  have hsame := (hkept _ hmore _ hfunc _ htype).1 hall rfl ⟨[.i32], none⟩ rfl
  exact absurd hsame (by decide)

/-- Two types have one name in a module that passes the check, and the one that was linked later
changes what an earlier reference denotes, though it passes by itself as well. -/
theorem laterType_accepted : Module.callsThrough.check = .ok () ∧ Module.check ⟨Module.laterType⟩ = .ok () ∧
    Module.check ⟨Module.callsThrough.fields ++ Module.laterType⟩ = .ok () ∧
    ((Module.callsThrough.fields ++ Module.laterType).filterMap Field.defines).count (.types, "shape") = 2 ∧
    Module.callsThrough.Denotes (.types, "shape") (.type "shape" ⟨[], none⟩) ∧
    Module.Denotes ⟨Module.callsThrough.fields ++ Module.laterType⟩ (.types, "shape") (.type "shape" ⟨[.i32], none⟩) ∧
    ¬ Module.Denotes ⟨Module.callsThrough.fields ++ Module.laterType⟩ (.types, "shape") (.type "shape" ⟨[], none⟩) := by
  have hbefore : Module.callsThrough.WellNamed := check_eq_ok.1 rfl
  have hafter : Module.WellNamed ⟨Module.callsThrough.fields ++ Module.laterType⟩ := check_eq_ok.1 rfl
  refine ⟨rfl, rfl, rfl, by decide, hbefore.denotes_type_iff.2 ⟨_, rfl, rfl⟩, hafter.denotes_type_iff.2 ⟨_, rfl, rfl⟩,
    fun h => ?_⟩
  obtain ⟨s, hs, heq⟩ := hafter.denotes_type_iff.1 h
  cases heq
  exact absurd hs (by decide)

end WasmBackend
