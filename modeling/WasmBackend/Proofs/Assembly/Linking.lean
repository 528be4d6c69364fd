/-
What linking does to library components. Features that are requested in
order are linked in that order, and the comparator after them
(`order_features`). Their fields resolve at every step, since each component
refers only to names of its own and of those it builds on
(`wellNamed_library`). In a module that has their fields, their functions are
found by name (`WellNamed.supports`, `WellNamed.compares`).
-/
import WasmBackend.Proofs.Assembly.Names
import WasmBackend.Proofs.Compare.Runs

namespace WasmBackend

open Library

/-! ## Components in order -/

namespace Component

theorem visitAll_append (t : Traversal) (as bs : List Component) :
    visitAll t (as ++ bs) = visitAll (visitAll t as) bs := by
  induction as generalizing t with
  | nil => simp [visitAll]
  | cons a as ih =>
    simp only [List.cons_append, visitAll]
    exact ih (visit t a)

theorem visit_met {t : Traversal} {c : Component} (h : c.name ∈ t.met) : visit t c = t := by
  obtain ⟨name, fields, requires⟩ := c
  rw [visit]
  exact if_pos h

theorem visitAll_met {t : Traversal} {cs : List Component} (h : ∀ c ∈ cs, c.name ∈ t.met) :
    visitAll t cs = t := by
  induction cs with
  | nil => simp [visitAll]
  | cons c cs ih =>
    rw [visitAll, visit_met (h c (by simp))]
    exact ih fun d hd => h d (by simp [hd])

/-- A component that was not met, but all that it requires. -/
theorem visit_ready {t : Traversal} {c : Component} (h : c.name ∉ t.met)
    (hr : ∀ d ∈ c.requires, d.name ∈ t.met) : visit t c = ⟨c.name :: t.met, t.done ++ [c]⟩ := by
  obtain ⟨name, fields, requires⟩ := c
  have hinner : visitAll { t with met := name :: t.met } requires = { t with met := name :: t.met } :=
    visitAll_met fun d hd => List.mem_cons_of_mem _ (hr d hd)
  rw [visit, hinner]
  exact if_neg h

end Component

namespace Feature

/-- Each feature comes once, after those it builds on. -/
inductive Ordered : List Feature → Prop
  | nil : Ordered []
  | snoc {fs : List Feature} {f : Feature} : Ordered fs → f ∉ fs → (∀ g ∈ f.needs, g ≠ f → g ∈ fs) →
      Ordered (fs ++ [f])

theorem mem_all (f : Feature) : f ∈ all := by
  cases f <;> decide

theorem name_injective {f g : Feature} (h : f.name = g.name) : f = g := by
  revert h
  cases f <;> cases g <;> decide

theorem name_ne_comparator (f : Feature) : f.name ≠ "comparator" := by
  cases f <;> decide

@[simp] theorem name_component (pages : Nat) (f : Feature) : (f.component pages).name = f.name := by
  cases f <;> rfl

/-- A component requires only components of what its feature builds on. -/
theorem requires_component {pages : Nat} {f : Feature} {c : Component} (h : c ∈ (f.component pages).requires) :
    ∃ g ∈ f.needs, g ≠ f ∧ c = g.component pages := by
  cases f with
  | allocator => cases h
  | tuple | float => exact ⟨.allocator, by decide, by decide, List.mem_singleton.1 h⟩
  | environment | list | closure => exact ⟨.tuple, by decide, by decide, List.mem_singleton.1 h⟩
  | matcher =>
    rcases List.mem_pair.1 h with rfl | rfl
    · exact ⟨.list, by decide, by decide, rfl⟩
    · exact ⟨.environment, by decide, by decide, rfl⟩

theorem Ordered.append {fs gs : List Feature} (hf : Ordered fs) (hg : Ordered gs) :
    Ordered (fs ++ gs.filter (· ∉ fs)) := by
  induction hg with
  | nil => simpa using hf
  | @snoc gs g _ hnot hneeds ih =>
    by_cases h : g ∈ fs
    · simpa [List.filter_append, h] using ih
    · have hsnoc := ih.snoc (f := g) (by simp [h, hnot]) fun k hk hne => by
        by_cases hkf : k ∈ fs
        · simp [hkf]
        · simp [hkf, hneeds k hk hne]
      simpa [List.filter_append, h, List.append_assoc] using hsnoc

theorem ordered_needs (f : Feature) : Ordered f.needs := by
  have h₁ : Ordered [allocator] := Ordered.nil.snoc (by decide) (by decide)
  have h₂ : Ordered [allocator, tuple] := h₁.snoc (by decide) (by decide)
  have h₃ : Ordered [allocator, tuple, environment] := h₂.snoc (by decide) (by decide)
  cases f with
  | allocator => exact h₁
  | tuple => exact h₂
  | environment => exact h₃
  | list => exact h₂.snoc (by decide) (by decide)
  | float => exact h₁.snoc (by decide) (by decide)
  | closure => exact h₃.snoc (by decide) (by decide)
  | matcher =>
    have h₄ : Ordered [allocator, tuple, environment, list] := h₃.snoc (by decide) (by decide)
    exact h₄.snoc (by decide) (by decide)

/-- Requests keep the features in order. -/
theorem Ordered.use {s : State} (h : Ordered s.features) (f : Feature) : Ordered (s.use f).features :=
  h.append (ordered_needs f)

theorem Ordered.needs_mem {fs : List Feature} (h : Ordered fs) {f g : Feature} (hf : f ∈ fs)
    (hg : g ∈ f.needs) : g ∈ fs := by
  induction h with
  | nil => cases hf
  | @snoc fs k _ _ hneeds ih =>
    simp only [List.mem_append, List.mem_singleton] at hf ⊢
    rcases hf with hf | rfl
    · exact .inl (ih hf)
    · by_cases hgk : g = f
      · exact .inr hgk
      · exact .inl (hneeds g hg hgk)

/-- Features in order are linked in that order. -/
theorem visitAll_features {pages : Nat} {fs : List Feature} (h : Ordered fs) (root : String)
    (hroot : ∀ f : Feature, f.name ≠ root) :
    Component.visitAll ⟨[root], []⟩ (fs.map (·.component pages)) =
      ⟨(fs.map (·.name)).reverse ++ [root], fs.map (·.component pages)⟩ := by
  induction h with
  | nil => simp [Component.visitAll]
  | @snoc fs f _ hnot hneeds ih =>
    have hmet : f.name ∉ (fs.map (·.name)).reverse ++ [root] := by
      simp only [List.mem_append, List.mem_reverse, List.mem_map, List.mem_singleton, not_or, not_exists,
        not_and]
      exact ⟨fun g hg hname => hnot (name_injective hname ▸ hg), hroot f⟩
    have hready : ∀ d ∈ (f.component pages).requires, d.name ∈ (fs.map (·.name)).reverse ++ [root] := by
      intro d hd
      obtain ⟨g, hg, hne, rfl⟩ := requires_component hd
      simp only [List.mem_append, List.mem_reverse, List.mem_map]
      exact .inl ⟨g, hneeds g hg hne, (name_component pages g).symm⟩
    rw [List.map_append, Component.visitAll_append, ih]
    simp only [List.map_cons, List.map_nil, Component.visitAll]
    rw [Component.visit_ready (by simpa using hmet) hready]
    simp

end Feature

namespace Component

/-- A comparator requires the floats and lists that it looks into. -/
theorem requires_comparator {r : CompareRequest} {pages : Nat} {d : Component}
    (h : d ∈ (comparator r pages).requires) :
    (r.floats = true ∧ d = Feature.float.component pages) ∨ (r.lists = true ∧ d = Feature.list.component pages) := by
  simp only [comparator, ofFuncs, List.mem_append] at h
  rcases h with h | h <;> split at h
  · exact .inl ⟨‹_›, List.mem_singleton.1 h⟩
  · cases h
  · exact .inr ⟨‹_›, List.mem_singleton.1 h⟩
  · cases h

/-- A component that requires features in order, and perhaps a comparator of what they have. -/
theorem order_features {pages : Nat} {fs : List Feature} {root : Component} {last : List Component}
    (h : Feature.Ordered fs) (hroot : ∀ f : Feature, f.name ≠ root.name)
    (hrequires : root.requires = fs.map (·.component pages) ++ last)
    (hlast : last = [] ∨ ∃ r, last = [comparator r pages] ∧ root.name ≠ "comparator" ∧
      (r.floats = true → .float ∈ fs) ∧ (r.lists = true → .list ∈ fs)) :
    root.order = fs.map (·.component pages) ++ last ++ [root] := by
  obtain ⟨name, fields, requires⟩ := root
  simp only at hrequires hroot hlast
  have hinner : ∃ met, visitAll ⟨[name], []⟩ requires = ⟨met, fs.map (·.component pages) ++ last⟩ := by
    rw [hrequires, visitAll_append, Feature.visitAll_features h name hroot]
    rcases hlast with rfl | ⟨r, rfl, hname, hfloat, hlist⟩
    · exact ⟨_, by simp [visitAll]; rfl⟩
    · have hmet : (comparator r pages).name ∉ (fs.map (·.name)).reverse ++ [name] := by
        simp only [List.mem_append, List.mem_reverse, List.mem_map, List.mem_singleton, not_or, not_exists,
          not_and]
        exact ⟨fun g _ => g.name_ne_comparator, hname.symm⟩
      have hready : ∀ d ∈ (comparator r pages).requires, d.name ∈ (fs.map (·.name)).reverse ++ [name] := by
        intro d hd
        simp only [List.mem_append, List.mem_reverse, List.mem_map]
        rcases requires_comparator hd with ⟨hr, rfl⟩ | ⟨hr, rfl⟩
        · exact .inl ⟨.float, hfloat hr, rfl⟩
        · exact .inl ⟨.list, hlist hr, rfl⟩
      refine ⟨(comparator r pages).name :: ((fs.map (·.name)).reverse ++ [name]), ?_⟩
      rw [visitAll, visit_ready hmet hready, visitAll]
  obtain ⟨met, hmet⟩ := hinner
  rw [order, visit]
  simp only [List.not_mem_nil, if_false, hmet]

/-- The features that a comparator links. -/
def compareFeatures (r : CompareRequest) : List Feature :=
  (if r.floats then [.allocator, .float] else []) ++
    if r.lists then (if r.floats then [.tuple, .list] else [.allocator, .tuple, .list]) else []

theorem ordered_compareFeatures (r : CompareRequest) : Feature.Ordered (compareFeatures r) := by
  have hfloat := Feature.ordered_needs .float
  have hlist := Feature.ordered_needs .list
  have hboth := hfloat.append hlist
  obtain ⟨ops, floats, lists⟩ := r
  cases floats <;> cases lists
  · exact .nil
  · exact hlist
  · exact hfloat
  · exact hboth

theorem order_comparator (r : CompareRequest) (pages : Nat) :
    (comparator r pages).order = (compareFeatures r).map (·.component pages) ++ [comparator r pages] := by
  obtain ⟨ops, floats, lists⟩ := r
  cases floats <;> cases lists <;> rfl

theorem attach_wellNamed {fields : List Field} {c : Component} (h : Module.WellNamed ⟨fields ++ c.fields⟩) :
    attach fields c = .ok (fields ++ c.fields) := by
  obtain ⟨image, himage⟩ := resolve_succeeds_iff.2 h
  simp [attach, Module.check, himage, Except.map]

theorem fields_foldlM_attach {cs : List Component} {fields r : List Field} (h : cs.foldlM attach fields = .ok r) :
    r = fields ++ cs.flatMap (·.fields) := by
  induction cs generalizing fields with
  | nil => simpa [pure, Except.pure, eq_comm] using h
  | cons c cs ih =>
    rw [List.foldlM_cons] at h
    obtain ⟨a, ha, h⟩ := bind_eq_ok.1 h
    unfold attach at ha
    split at ha
    · cases ha
      simpa using ih h
    · cases ha

/-- A module that was linked has the fields of all components in order. -/
theorem fields_link {root : Component} {extra : List Field} {m : Module} (h : root.link extra = .ok m) :
    m.fields = root.order.flatMap (·.fields) ++ extra := by
  unfold link at h
  obtain ⟨fields, hfields, h⟩ := bind_eq_ok.1 h
  cases h
  simpa using fields_foldlM_attach hfields

end Component

/-! ## Names of the library -/

theorem Module.WellNamed.append {a b : List Field} (ha : Module.WellNamed ⟨a⟩)
    (hnodup : ∀ space, space ≠ .types → (declared b space).Nodup)
    (hnew : ∀ space, space ≠ .types → ∀ x ∈ declared b space, x ∉ declared a space)
    (hlocals : ∀ f, .func f ∈ b → f.WellScoped)
    (hrefs : ∀ field ∈ b, ∀ d ∈ field.refs, d.2 ∈ declared (a ++ b) d.1) : Module.WellNamed ⟨a ++ b⟩ where
  nodup space hs := by
    rw [declared_append, List.nodup_append]
    exact ⟨ha.nodup space hs, hnodup space hs, fun x hx y hy h => hnew space hs y hy (h ▸ hx)⟩
  locals f hf := by
    rw [Module.mem_funcs, List.mem_append] at hf
    exact hf.elim (fun h => ha.locals f (Module.mem_funcs.2 h)) (hlocals f)
  refs field hfield d hd := by
    rcases List.mem_append.1 hfield with h | h
    · rw [declared_append]
      exact List.mem_append_left _ (ha.refs field h d hd)
    · exact hrefs field h d hd

namespace Feature

/-- The names that a feature's component defines, whatever the size of memory is. -/
def declares (f : Feature) (space : Space) : List String := declared (f.component 0).fields space

theorem declared_component (pages : Nat) (f : Feature) (space : Space) :
    declared (f.component pages).fields space = f.declares space := by
  cases f <;> rfl

theorem declares_nodup (f : Feature) (space : Space) : (f.declares space).Nodup := by
  cases f <;> cases space <;> decide +kernel

/-- No two features define the same name. -/
theorem declares_disjoint {f g : Feature} {space : Space} {x : String} (hf : x ∈ f.declares space)
    (hg : x ∈ g.declares space) : f = g := by
  have hall : ∀ f ∈ all, ∀ g ∈ all, f = g ∨
      ∀ space ∈ [Space.locals, .globals, .functions, .types, .tables, .memories],
        ∀ x ∈ f.declares space, x ∉ g.declares space := by
    decide +kernel
  refine (hall f (mem_all f) g (mem_all g)).resolve_right fun h => h space ?_ x hf hg
  cases space <;> decide

/-- A component refers only to names of its feature and of those that one builds on. -/
theorem refs_component {pages : Nat} {f : Feature} {field : Field} {d : Space × String}
    (hfield : field ∈ (f.component pages).fields) (hd : d ∈ field.refs) :
    ∃ g ∈ f.needs, d.2 ∈ g.declares d.1 := by
  have hrefs : (f.component pages).fields.flatMap Field.refs = (f.component 0).fields.flatMap Field.refs := by
    cases f <;> rfl
  have hall : ∀ f ∈ all, ∀ d ∈ (f.component 0).fields.flatMap Field.refs, ∃ g ∈ f.needs, d.2 ∈ g.declares d.1 := by
    decide +kernel
  exact hall f (mem_all f) d (hrefs ▸ List.mem_flatMap.2 ⟨field, hfield, hd⟩)

theorem funcs_component {pages : Nat} {f : Feature} {fn : Func} :
    .func fn ∈ (f.component pages).fields ↔ fn ∈ f.funcs := by
  have hfuncs : Module.funcs ⟨(f.component pages).fields⟩ = f.funcs := by
    cases f <;> rfl
  rw [← hfuncs, Module.mem_funcs]

theorem wellScoped_component {f : Feature} {fn : Func} (h : fn ∈ f.funcs) : fn.WellScoped := by
  have hall : ∀ f ∈ all, ∀ fn ∈ f.funcs, fn.declared.Nodup ∧
      ∀ d ∈ Code.refs fn.body, d.1 = .locals → d.2 ∈ fn.declared := by
    decide +kernel
  obtain ⟨hnodup, hrefs⟩ := hall f (mem_all f) fn h
  exact ⟨hnodup, fun x hx => hrefs _ hx rfl⟩

end Feature

/-- The fields of features. -/
def library (pages : Nat) (fs : List Feature) : List Field :=
  fs.flatMap fun f => (f.component pages).fields

theorem library_snoc (pages : Nat) (fs : List Feature) (f : Feature) :
    library pages (fs ++ [f]) = library pages fs ++ (f.component pages).fields := by
  simp [library]

theorem mem_library {pages : Nat} {fs : List Feature} {field : Field} :
    field ∈ library pages fs ↔ ∃ f ∈ fs, field ∈ (f.component pages).fields := by
  simp [library]

theorem declared_library {pages : Nat} {fs : List Feature} {space : Space} {x : String} :
    x ∈ declared (library pages fs) space ↔ ∃ f ∈ fs, x ∈ f.declares space := by
  simp only [mem_declared, mem_library, ← Feature.declared_component pages]
  constructor
  · rintro ⟨field, ⟨f, hf, hfield⟩, hd⟩
    exact ⟨f, hf, field, hfield, hd⟩
  · rintro ⟨f, hf, field, hfield, hd⟩
    exact ⟨field, ⟨f, hf, hfield⟩, hd⟩

/-- Features in order resolve. -/
theorem wellNamed_library (pages : Nat) {fs : List Feature} (h : Feature.Ordered fs) :
    Module.WellNamed ⟨library pages fs⟩ := by
  induction h with
  | nil => exact ⟨fun _ _ => .nil, fun f hf => absurd hf (by simp [Module.funcs, library]), by simp [library]⟩
  | @snoc fs f _ hnot hneeds ih =>
    rw [library_snoc]
    refine ih.append (fun space _ => ?_) (fun space _ x hx hlib => ?_) (fun fn hfn => ?_)
      fun field hfield d hd => ?_
    · rw [Feature.declared_component]
      exact f.declares_nodup space
    · rw [Feature.declared_component] at hx
      obtain ⟨g, hg, hxg⟩ := declared_library.1 hlib
      exact hnot (Feature.declares_disjoint hxg hx ▸ hg)
    · exact Feature.wellScoped_component (Feature.funcs_component.1 hfn)
    · obtain ⟨g, hg, hdg⟩ := Feature.refs_component hfield hd
      rw [← library_snoc, declared_library]
      by_cases hgf : g = f
      · exact ⟨f, by simp, hgf ▸ hdg⟩
      · exact ⟨g, by simp [hneeds g hg hgf], hdg⟩

/-! ## Names of the comparator -/

namespace Library.Compare

/-- The names of all functions that a comparator can have. -/
def names : List String := Comparison.all.map function ++ Comparison.all.map listFunction

theorem names_nodup : names.Nodup := by
  decide +kernel

theorem names_not_declared (f : Feature) : ∀ x ∈ names, x ∉ f.declares .functions := by
  have hall : ∀ f ∈ Feature.all, ∀ x ∈ names, x ∉ f.declares .functions := by
    decide +kernel
  exact hall f (Feature.mem_all f)

/-- The functions of a comparator. -/
def funcs (r : CompareRequest) : List Func :=
  (closure r).map (anyFunc r) ++ if r.lists then ((closure r).filter (· ≠ .ne)).map listFunc else []

theorem fields_comparator (r : CompareRequest) (pages : Nat) :
    (comparator r pages).fields = (funcs r).map .func := rfl

theorem name_anyFunc (r : CompareRequest) (c : Comparison) : (anyFunc r c).name = function c := by
  unfold anyFunc
  split <;> rfl

/-- The names a comparator defines come in the order of all such names. -/
theorem names_funcs (r : CompareRequest) : ((funcs r).map (·.name)).Sublist names := by
  rw [funcs, List.map_append, List.map_map]
  have hany : (closure r).map ((·.name) ∘ anyFunc r) = (closure r).map function := by
    simp [name_anyFunc]
  rw [hany]
  refine ((List.filter_sublist).map _).append ?_
  split
  · rw [List.map_map]
    exact (List.filter_sublist.trans List.filter_sublist).map _
  · exact List.nil_sublist _

theorem mem_funcs {r : CompareRequest} {f : Func} : f ∈ funcs r ↔
    (∃ c ∈ closure r, anyFunc r c = f) ∨ r.lists = true ∧ ∃ c ∈ closure r, c ≠ .ne ∧ listFunc c = f := by
  rw [funcs, List.mem_append, List.mem_map]
  split
  · rename_i h
    simp [h, and_assoc]
  · rename_i h
    simp [h]

theorem function_mem {r : CompareRequest} {c : Comparison} (h : c ∈ closure r) :
    function c ∈ (funcs r).map (·.name) :=
  List.mem_map.2 ⟨anyFunc r c, mem_funcs.2 (.inl ⟨c, h, rfl⟩), name_anyFunc r c⟩

theorem listFunction_mem {r : CompareRequest} {c : Comparison} (hr : r.lists = true) (h : c ∈ closure r)
    (hc : c ≠ .ne) : listFunction c ∈ (funcs r).map (·.name) :=
  List.mem_map.2 ⟨listFunc c, mem_funcs.2 (.inr ⟨hr, c, h, hc, rfl⟩), rfl⟩

/-- What the functions refer to: floats and lists only where there are any. -/
theorem refs_anyFunc (r : CompareRequest) (c : Comparison) :
    (anyFunc r c).WellScoped ∧ ∀ d ∈ (Field.func (anyFunc r c)).refs, d.1 = .functions ∧
      (d.2 = Floats.get ∧ r.floats = true ∨ d.2 = listFunction c ∧ r.lists = true ∧ c ≠ .ne ∨
        d.2 = function .eq ∧ c = .ne) := by
  have hall : ∀ c ∈ Comparison.all, ∀ floats ∈ [false, true], ∀ lists ∈ [false, true],
      let f := anyFunc ⟨[], floats, lists⟩ c
      f.declared.Nodup ∧ (∀ d ∈ Code.refs f.body, d.1 = .locals → d.2 ∈ f.declared) ∧
      ∀ d ∈ (Field.func f).refs, d.1 = .functions ∧
        (d.2 = Floats.get ∧ floats = true ∨ d.2 = listFunction c ∧ lists = true ∧ c ≠ .ne ∨
          d.2 = function .eq ∧ c = .ne) := by
    decide +kernel
  obtain ⟨hnodup, hlocals, hrefs⟩ := hall c (by cases c <;> decide) r.floats (by cases r.floats <;> decide)
    r.lists (by cases r.lists <;> decide)
  exact ⟨⟨hnodup, fun x hx => hlocals _ hx rfl⟩, hrefs⟩

theorem refs_listFunc (c : Comparison) :
    (listFunc c).WellScoped ∧ ∀ d ∈ (Field.func (listFunc c)).refs, d.1 = .functions ∧
      (d.2 ∈ [Lists.head, Lists.tail] ∨ d.2 = listFunction c ∨ d.2 = function .eq ∨ d.2 = function c.strict) := by
  have hall : ∀ c ∈ Comparison.all, (listFunc c).declared.Nodup ∧
      (∀ d ∈ Code.refs (listFunc c).body, d.1 = .locals → d.2 ∈ (listFunc c).declared) ∧
      ∀ d ∈ (Field.func (listFunc c)).refs, d.1 = .functions ∧
        (d.2 ∈ [Lists.head, Lists.tail] ∨ d.2 = listFunction c ∨ d.2 = function .eq ∨
          d.2 = function c.strict) := by
    decide +kernel
  obtain ⟨hnodup, hlocals, hrefs⟩ := hall c (by cases c <;> decide)
  exact ⟨⟨hnodup, fun x hx => hlocals _ hx rfl⟩, hrefs⟩

end Library.Compare

theorem declared_funcs (fs : List Func) (space : Space) :
    declared (fs.map .func) space = if space = .functions then fs.map (·.name) else [] := by
  induction fs with
  | nil => simp
  | cons f fs ih =>
    by_cases h : space = .functions
    · subst h
      rw [List.map_cons, declared_cons_self rfl, ih]
      simp
    · rw [List.map_cons, declared_cons_of_ne (by simp [Field.defines, Ne.symm h]), ih]
      simp [h]

/-- The comparator resolves after features that have what it compares. -/
theorem wellNamed_comparator {pages : Nat} {fs : List Feature} {r : CompareRequest} (h : Feature.Ordered fs)
    (hfloat : r.floats = true → .float ∈ fs) (hlist : r.lists = true → .list ∈ fs) :
    Module.WellNamed ⟨library pages fs ++ (comparator r pages).fields⟩ := by
  rw [Compare.fields_comparator]
  refine (wellNamed_library pages h).append (fun space _ => ?_) (fun space _ x hx hlib => ?_)
    (fun f hf => ?_) fun field hfield d hd => ?_
  · rw [declared_funcs]
    split
    · exact Compare.names_nodup.sublist (Compare.names_funcs r)
    · exact .nil
  · rw [declared_funcs] at hx
    split at hx
    · rename_i hs
      subst hs
      obtain ⟨f, -, hxf⟩ := declared_library.1 hlib
      exact Compare.names_not_declared f x ((Compare.names_funcs r).mem hx) hxf
    · cases hx
  · obtain ⟨g, hg, hfg⟩ := List.mem_map.1 hf
    cases hfg
    rcases Compare.mem_funcs.1 hg with ⟨c, -, rfl⟩ | ⟨-, c, -, -, rfl⟩
    · exact (Compare.refs_anyFunc r c).1
    · exact (Compare.refs_listFunc c).1
  · obtain ⟨g, hg, rfl⟩ := List.mem_map.1 hfield
    rw [declared_append, List.mem_append, declared_library, declared_funcs]
    rcases Compare.mem_funcs.1 hg with ⟨c, hc, rfl⟩ | ⟨hr, c, hc, hne, rfl⟩
    · obtain ⟨hspace, hname⟩ := (Compare.refs_anyFunc r c).2 d hd
      rw [hspace, if_pos rfl]
      rcases hname with ⟨hname, hr⟩ | ⟨hname, hr, hne⟩ | ⟨hname, rfl⟩ <;> rw [hname]
      · exact .inl ⟨.float, hfloat hr, by decide +kernel⟩
      · exact .inr (Compare.listFunction_mem hr hc hne)
      · exact .inr (Compare.function_mem (Comparison.eq_mem_closure_of_ne hc))
    · obtain ⟨hspace, hname⟩ := (Compare.refs_listFunc c).2 d hd
      rw [hspace, if_pos rfl]
      rcases hname with hname | hname | hname | hname
      · have hdecl : ∀ x ∈ [Lists.head, Lists.tail], x ∈ Feature.list.declares .functions := by
          decide +kernel
        exact .inl ⟨.list, hlist hr, hdecl _ hname⟩
      · exact .inr (hname ▸ Compare.listFunction_mem hr hc hne)
      · exact .inr (hname ▸ Compare.function_mem (Comparison.eq_mem_closure hr hc))
      · exact .inr (hname ▸ Compare.function_mem (Comparison.strict_mem_closure hr hc))

/-! ## Functions by name -/

theorem find?_name {fs : List Func} (h : (fs.map (·.name)).Nodup) {f : Func} (hf : f ∈ fs) :
    fs.find? (·.name = f.name) = some f := by
  induction fs with
  | nil => cases hf
  | cons g fs ih =>
    simp only [List.map_cons, List.nodup_cons, List.mem_map, not_exists, not_and] at h
    rcases List.mem_cons.1 hf with rfl | hf
    · simp
    · have hne : g.name ≠ f.name := fun hname => h.1 f hf hname.symm
      simpa [hne] using ih h.2 hf

/-- With distinct names, every function is found by its name. -/
theorem Module.WellNamed.func? {m : Module} (h : m.WellNamed) {f : Func} (hf : .func f ∈ m.fields) :
    m.func? f.name = some f :=
  find?_name (declared_functions m ▸ h.nodup .functions (by decide)) (Module.mem_funcs.2 hf)

/-- The functions of a feature whose fields a module has. -/
theorem Module.WellNamed.supports {m : Module} (h : m.WellNamed) {pages : Nat} {fs : List Feature}
    (hfs : Feature.Ordered fs) (hm : ∀ field ∈ library pages fs, field ∈ m.fields) {f : Feature} (hf : f ∈ fs) :
    m.Supports f := by
  intro g hg fn hfn
  exact h.func? (hm _ (mem_library.2 ⟨g, hfs.needs_mem hf hg, Feature.funcs_component.2 hfn⟩))

/-- The functions of a comparator whose fields a module has. -/
theorem Module.WellNamed.compares {m : Module} (h : m.WellNamed) {pages : Nat} {fs : List Feature}
    {r : CompareRequest} (hfs : Feature.Ordered fs) (hm : ∀ field ∈ library pages fs, field ∈ m.fields)
    (hc : ∀ field ∈ (comparator r pages).fields, field ∈ m.fields) (hfloat : r.floats = true → .float ∈ fs)
    (hlist : r.lists = true → .list ∈ fs) : m.Compares r where
  any c hmem := by
    rw [← Compare.name_anyFunc r c]
    exact h.func? (hc _ (List.mem_map_of_mem (Compare.mem_funcs.2 (.inl ⟨c, hmem, rfl⟩))))
  lists hr c hmem hne :=
    h.func? (hc _ (List.mem_map_of_mem (Compare.mem_funcs.2 (.inr ⟨hr, c, hmem, hne, rfl⟩))))
  list hr := h.supports hfs hm (hlist hr)
  float hr := h.supports hfs hm (hfloat hr)

/-! ## Linking -/

theorem foldlM_attach_library (pages : Nat) {fs : List Feature} (h : Feature.Ordered fs) :
    (fs.map (·.component pages)).foldlM Component.attach [] = .ok (library pages fs) := by
  induction h with
  | nil => rfl
  | @snoc fs f hfs hnot hneeds ih =>
    have hwell := wellNamed_library pages (hfs.snoc hnot hneeds)
    rw [library_snoc] at hwell ⊢
    rw [List.map_append, List.foldlM_append, ih]
    simp [bind, Except.bind, Component.attach_wellNamed hwell, pure, Except.pure]

/-- A component whose requirements are features in order, perhaps with others after them. -/
theorem Component.link_eq_ok {pages : Nat} {fs : List Feature} {root : Component} {last : List Component}
    {fields : List Field} (h : Feature.Ordered fs) (horder : root.order = fs.map (·.component pages) ++ last)
    (hlast : last.foldlM Component.attach (library pages fs) = .ok fields) (extra : List Field) :
    root.link extra = .ok ⟨fields ++ extra⟩ := by
  simp [Component.link, horder, List.foldlM_append, foldlM_attach_library pages h, bind, Except.bind, hlast,
    pure, Except.pure]

/-- **The comparator links** on its own, and its functions are found in the result. -/
theorem link_comparator (r : CompareRequest) (pages : Nat) :
    ∃ m, (comparator r pages).link [] = .ok m ∧ m.Compares r := by
  have hordered := Component.ordered_compareFeatures r
  have hfloat : r.floats = true → .float ∈ Component.compareFeatures r := by
    intro h
    simp [Component.compareFeatures, h]
  have hlist : r.lists = true → .list ∈ Component.compareFeatures r := by
    intro h
    cases hf : r.floats <;> simp [Component.compareFeatures, h, hf]
  have hwell : Module.WellNamed ⟨library pages (Component.compareFeatures r) ++ (comparator r pages).fields⟩ :=
    wellNamed_comparator hordered hfloat hlist
  have hattach : [comparator r pages].foldlM Component.attach (library pages (Component.compareFeatures r)) =
      .ok (library pages (Component.compareFeatures r) ++ (comparator r pages).fields) := by
    rw [List.foldlM_cons, Component.attach_wellNamed hwell]
    rfl
  refine ⟨_, Component.link_eq_ok hordered (Component.order_comparator r pages) hattach [], ?_⟩
  · rw [List.append_nil]
    exact hwell.compares hordered (fun f hf => List.mem_append_left _ hf)
      (fun f hf => List.mem_append_right _ hf) hfloat hlist

end WasmBackend
