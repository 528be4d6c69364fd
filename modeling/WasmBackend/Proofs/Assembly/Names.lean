/-
When the names of a module resolve: exactly if no name is defined twice and
every name that is referred to is defined (`resolve_succeeds_iff`). Types are
the exception: a name that several of them share stands for the last.
-/
import Mathlib
import WasmBackend.Wasm.Image

namespace WasmBackend

/-- A computation has a result. -/
def Succeeds {ε α : Type} (x : Except ε α) : Prop := ∃ a, x = .ok a

section

variable {ε α β : Type}

@[simp] theorem succeeds_ok (a : α) : Succeeds (.ok a : Except ε α) := ⟨a, rfl⟩

@[simp] theorem succeeds_pure (a : α) : Succeeds (pure a : Except ε α) := ⟨a, rfl⟩

@[simp] theorem not_succeeds_error (e : ε) : ¬ Succeeds (.error e : Except ε α) := by
  rintro ⟨a, h⟩
  cases h

@[simp] theorem succeeds_map {x : Except ε α} {f : α → β} : Succeeds (x.map f) ↔ Succeeds x := by
  cases x <;> simp [Except.map]

theorem bind_eq_ok {x : Except ε α} {f : α → Except ε β} {b : β} :
    (x >>= f) = .ok b ↔ ∃ a, x = .ok a ∧ f a = .ok b := by
  cases x <;> simp [bind, Except.bind]

/-- A computation whose second part succeeds or fails whatever the first part comes to. -/
theorem succeeds_bind {x : Except ε α} {f : α → Except ε β} {p : Prop}
    (h : ∀ a, x = .ok a → (Succeeds (f a) ↔ p)) : Succeeds (x >>= f) ↔ Succeeds x ∧ p := by
  constructor
  · rintro ⟨b, hb⟩
    obtain ⟨a, ha, hf⟩ := bind_eq_ok.1 hb
    exact ⟨⟨a, ha⟩, (h a ha).1 ⟨b, hf⟩⟩
  · rintro ⟨⟨a, ha⟩, hp⟩
    obtain ⟨b, hb⟩ := (h a ha).2 hp
    exact ⟨b, bind_eq_ok.2 ⟨a, ha, hb⟩⟩

theorem succeeds_mapM {f : α → Except ε β} {xs : List α} :
    Succeeds (xs.mapM f) ↔ ∀ x ∈ xs, Succeeds (f x) := by
  induction xs with
  | nil => simp
  | cons x xs ih =>
    rw [List.mapM_cons, succeeds_bind (p := ∀ y ∈ xs, Succeeds (f y))]
    · simp
    · intro b _
      rw [← ih]
      constructor
      · rintro ⟨_, h⟩
        obtain ⟨bs, hbs, -⟩ := bind_eq_ok.1 h
        exact ⟨bs, hbs⟩
      · rintro ⟨bs, hbs⟩
        exact ⟨b :: bs, by rw [hbs]; rfl⟩

/-- A fold whose steps succeed or fail whatever was accumulated. -/
theorem succeeds_foldlM {f : β → α → Except ε β} {p : α → Prop} (h : ∀ b a, Succeeds (f b a) ↔ p a) :
    ∀ (xs : List α) (b : β), Succeeds (xs.foldlM f b) ↔ ∀ x ∈ xs, p x
  | [], b => by simp
  | x :: xs, b => by
    rw [List.foldlM_cons, succeeds_bind (p := ∀ y ∈ xs, p y) fun b' _ => succeeds_foldlM h xs b', h]
    simp

end

/-! ## References -/

mutual

/-- The names that an instruction refers to, each with its space. -/
def Instr.refs : Instr String → List (Space × String)
  | .localGet x => [(.locals, x)]
  | .localSet x => [(.locals, x)]
  | .localTee x => [(.locals, x)]
  | .globalGet x => [(.globals, x)]
  | .globalSet x => [(.globals, x)]
  | .call f => [(.functions, f)]
  | .callIndirect table type => [(.types, type), (.tables, table)]
  | .cond _ thenCode elseCode => Code.refs thenCode ++ Code.refs elseCode
  | _ => []
termination_by structural i => i

def Code.refs : Code → List (Space × String)
  | [] => []
  | i :: c => i.refs ++ Code.refs c
termination_by structural c => c

end

@[simp] theorem Code.refs_nil : Code.refs [] = [] := by
  rw [Code.refs]

@[simp] theorem Code.refs_cons (i : Instr String) (c : Code) : Code.refs (i :: c) = i.refs ++ Code.refs c := by
  rw [Code.refs]

@[simp] theorem Code.refs_append (a b : Code) : Code.refs (a ++ b) = a.refs ++ b.refs := by
  induction a with
  | nil => simp
  | cons i a ih => simp [ih]

/-- The names of a function's parameters and locals. -/
def Func.declared (f : Func) : List String := (f.params ++ f.locals).map (·.name)

namespace Field

/-- The name that a field defines. -/
def defines : Field → Option (Space × String)
  | .type name _ => some (.types, name)
  | .func f => some (.functions, f.name)
  | .global name _ _ => some (.globals, name)
  | .memory name _ => some (.memories, name)
  | .table name _ => some (.tables, name)
  | .elem _ _ _ => none
  | .exports _ _ _ => none

/-- The names that a field refers to, the locals of functions apart. -/
def refs : Field → List (Space × String)
  | .func f => (Code.refs f.body).filter (·.1 ≠ .locals)
  | .elem name _ funcs => (.tables, name) :: funcs.map (.functions, ·)
  | .exports _ .func target => [(.functions, target)]
  | .exports _ .memory target => [(.memories, target)]
  | .exports _ .global target => [(.globals, target)]
  | _ => []

end Field

/-- A function's parameters and locals have different names, and its body refers to no others. -/
structure Func.WellScoped (f : Func) : Prop where
  nodup : f.declared.Nodup
  refs : ∀ x, (Space.locals, x) ∈ Code.refs f.body → x ∈ f.declared

/-- The names that fields define in a space, in order. -/
def declared (fields : List Field) (space : Space) : List String :=
  fields.filterMap fun f => f.defines.bind fun d => if d.1 = space then some d.2 else none

structure Module.WellNamed (m : Module) : Prop where
  nodup : ∀ space, space ≠ .types → (declared m.fields space).Nodup
  locals : ∀ f ∈ m.funcs, f.WellScoped
  refs : ∀ field ∈ m.fields, ∀ d ∈ field.refs, d.2 ∈ declared m.fields d.1

@[simp] theorem declared_nil (space : Space) : declared [] space = [] := rfl

@[simp] theorem declared_append (a b : List Field) (space : Space) :
    declared (a ++ b) space = declared a space ++ declared b space :=
  List.filterMap_append

theorem mem_declared {fields : List Field} {space : Space} {x : String} :
    x ∈ declared fields space ↔ ∃ f ∈ fields, f.defines = some (space, x) := by
  simp only [declared, List.mem_filterMap, Option.bind_eq_some_iff]
  constructor
  · rintro ⟨f, hf, ⟨s, y⟩, hd, h⟩
    split at h
    · rename_i hs
      cases h
      exact ⟨f, hf, hs ▸ hd⟩
    · cases h
  · rintro ⟨f, hf, hd⟩
    exact ⟨f, hf, (space, x), hd, by simp⟩

theorem declared_cons_self {f : Field} {fields : List Field} {space : Space} {x : String}
    (h : f.defines = some (space, x)) : declared (f :: fields) space = x :: declared fields space := by
  simp [declared, h]

theorem declared_cons_of_ne {f : Field} {fields : List Field} {space : Space}
    (h : ∀ x, f.defines ≠ some (space, x)) : declared (f :: fields) space = declared fields space := by
  have hnone : (f.defines.bind fun d => if d.1 = space then some d.2 else none) = none := by
    rw [Option.bind_eq_none_iff]
    rintro ⟨s, y⟩ hd
    by_cases hs : s = space
    · exact absurd (hs ▸ hd) (h y)
    · simp [hs]
  simp [declared, hnone]

/-! ## Definitions -/

namespace Names

/-- The names of a space. -/
def get (n : Names) : Space → List String
  | .types => n.types.map (·.1)
  | .functions => n.funcs
  | .globals => n.globals
  | .memories => n.memories
  | .tables => n.tables
  | .locals => []

theorem define_eq_ok {names r : List String} {x : String} :
    define names x = .ok r ↔ x ∉ names ∧ names ++ [x] = r := by
  unfold define
  split <;> simp_all

theorem succeeds_position {space : Space} {names : List String} {x : String} :
    Succeeds (position space names x) ↔ x ∈ names := by
  unfold position
  cases h : names.idxOf? x with
  | none => simpa using h
  | some i =>
    have hx : x ∈ names := List.isSome_idxOf?.1 (by simp [h])
    simp [hx]

theorem lookup_isSome {α : Type} {x : String} {l : List (String × α)} :
    (l.lookup x).isSome ↔ x ∈ l.map (·.1) := by
  induction l with
  | nil => simp
  | cons p l ih =>
    obtain ⟨y, a⟩ := p
    by_cases h : x = y
    · simp [h]
    · simp [List.lookup_cons, h, beq_false_of_ne h, ih]

theorem succeeds_signature {n : Names} {x : String} : Succeeds (n.signature x) ↔ x ∈ n.get .types := by
  rw [get, ← lookup_isSome, signature]
  cases n.types.lookup x <;> simp

theorem map_define {names : List String} {x : String} {g : List String → Names} :
    (Succeeds ((define names x).map g) ↔ x ∉ names) ∧
      ∀ n', (define names x).map g = .ok n' → n' = g (names ++ [x]) := by
  unfold define
  split <;> simp_all [Except.map]

/-- A field can be added unless its name is taken. -/
theorem succeeds_add {n : Names} {f : Field} :
    Succeeds (n.add f) ↔ ∀ d, f.defines = some d → d.1 ≠ .types → d.2 ∉ n.get d.1 := by
  cases f <;> simp [add, Field.defines, get, map_define.1]

/-- A field that is added adds its name. -/
theorem get_add {n n' : Names} {f : Field} (h : n.add f = .ok n') (space : Space) (x : String) :
    x ∈ n'.get space ↔ x ∈ n.get space ∨ f.defines = some (space, x) := by
  cases f with
  | func f =>
    rw [map_define.2 n' h]
    cases space <;> simp [get, Field.defines, eq_comm]
  | global name _ _ | memory name _ | table name _ =>
    rw [map_define.2 n' h]
    cases space <;> simp [get, Field.defines, eq_comm]
  | type name s =>
    cases h
    cases space <;> simp [get, Field.defines, eq_comm, or_comm]
  | elem _ _ _ | exports _ _ _ =>
    cases h
    simp [Field.defines]

theorem get_foldlM_add {fields : List Field} {n n' : Names} (h : fields.foldlM add n = .ok n')
    (space : Space) (x : String) : x ∈ n'.get space ↔ x ∈ n.get space ∨ x ∈ declared fields space := by
  induction fields generalizing n with
  | nil =>
    cases h
    simp
  | cons f fields ih =>
    rw [List.foldlM_cons] at h
    obtain ⟨a, ha, h⟩ := bind_eq_ok.1 h
    rw [ih h, get_add ha, mem_declared, mem_declared]
    simp [or_assoc]

/-- Fields can be added if the names they define are different, and none is taken. -/
theorem succeeds_foldlM_add {fields : List Field} {n : Names} : Succeeds (fields.foldlM add n) ↔
    ∀ space, space ≠ .types → (declared fields space).Nodup ∧ ∀ x ∈ declared fields space, x ∉ n.get space := by
  induction fields generalizing n with
  | nil => simp
  | cons f fields ih =>
    rw [List.foldlM_cons, succeeds_bind (p := ∀ space, space ≠ .types → (declared fields space).Nodup ∧
      ∀ x ∈ declared fields space, x ∉ n.get space ∧ f.defines ≠ some (space, x)), succeeds_add]
    · cases hf : f.defines with
      | none => simp [declared_cons_of_ne, hf]
      | some d =>
        obtain ⟨s, y⟩ := d
        have hself : declared (f :: fields) s = y :: declared fields s := declared_cons_self hf
        have hother {space : Space} (h : s ≠ space) : declared (f :: fields) space = declared fields space :=
          declared_cons_of_ne (by simp [hf, h])
        constructor
        · rintro ⟨hd, h⟩ space hs
          by_cases hsp : s = space
          · subst hsp
            rw [hself, List.nodup_cons]
            grind
          · rw [hother hsp]
            grind
        · intro h
          refine ⟨fun d hd hs => ?_, fun space hs => ?_⟩
          · cases hd
            exact (h s hs).2 y (by simp [hself])
          · have h := h space hs
            by_cases hsp : s = space
            · subst hsp
              rw [hself, List.nodup_cons] at h
              grind
            · rw [hother hsp] at h
              grind
    · intro a ha
      rw [ih]
      simp [get_add ha]

theorem get_ofFields {fields : List Field} {n : Names} (h : ofFields fields = .ok n) (space : Space)
    (x : String) : x ∈ n.get space ↔ x ∈ declared fields space := by
  rw [get_foldlM_add h]
  cases space <;> simp [empty, get]

theorem succeeds_ofFields {fields : List Field} :
    Succeeds (ofFields fields) ↔ ∀ space, space ≠ .types → (declared fields space).Nodup := by
  rw [ofFields, succeeds_foldlM_add]
  refine forall_congr' fun space => forall_congr' fun _ => and_iff_left_iff_imp.2 fun _ x _ => ?_
  cases space <;> simp [empty, get]

end Names

/-! ## Functions and other fields -/

mutual

theorem Instr.succeeds_resolve {n : Names} {signatures : List Signature} {locals : List String} :
    ∀ i : Instr String, Succeeds (i.resolve n signatures locals) ↔
      ∀ d ∈ i.refs, if d.1 = .locals then d.2 ∈ locals else d.2 ∈ n.get d.1
  | .op _ | .i32Const _ | .f64Const _ | .load _ _ | .store _ _ => by
    simp [Instr.resolve, Instr.refs]
  | .localGet _ | .localSet _ | .localTee _ | .globalGet _ | .globalSet _ | .call _ => by
    simp [Instr.resolve, Instr.refs, Names.succeeds_position, Names.get]
  | .callIndirect table type => by
    rw [Instr.resolve, succeeds_bind (p := table ∈ n.tables), Names.succeeds_signature]
    · simp [Instr.refs, Names.get]
    · intro s _
      rw [succeeds_bind (p := True) fun _ _ => by simp, Names.succeeds_position]
      simp
  | .cond result thenCode elseCode => by
    rw [Instr.resolve, succeeds_bind (p := Succeeds (Instr.resolveAll n signatures locals elseCode)),
      Code.succeeds_resolveAll thenCode, Code.succeeds_resolveAll elseCode]
    · simp only [Instr.refs, List.mem_append]
      grind
    · intro yes _
      rw [succeeds_bind (p := True) fun _ _ => by simp]
      simp
termination_by structural i => i

theorem Code.succeeds_resolveAll {n : Names} {signatures : List Signature} {locals : List String} :
    ∀ c : Code, Succeeds (Instr.resolveAll n signatures locals c) ↔
      ∀ d ∈ Code.refs c, if d.1 = .locals then d.2 ∈ locals else d.2 ∈ n.get d.1
  | [] => by simp [Instr.resolveAll]
  | i :: c => by
    rw [Instr.resolveAll, succeeds_bind (p := Succeeds (Instr.resolveAll n signatures locals c)),
      Instr.succeeds_resolve i, Code.succeeds_resolveAll c]
    · simp only [Code.refs_cons, List.mem_append]
      grind
    · intro first _
      rw [succeeds_bind (p := True) fun _ _ => by simp]
      simp
termination_by structural c => c

end

theorem foldlM_define_eq_ok {locals : List Local} {names r : List String} :
    locals.foldlM (fun names l => Names.define names l.name) names = .ok r ↔
      ((locals.map (·.name)).Nodup ∧ ∀ l ∈ locals, l.name ∉ names) ∧ names ++ locals.map (·.name) = r := by
  induction locals generalizing names with
  | nil => simp [pure, Except.pure]
  | cons l locals ih =>
    simp only [List.foldlM_cons, bind_eq_ok, Names.define_eq_ok, ih]
    constructor
    · rintro ⟨_, ⟨hl, rfl⟩, ⟨hd, hn⟩, rfl⟩
      simp at hn ⊢
      grind
    · rintro ⟨⟨hd, hn⟩, rfl⟩
      simp at hd hn
      refine ⟨names ++ [l.name], ⟨hn.1, rfl⟩, ⟨hd.2, fun k hk => ?_⟩, by simp⟩
      simp [hn.2 k hk, hd.1 k hk]

theorem ofLocals_eq_ok {f : Func} {names : List String} :
    Names.ofLocals f = .ok names ↔ f.declared.Nodup ∧ f.declared = names := by
  rw [Names.ofLocals, foldlM_define_eq_ok]
  simp [Func.declared]

/-- A function's names resolve if it is well scoped and refers to defined names only. -/
theorem succeeds_ofFunc {n : Names} {signatures : List Signature} {f : Func} :
    Succeeds (Image.Func.ofFunc n signatures f) ↔
      f.WellScoped ∧ ∀ d ∈ (Field.func f).refs, d.2 ∈ n.get d.1 := by
  rw [Image.Func.ofFunc, succeeds_bind (p := Succeeds (Instr.resolveAll n signatures f.declared f.body)),
    Code.succeeds_resolveAll]
  · have hlocals : Succeeds (Names.ofLocals f) ↔ f.declared.Nodup := by
      simp [Succeeds, ofLocals_eq_ok]
    rw [hlocals]
    constructor
    · rintro ⟨hd, h⟩
      refine ⟨⟨hd, fun x hx => by simpa using h _ hx⟩, fun d hd => ?_⟩
      simp only [Field.refs, List.mem_filter, decide_eq_true_eq] at hd
      simpa [hd.2] using h d hd.1
    · rintro ⟨⟨hd, hl⟩, h⟩
      refine ⟨hd, fun d hmem => ?_⟩
      split
      · rename_i hs
        exact hl d.2 (by rwa [← hs])
      · rename_i hs
        exact h d (by simp [Field.refs, hmem, hs])
  · intro names hnames
    obtain ⟨-, rfl⟩ := ofLocals_eq_ok.1 hnames
    rw [succeeds_bind (p := True) fun _ _ => by simp]
    simp

theorem succeeds_imageAdd (n : Names) (image : Image) (field : Field) :
    Succeeds (image.add n field) ↔ field.func? = none → ∀ d ∈ field.refs, d.2 ∈ n.get d.1 := by
  cases field with
  | elem table offset funcs =>
    rw [Image.add, succeeds_bind (p := ∀ f ∈ funcs, f ∈ n.funcs), Names.succeeds_position]
    · simp [Field.func?, Field.refs, Names.get]
    · intro t _
      rw [succeeds_bind (p := True) fun _ _ => by simp, succeeds_mapM]
      simp [Names.succeeds_position]
  | exports name kind target =>
    rw [Image.add, succeeds_bind (p := True) fun _ _ => by simp]
    cases kind <;> simp [Image.exportTarget, Field.func?, Field.refs, Names.succeeds_position, Names.get]
  | func f => simp [Image.add, Field.func?]
  | _ => simp [Image.add, Field.refs]

theorem Module.mem_funcs {m : Module} {f : Func} : f ∈ m.funcs ↔ .func f ∈ m.fields := by
  simp only [Module.funcs, List.mem_filterMap]
  constructor
  · rintro ⟨field, hmem, h⟩
    cases field <;> cases h
    exact hmem
  · intro h
    exact ⟨_, h, rfl⟩

theorem declared_functions (m : Module) : declared m.fields .functions = m.funcs.map (·.name) := by
  rw [declared, Module.funcs, List.map_filterMap]
  congr 1
  funext field
  cases field <;> rfl

/-- **The names of a module resolve** exactly if none is defined twice and none is undefined. -/
theorem resolve_succeeds_iff {m : Module} : Succeeds m.resolve ↔ m.WellNamed := by
  rw [Module.resolve, succeeds_bind (p := (∀ f ∈ m.funcs, f.WellScoped) ∧
    ∀ field ∈ m.fields, ∀ d ∈ field.refs, d.2 ∈ declared m.fields d.1), Names.succeeds_ofFields]
  · exact ⟨fun ⟨h, hl, hr⟩ => ⟨h, hl, hr⟩, fun h => ⟨h.nodup, h.locals, h.refs⟩⟩
  · intro n hn
    rw [succeeds_bind (p := ∀ field ∈ m.fields, field.func? = none → ∀ d ∈ field.refs, d.2 ∈ n.get d.1)
      fun _ _ => succeeds_foldlM (succeeds_imageAdd n) _ _]
    simp only [succeeds_mapM, succeeds_ofFunc, Names.get_ofFields hn, Module.mem_funcs]
    constructor
    · rintro ⟨hfuncs, hfields⟩
      refine ⟨fun f hf => (hfuncs f hf).1, fun field hfield => ?_⟩
      cases field with
      | func f => exact (hfuncs f hfield).2
      | _ => exact hfields _ hfield rfl
    · rintro ⟨hlocals, hrefs⟩
      exact ⟨fun f hf => ⟨hlocals f hf, hrefs _ hf⟩, fun field hfield _ => hrefs field hfield⟩

end WasmBackend
