/-
The bytes of a module are a faithful image of it (`encode_faithful`): what
is read from them has the module's functions, tables, memories, globals,
exports and segments in the order of its fields, and where the module has a
name, the position at which that name is defined.

What it means for contents to depict a module is said of names and positions
only (`Shows`, `Contents.Depicts`), and proved of what resolving the names
comes to.
-/
import WasmBackend.Proofs.Assembly.Names
import WasmBackend.Proofs.Binary.Written
import WasmBackend.Proofs.Machine.Run

namespace WasmBackend

/-! ## Contents that depict a module -/

/-- The space that an export of this kind gives something out of. -/
def ExportKind.space : ExportKind → Space
  | func => .functions
  | memory => .memories
  | global => .globals

namespace Field

def table? : Field → Option Nat
  | .table _ size => some size
  | _ => none

def memory? : Field → Option Nat
  | .memory _ pages => some pages
  | _ => none

def global? : Field → Option (Bool × Word)
  | .global _ isMutable init => some (isMutable, init)
  | _ => none

def export? : Field → Option (String × ExportKind × String)
  | .exports name kind target => some (name, kind, target)
  | _ => none

def elem? : Field → Option (String × Word × List String)
  | .elem name offset funcs => some (name, offset, funcs)
  | _ => none

def type? : Field → Option (String × Signature)
  | .type name signature => some (name, signature)
  | _ => none

end Field

namespace Binary

open List (Forall₂)

/-- An instruction with names, and the same instruction with the positions of what they name. -/
inductive Shows (m : Module) (signatures : List Signature) (locals : List String) : Instr String → Insn → Prop
  | op (o : Op) : Shows m signatures locals (.op o) (.op o)
  | i32Const (n : Word) : Shows m signatures locals (.i32Const n) (.i32Const n)
  | f64Const (x : Double) : Shows m signatures locals (.f64Const x) (.f64Const x)
  | localGet {x : String} {i : Nat} : locals[i]? = some x → Shows m signatures locals (.localGet x) (.localGet i)
  | localSet {x : String} {i : Nat} : locals[i]? = some x → Shows m signatures locals (.localSet x) (.localSet i)
  | localTee {x : String} {i : Nat} : locals[i]? = some x → Shows m signatures locals (.localTee x) (.localTee i)
  | globalGet {x : String} {i : Nat} : (declared m.fields .globals)[i]? = some x →
      Shows m signatures locals (.globalGet x) (.globalGet i)
  | globalSet {x : String} {i : Nat} : (declared m.fields .globals)[i]? = some x →
      Shows m signatures locals (.globalSet x) (.globalSet i)
  | call {f : String} {i : Nat} : (declared m.fields .functions)[i]? = some f →
      Shows m signatures locals (.call f) (.call i)
  | callIndirect {table type : String} {i j : Nat} {s : Signature} : (declared m.fields .tables)[i]? = some table →
      m.signature? type = some s → signatures[j]? = some s →
      Shows m signatures locals (.callIndirect table type) (.callIndirect j i)
  | load {ty : ValType} {align offset : Nat} : 2 ^ align = ty.width →
      Shows m signatures locals (.load ty offset) (.load ty align offset)
  | store {ty : ValType} {align offset : Nat} : 2 ^ align = ty.width →
      Shows m signatures locals (.store ty offset) (.store ty align offset)
  | cond {result : Option ValType} {yes : Code} {yes' : List Insn} :
      Forall₂ (Shows m signatures locals) yes yes' →
      Shows m signatures locals (.cond result yes []) (.cond result yes')
  | condElse {result : Option ValType} {yes no : Code} {yes' no' : List Insn} :
      Forall₂ (Shows m signatures locals) yes yes' → no ≠ [] → Forall₂ (Shows m signatures locals) no no' →
      Shows m signatures locals (.cond result yes no) (.condElse result yes' no')

/-- Contents have all that a module has, in the same order, with positions for names. -/
structure Contents.Depicts (c : Contents) (m : Module) : Prop where
  signatures : c.signatures.Nodup
  types : Forall₂ (fun f type => c.signatures[type]? = some f.signature) m.funcs c.types
  codes : Forall₂ (fun f entry => entry.locals = f.locals.map (·.ty) ∧
    Forall₂ (Shows m c.signatures f.declared) f.body entry.body) m.funcs c.codes
  tables : c.tables = (m.fields.filterMap Field.table?).map fun size => ⟨size, some size⟩
  memories : c.memories = (m.fields.filterMap Field.memory?).map fun pages => ⟨pages, none⟩
  globals : c.globals = (m.fields.filterMap Field.global?).map fun g => ⟨.i32, g.1, g.2⟩
  exports : Forall₂ (fun (name, kind, target) (e : Image.Export) => e.name = name ∧ e.kind = kind ∧
    (declared m.fields kind.space)[e.target]? = some target) (m.fields.filterMap Field.export?) c.exports
  elems : Forall₂ (fun (table, offset, funcs) (e : Image.Elem) => e.offset = offset ∧
    (declared m.fields .tables)[e.table]? = some table ∧
    Forall₂ (fun f i => (declared m.fields .functions)[i]? = some f) funcs e.funcs)
    (m.fields.filterMap Field.elem?) c.elems

end Binary

/-! ## Definitions and their positions -/

theorem map_eq_ok {ε α β : Type} {x : Except ε α} {f : α → β} {b : β} : x.map f = .ok b ↔ ∃ a, x = .ok a ∧ f a = b := by
  cases x <;> simp [Except.map]

theorem width_eq (ty : ValType) : 2 ^ ty.alignment = ty.width := by
  cases ty <;> rfl

namespace Names

theorem getElem?_of_position {space : Space} {names : List String} {x : String} {i : Nat}
    (h : position space names x = .ok i) : names[i]? = some x := by
  unfold position at h
  split at h
  · rename_i j hj
    cases h
    obtain ⟨hlt, hx, -⟩ := List.idxOf?_eq_some_iff.1 hj
    exact List.getElem?_eq_some_iff.2 ⟨hlt, hx⟩
  · cases h

theorem position_lt {space : Space} {names : List String} {x : String} {i : Nat}
    (h : position space names x = .ok i) : i < names.length :=
  (List.getElem?_eq_some_iff.1 (getElem?_of_position h)).1

/-- A field adds its name at the end of its space. -/
theorem get_add_eq {n n' : Names} {f : Field} (h : n.add f = .ok n') {space : Space} (hspace : space ≠ .types) :
    n'.get space = n.get space ++ declared [f] space := by
  cases f with
  | func f =>
    rw [map_define.2 n' h]
    cases space <;> simp [get, declared, Field.defines]
  | global name _ _ | memory name _ | table name _ =>
    rw [map_define.2 n' h]
    cases space <;> simp [get, declared, Field.defines]
  | type name s =>
    cases h
    cases space <;> simp [get, declared, Field.defines] at hspace ⊢
  | elem _ _ _ | exports _ _ _ =>
    cases h
    simp [declared, Field.defines]

theorem types_add {n n' : Names} {f : Field} (h : n.add f = .ok n') :
    n'.types = (f.type?).toList ++ n.types := by
  cases f with
  | func f => rw [map_define.2 n' h]; rfl
  | global name _ _ | memory name _ | table name _ => rw [map_define.2 n' h]; rfl
  | type name s => cases h; rfl
  | elem _ _ _ | exports _ _ _ => cases h; rfl

theorem foldlM_add {fields : List Field} {n n' : Names} (h : fields.foldlM add n = .ok n') :
    (∀ space, space ≠ .types → n'.get space = n.get space ++ declared fields space) ∧
      n'.types = (fields.filterMap Field.type?).reverse ++ n.types := by
  induction fields generalizing n with
  | nil =>
    cases h
    simp
  | cons f fields ih =>
    rw [List.foldlM_cons] at h
    obtain ⟨a, ha, h⟩ := bind_eq_ok.1 h
    obtain ⟨hget, htypes⟩ := ih h
    refine ⟨fun space hspace => ?_, ?_⟩
    · have happend : declared (f :: fields) space = declared [f] space ++ declared fields space :=
        declared_append [f] fields space
      rw [hget space hspace, get_add_eq ha hspace, happend, List.append_assoc]
    · rw [htypes, types_add ha]
      cases hf : f.type? <;> simp [hf]

/-- The definitions of a module. -/
structure Of (n : Names) (m : Module) : Prop where
  funcs : n.funcs = declared m.fields .functions
  globals : n.globals = declared m.fields .globals
  memories : n.memories = declared m.fields .memories
  tables : n.tables = declared m.fields .tables
  types : n.types = (m.fields.filterMap Field.type?).reverse

theorem of_ofFields {m : Module} {n : Names} (h : ofFields m.fields = .ok n) : n.Of m := by
  obtain ⟨hget, htypes⟩ := foldlM_add h
  exact ⟨hget .functions nofun, hget .globals nofun, hget .memories nofun, hget .tables nofun,
    htypes.trans (List.append_nil _)⟩

theorem lookup_types (fields : List Field) (x : String) :
    (fields.filterMap Field.type?).lookup x = fields.findSome? fun
      | .type name signature => if name = x then some signature else none
      | _ => none := by
  induction fields with
  | nil => rfl
  | cons f fields ih =>
    cases f with
    | type name s =>
      by_cases hx : name = x
      · simp [Field.type?, hx]
      · have hx' : ¬ x = name := fun h => hx h.symm
        simp [Field.type?, hx, List.lookup_cons, ih, beq_false_of_ne hx']
    | _ => exact ih

/-- A type name stands for the last type of that name. -/
theorem Of.signature {n : Names} {m : Module} (h : n.Of m) {x : String} {s : Signature}
    (hs : n.signature x = .ok s) : m.signature? x = some s ∧ s ∈ m.signatures := by
  unfold Names.signature at hs
  split at hs
  · rename_i s' hlookup
    cases hs
    rw [h.types, ← List.filterMap_reverse, lookup_types] at hlookup
    refine ⟨hlookup, ?_⟩
    obtain ⟨field, hfield, hs⟩ := List.exists_of_findSome?_eq_some hlookup
    rw [Module.signatures, List.mem_eraseDups]
    refine List.mem_append_left _ (List.mem_filterMap.2 ⟨field, List.mem_reverse.1 hfield, ?_⟩)
    cases field with
    | type name s' =>
      simp only [Option.ite_none_right_eq_some] at hs
      exact hs.2
    | _ => cases hs
  · cases hs

end Names

theorem nodup_eraseDups {α : Type} [BEq α] [LawfulBEq α] : ∀ l : List α, l.eraseDups.Nodup
  | [] => .nil
  | a :: l => by
    rw [List.eraseDups_cons, List.nodup_cons, List.mem_eraseDups, List.mem_filter]
    exact ⟨by simp, nodup_eraseDups _⟩
termination_by l => l.length
decreasing_by exact Nat.lt_succ_of_le (List.length_filter_le _ _)

/-! ## Resolved code -/

namespace Instr

mutual

/-- The offsets of all memory accesses. -/
def offsets {Ref : Type} : Instr Ref → List Nat
  | load _ offset => [offset]
  | store _ offset => [offset]
  | cond _ thenCode elseCode => offsetsAll thenCode ++ offsetsAll elseCode
  | _ => []
termination_by structural i => i

def offsetsAll {Ref : Type} : List (Instr Ref) → List Nat
  | [] => []
  | i :: is => i.offsets ++ offsetsAll is
termination_by structural is => is

end

end Instr

section

open Instr Binary

variable {n : Names} {m : Module} {locals : List String}

mutual

/-- A resolved instruction has the positions of what its names stand for. -/
theorem Instr.shows_resolve (hn : n.Of m) : ∀ (i : Instr String) {j : Instr Nat},
    i.resolve n m.signatures locals = .ok j → Shows m m.signatures locals i j.insn
  | .op o, _, h => by cases h; exact .op o
  | .i32Const k, _, h => by cases h; exact .i32Const k
  | .f64Const x, _, h => by cases h; exact .f64Const x
  | .load ty offset, _, h => by cases h; exact .load (width_eq ty)
  | .store ty offset, _, h => by cases h; exact .store (width_eq ty)
  | .localGet x, _, h => by
    obtain ⟨i, hi, rfl⟩ := map_eq_ok.1 h
    exact .localGet (Names.getElem?_of_position hi)
  | .localSet x, _, h => by
    obtain ⟨i, hi, rfl⟩ := map_eq_ok.1 h
    exact .localSet (Names.getElem?_of_position hi)
  | .localTee x, _, h => by
    obtain ⟨i, hi, rfl⟩ := map_eq_ok.1 h
    exact .localTee (Names.getElem?_of_position hi)
  | .globalGet x, _, h => by
    obtain ⟨i, hi, rfl⟩ := map_eq_ok.1 h
    exact .globalGet (hn.globals ▸ Names.getElem?_of_position hi)
  | .globalSet x, _, h => by
    obtain ⟨i, hi, rfl⟩ := map_eq_ok.1 h
    exact .globalSet (hn.globals ▸ Names.getElem?_of_position hi)
  | .call f, _, h => by
    obtain ⟨i, hi, rfl⟩ := map_eq_ok.1 h
    exact .call (hn.funcs ▸ Names.getElem?_of_position hi)
  | .callIndirect table type, _, h => by
    obtain ⟨s, hs, h⟩ := bind_eq_ok.1 h
    obtain ⟨t, ht, h⟩ := bind_eq_ok.1 h
    cases h
    obtain ⟨htype, hmem⟩ := hn.signature hs
    exact .callIndirect (hn.tables ▸ Names.getElem?_of_position ht) htype (List.getElem?_idxOf hmem)
  | .cond result yes no, _, h => by
    obtain ⟨yes', hyes, h⟩ := bind_eq_ok.1 h
    obtain ⟨no', hno, h⟩ := bind_eq_ok.1 h
    cases h
    have hyes := Code.shows_resolveAll hn yes hyes
    have hshow := Code.shows_resolveAll hn no hno
    cases no with
    | nil =>
      cases hno
      exact .cond hyes
    | cons i is =>
      obtain ⟨j, -, h⟩ := bind_eq_ok.1 hno
      obtain ⟨js, -, h⟩ := bind_eq_ok.1 h
      cases h
      exact .condElse hyes (List.cons_ne_nil i is) hshow
termination_by structural i => i

theorem Code.shows_resolveAll (hn : n.Of m) : ∀ (c : Code) {js : List (Instr Nat)},
    Instr.resolveAll n m.signatures locals c = .ok js → List.Forall₂ (Shows m m.signatures locals) c (insnAll js)
  | [], _, h => by cases h; exact .nil
  | i :: c, _, h => by
    obtain ⟨j, hj, h⟩ := bind_eq_ok.1 h
    obtain ⟨js, hjs, h⟩ := bind_eq_ok.1 h
    cases h
    exact .cons (Instr.shows_resolve hn i hj) (Code.shows_resolveAll hn c hjs)
termination_by structural c => c

end

mutual

/-- Positions are below the number of names, so they can be written if there are not too many. -/
theorem Instr.fits_resolve {signatures : List Signature} (hlocals : locals.length ≤ 2 ^ 32)
    (hfuncs : n.funcs.length ≤ 2 ^ 32) (hglobals : n.globals.length ≤ 2 ^ 32) (htables : n.tables.length ≤ 2 ^ 32)
    (hsignatures : ∀ x s, n.signature x = .ok s → signatures.idxOf s < 2 ^ 32) : ∀ (i : Instr String) {j : Instr Nat},
    i.resolve n signatures locals = .ok j → (∀ o ∈ i.offsets, o < 2 ^ 32) → j.Fits
  | .op _, _, h, _ | .i32Const _, _, h, _ | .f64Const _, _, h, _ => by cases h; trivial
  | .load ty offset, _, h, ho | .store ty offset, _, h, ho => by
    cases h
    exact ho offset (List.mem_singleton_self offset)
  | .localGet x, _, h, _ | .localSet x, _, h, _ | .localTee x, _, h, _ => by
    obtain ⟨i, hi, rfl⟩ := map_eq_ok.1 h
    exact Nat.lt_of_lt_of_le (Names.position_lt hi) hlocals
  | .globalGet x, _, h, _ | .globalSet x, _, h, _ => by
    obtain ⟨i, hi, rfl⟩ := map_eq_ok.1 h
    exact Nat.lt_of_lt_of_le (Names.position_lt hi) hglobals
  | .call f, _, h, _ => by
    obtain ⟨i, hi, rfl⟩ := map_eq_ok.1 h
    exact Nat.lt_of_lt_of_le (Names.position_lt hi) hfuncs
  | .callIndirect table type, _, h, _ => by
    obtain ⟨s, hs, h⟩ := bind_eq_ok.1 h
    obtain ⟨t, ht, h⟩ := bind_eq_ok.1 h
    cases h
    exact ⟨Nat.lt_of_lt_of_le (Names.position_lt ht) htables, hsignatures type s hs⟩
  | .cond result yes no, _, h, ho => by
    obtain ⟨yes', hyes, h⟩ := bind_eq_ok.1 h
    obtain ⟨no', hno, h⟩ := bind_eq_ok.1 h
    cases h
    simp only [offsets, List.mem_append] at ho
    exact ⟨Code.fits_resolveAll hlocals hfuncs hglobals htables hsignatures yes hyes fun o h => ho o (.inl h),
      Code.fits_resolveAll hlocals hfuncs hglobals htables hsignatures no hno fun o h => ho o (.inr h)⟩
termination_by structural i => i

theorem Code.fits_resolveAll {signatures : List Signature} (hlocals : locals.length ≤ 2 ^ 32)
    (hfuncs : n.funcs.length ≤ 2 ^ 32) (hglobals : n.globals.length ≤ 2 ^ 32) (htables : n.tables.length ≤ 2 ^ 32)
    (hsignatures : ∀ x s, n.signature x = .ok s → signatures.idxOf s < 2 ^ 32) : ∀ (c : Code) {js : List (Instr Nat)},
    Instr.resolveAll n signatures locals c = .ok js → (∀ o ∈ offsetsAll c, o < 2 ^ 32) → FitAll js
  | [], _, h, _ => by cases h; trivial
  | i :: c, _, h, ho => by
    obtain ⟨j, hj, h⟩ := bind_eq_ok.1 h
    obtain ⟨js, hjs, h⟩ := bind_eq_ok.1 h
    cases h
    simp only [offsetsAll, List.mem_append] at ho
    exact ⟨Instr.fits_resolve hlocals hfuncs hglobals htables hsignatures i hj fun o h => ho o (.inl h),
      Code.fits_resolveAll hlocals hfuncs hglobals htables hsignatures c hjs fun o h => ho o (.inr h)⟩
termination_by structural c => c

end

end

/-! ## Resolved modules -/

theorem forall₂_of_mapM {α β : Type} {ε : Type} {f : α → Except ε β} {xs : List α} {ys : List β}
    (h : xs.mapM f = .ok ys) : List.Forall₂ (fun x y => f x = .ok y) xs ys := by
  induction xs generalizing ys with
  | nil =>
    cases h
    exact .nil
  | cons x xs ih =>
    rw [List.mapM_cons] at h
    obtain ⟨y, hy, h⟩ := bind_eq_ok.1 h
    obtain ⟨ys', hys, h⟩ := bind_eq_ok.1 h
    cases h
    exact .cons hy (ih hys)

namespace Image

/-- An image has those fields, functions and types apart, that it had before, and some more. -/
structure Added (n : Names) (fields : List Field) (a b : Image) : Prop where
  signatures : b.signatures = a.signatures
  funcs : b.funcs = a.funcs
  funcNames : b.funcNames = a.funcNames
  globalNames : b.globalNames = a.globalNames
  tables : b.tables = a.tables ++ fields.filterMap Field.table?
  memories : b.memories = a.memories ++ fields.filterMap Field.memory?
  globals : b.globals = a.globals ++ fields.filterMap Field.global?
  exports : ∃ es, b.exports = a.exports ++ es ∧ List.Forall₂ (fun (name, kind, target) (e : Image.Export) =>
    e.name = name ∧ e.kind = kind ∧ exportTarget n kind target = .ok e.target) (fields.filterMap Field.export?) es
  elems : ∃ es, b.elems = a.elems ++ es ∧ List.Forall₂ (fun (table, offset, funcs) (e : Image.Elem) =>
    e.offset = offset ∧ Names.position .tables n.tables table = .ok e.table ∧
    List.Forall₂ (fun f i => Names.position .functions n.funcs f = .ok i) funcs e.funcs)
    (fields.filterMap Field.elem?) es

theorem Added.refl (n : Names) (a : Image) : Added n [] a a where
  signatures := rfl
  funcs := rfl
  funcNames := rfl
  globalNames := rfl
  tables := (List.append_nil _).symm
  memories := (List.append_nil _).symm
  globals := (List.append_nil _).symm
  exports := ⟨[], (List.append_nil _).symm, .nil⟩
  elems := ⟨[], (List.append_nil _).symm, .nil⟩

theorem Added.trans {n : Names} {xs ys : List Field} {a b c : Image} (h : Added n xs a b) (h' : Added n ys b c) :
    Added n (xs ++ ys) a c := by
  obtain ⟨es, hes, hexports⟩ := h.exports
  obtain ⟨es', hes', hexports'⟩ := h'.exports
  obtain ⟨gs, hgs, helems⟩ := h.elems
  obtain ⟨gs', hgs', helems'⟩ := h'.elems
  constructor
  · rw [h'.signatures, h.signatures]
  · rw [h'.funcs, h.funcs]
  · rw [h'.funcNames, h.funcNames]
  · rw [h'.globalNames, h.globalNames]
  · rw [h'.tables, h.tables, List.filterMap_append, List.append_assoc]
  · rw [h'.memories, h.memories, List.filterMap_append, List.append_assoc]
  · rw [h'.globals, h.globals, List.filterMap_append, List.append_assoc]
  · refine ⟨es ++ es', by rw [hes', hes, List.append_assoc], ?_⟩
    rw [List.filterMap_append]
    exact List.rel_append hexports hexports'
  · refine ⟨gs ++ gs', by rw [hgs', hgs, List.append_assoc], ?_⟩
    rw [List.filterMap_append]
    exact List.rel_append helems helems'

/-- One field. -/
theorem added_add {n : Names} {a b : Image} {field : Field} (h : a.add n field = .ok b) : Added n [field] a b := by
  have hnil := Added.refl n a
  cases field with
  | type _ _ | func _ =>
    cases h
    exact ⟨rfl, rfl, rfl, rfl, hnil.tables, hnil.memories, hnil.globals, hnil.exports, hnil.elems⟩
  | global _ _ _ =>
    cases h
    exact ⟨rfl, rfl, rfl, rfl, hnil.tables, hnil.memories, rfl, hnil.exports, hnil.elems⟩
  | memory _ _ =>
    cases h
    exact ⟨rfl, rfl, rfl, rfl, hnil.tables, rfl, hnil.globals, hnil.exports, hnil.elems⟩
  | table _ _ =>
    cases h
    exact ⟨rfl, rfl, rfl, rfl, rfl, hnil.memories, hnil.globals, hnil.exports, hnil.elems⟩
  | elem table offset funcs =>
    obtain ⟨t, ht, h⟩ := bind_eq_ok.1 h
    obtain ⟨fs, hfs, h⟩ := bind_eq_ok.1 h
    cases h
    exact ⟨rfl, rfl, rfl, rfl, hnil.tables, hnil.memories, hnil.globals, hnil.exports,
      _, rfl, .cons ⟨rfl, ht, forall₂_of_mapM hfs⟩ .nil⟩
  | exports name kind target =>
    obtain ⟨t, ht, h⟩ := bind_eq_ok.1 h
    cases h
    exact ⟨rfl, rfl, rfl, rfl, hnil.tables, hnil.memories, hnil.globals, ⟨_, rfl, .cons ⟨rfl, rfl, ht⟩ .nil⟩, hnil.elems⟩

theorem added_foldlM {n : Names} {fields : List Field} {a b : Image} (h : fields.foldlM (Image.add n) a = .ok b) :
    Added n fields a b := by
  induction fields generalizing a with
  | nil =>
    cases h
    exact Added.refl n _
  | cons field fields ih =>
    rw [List.foldlM_cons] at h
    obtain ⟨c, hc, h⟩ := bind_eq_ok.1 h
    exact (added_add hc).trans (ih h)

end Image

section

variable {n : Names} {m : Module} {image : Image}

theorem Image.Func.ofFunc_eq_ok {f : WasmBackend.Func} {g : Image.Func} {signatures : List Signature}
    (h : Image.Func.ofFunc n signatures f = .ok g) : g.type = signatures.idxOf f.signature ∧
      g.locals = f.locals.map (·.ty) ∧ g.names = f.declared ∧
      Instr.resolveAll n signatures f.declared f.body = .ok g.body := by
  obtain ⟨names, hnames, h⟩ := bind_eq_ok.1 h
  obtain ⟨body, hbody, h⟩ := bind_eq_ok.1 h
  cases h
  obtain ⟨-, rfl⟩ := ofLocals_eq_ok.1 hnames
  exact ⟨rfl, rfl, rfl, hbody⟩

/-- What resolving a module comes to. -/
structure Module.Resolved (m : Module) (n : Names) (image : Image) : Prop where
  names : n.Of m
  funcs : List.Forall₂ (fun f g => Image.Func.ofFunc n m.signatures f = .ok g) m.funcs image.funcs
  signatures : image.signatures = m.signatures
  funcNames : image.funcNames = n.funcs
  globalNames : image.globalNames = n.globals
  tables : image.tables = m.fields.filterMap Field.table?
  memories : image.memories = m.fields.filterMap Field.memory?
  globals : image.globals = m.fields.filterMap Field.global?
  exports : List.Forall₂ (fun (name, kind, target) (e : Image.Export) => e.name = name ∧ e.kind = kind ∧
    Image.exportTarget n kind target = .ok e.target) (m.fields.filterMap Field.export?) image.exports
  elems : List.Forall₂ (fun (table, offset, funcs) (e : Image.Elem) => e.offset = offset ∧
    Names.position .tables n.tables table = .ok e.table ∧
    List.Forall₂ (fun f i => Names.position .functions n.funcs f = .ok i) funcs e.funcs)
    (m.fields.filterMap Field.elem?) image.elems

theorem Module.resolved_of_resolve (h : m.resolve = .ok image) : ∃ n, m.Resolved n image := by
  obtain ⟨n, hn, h⟩ := bind_eq_ok.1 h
  obtain ⟨funcs, hfuncs, h⟩ := bind_eq_ok.1 h
  have hadded := Image.added_foldlM h
  obtain ⟨es, hes, hexports⟩ := hadded.exports
  obtain ⟨gs, hgs, helems⟩ := hadded.elems
  rw [List.nil_append] at hes hgs
  refine ⟨n, Names.of_ofFields hn, ?_, hadded.signatures, hadded.funcNames, hadded.globalNames, hadded.tables,
    hadded.memories, hadded.globals, hes ▸ hexports, hgs ▸ helems⟩
  rw [hadded.funcs]
  exact forall₂_of_mapM hfuncs

theorem Names.Of.exportTarget (hn : n.Of m) {kind : ExportKind} {target : String} {i : Nat}
    (h : Image.exportTarget n kind target = .ok i) : (declared m.fields kind.space)[i]? = some target := by
  cases kind with
  | func => exact hn.funcs ▸ Names.getElem?_of_position h
  | memory => exact hn.memories ▸ Names.getElem?_of_position h
  | global => exact hn.globals ▸ Names.getElem?_of_position h

theorem Func.signature_mem {f : Func} (hf : f ∈ m.funcs) : f.signature ∈ m.signatures := by
  rw [Module.signatures, List.mem_eraseDups]
  exact List.mem_append_right _ (List.mem_map_of_mem hf)

/-- A relation between lists, of members only. -/
theorem forall₂_imp_of_mem {α β : Type} {R S : α → β → Prop} {xs : List α} {ys : List β} (h : List.Forall₂ R xs ys)
    (hRS : ∀ x ∈ xs, ∀ y, R x y → S x y) : List.Forall₂ S xs ys := by
  induction h with
  | nil => exact .nil
  | @cons x y xs ys hxy _ ih =>
    obtain ⟨hx, hxs⟩ := List.forall_mem_cons.1 hRS
    exact .cons (hx y hxy) (ih hxs)

/-- **The image of a module depicts it.** -/
theorem Module.Resolved.depicts (h : m.Resolved n image) (customs : List (String × Bytes)) :
    (image.contents customs).Depicts m where
  signatures := by
    change image.signatures.Nodup
    rw [h.signatures]
    exact nodup_eraseDups _
  types := by
    refine List.forall₂_map_right_iff.2 (forall₂_imp_of_mem h.funcs fun f hf g hg => ?_)
    obtain ⟨htype, -⟩ := Image.Func.ofFunc_eq_ok hg
    change image.signatures[g.type]? = some f.signature
    rw [htype, h.signatures]
    exact List.getElem?_idxOf (Func.signature_mem hf)
  codes := by
    refine List.forall₂_map_right_iff.2 (h.funcs.imp fun f g hg => ?_)
    obtain ⟨-, hlocals, -, hbody⟩ := Image.Func.ofFunc_eq_ok hg
    refine ⟨hlocals, ?_⟩
    change List.Forall₂ (Binary.Shows m image.signatures f.declared) f.body (Instr.insnAll g.body)
    rw [h.signatures]
    exact Code.shows_resolveAll h.names f.body hbody
  tables := congrArg (List.map _) h.tables
  memories := congrArg (List.map _) h.memories
  globals := congrArg (List.map _) h.globals
  exports := h.exports.imp fun _ _ he => ⟨he.1, he.2.1, h.names.exportTarget he.2.2⟩
  elems := h.elems.imp fun _ _ he => ⟨he.1, h.names.tables ▸ Names.getElem?_of_position he.2.1,
    he.2.2.imp fun _ _ hf => h.names.funcs ▸ Names.getElem?_of_position hf⟩

/-! ## Sizes -/

/-- Counts, lengths, sizes and offsets of a module are within what the format can hold. -/
structure Module.Fits (m : Module) : Prop where
  locals : ∀ f ∈ m.funcs, f.declared.length ≤ 2 ^ 32
  offsets : ∀ f ∈ m.funcs, ∀ o ∈ Instr.offsetsAll f.body, o < 2 ^ 32
  tables : ∀ size ∈ m.fields.filterMap Field.table?, size < 2 ^ 32
  memories : ∀ pages ∈ m.fields.filterMap Field.memory?, pages < 2 ^ 32
  sections : ∀ image, m.resolve = .ok image → (∀ s ∈ Binary.sectionsOf image, s.2.length < 2 ^ 32) ∧
    (Binary.nameContents image).length < 2 ^ 32

theorem length_declared (fields : List Field) :
    (declared fields .globals).length = (fields.filterMap Field.global?).length ∧
      (declared fields .memories).length = (fields.filterMap Field.memory?).length ∧
      (declared fields .tables).length = (fields.filterMap Field.table?).length := by
  induction fields with
  | nil => exact ⟨rfl, rfl, rfl⟩
  | cons f fields ih =>
    have happend (space : Space) : declared (f :: fields) space = declared [f] space ++ declared fields space :=
      declared_append [f] fields space
    simp only [happend, List.length_append, List.filterMap_cons, ih]
    cases f <;> simp [declared, Field.defines, Field.global?, Field.memory?, Field.table?, Nat.add_comm]

/-- A section that is not too long has not too many items. -/
theorem Binary.count_lt {γ : Type} (id : UInt8) (write : γ → Bytes) {xs : List γ}
    (hlen : ∀ s ∈ sectionsOf image, s.2.length < 2 ^ 32) (hne : ∀ x ∈ xs, write x ≠ [])
    (hmem : xs ≠ [] → (id, vector (xs.map write)) ∈ sectionsOf image) : xs.length < 2 ^ 32 := by
  by_cases hnil : xs = []
  · rw [hnil]
    exact Nat.two_pow_pos 32
  · have hle : (xs.map write).length ≤ (vector (xs.map write)).length :=
      length_le_vector (List.forall_mem_map.2 hne)
    have hlt : (vector (xs.map write)).length < 2 ^ 32 := hlen _ (hmem hnil)
    rw [List.length_map] at hle
    omega

/-- There are not too many definitions in a module that fits. -/
structure Names.Few (n : Names) : Prop where
  funcs : n.funcs.length ≤ 2 ^ 32
  globals : n.globals.length ≤ 2 ^ 32
  memories : n.memories.length ≤ 2 ^ 32
  tables : n.tables.length ≤ 2 ^ 32

theorem Module.Resolved.few (h : m.Resolved n image)
    (hlen : ∀ s ∈ Binary.sectionsOf image, s.2.length < 2 ^ 32) : n.Few := by
  obtain ⟨hglobals, hmemories, htables⟩ := length_declared m.fields
  constructor
  · have hcount : image.funcs.length < 2 ^ 32 :=
      Binary.count_lt 10 Binary.ofCode hlen
        (fun f _ => by simp [Binary.ofCode, Binary.sized, Binary.unsigned_ne_nil]) fun _ => by simp [Binary.sectionsOf]
    rw [h.names.funcs, declared_functions, List.length_map, h.funcs.length_eq]
    omega
  · have hcount : image.globals.length < 2 ^ 32 :=
      Binary.count_lt 6 Binary.ofGlobal hlen (fun _ _ => List.cons_ne_nil _ _) fun hne => by simp [Binary.sectionsOf, hne]
    rw [h.names.globals, hglobals, ← h.globals]
    omega
  · have hcount : image.memories.length < 2 ^ 32 :=
      Binary.count_lt 5 Binary.ofMemory hlen (fun _ _ => List.cons_ne_nil _ _) fun hne => by simp [Binary.sectionsOf, hne]
    rw [h.names.memories, hmemories, ← h.memories]
    omega
  · have hcount : image.tables.length < 2 ^ 32 :=
      Binary.count_lt 4 Binary.ofTable hlen (fun _ _ => List.cons_ne_nil _ _) fun hne => by simp [Binary.sectionsOf, hne]
    rw [h.names.tables, htables, ← h.tables]
    omega

theorem exists_of_forall₂ {α β : Type} {R : α → β → Prop} {xs : List α} {ys : List β} (h : List.Forall₂ R xs ys)
    {y : β} (hy : y ∈ ys) : ∃ x ∈ xs, R x y := by
  induction h with
  | nil => cases hy
  | @cons x z xs ys hxz _ ih =>
    rcases List.mem_cons.1 hy with rfl | hy
    · exact ⟨x, List.mem_cons_self, hxz⟩
    · obtain ⟨x', hx', hR⟩ := ih hy
      exact ⟨x', List.mem_cons_of_mem _ hx', hR⟩

/-- A module that fits has an image that does: positions are below the number of definitions. -/
theorem Module.Fits.fits_image (hfits : m.Fits) (hm : m.resolve = .ok image) (h : m.Resolved n image) :
    image.Fits := by
  have hlen := (hfits.sections image hm).1
  have hfew := h.few hlen
  have hsignatures : m.signatures.length < 2 ^ 32 := by
    rw [← h.signatures]
    exact Binary.count_lt 1 Binary.ofSignature hlen (fun _ _ => List.cons_ne_nil _ _) fun _ => by simp [Binary.sectionsOf]
  have hindex {s : Signature} (hs : s ∈ m.signatures) : m.signatures.idxOf s < 2 ^ 32 :=
    Nat.lt_trans (List.idxOf_lt_length_of_mem hs) hsignatures
  constructor
  · exact hlen
  · intro g hg
    obtain ⟨f, hf, hg⟩ := exists_of_forall₂ h.funcs hg
    rw [(Image.Func.ofFunc_eq_ok hg).1]
    exact hindex (Func.signature_mem hf)
  · exact h.tables ▸ hfits.tables
  · exact h.memories ▸ hfits.memories
  · intro e he
    obtain ⟨⟨name, kind, target⟩, -, -, -, htarget⟩ := exists_of_forall₂ h.exports he
    cases kind with
    | func => exact Nat.lt_of_lt_of_le (Names.position_lt htarget) hfew.funcs
    | memory => exact Nat.lt_of_lt_of_le (Names.position_lt htarget) hfew.memories
    | global => exact Nat.lt_of_lt_of_le (Names.position_lt htarget) hfew.globals
  · intro e he
    obtain ⟨⟨table, offset, funcs⟩, -, -, htable, hfuncs⟩ := exists_of_forall₂ h.elems he
    refine ⟨Nat.lt_of_lt_of_le (Names.position_lt htable) hfew.tables, fun i hi => ?_⟩
    obtain ⟨f, -, hf⟩ := exists_of_forall₂ hfuncs hi
    exact Nat.lt_of_lt_of_le (Names.position_lt hf) hfew.funcs
  · intro g hg
    obtain ⟨f, hf, hg⟩ := exists_of_forall₂ h.funcs hg
    exact Code.fits_resolveAll (hfits.locals f hf) hfew.funcs hfew.globals hfew.tables
      (fun _ _ hs => hindex (h.names.signature hs).2) f.body (Image.Func.ofFunc_eq_ok hg).2.2.2 (hfits.offsets f hf)

theorem mapIdx_eq_of_forall₂ {α β γ : Type} {R : α → β → Prop} {xs : List α} {ys : List β} {f : Nat → α → γ}
    {g : Nat → β → γ} (h : List.Forall₂ R xs ys) (hfg : ∀ i x y, R x y → f i x = g i y) : xs.mapIdx f = ys.mapIdx g := by
  induction h generalizing f g with
  | nil => rfl
  | cons hxy _ ih =>
    rw [List.mapIdx_cons, List.mapIdx_cons, hfg 0 _ _ hxy, ih fun i x y h => hfg (i + 1) x y h]

/-- The names of the locals, for each function, are those of the module. -/
theorem Module.Resolved.local_names (h : m.Resolved n image) :
    (m.funcs.mapIdx fun i f => (i, f.declared.mapIdx fun j name => (j, name))) =
      image.funcs.mapIdx fun i f => (i, f.names.mapIdx fun j name => (j, name)) := by
  refine mapIdx_eq_of_forall₂ h.funcs fun i f g hg => ?_
  rw [(Image.Func.ofFunc_eq_ok hg).2.2.1]

end

/-- **The bytes of a module are a faithful image of it.** For every module that is encoded, what is
read from its bytes depicts it, and with names the bytes are followed by one custom section, which
tells the name of every function, local and global at its position. -/
theorem encode_faithful (m : Module) (hok : Succeeds (m.encode false)) (hfits : m.Fits) :
    ∃ c plain tail names, m.encode false = .ok plain ∧ Binary.Reader.module plain = some c ∧ c.customs = [] ∧
      c.Depicts m ∧ m.encode true = .ok (plain ++ tail) ∧
      Binary.Reader.module (plain ++ tail) = some { c with customs := [("name", names)] } ∧
      Binary.Reader.nameMaps names = some
        ⟨(declared m.fields .functions).mapIdx fun i name => (i, name),
          m.funcs.mapIdx fun i f => (i, f.declared.mapIdx fun j name => (j, name)),
          (declared m.fields .globals).mapIdx fun i name => (i, name)⟩ := by
  obtain ⟨image, hm⟩ : Succeeds m.resolve := succeeds_map.1 hok
  obtain ⟨n, hn⟩ := Module.resolved_of_resolve hm
  have himage : image.Fits := hfits.fits_image hm hn
  have hcontents : (Binary.nameContents image).length < 2 ^ 32 := (hfits.sections image hm).2
  have hplain : Binary.Reader.module (Binary.ofImage image) = some (image.contents []) := by
    have hread : Binary.Reader.module (Binary.ofImage image ++ Binary.written []) = some (image.contents []) :=
      Binary.module_ofImage himage (List.nil_sublist _) nofun rfl
    rwa [Binary.written_nil, List.append_nil] at hread
  have hnamed : Binary.Reader.module (Binary.ofImage image ++ Binary.nameSection image) =
      some (image.contents [("name", Binary.written (Binary.nameSections image))]) := by
    rw [Binary.nameSection_eq]
    refine Binary.module_ofImage himage (List.Sublist.refl [0]) (fun s hs => ?_) ?_
    · rw [List.mem_singleton.1 hs]
      exact hcontents
    · simp only [List.mapM_cons, List.mapM_nil, Binary.custom_nameContents hcontents]
      rfl
  have hmaps := Binary.nameMaps_ofImage hcontents
  rw [← hn.local_names, hn.funcNames, hn.globalNames, hn.names.funcs, hn.names.globals] at hmaps
  refine ⟨image.contents [], Binary.ofImage image, Binary.nameSection image, _, ?_, hplain, rfl, hn.depicts [], ?_,
    hnamed, hmaps⟩
  · rw [Module.encode, hm]
    exact congrArg Except.ok (List.append_nil _)
  · rw [Module.encode, hm]
    rfl

/-- A module with something in every section. -/
def Module.sample : Module := ⟨[
  .memory "memory" 1,
  .global "top" true 4,
  .type "unary" ⟨[.i32], some .i32⟩,
  .func ⟨"pick", [⟨"x", .i32⟩], some .i32, [⟨"y", .f64⟩], [
    .localGet "x",
    .cond (some .i32) [.globalGet "top", .load .i32 4] [.i32Const (-1), .localGet "x", .callIndirect "table" "unary"]]⟩,
  .table "table" 1,
  .elem "table" 0 ["pick"],
  .exports "main" .func "pick"]⟩

/-- The image of the sample, in which every name has become zero. -/
theorem Module.resolve_sample : Module.sample.resolve = .ok {
    signatures := [⟨[.i32], some .i32⟩]
    funcs := [⟨0, [.f64], [.localGet 0, .cond (some .i32) [.globalGet 0, .load .i32 4]
      [.i32Const (-1), .localGet 0, .callIndirect 0 0]], ["x", "y"]⟩]
    tables := [1], memories := [1], globals := [(true, 4)]
    exports := [⟨"main", .func, 0⟩], elems := [⟨0, 0, [0]⟩]
    funcNames := ["pick"], globalNames := ["top"] } := by
  rfl

theorem encode_faithful_sample : Succeeds (Module.sample.encode false) ∧ Module.sample.Fits ∧
    ∃ c plain, Module.sample.encode false = .ok plain ∧ Binary.Reader.module plain = some c ∧ c.Depicts .sample := by
  have hok : Succeeds (Module.sample.encode false) := succeeds_map.2 ⟨_, Module.resolve_sample⟩
  have hfits : Module.sample.Fits := by
    refine ⟨by decide, by decide, by decide, by decide, fun image himage => ?_⟩
    cases Module.resolve_sample.symm.trans himage
    have hone (n : Nat) (hn : n < 128) : Leb128.unsigned n = [n.toUInt8] := by
      rw [Leb128.unsigned, if_pos hn]
    have hsmall (n : Int) (hn : -64 ≤ n ∧ n < 64) : Leb128.signed n = [(n % 128).toNat.toUInt8] := by
      rw [Leb128.signed, if_pos hn]
    have htexts : "main".utf8ByteSize = 4 ∧ "name".utf8ByteSize = 4 ∧ "pick".utf8ByteSize = 4 ∧
        "x".utf8ByteSize = 1 ∧ "y".utf8ByteSize = 1 ∧ "top".utf8ByteSize = 3 := ⟨rfl, rfl, rfl, rfl, rfl, rfl⟩
    simp [Binary.sectionsOf, Binary.optional, Binary.nameContents, Binary.nameSections, Binary.nameMap, Binary.vector,
      Binary.ofSignature, Binary.ofCode, Binary.ofInstrs, Binary.ofInstr, Binary.ofTable, Binary.ofMemory,
      Binary.ofGlobal, Binary.ofExport, Binary.ofElem, Binary.ofName, Binary.sized, Binary.i32Const, Binary.memArg,
      Binary.sectionOf, htexts, hone, hsmall]
  obtain ⟨c, plain, -, -, hplain, hread, -, hdepicts, -⟩ := encode_faithful .sample hok hfits
  exact ⟨hok, hfits, c, plain, hplain, hread, hdepicts⟩

end WasmBackend
