/-
What is written of a module image is read back (`module_ofImage`): each of
its parts by the reader for that part, and a section by its number. The
names that are written after it are read back too (`nameMaps_ofImage`).
-/
import WasmBackend.Proofs.Binary.Reader

namespace WasmBackend

/-- The alignment that a memory access is written with, as a power of two. -/
def ValType.alignment : ValType → Nat
  | i32 => 2
  | f64 => 3

open Binary (Insn)

namespace Instr

mutual

/-- An instruction as it is written. -/
def insn : Instr Nat → Insn
  | op o => .op o
  | i32Const n => .i32Const n
  | f64Const x => .f64Const x
  | localGet i => .localGet i
  | localSet i => .localSet i
  | localTee i => .localTee i
  | globalGet i => .globalGet i
  | globalSet i => .globalSet i
  | call i => .call i
  | callIndirect table type => .callIndirect type table
  | load ty offset => .load ty ty.alignment offset
  | store ty offset => .store ty ty.alignment offset
  | cond result thenCode elseCode =>
    let no := insnAll elseCode
    if elseCode.isEmpty then .cond result (insnAll thenCode) else .condElse result (insnAll thenCode) no
termination_by structural i => i

def insnAll : List (Instr Nat) → List Insn
  | [] => []
  | i :: is => i.insn :: insnAll is
termination_by structural is => is

end

mutual

/-- All positions and offsets can be written. -/
def Fits : Instr Nat → Prop
  | localGet i | localSet i | localTee i | globalGet i | globalSet i | call i => i < 2 ^ 32
  | callIndirect table type => table < 2 ^ 32 ∧ type < 2 ^ 32
  | load _ offset | store _ offset => offset < 2 ^ 32
  | cond _ thenCode elseCode => FitAll thenCode ∧ FitAll elseCode
  | op _ | i32Const _ | f64Const _ => True
termination_by structural i => i

def FitAll : List (Instr Nat) → Prop
  | [] => True
  | i :: is => i.Fits ∧ FitAll is
termination_by structural is => is

end

theorem size_pos {Ref : Type} (i : Instr Ref) : 0 < i.size := by
  cases i <;> simp only [size] <;> omega

end Instr

namespace Binary

open Reader Instr

/-! ## Types, tables, memories, globals, exports and segments -/

theorem reads_valType (ty : ValType) : Reads valType [ofValType ty] ty := by
  refine .cons ?_
  cases ty <;> exact .pure _

theorem reads_blockType (result : Option ValType) : Reads Reader.blockType [Binary.blockType result] result := by
  refine .cons ?_
  rcases result with - | - | - <;> exact .pure _

theorem reads_signature (s : Signature) : Reads signature (ofSignature s) s := by
  have hparams : Reads (Reader.vector valType) (vector (s.params.map fun ty => [ofValType ty])) (s.params.map id) :=
    .vector (fun _ _ => List.cons_ne_nil _ _) fun ty _ => reads_valType ty
  have hresult : Reads (Reader.vector valType) (vector (s.result.toList.map fun ty => [ofValType ty]))
      (s.result.toList.map id) :=
    .vector (fun _ _ => List.cons_ne_nil _ _) fun ty _ => reads_valType ty
  rw [List.map_id] at hparams hresult
  obtain ⟨params, result⟩ := s
  refine .expect (hparams.bind (hresult.done ?_))
  cases result <;> exact .pure _

theorem reads_table {size : Nat} (h : size < 2 ^ 32) : Reads table (ofTable size) ⟨size, some size⟩ :=
  .expect (.cons ((Reads.u32 h).bind (Reads.u32 h).map))

theorem reads_memory {pages : Nat} (h : pages < 2 ^ 32) : Reads limits (ofMemory pages) ⟨pages, none⟩ :=
  .cons (Reads.u32 h).map

theorem reads_constant (w : Word) : Reads constant (Binary.i32Const w ++ [endMark]) w := by
  have hread : Reads constant (0x41 :: (Leb128.signed w.toInt ++ [endMark])) w :=
    .expect ((Reads.i32 w).bind (.expect (.pure w)))
  exact hread

theorem reads_global (g : Bool × Word) : Reads global (ofGlobal g) ⟨.i32, g.1, g.2⟩ := by
  have hflag : Reads mutability [if g.1 then 0x01 else 0x00] g.1 := by
    refine .cons ?_
    cases g.1 <;> exact .pure _
  exact .expect (hflag.bind (reads_constant g.2).map)

theorem reads_exportKind (kind : ExportKind) : Reads exportKind [ofExportKind kind] kind := by
  refine .cons ?_
  cases kind <;> exact .pure _

theorem reads_export {e : Image.Export} (h : e.target < 2 ^ 32) : Reads exportEntry (ofExport e) e :=
  (Reads.name e.name).bind ((reads_exportKind e.kind).bind (Reads.u32 h).map)

theorem unsigned_ne_nil (n : Nat) : Leb128.unsigned n ≠ [] := by
  rw [Leb128.unsigned]
  split <;> simp

theorem reads_positions {is : List Nat} (h : ∀ i ∈ is, i < 2 ^ 32) :
    Reads (Reader.vector u32) (vector (is.map Leb128.unsigned)) is := by
  have hread : Reads (Reader.vector u32) (vector (is.map Leb128.unsigned)) (is.map id) :=
    .vector (fun i _ => unsigned_ne_nil i) fun i hi => Reads.u32 (h i hi)
  rwa [List.map_id] at hread

theorem reads_elem {e : Image.Elem} (ht : e.table < 2 ^ 32) (hf : ∀ i ∈ e.funcs, i < 2 ^ 32) :
    Reads elem (ofElem e) e := by
  have hbytes : ofElem e = 0x02 :: (Leb128.unsigned e.table ++ (Binary.i32Const e.offset ++ [endMark] ++
      0x00 :: vector (e.funcs.map Leb128.unsigned))) := by
    simp [ofElem]
  rw [hbytes]
  exact .expect ((Reads.u32 ht).bind ((reads_constant e.offset).bind (.expect (reads_positions hf).map)))

/-! ## Code -/

theorem plain_op (o : Op) : plain (ofOp o) = pure (.op o) := by
  cases o <;> rfl

theorem reads_access {ty : ValType} {offset : Nat} (h : offset < 2 ^ 32) (insn : Nat → Nat → Insn) :
    Reads (plain.access insn) (memArg ty offset) (insn ty.alignment offset) := by
  have hone (n : Nat) (hn : n < 128) : Leb128.unsigned n = [n.toUInt8] := by
    rw [Leb128.unsigned, if_pos hn]
  cases ty with
  | i32 =>
    have halign : Reads u32 [2] 2 := hone 2 (by decide) ▸ Reads.u32 (by decide)
    exact halign.bind (Reads.u32 h).map
  | f64 =>
    have halign : Reads u32 [3] 3 := hone 3 (by decide) ▸ Reads.u32 (by decide)
    exact halign.bind (Reads.u32 h).map

/-- The bytes of an instruction without a block. -/
theorem reads_plain {i : Instr Nat} (hi : ∀ result yes no, i ≠ .cond result yes no) (h : i.Fits) :
    ∃ b bs, ofInstr i = b :: bs ∧ b ≠ 0x0b ∧ b ≠ 0x05 ∧ b ≠ 0x04 ∧ Reads (plain b) bs i.insn := by
  cases i with
  | op o =>
    refine ⟨ofOp o, [], rfl, ?_, ?_, ?_, plain_op o ▸ .pure _⟩ <;> cases o <;> decide
  | i32Const n => exact ⟨0x41, _, rfl, by decide, by decide, by decide, (Reads.i32 n).map⟩
  | f64Const x => exact ⟨0x44, _, rfl, by decide, by decide, by decide, (Reads.f64 x).map⟩
  | localGet i => exact ⟨0x20, _, rfl, by decide, by decide, by decide, (Reads.u32 h).map⟩
  | localSet i => exact ⟨0x21, _, rfl, by decide, by decide, by decide, (Reads.u32 h).map⟩
  | localTee i => exact ⟨0x22, _, rfl, by decide, by decide, by decide, (Reads.u32 h).map⟩
  | globalGet i => exact ⟨0x23, _, rfl, by decide, by decide, by decide, (Reads.u32 h).map⟩
  | globalSet i => exact ⟨0x24, _, rfl, by decide, by decide, by decide, (Reads.u32 h).map⟩
  | call i => exact ⟨0x10, _, rfl, by decide, by decide, by decide, (Reads.u32 h).map⟩
  | callIndirect table type =>
    exact ⟨0x11, _, rfl, by decide, by decide, by decide, (Reads.u32 h.2).bind (Reads.u32 h.1).map⟩
  | load ty offset =>
    cases ty with
    | i32 => exact ⟨0x28, _, rfl, by decide, by decide, by decide, reads_access h _⟩
    | f64 => exact ⟨0x2b, _, rfl, by decide, by decide, by decide, reads_access h _⟩
  | store ty offset =>
    cases ty with
    | i32 => exact ⟨0x36, _, rfl, by decide, by decide, by decide, reads_access h _⟩
    | f64 => exact ⟨0x39, _, rfl, by decide, by decide, by decide, reads_access h _⟩
  | cond result yes no => exact absurd rfl (hi result yes no)

/-- The mark at the end of a block. -/
def blockEnd (isElse : Bool) : UInt8 := if isElse then elseMark else endMark

theorem insns_end (isElse : Bool) (fuel : Nat) : Reads (insns (fuel + 1)) [blockEnd isElse] ([], isElse) := by
  rw [insns]
  refine .cons ?_
  cases isElse <;> exact .pure _

/-- An instruction before others. -/
theorem insns_cons {b : UInt8} {bs cs : Bytes} {fuel : Nat} {first : Insn} {rest : List Insn} {isElse : Bool}
    (hend : b ≠ 0x0b) (helse : b ≠ 0x05)
    (hfirst : Reads (Reader.insn (insns fuel) b) bs first)
    (hrest : Reads (insns fuel) cs (rest, isElse)) :
    Reads (insns (fuel + 1)) (b :: (bs ++ cs)) (first :: rest, isElse) := by
  rw [insns]
  refine .cons ?_
  rw [if_neg hend, if_neg helse]
  exact hfirst.bind (hrest.done (.pure _))

/-- An `if`, given how its branches are read. -/
theorem reads_branches {fuel : Nat} {result : Option ValType} {yes no : List (Instr Nat)}
    (hyes : ∀ isElse, Reads (insns fuel) (ofInstrs yes ++ [blockEnd isElse]) (insnAll yes, isElse))
    (hno : Reads (insns fuel) (ofInstrs no ++ [blockEnd false]) (insnAll no, false)) :
    ∃ bs, ofInstr (.cond result yes no) = 0x04 :: bs ∧
      Reads (branches (insns fuel)) bs (Instr.insn (.cond result yes no)) := by
  cases no with
  | nil =>
    refine ⟨Binary.blockType result :: (ofInstrs yes ++ [endMark]), by simp [ofInstr], ?_⟩
    exact (reads_blockType result).bind ((hyes false).done (.pure _))
  | cons i is =>
    refine ⟨Binary.blockType result :: (ofInstrs yes ++ [elseMark] ++ (ofInstrs (i :: is) ++ [endMark])), ?_, ?_⟩
    · simp [ofInstr]
    · exact (reads_blockType result).bind ((hyes true).bind (hno.done (.pure _)))

mutual

theorem reads_first {fuel : Nat} : ∀ i : Instr Nat, i.Fits → i.size ≤ fuel → ∃ b bs, ofInstr i = b :: bs ∧
    b ≠ 0x0b ∧ b ≠ 0x05 ∧ Reads (Reader.insn (insns fuel) b) bs i.insn
  | .cond result yes no, h, hfuel => by
    simp only [Instr.size] at hfuel
    have hyes (isElse : Bool) : Reads (insns fuel) (ofInstrs yes ++ [blockEnd isElse]) (insnAll yes, isElse) :=
      reads_insns yes h.1 (by omega) isElse
    have hno : Reads (insns fuel) (ofInstrs no ++ [blockEnd false]) (insnAll no, false) :=
      reads_insns no h.2 (by omega) false
    obtain ⟨bs, hbs, hread⟩ := reads_branches hyes hno
    exact ⟨0x04, bs, hbs, by decide, by decide, by rw [Reader.insn, if_pos rfl]; exact hread⟩
  | .op _, h, _ | .i32Const _, h, _ | .f64Const _, h, _ | .localGet _, h, _ | .localSet _, h, _ | .localTee _, h, _
  | .globalGet _, h, _ | .globalSet _, h, _ | .call _, h, _ | .callIndirect _ _, h, _ | .load _ _, h, _
  | .store _ _, h, _ => by
    obtain ⟨b, bs, hbs, hend, helse, hif, hread⟩ := reads_plain (fun _ _ _ hcond => by cases hcond) h
    exact ⟨b, bs, hbs, hend, helse, by rw [Reader.insn, if_neg hif]; exact hread⟩
termination_by structural i => i

/-- **Code is read back**, up to the mark at its end. -/
theorem reads_insns {fuel : Nat} : ∀ is : List (Instr Nat), FitAll is → sizeAll is < fuel → ∀ isElse : Bool,
    Reads (insns fuel) (ofInstrs is ++ [blockEnd isElse]) (insnAll is, isElse)
  | [], _, hfuel, isElse => by
    obtain ⟨fuel, rfl⟩ := Nat.exists_eq_add_one_of_ne_zero (Nat.ne_of_gt hfuel)
    exact insns_end isElse fuel
  | i :: is, h, hfuel, isElse => by
    have hpos := i.size_pos
    simp only [sizeAll] at hfuel
    obtain ⟨fuel, rfl⟩ : ∃ k, fuel = k + 1 := ⟨fuel - 1, by omega⟩
    obtain ⟨b, bs, hbs, hend, helse, hread⟩ := reads_first i h.1 (by omega : i.size ≤ fuel)
    rw [ofInstrs, hbs, List.append_assoc, List.cons_append, insnAll]
    exact insns_cons hend helse hread (reads_insns is h.2 (by omega) isElse)
termination_by structural is => is

end

mutual

theorem size_le_ofInstr : ∀ i : Instr Nat, i.size ≤ (ofInstr i).length
  | .cond result yes no => by
    have hyes := sizeAll_le_ofInstrs yes
    have hno := sizeAll_le_ofInstrs no
    cases no with
    | nil =>
      simp only [Instr.size, sizeAll, ofInstr, List.isEmpty_nil, if_true, List.length_append, List.length_cons,
        List.length_nil]
      omega
    | cons i is =>
      simp only [Instr.size, ofInstr, List.isEmpty_cons, Bool.false_eq_true, if_false, List.length_append,
        List.length_cons, List.length_nil]
      omega
  | .op _ | .i32Const _ | .f64Const _ | .localGet _ | .localSet _ | .localTee _ | .globalGet _ | .globalSet _
  | .call _ | .callIndirect _ _ | .load .i32 _ | .load .f64 _ | .store .i32 _ | .store .f64 _ => by
    simp [Instr.size, ofInstr, Binary.i32Const]
termination_by structural i => i

/-- Every instruction takes a byte. -/
theorem sizeAll_le_ofInstrs : ∀ is : List (Instr Nat), sizeAll is ≤ (ofInstrs is).length
  | [] => Nat.le_refl 0
  | i :: is => by
    have hi := size_le_ofInstr i
    have his := sizeAll_le_ofInstrs is
    simp only [sizeAll, ofInstrs, List.length_append]
    omega
termination_by structural is => is

end

theorem body_apply (bs : Bytes) : body bs = (insns bs.length bs).bind fun r =>
    (match r.1 with
      | (is, false) => pure is
      | (_, true) => failure : Reader (List Insn)) r.2 := rfl

theorem reads_body {is : List (Instr Nat)} (h : FitAll is) : Reads body (ofInstrs is ++ [endMark]) (insnAll is) := by
  intro hlen rest
  have hsize := sizeAll_le_ofInstrs is
  have hfuel : sizeAll is < (ofInstrs is ++ [endMark] ++ rest).length := by
    simp only [List.length_append, List.length_cons]
    omega
  have hread : insns (ofInstrs is ++ [endMark] ++ rest).length (ofInstrs is ++ [endMark] ++ rest) =
      some ((insnAll is, false), rest) := reads_insns is h hfuel false hlen rest
  rw [body_apply, hread]
  rfl

theorem reads_locals (locals : List ValType) : Reads (Reader.vector localGroup)
    (vector (locals.map fun ty => [0x01, ofValType ty])) (locals.map fun ty => [ty]) := by
  refine .vector (fun _ _ => List.cons_ne_nil _ _) fun ty _ => ?_
  have hone : Leb128.unsigned 1 = [0x01] := by
    rw [Leb128.unsigned]
    rfl
  have hcount : Reads u32 [0x01] 1 := hone ▸ Reads.u32 (by decide)
  exact hcount.bind (reads_valType ty).map

theorem reads_code {f : Image.Func} (h : FitAll f.body) : Reads codeEntry (ofCode f) ⟨f.locals, insnAll f.body⟩ := by
  have hflat (locals : List ValType) : (locals.map fun ty => [ty]).flatten = locals := by
    induction locals with
    | nil => rfl
    | cons ty locals ih => rw [List.map_cons, List.flatten_cons, ih, List.singleton_append]
  refine .within ?_
  rw [List.append_assoc]
  refine (reads_locals f.locals).bind ?_
  rw [hflat]
  exact (reads_body h).map

/-! ## Sections -/

/-- A section of items, left out if there are none. -/
def optional (id : UInt8) (items : List Bytes) : List (UInt8 × Bytes) :=
  if items.isEmpty then [] else [(id, vector items)]

/-- The sections of an image, with their numbers. -/
def sectionsOf (image : Image) : List (UInt8 × Bytes) :=
  [(1, vector (image.signatures.map ofSignature)),
    (3, vector (image.funcs.map fun f => Leb128.unsigned f.type))] ++
  optional 4 (image.tables.map ofTable) ++
  optional 5 (image.memories.map ofMemory) ++
  optional 6 (image.globals.map ofGlobal) ++
  [(7, vector (image.exports.map ofExport))] ++
  optional 9 (image.elems.map ofElem) ++
  [(10, vector (image.funcs.map ofCode))]

def written (sections : List (UInt8 × Bytes)) : Bytes := (sections.map fun s => sectionOf s.1 s.2).flatten

@[simp] theorem written_nil : written [] = [] := rfl

@[simp] theorem written_cons (s : UInt8 × Bytes) (ss : List (UInt8 × Bytes)) :
    written (s :: ss) = sectionOf s.1 s.2 ++ written ss := rfl

@[simp] theorem written_append (ss ts : List (UInt8 × Bytes)) : written (ss ++ ts) = written ss ++ written ts := by
  simp [written]

@[simp] theorem written_optional (id : UInt8) (items : List Bytes) :
    written (optional id items) = optionalSection id items := by
  unfold optional optionalSection
  split <;> simp

theorem ofImage_eq (image : Image) : ofImage image = header ++ written (sectionsOf image) := by
  simp [ofImage, sectionsOf]

theorem sections_written {ss : List (UInt8 × Bytes)} (h : ∀ s ∈ ss, s.2.length < 2 ^ 32) {fuel : Nat}
    (hfuel : ss.length ≤ fuel) : sections fuel (written ss) = some ss := by
  induction ss generalizing fuel with
  | nil => rw [written, List.map_nil, List.flatten_nil, sections]
  | cons s ss ih =>
    obtain ⟨hs, hss⟩ := List.forall_mem_cons.1 h
    obtain ⟨fuel, rfl⟩ : ∃ k, fuel = k + 1 := ⟨fuel - 1, by rw [List.length_cons] at hfuel; omega⟩
    rw [written_cons, sectionOf, List.cons_append, sections, Reads.sized_apply hs]
    simp only [Option.bind_eq_bind, Option.bind_some]
    rw [ih hss (by rw [List.length_cons] at hfuel; omega)]
    rfl

/-- Sections are no more than their bytes. -/
theorem length_le_written (ss : List (UInt8 × Bytes)) : ss.length ≤ (written ss).length := by
  have h : (ss.map fun s => sectionOf s.1 s.2).length ≤ (written ss).length :=
    Reads.length_le_flatten (List.forall_mem_map.2 fun s _ => List.cons_ne_nil _ _)
  simpa using h

/-- The items of a section that is written, or of one that is left out for want of items. -/
theorem items_written {α γ : Type} {p : Reader α} {ss : List (UInt8 × Bytes)} {id : UInt8} {write : γ → Bytes}
    {value : γ → α} {xs : List γ} (hnodup : (ss.map (·.1)).Nodup) (hlen : ∀ s ∈ ss, s.2.length < 2 ^ 32)
    (hmem : (id, vector (xs.map write)) ∈ ss ∨ xs = [] ∧ id ∉ ss.map (·.1)) (hne : ∀ x ∈ xs, write x ≠ [])
    (h : ∀ x ∈ xs, Reads p (write x) (value x)) : items ss id p = some (xs.map value) := by
  rcases hmem with hmem | ⟨rfl, hnot⟩
  · have hlookup : ss.lookup id = some (vector (xs.map write)) := by
      induction ss with
      | nil => cases hmem
      | cons s ss ih =>
        obtain ⟨hfirst, hrest⟩ := List.nodup_cons.1 hnodup
        rcases List.mem_cons.1 hmem with rfl | hmem
        · simp
        · have hother : id ≠ s.1 := by
            rintro rfl
            exact hfirst (List.mem_map_of_mem (f := (·.1)) hmem)
          rw [List.lookup_cons, beq_false_of_ne hother]
          exact ih hrest (fun s hs => hlen s (List.mem_cons_of_mem _ hs)) hmem
    rw [items, hlookup]
    exact (Reads.vector hne h).whole (hlen _ hmem)
  · have hlookup : ss.lookup id = none := by
      rw [List.lookup_eq_none_iff]
      intro s hs
      exact bne_iff_ne.2 fun hid => hnot (List.mem_map.2 ⟨s, hs, hid.symm⟩)
    rw [items, hlookup]
    rfl

@[simp] theorem mem_optional {id : UInt8} {items : List Bytes} {s : UInt8 × Bytes} :
    s ∈ optional id items ↔ items ≠ [] ∧ s = (id, vector items) := by
  unfold optional
  cases items <;> simp

theorem ids_optional (id : UInt8) (items : List Bytes) : ((optional id items).map (·.1)).Sublist [id] := by
  unfold optional
  split
  · exact List.nil_sublist _
  · exact List.Sublist.refl _

theorem ids_sectionsOf (image : Image) : ((sectionsOf image).map (·.1)).Sublist [1, 3, 4, 5, 6, 7, 9, 10] := by
  simp only [sectionsOf, List.map_append, List.map_cons, List.map_nil]
  exact ((((((List.Sublist.refl [1, 3]).append (ids_optional 4 _)).append (ids_optional 5 _)).append
    (ids_optional 6 _)).append (List.Sublist.refl [7])).append (ids_optional 9 _)).append (List.Sublist.refl [10])

end Binary

/-- All that is written of an image is short enough, and all its numbers are small enough. -/
structure Image.Fits (image : Image) : Prop where
  sections : ∀ s ∈ Binary.sectionsOf image, s.2.length < 2 ^ 32
  types : ∀ f ∈ image.funcs, f.type < 2 ^ 32
  tables : ∀ n ∈ image.tables, n < 2 ^ 32
  memories : ∀ n ∈ image.memories, n < 2 ^ 32
  exports : ∀ e ∈ image.exports, e.target < 2 ^ 32
  elems : ∀ e ∈ image.elems, e.table < 2 ^ 32 ∧ ∀ i ∈ e.funcs, i < 2 ^ 32
  code : ∀ f ∈ image.funcs, Instr.FitAll f.body

/-- What the bytes of an image contain. -/
def Image.contents (image : Image) (customs : List (String × Bytes)) : Binary.Contents where
  signatures := image.signatures
  types := image.funcs.map (·.type)
  tables := image.tables.map fun size => ⟨size, some size⟩
  memories := image.memories.map fun pages => ⟨pages, none⟩
  globals := image.globals.map fun g => ⟨.i32, g.1, g.2⟩
  exports := image.exports
  elems := image.elems
  codes := image.funcs.map fun f => ⟨f.locals, Instr.insnAll f.body⟩
  customs := customs

namespace Binary

open Reader Instr

section

variable {image : Image} {extra : List (UInt8 × Bytes)}

/-- The numbers of an image's sections, and of a custom section after them. -/
theorem ids_append (hextra : (extra.map (·.1)).Sublist [0]) :
    ((sectionsOf image ++ extra).map (·.1)).Sublist [1, 3, 4, 5, 6, 7, 9, 10, 0] := by
  rw [List.map_append]
  exact (ids_sectionsOf image).append hextra

theorem filter_custom (hextra : (extra.map (·.1)).Sublist [0]) :
    (sectionsOf image ++ extra).filter (·.1 = 0) = extra := by
  have hnone : (sectionsOf image).filter (·.1 = 0) = [] := by
    rw [List.filter_eq_nil_iff]
    intro s hs hid
    have hmem := (ids_sectionsOf image).subset (List.mem_map_of_mem (f := (·.1)) hs)
    rw [of_decide_eq_true hid] at hmem
    exact absurd hmem (by decide)
  rw [List.filter_append, hnone, List.nil_append, List.filter_eq_self]
  intro s hs
  exact decide_eq_true (List.mem_singleton.1 (hextra.subset (List.mem_map_of_mem (f := (·.1)) hs)))

theorem length_sections (h : image.Fits) (hlen : ∀ s ∈ extra, s.2.length < 2 ^ 32) :
    ∀ s ∈ sectionsOf image ++ extra, s.2.length < 2 ^ 32 := by
  intro s hs
  rcases List.mem_append.1 hs with hs | hs
  · exact h.sections s hs
  · exact hlen s hs

/-- The items of one section of an image. -/
theorem items_sectionsOf (h : image.Fits) (hextra : (extra.map (·.1)).Sublist [0])
    (hlen : ∀ s ∈ extra, s.2.length < 2 ^ 32) {α γ : Type} {p : Reader α} {id : UInt8} (write : γ → Bytes)
    {value : γ → α} {xs : List γ} (hid : id ≠ 0)
    (hmem : (id, vector (xs.map write)) ∈ sectionsOf image ∨ xs = [] ∧ id ∉ (sectionsOf image).map (·.1))
    (hne : ∀ x ∈ xs, write x ≠ []) (hreads : ∀ x ∈ xs, Reads p (write x) (value x)) :
    items (sectionsOf image ++ extra) id p = some (xs.map value) := by
  refine items_written ((ids_append hextra).nodup (by decide)) (length_sections h hlen) ?_ hne hreads
  refine hmem.imp (List.mem_append_left _) fun ⟨hnil, hnot⟩ => ⟨hnil, ?_⟩
  rw [List.map_append, List.mem_append, not_or]
  exact ⟨hnot, fun hid' => hid (List.mem_singleton.1 (hextra.subset hid'))⟩

/-- The sections of an image, perhaps with a custom one after them, are read one by one. -/
theorem contents_sectionsOf (h : image.Fits) {customs : List (String × Bytes)}
    (hextra : (extra.map (·.1)).Sublist [0]) (hlen : ∀ s ∈ extra, s.2.length < 2 ^ 32)
    (hcustoms : extra.mapM (fun s => whole custom s.2) = some customs) :
    Reader.contents (sectionsOf image ++ extra) = some (image.contents customs) := by
  have hsignatures : items (sectionsOf image ++ extra) 1 signature = some (image.signatures.map id) :=
    items_sectionsOf h hextra hlen ofSignature (by decide) (.inl (by simp [sectionsOf]))
      (fun _ _ => List.cons_ne_nil _ _) fun s _ => reads_signature s
  have htypes : items (sectionsOf image ++ extra) 3 u32 = some (image.contents customs).types :=
    items_sectionsOf h hextra hlen (fun f => Leb128.unsigned f.type) (by decide) (.inl (by simp [sectionsOf]))
      (fun f _ => unsigned_ne_nil f.type) fun f hf => Reads.u32 (h.types f hf)
  have htables : items (sectionsOf image ++ extra) 4 table = some (image.contents customs).tables :=
    items_sectionsOf h hextra hlen ofTable (by decide) (by cases hc : image.tables <;> simp [sectionsOf, hc])
      (fun _ _ => List.cons_ne_nil _ _) fun n hn => reads_table (h.tables n hn)
  have hmemories : items (sectionsOf image ++ extra) 5 limits = some (image.contents customs).memories :=
    items_sectionsOf h hextra hlen ofMemory (by decide) (by cases hc : image.memories <;> simp [sectionsOf, hc])
      (fun _ _ => List.cons_ne_nil _ _) fun n hn => reads_memory (h.memories n hn)
  have hglobals : items (sectionsOf image ++ extra) 6 global = some (image.contents customs).globals :=
    items_sectionsOf h hextra hlen ofGlobal (by decide) (by cases hc : image.globals <;> simp [sectionsOf, hc])
      (fun _ _ => List.cons_ne_nil _ _) fun g _ => reads_global g
  have hexports : items (sectionsOf image ++ extra) 7 exportEntry = some (image.exports.map id) :=
    items_sectionsOf h hextra hlen ofExport (by decide) (.inl (by simp [sectionsOf]))
      (fun e _ => by simp [ofExport]) fun e he => reads_export (h.exports e he)
  have helems : items (sectionsOf image ++ extra) 9 elem = some (image.elems.map id) :=
    items_sectionsOf h hextra hlen ofElem (by decide) (by cases hc : image.elems <;> simp [sectionsOf, hc])
      (fun _ _ => List.cons_ne_nil _ _) fun e he => reads_elem (h.elems e he).1 (h.elems e he).2
  have hcodes : items (sectionsOf image ++ extra) 10 codeEntry = some (image.contents customs).codes :=
    items_sectionsOf h hextra hlen ofCode (by decide) (.inl (by simp [sectionsOf]))
      (fun f _ => by simp [ofCode, Binary.sized, unsigned_ne_nil]) fun f hf => reads_code (h.code f hf)
  rw [List.map_id] at hsignatures hexports helems
  simp only [Reader.contents, hsignatures, htypes, htables, hmemories, hglobals, hexports, helems, hcodes,
    filter_custom hextra, hcustoms]
  rfl

/-- **An image is read back** from what is written of it, and a custom section after it. -/
theorem module_ofImage (h : image.Fits) {customs : List (String × Bytes)}
    (hextra : (extra.map (·.1)).Sublist [0]) (hlen : ∀ s ∈ extra, s.2.length < 2 ^ 32)
    (hcustoms : extra.mapM (fun s => whole custom s.2) = some customs) :
    Reader.module (ofImage image ++ written extra) = some (image.contents customs) := by
  have hsections : moduleSections (ofImage image ++ written extra) = some (sectionsOf image ++ extra) := by
    rw [ofImage_eq, List.append_assoc, ← written_append]
    exact sections_written (length_sections h hlen) (length_le_written _)
  have horder : InOrder (sectionsOf image ++ extra) := List.Pairwise.sublist ((ids_append hextra).filter _) (by decide)
  rw [Reader.module, hsections]
  exact (if_pos horder).trans (contents_sectionsOf h hextra hlen hcustoms)

end

/-! ## Names -/

/-- The parts of the name section. -/
def nameSections (image : Image) : List (UInt8 × Bytes) :=
  [(1, nameMap image.funcNames),
    (2, vector (image.funcs.mapIdx fun i f => Leb128.unsigned i ++ nameMap f.names)),
    (7, nameMap image.globalNames)]

/-- The contents of the name section. -/
def nameContents (image : Image) : Bytes := ofName "name" ++ written (nameSections image)

theorem nameSection_eq (image : Image) : nameSection image = written [(0, nameContents image)] := by
  simp [nameSection, nameContents, nameSections]

theorem custom_nameContents {image : Image} (h : (nameContents image).length < 2 ^ 32) :
    whole custom (nameContents image) = some ("name", written (nameSections image)) := by
  have hlen : (ofName "name").length < 2 ^ 32 := by
    rw [nameContents, List.length_append] at h
    omega
  have hname : Reader.name (nameContents image) = some ("name", written (nameSections image)) :=
    Reads.name "name" hlen _
  have happly (bs : Bytes) : custom bs = (Reader.name bs).bind fun r => some ((r.1, r.2), []) := rfl
  rw [whole, happly, hname]
  rfl

/-- There are no more items than bytes. -/
theorem length_le_vector {items : List Bytes} (h : ∀ x ∈ items, x ≠ []) : items.length ≤ (vector items).length := by
  have hflat := Reads.length_le_flatten h
  rw [vector, List.length_append]
  omega

/-- Items that are written with their positions. -/
theorem reads_numbered {α γ : Type} {p : Reader α} {write : Nat → γ → Bytes} {value : Nat → γ → α} {xs : List γ}
    (h : ∀ i x, i < 2 ^ 32 → x ∈ xs → Reads p (write i x) (value i x)) (hne : ∀ i x, write i x ≠ []) :
    Reads (Reader.vector p) (vector (xs.mapIdx write)) (xs.mapIdx value) := by
  intro hlen
  have hcount : xs.length < 2 ^ 32 := by
    have hle : (xs.mapIdx write).length ≤ (vector (xs.mapIdx write)).length := by
      refine length_le_vector fun bs hbs => ?_
      obtain ⟨i, hi, rfl⟩ := List.mem_mapIdx.1 hbs
      exact hne _ _
    rw [List.length_mapIdx] at hle
    omega
  rw [List.mapIdx_eq_zipIdx_map, List.mapIdx_eq_zipIdx_map] at *
  refine Reads.vector (fun _ _ => hne _ _) (fun x hx => ?_) hlen
  obtain ⟨hi, hlt, hmem⟩ := List.mem_zipIdx hx
  exact h _ _ (by omega) (hmem ▸ List.getElem_mem _)

theorem reads_nameMap (names : List String) :
    Reads (Reader.vector nameEntry) (nameMap names) (names.mapIdx fun i name => (i, name)) :=
  reads_numbered (fun _ name hi _ => (Reads.u32 hi).bind (Reads.name name).map) fun i name => by
    simp [unsigned_ne_nil]

/-- **The names are read back** from the name section. -/
theorem nameMaps_ofImage {image : Image} (h : (nameContents image).length < 2 ^ 32) :
    nameMaps (written (nameSections image)) = some
      ⟨image.funcNames.mapIdx fun i name => (i, name),
        image.funcs.mapIdx fun i f => (i, f.names.mapIdx fun j name => (j, name)),
        image.globalNames.mapIdx fun i name => (i, name)⟩ := by
  have hlen : (written (nameSections image)).length < 2 ^ 32 := by
    rw [nameContents, List.length_append] at h
    omega
  have hall : ∀ s ∈ nameSections image, s.2.length < 2 ^ 32 := by
    simp only [nameSections, written_cons, sectionOf, Binary.sized, List.length_append, List.length_cons] at hlen
    simp only [nameSections, List.forall_mem_cons]
    exact ⟨by omega, by omega, by omega, by simp⟩
  have hsections : sections (written (nameSections image)).length (written (nameSections image)) =
      some (nameSections image) := sections_written hall (length_le_written _)
  have hpart {α : Type} {p : Reader α} {id : UInt8} {bs : Bytes} {as : List α}
      (hlookup : (nameSections image).lookup id = some bs) (hbs : bs.length < 2 ^ 32)
      (hreads : Reads (Reader.vector p) bs as) : items (nameSections image) id p = some as := by
    rw [items, hlookup]
    exact hreads.whole hbs
  have hfuncs : items (nameSections image) 1 nameEntry = some (image.funcNames.mapIdx fun i name => (i, name)) :=
    hpart rfl (hall _ (.head _)) (reads_nameMap image.funcNames)
  have hlocals : items (nameSections image) 2 localNames =
      some (image.funcs.mapIdx fun i f => (i, f.names.mapIdx fun j name => (j, name))) :=
    hpart rfl (hall _ (.tail _ (.head _))) (reads_numbered
      (fun i f hi _ => (Reads.u32 hi).bind (reads_nameMap f.names).map) fun i f => by simp [unsigned_ne_nil])
  have hglobals : items (nameSections image) 7 nameEntry = some (image.globalNames.mapIdx fun i name => (i, name)) :=
    hpart rfl (hall _ (.tail _ (.tail _ (.head _)))) (reads_nameMap image.globalNames)
  have horder : InOrder (nameSections image) := (by decide : List.Pairwise (· < ·) ([1, 2, 7] : List UInt8))
  rw [nameMaps, hsections]
  simp only [Option.bind_eq_bind, Option.bind_some, if_pos horder, hfuncs, hlocals, hglobals]
  rfl

end Binary

end WasmBackend
