/-
The text of code determines the code (`Code.legible`). An instruction is told
by its first word (`Keyword.text_injective`), what comes after the word by the
line's end, and a block by its indentation, which the `else` and the `end`
after it do not have.
-/
import WasmBackend.Proofs.Assembly.Names
import WasmBackend.Proofs.Text.Doubles

namespace WasmBackend

/-! ## Types and clauses -/

theorem legible_valType : Legible (fun ty : ValType => ty.text.toList) (fun _ => True) Breaks :=
  legible_word (fun ty _ => by cases ty <;> decide) fun ty ty' _ _ h => by
    cases ty <;> cases ty' <;> first | rfl | simp [ValType.text] at h

theorem toList_join_map {α : Type} (write : α → String) (xs : List α) :
    (String.join (xs.map write)).toList = xs.flatMap fun x => (write x).toList := by
  rw [String.toList_join, List.flatMap_map]

theorem toList_resultClause (result : Option ValType) : (resultClause result).toList =
    result.toList.flatMap fun ty => (" (result " ++ ty.text ++ ")").toList := by
  cases result with
  | none => rfl
  | some ty => rw [Option.toList_some, List.flatMap_singleton, resultClause]

/-- A clause with one type. -/
theorem legible_typeClause (word : String) :
    Legible (fun ty : ValType => (word ++ ty.text ++ ")").toList) (fun _ => True) (fun _ => True) := by
  intro ty _ ty' s t _ _ _ h
  simp only [String.toList_append, List.append_assoc, List.append_cancel_left_eq] at h
  obtain ⟨rfl, hrest⟩ := legible_valType trivial trivial (breaks_append _ rfl rfl) (breaks_append _ rfl rfl) h
  exact ⟨rfl, List.append_cancel_left hrest⟩

theorem legible_resultClause :
    Legible (fun r => (resultClause r).toList) (fun _ => True) (fun s => ¬ [' ', '(', 'r'] <+: s) := by
  intro r _ r' s t _ hs ht h
  have hlead (ty : ValType) : [' ', '(', 'r'] <+: (" (result " ++ ty.text ++ ")").toList := by
    simp [String.toList_append]
  dsimp only at h
  rw [toList_resultClause, toList_resultClause] at h
  obtain ⟨hlist, rfl⟩ := (legible_typeClause " (result ").row hlead (fun _ _ => trivial) (fun _ _ => trivial) hs ht h
  have hresult : r = r' := by cases r <;> cases r' <;> simp_all
  exact ⟨hresult, rfl⟩

/-- Only a clause for a result starts like one. -/
theorem not_prefix_resultClause {c : Char} {s : List Char} (hc : c ≠ 'r') (hs : ¬ [' ', '(', c] <+: s)
    (result : Option ValType) : ¬ [' ', '(', c] <+: (resultClause result).toList ++ s := by
  cases result with
  | none => exact hs
  | some ty => simp [resultClause, String.toList_append, hc]

/-! ## Keywords -/

/-- What the first word of an instruction's line says. -/
inductive Keyword where
  | op (o : Op)
  | i32Const
  | f64Const
  | localGet
  | localSet
  | localTee
  | globalGet
  | globalSet
  | call
  | callIndirect
  | load (ty : ValType)
  | store (ty : ValType)
  | cond
deriving DecidableEq

namespace Keyword

def text : Keyword → String
  | op o => o.mnemonic
  | i32Const => "i32.const"
  | f64Const => "f64.const"
  | localGet => "local.get"
  | localSet => "local.set"
  | localTee => "local.tee"
  | globalGet => "global.get"
  | globalSet => "global.set"
  | call => "call"
  | callIndirect => "call_indirect"
  | load .i32 => "i32.load"
  | load .f64 => "f64.load"
  | store .i32 => "i32.store"
  | store .f64 => "f64.store"
  | cond => "if"

def all : List Keyword :=
  Op.all.map op ++
    [i32Const, f64Const, localGet, localSet, localTee, globalGet, globalSet, call, callIndirect, load .i32, load .f64,
      store .i32, store .f64, cond]

theorem mem_all (k : Keyword) : k ∈ all := by
  cases k with
  | op o => cases o <;> decide
  | load ty => cases ty <;> decide
  | store ty => cases ty <;> decide
  | _ => decide

theorem text_nodup : (all.map text).Nodup := by
  decide +kernel

theorem text_injective {k l : Keyword} (h : k.text = l.text) : k = l :=
  List.inj_on_of_nodup_map text_nodup (mem_all k) (mem_all l) h

theorem spelled_text (k : Keyword) : Spelled k.text := by
  have hall : ∀ k ∈ all, Spelled k.text := by decide +kernel
  exact hall k (mem_all k)

theorem legible_text : Legible (fun k : Keyword => k.text.toList) (fun _ => True) Breaks :=
  legible_word (fun k _ => spelled_text k) fun _ _ _ _ h => text_injective h

end Keyword

/-! ## Lines -/

/-- All names are words, and no double is a NaN. -/
structure AllPrintable (names : List (Space × String)) (doubles : List Double) : Prop where
  names : ∀ r ∈ names, Spelled r.2
  doubles : ∀ x ∈ doubles, x.kind ≠ .nan

theorem allPrintable_append {names more : List (Space × String)} {doubles moreDoubles : List Double} :
    AllPrintable (names ++ more) (doubles ++ moreDoubles) ↔
      AllPrintable names doubles ∧ AllPrintable more moreDoubles := by
  constructor
  · rintro ⟨hnames, hdoubles⟩
    rw [List.forall_mem_append] at hnames hdoubles
    exact ⟨⟨hnames.1, hdoubles.1⟩, hnames.2, hdoubles.2⟩
  · rintro ⟨h, hmore⟩
    exact ⟨List.forall_mem_append.2 ⟨h.names, hmore.names⟩, List.forall_mem_append.2 ⟨h.doubles, hmore.doubles⟩⟩

namespace Instr

mutual

/-- The doubles of an instruction, those inside of blocks included. -/
def doubles : Instr String → List Double
  | f64Const x => [x]
  | cond _ thenCode elseCode => doublesAll thenCode ++ doublesAll elseCode
  | _ => []
termination_by structural i => i

def doublesAll : Code → List Double
  | [] => []
  | i :: is => i.doubles ++ doublesAll is
termination_by structural is => is

end

def Printable (i : Instr String) : Prop := AllPrintable i.refs i.doubles

def keyword : Instr String → Keyword
  | op o => .op o
  | i32Const _ => .i32Const
  | f64Const _ => .f64Const
  | localGet _ => .localGet
  | localSet _ => .localSet
  | localTee _ => .localTee
  | globalGet _ => .globalGet
  | globalSet _ => .globalSet
  | call _ => .call
  | callIndirect _ _ => .callIndirect
  | load ty _ => .load ty
  | store ty _ => .store ty
  | cond _ _ _ => .cond

/-- The first line of an instruction. -/
def opening : Instr String → String
  | cond result _ _ => condText result
  | i => i.text

/-- What comes after the keyword on that line. -/
def operands : Instr String → String
  | op _ => ""
  | i32Const n => " " ++ toString n.toInt
  | f64Const x => " " ++ x.text "nan"
  | localGet x => " $" ++ x
  | localSet x => " $" ++ x
  | localTee x => " $" ++ x
  | globalGet x => " $" ++ x
  | globalSet x => " $" ++ x
  | call f => " $" ++ f
  | callIndirect table type => " $" ++ table ++ " (type $" ++ type ++ ")"
  | load _ offset => if offset = 0 then "" else " offset=" ++ toString offset
  | store _ offset => if offset = 0 then "" else " offset=" ++ toString offset
  | cond result _ _ => resultClause result

theorem opening_eq (i : Instr String) : i.opening = i.keyword.text ++ i.operands := by
  cases i with
  | op o => exact (String.append_empty).symm
  | cond result thenCode elseCode => rfl
  | load ty offset => cases ty <;> rfl
  | store ty offset => cases ty <;> rfl
  | callIndirect table type =>
    simp only [operands, ← String.append_assoc]
    rfl
  | _ =>
    rw [operands, ← String.append_assoc]
    rfl

theorem breaks_operands (i : Instr String) (s : List Char) : Breaks (i.operands.toList ++ '\n' :: s) := by
  have hline : Breaks ('\n' :: s) := breaks_newline s
  have hblank {x : String} (y : String) (hx : x.toList.head? = some ' ') : Breaks ((x ++ y).toList ++ '\n' :: s) := by
    rw [String.toList_append, List.append_assoc]
    exact breaks_append _ hx rfl
  cases i with
  | op o => exact hline
  | load ty offset | store ty offset =>
    rw [operands]
    split
    · exact hline
    · exact hblank _ rfl
  | cond result thenCode elseCode =>
    cases result with
    | none => exact hline
    | some ty =>
      rw [operands, resultClause, String.append_assoc]
      exact hblank _ rfl
  | callIndirect table type =>
    simp only [operands, String.append_assoc]
    exact hblank _ rfl
  | _ => exact hblank _ rfl

/-- An instruction as far as its first line tells. -/
def outside : Instr String → Instr String
  | cond result _ _ => cond result [] []
  | i => i

/-- A word and the end of the line after it. -/
theorem legible_operand {α : Type} {write : α → String} {good : α → Prop} {lead : String} {a b : α} {s t : List Char}
    (hwrite : Legible (fun a => (write a).toList) good Breaks) (ha : good a) (hb : good b)
    (h : (lead ++ write a).toList ++ '\n' :: s = (lead ++ write b).toList ++ '\n' :: t) : a = b ∧ s = t := by
  rw [String.toList_append, String.toList_append, List.append_assoc, List.append_assoc] at h
  obtain ⟨heq, hrest⟩ := hwrite ha hb (breaks_newline s) (breaks_newline t) (List.append_cancel_left h)
  exact ⟨heq, (List.cons.inj hrest).2⟩

/-- Of two offsets, one that is not written is zero. -/
theorem legible_offset :
    Legible (fun n : Nat => (if n = 0 then "" else " offset=" ++ toString n).toList) (fun _ => True)
      (∃ s, · = '\n' :: s) := by
  intro a _ b s t _ hs ht h
  have hblank (n : Nat) (u v : List Char) : '\n' :: u ≠ (" offset=" ++ toString n).toList ++ v := by
    intro heq
    rw [String.toList_append, List.append_assoc] at heq
    exact absurd (congrArg List.head? heq) (by simp)
  obtain ⟨s, rfl⟩ := hs
  obtain ⟨t, rfl⟩ := ht
  dsimp only at h
  split at h
  · rename_i ha
    split at h
    · rename_i hb
      exact ⟨ha.trans hb.symm, h⟩
    · exact absurd h (hblank b s _)
  · split at h
    · exact absurd h.symm (hblank a t _)
    · rw [String.toList_append, String.toList_append, List.append_assoc, List.append_assoc] at h
      exact legible_nat trivial trivial (breaks_newline s) (breaks_newline t) (List.append_cancel_left h)

/-- The first line of an instruction determines it, what is inside of a block apart. -/
theorem legible_opening {i j : Instr String} (hi : i.Printable) (hj : j.Printable) {s t : List Char}
    (h : i.opening.toList ++ '\n' :: s = j.opening.toList ++ '\n' :: t) : i.outside = j.outside ∧ s = t := by
  rw [opening_eq, opening_eq, String.toList_append, String.toList_append, List.append_assoc, List.append_assoc] at h
  obtain ⟨hkey, hrest⟩ := Keyword.legible_text trivial trivial (breaks_operands i s) (breaks_operands j t) h
  have hnames := hi.names
  have hnames' := hj.names
  -- only instructions of one kind have one keyword
  cases i <;> cases j <;> cases hkey
  case op.op.refl o => exact ⟨rfl, (List.cons.inj hrest).2⟩
  case i32Const.i32Const.refl n n' =>
    obtain ⟨hn, rfl⟩ := legible_operand legible_int trivial trivial hrest
    exact ⟨congrArg i32Const (BitVec.eq_of_toInt_eq hn), rfl⟩
  case f64Const.f64Const.refl x x' =>
    have hx : x.kind ≠ .nan := hi.doubles x (.head _)
    have hx' : x'.kind ≠ .nan := hj.doubles x' (.head _)
    obtain ⟨rfl, rfl⟩ := legible_operand (Double.legible_text "nan") hx hx' hrest
    exact ⟨rfl, rfl⟩
  case callIndirect.callIndirect.refl table type table' type' =>
    have htype := hnames _ (.head _)
    have htable := hnames _ (.tail _ (.head _))
    have htype' := hnames' _ (.head _)
    have htable' := hnames' _ (.tail _ (.head _))
    simp only [operands, String.toList_append, List.append_assoc, List.append_cancel_left_eq] at hrest
    obtain ⟨rfl, hclause⟩ := legible_name htable htable' (breaks_append _ rfl rfl) (breaks_append _ rfl rfl) hrest
    obtain ⟨rfl, hend⟩ := legible_name htype htype' (breaks_append _ rfl rfl) (breaks_append _ rfl rfl)
      (List.append_cancel_left hclause)
    exact ⟨rfl, (List.cons.inj (List.append_cancel_left hend)).2⟩
  case load.load.refl ty offset offset' | store.store.refl ty offset offset' =>
    obtain ⟨rfl, hend⟩ := legible_offset trivial trivial ⟨s, rfl⟩ ⟨t, rfl⟩ hrest
    exact ⟨rfl, (List.cons.inj hend).2⟩
  case cond.cond.refl result thenCode elseCode result' thenCode' elseCode' =>
    have hline (u : List Char) : ¬ [' ', '(', 'r'] <+: '\n' :: u := by simp
    obtain ⟨rfl, hend⟩ := legible_resultClause trivial trivial (hline s) (hline t) hrest
    exact ⟨rfl, (List.cons.inj hend).2⟩
  all_goals
    obtain ⟨rfl, rfl⟩ := legible_operand legible_name (hnames _ (.head _)) (hnames' _ (.head _)) hrest
    exact ⟨rfl, rfl⟩

end Instr

/-! ## Code -/

/-- Lines one under the other. -/
def stacked (lines : List String) : List Char := lines.flatMap fun line => line.toList ++ ['\n']

theorem stacked_cons (line : String) (lines : List String) :
    stacked (line :: lines) = line.toList ++ '\n' :: stacked lines := by
  rw [stacked, List.flatMap_cons, List.append_assoc]
  rfl

theorem stacked_append (lines more : List String) : stacked (lines ++ more) = stacked lines ++ stacked more :=
  List.flatMap_append

theorem stacked_linesAll (indent : String) (c : Code) :
    stacked (Instr.linesAll indent c) = c.flatMap fun i => stacked (i.lines indent) := by
  induction c with
  | nil => rfl
  | cons i c ih => rw [Instr.linesAll, stacked_append, List.flatMap_cons, ih]

/-- The lines after the first branch of a conditional. -/
def Code.closing (indent : String) (elseCode : Code) : List Char :=
  stacked ((if elseCode.isEmpty then [] else (indent ++ "else") :: Instr.linesAll (indent ++ "  ") elseCode) ++
    [indent ++ "end"])

/-- What an instruction writes below its first line. -/
def Instr.inside (indent : String) : Instr String → List Char
  | .cond _ thenCode elseCode => stacked (linesAll (indent ++ "  ") thenCode) ++ Code.closing indent elseCode
  | _ => []

theorem Instr.stacked_lines (indent : String) (i : Instr String) :
    stacked (i.lines indent) = indent.toList ++ (i.opening.toList ++ '\n' :: i.inside indent) := by
  cases i with
  | cond result thenCode elseCode =>
    rw [lines, List.append_assoc, List.cons_append, stacked_cons, stacked_append, String.toList_append,
      List.append_assoc]
    rfl
  | _ =>
    rw [lines, stacked_cons, String.toList_append, List.append_assoc]
    · rfl
    · nofun

theorem Code.closing_nil (indent : String) :
    Code.closing indent [] = indent.toList ++ ("end".toList ++ ['\n']) := by
  rw [closing, List.isEmpty_nil, if_pos rfl, List.nil_append, stacked_cons, String.toList_append, List.append_assoc]
  rfl

theorem Code.closing_cons (indent : String) (i : Instr String) (c : Code) :
    Code.closing indent (i :: c) = indent.toList ++ ("else".toList ++
      '\n' :: (stacked (Instr.linesAll (indent ++ "  ") (i :: c)) ++ Code.closing indent [])) := by
  rw [closing, List.isEmpty_cons, if_neg Bool.false_ne_true, List.cons_append, stacked_cons, stacked_append,
    String.toList_append, List.append_assoc]
  rfl

def Code.Printable (c : Code) : Prop := AllPrintable (Code.refs c) (Instr.doublesAll c)

theorem Code.printable_iff {c : Code} : Code.Printable c ↔ ∀ i ∈ c, i.Printable := by
  induction c with
  | nil => exact ⟨fun _ => nofun, fun _ => ⟨nofun, nofun⟩⟩
  | cons i c ih =>
    rw [List.forall_mem_cons, ← ih, Printable, Code.refs_cons, Instr.doublesAll]
    exact allPrintable_append

theorem Instr.printable_cond {result : Option ValType} {thenCode elseCode : Code} :
    (Instr.cond result thenCode elseCode).Printable ↔ Code.Printable thenCode ∧ Code.Printable elseCode := by
  rw [Printable, refs, doubles]
  exact allPrintable_append

/-- The lines of an instruction determine it, and end where the next one's begin. -/
def Instr.Told (indent : String) (i : Instr String) : Prop :=
  LegibleAt (fun j => stacked (j.lines indent)) Instr.Printable (fun _ => True) i

section Blocks

variable {indent : String}

/-- Code is legible if its instructions are: every line starts with the indentation. -/
theorem Code.legibleAt {c : Code} (hc : ∀ i ∈ c, i.Told indent) :
    LegibleAt (fun c => stacked (Instr.linesAll indent c)) Code.Printable (fun s => ¬ indent.toList <+: s) c := by
  intro c' s t hc' hs ht h
  have hlead (i : Instr String) : indent.toList <+: stacked (i.lines indent) := by
    rw [Instr.stacked_lines]
    exact List.prefix_append _ _
  dsimp only at h
  rw [stacked_linesAll, stacked_linesAll] at h
  exact LegibleAt.row hc hlead (Code.printable_iff.1 hc') hs ht h

theorem not_deeper {c : Char} (s : List Char) (hc : c ≠ ' ') :
    ¬ (indent ++ "  ").toList <+: indent.toList ++ c :: s := by
  rw [String.toList_append, List.prefix_append_right_inj]
  intro h
  exact hc (List.cons_prefix_cons.1 h).1.symm

theorem Code.closing_not_deeper (elseCode : Code) (s : List Char) :
    ¬ (indent ++ "  ").toList <+: Code.closing indent elseCode ++ s := by
  cases elseCode with
  | nil =>
    rw [closing_nil, List.append_assoc]
    exact not_deeper _ (by decide : 'e' ≠ ' ')
  | cons i c =>
    rw [closing_cons, List.append_assoc]
    exact not_deeper _ (by decide : 'e' ≠ ' ')

/-- An `else` is told from the `end` that stands there without one. -/
theorem Code.legibleAt_closing {elseCode : Code} (helse : ∀ i ∈ elseCode, i.Told (indent ++ "  ")) :
    LegibleAt (Code.closing indent) Code.Printable (fun _ => True) elseCode := by
  intro elseCode' s t helse' _ _ h
  have hend (u v : List Char) : "end".toList ++ u ≠ "else".toList ++ v := by simp
  cases elseCode with
  | nil =>
    cases elseCode' with
    | nil => exact ⟨rfl, List.append_cancel_left h⟩
    | cons i' c' =>
      rw [closing_nil, closing_cons] at h
      simp only [List.append_assoc, List.append_cancel_left_eq] at h
      exact absurd h (hend _ _)
  | cons i c =>
    cases elseCode' with
    | nil =>
      rw [closing_nil, closing_cons] at h
      simp only [List.append_assoc, List.append_cancel_left_eq] at h
      exact absurd h.symm (hend _ _)
    | cons i' c' =>
      rw [closing_cons, closing_cons] at h
      simp only [List.append_assoc, List.cons_append, List.append_cancel_left_eq, List.cons.injEq, true_and] at h
      obtain ⟨heq, hrest⟩ := Code.legibleAt helse helse' (closing_not_deeper [] s) (closing_not_deeper [] t) h
      exact ⟨heq, List.append_cancel_left hrest⟩

end Blocks

namespace Instr

variable {i : Instr String} {indent : String}

theorem outside_of_ne (hi : ∀ result a b, i ≠ .cond result a b) : i.outside = i := by
  cases i with
  | cond result a b => exact absurd rfl (hi result a b)
  | _ => rfl

theorem inside_of_ne (hi : ∀ result a b, i ≠ .cond result a b) : i.inside indent = [] := by
  cases i with
  | cond result a b => exact absurd rfl (hi result a b)
  | _ => rfl

/-- What is below the first line decides, once the first lines are the same. -/
theorem told_of_inside (hi : i.Printable)
    (hinside : ∀ {j s t}, j.Printable → i.outside = j.outside → i.inside indent ++ s = j.inside indent ++ t →
      i = j ∧ s = t) : i.Told indent := by
  intro j s t hj _ _ h
  dsimp only at h
  rw [stacked_lines, stacked_lines] at h
  simp only [List.append_assoc, List.cons_append, List.append_cancel_left_eq] at h
  obtain ⟨houtside, hrest⟩ := legible_opening hi hj h
  exact hinside hj houtside hrest

theorem told_line (hline : ∀ result a b, i ≠ .cond result a b) (hi : i.Printable) : i.Told indent := by
  refine told_of_inside hi fun {j s t} _ houtside h => ?_
  rw [outside_of_ne hline] at houtside
  have hj : ∀ result a b, j ≠ .cond result a b := by
    rintro result a b rfl
    exact hline _ _ _ houtside
  rw [inside_of_ne hline, inside_of_ne hj] at h
  exact ⟨houtside.trans (outside_of_ne hj), h⟩

theorem told_cond {result : Option ValType} {thenCode elseCode : Code}
    (hi : (Instr.cond result thenCode elseCode).Printable) (hthen : ∀ i ∈ thenCode, i.Told (indent ++ "  "))
    (helse : ∀ i ∈ elseCode, i.Told (indent ++ "  ")) : (Instr.cond result thenCode elseCode).Told indent := by
  refine told_of_inside hi fun {j s t} hj houtside h => ?_
  obtain ⟨result', thenCode', elseCode', rfl⟩ : ∃ result a b, j = .cond result a b := by
    by_contra hne
    have hline : ∀ result a b, j ≠ .cond result a b := fun result a b hj => hne ⟨result, a, b, hj⟩
    rw [outside_of_ne hline] at houtside
    exact hline _ _ _ houtside.symm
  obtain ⟨hthen', helse'⟩ := printable_cond.1 hj
  simp only [inside, List.append_assoc] at h
  -- the first branch ends where the indentation gets less, the second one with its `end`
  obtain ⟨rfl, hrest⟩ := Code.legibleAt hthen hthen' (Code.closing_not_deeper _ _) (Code.closing_not_deeper _ _) h
  obtain ⟨rfl, rfl⟩ := Code.legibleAt_closing helse helse' trivial trivial hrest
  cases houtside
  exact ⟨rfl, rfl⟩

end Instr

mutual

theorem Instr.told_of_printable : ∀ (i : Instr String) (indent : String), i.Printable → i.Told indent
  | .cond _ thenCode elseCode, indent, hi => by
    obtain ⟨hthen, helse⟩ := Instr.printable_cond.1 hi
    exact Instr.told_cond hi (Code.told_of_printable thenCode _ (Code.printable_iff.1 hthen))
      (Code.told_of_printable elseCode _ (Code.printable_iff.1 helse))
  | .op _, _, hi | .i32Const _, _, hi | .f64Const _, _, hi | .localGet _, _, hi | .localSet _, _, hi
  | .localTee _, _, hi | .globalGet _, _, hi | .globalSet _, _, hi | .call _, _, hi | .callIndirect _ _, _, hi
  | .load _ _, _, hi | .store _ _, _, hi => Instr.told_line (by nofun) hi
termination_by structural i => i

theorem Code.told_of_printable : ∀ (c : Code) (indent : String), (∀ i ∈ c, i.Printable) → ∀ i ∈ c, i.Told indent
  | [], _, _ => nofun
  | i :: c, indent, hc =>
    List.forall_mem_cons.2 ⟨Instr.told_of_printable i indent (hc i (.head _)),
      Code.told_of_printable c indent fun j hj => hc j (.tail _ hj)⟩
termination_by structural c => c

end

/-- **The text of code determines the code**, and ends where the indentation does. -/
theorem Code.legible (indent : String) :
    Legible (fun c => stacked (Instr.linesAll indent c)) Code.Printable (fun s => ¬ indent.toList <+: s) :=
  fun c hc => Code.legibleAt (Code.told_of_printable c indent (Code.printable_iff.1 hc))

end WasmBackend
