/-
The text of a function determines the function (`func_text_determines`), and
that of a module determines the module (`text_determines`), as long as names
are words, no constant is a NaN, and no name of an export holds the `" (` that
ends such a name. Quotes in the name of an export are written as they are, so
that without the last condition one export can look like two
(`text_ambiguous`).
-/
import WasmBackend.Proofs.Text.Code

namespace WasmBackend

/-! ## Quoted names -/

/-- The name of an export does not end where it is not meant to. -/
def Unclosed (name : String) : Prop := ¬ ['"', ' ', '('] <:+: name.toList

instance (name : String) : Decidable (Unclosed name) := inferInstanceAs (Decidable (¬ _))

theorem not_closed_early {c : Char} {b s t : List Char} (hb : ¬ ['"', ' ', '('] <:+: c :: b) :
    '"' :: ' ' :: '(' :: s ≠ c :: b ++ '"' :: ' ' :: '(' :: t := by
  intro h
  match b, h with
  | [], h => simp at h
  | [d], h => simp at h
  | d :: e :: b, h =>
    simp only [List.cons_append, List.cons.injEq] at h
    obtain ⟨rfl, rfl, rfl, -⟩ := h
    exact hb (List.prefix_append ['"', ' ', '('] b).isInfix

/-- Two texts that are cut at their first `" (`. -/
theorem append_close_inj {a b s t : List Char} (ha : ¬ ['"', ' ', '('] <:+: a) (hb : ¬ ['"', ' ', '('] <:+: b)
    (h : a ++ '"' :: ' ' :: '(' :: s = b ++ '"' :: ' ' :: '(' :: t) : a = b ∧ s = t := by
  induction a generalizing b with
  | nil =>
    cases b with
    | nil => simpa using h
    | cons d b => exact absurd h (not_closed_early hb)
  | cons c a ih =>
    cases b with
    | nil => exact absurd h.symm (not_closed_early ha)
    | cons d b =>
      obtain ⟨rfl, htail⟩ := List.cons.inj h
      obtain ⟨rfl, rfl⟩ := ih (fun hin => ha (hin.trans (List.suffix_cons c a).isInfix))
        (fun hin => hb (hin.trans (List.suffix_cons c b).isInfix)) htail
      exact ⟨rfl, rfl⟩

theorem legible_quoted : Legible String.toList Unclosed (∃ s, · = "\" (".toList ++ s) := by
  intro x hx y u v hy hu hv h
  obtain ⟨s, rfl⟩ := hu
  obtain ⟨t, rfl⟩ := hv
  obtain ⟨hname, rfl⟩ := append_close_inj hx hy h
  exact ⟨String.toList_inj.1 hname, rfl⟩

/-! ## Fields -/

namespace Field

/-- All names of a field, the quoted one of an export apart. -/
def names : Field → List String
  | type name _ => [name]
  | func f => f.name :: f.declared ++ (Code.refs f.body).map (·.2)
  | global name _ _ => [name]
  | memory name _ => [name]
  | table name _ => [name]
  | elem target _ funcs => target :: funcs
  | exports _ _ target => [target]

def doubles : Field → List Double
  | func f => Instr.doublesAll f.body
  | _ => []

structure Printable (field : Field) : Prop where
  names : ∀ x ∈ field.names, Spelled x
  doubles : ∀ x ∈ field.doubles, x.kind ≠ .nan
  exports : ∀ name kind target, field = .exports name kind target → Unclosed name

theorem toList_intercalate (lines : List String) (last : String) :
    ("\n".intercalate (lines ++ [last])).toList = stacked lines ++ last.toList := by
  induction lines with
  | nil => simp [stacked]
  | cons line lines ih =>
    rw [List.cons_append, String.intercalate_cons_of_ne_nil (by simp), String.toList_append, String.toList_append, ih,
      stacked_cons, List.append_assoc, List.append_assoc]
    rfl

theorem toList_type (name : String) (signature : Signature) : (type name signature).text.toList =
    "(type $".toList ++ (name.toList ++ (" (func".toList ++
      ((signature.params.flatMap fun ty => (" (param " ++ ty.text ++ ")").toList) ++
        ((resultClause signature.result).toList ++ "))".toList)))) := by
  unfold text
  rw [← toList_join_map]
  simp only [String.toList_append, List.append_assoc]

theorem toList_func (f : Func) : (func f).text.toList =
    "(func $".toList ++ (f.name.toList ++ ((f.params.flatMap fun l => (localClause "param" l).toList) ++
      ((resultClause f.result).toList ++ ((f.locals.flatMap fun l => (localClause "local" l).toList) ++
        '\n' :: (stacked (Instr.linesAll "    " f.body) ++ "  )".toList))))) := by
  unfold text
  rw [toList_intercalate, stacked_cons, funcHead, ← toList_join_map, ← toList_join_map]
  simp only [String.toList_append, List.append_assoc, List.cons_append]

theorem toList_global (name : String) (isMutable : Bool) (init : Word) : (global name isMutable init).text.toList =
    "(global $".toList ++ (name.toList ++ ((if isMutable then " (mut i32)" else " i32").toList ++
      (" (i32.const ".toList ++ ((toString init.toInt).toList ++ "))".toList)))) := by
  unfold text
  simp only [String.toList_append, List.append_assoc]

theorem toList_memory (name : String) (pages : Nat) : (memory name pages).text.toList =
    "(memory $".toList ++ (name.toList ++ (" ".toList ++ ((toString pages).toList ++ ")".toList))) := by
  unfold text
  simp only [String.toList_append, List.append_assoc]

theorem toList_table (name : String) (size : Nat) : (table name size).text.toList =
    "(table $".toList ++ (name.toList ++ (" ".toList ++ ((toString size).toList ++ " funcref)".toList))) := by
  unfold text
  simp only [String.toList_append, List.append_assoc]

theorem toList_elem (target : String) (offset : Word) (funcs : List String) : (elem target offset funcs).text.toList =
    "(elem (table $".toList ++ (target.toList ++ (") (i32.const ".toList ++ ((toString offset.toInt).toList ++
      (") func".toList ++ ((funcs.flatMap fun f => (" $" ++ f).toList) ++ ")".toList))))) := by
  unfold text
  rw [← toList_join_map]
  simp only [String.toList_append, List.append_assoc]

theorem toList_exports (name : String) (kind : ExportKind) (target : String) : (exports name kind target).text.toList =
    "(export \"".toList ++ (name.toList ++ ("\" (".toList ++
      (kind.text.toList ++ (" $".toList ++ (target.toList ++ "))".toList))))) := by
  unfold text
  simp only [String.toList_append, List.append_assoc]

/-- How a field opens. -/
def lead : Field → List Char
  | type _ _ => ['(', 't', 'y']
  | func _ => ['(', 'f', 'u']
  | global _ _ _ => ['(', 'g', 'l']
  | memory _ _ => ['(', 'm', 'e']
  | table _ _ => ['(', 't', 'a']
  | elem _ _ _ => ['(', 'e', 'l']
  | exports _ _ _ => ['(', 'e', 'x']

theorem lead_prefix (field : Field) : field.lead <+: field.text.toList := by
  have hopen {lead : List Char} {word : String} (rest : List Char) (h : lead <+: word.toList) :
      lead <+: word.toList ++ rest := h.trans (List.prefix_append _ _)
  cases field with
  | type name signature => exact toList_type name signature ▸ hopen _ ⟨_, rfl⟩
  | func f => exact toList_func f ▸ hopen _ ⟨_, rfl⟩
  | global name isMutable init => exact toList_global name isMutable init ▸ hopen _ ⟨_, rfl⟩
  | memory name pages => exact toList_memory name pages ▸ hopen _ ⟨_, rfl⟩
  | table name size => exact toList_table name size ▸ hopen _ ⟨_, rfl⟩
  | elem target offset funcs => exact toList_elem target offset funcs ▸ hopen _ ⟨_, rfl⟩
  | exports name kind target => exact toList_exports name kind target ▸ hopen _ ⟨_, rfl⟩

theorem lead_eq {field field' : Field} {s t : List Char} (h : field.text.toList ++ s = field'.text.toList ++ t) :
    field.lead = field'.lead := by
  have hlength (field : Field) : field.lead.length = 3 := by cases field <;> rfl
  have hlead := field.lead_prefix.trans (List.prefix_append _ s)
  have hlead' := field'.lead_prefix.trans (List.prefix_append _ t)
  rw [← h] at hlead'
  exact (List.prefix_of_prefix_length_le hlead hlead' (by rw [hlength, hlength])).eq_of_length
    (by rw [hlength, hlength])

/-! ## Clauses of functions and signatures -/

theorem legible_types :
    Legible (List.flatMap fun ty : ValType => (" (param " ++ ty.text ++ ")").toList) (∀ ty ∈ ·, True)
      (fun s => ¬ [' ', '(', 'p'] <+: s) :=
  (legible_typeClause " (param ").row fun ty => by simp [String.toList_append]

theorem legible_local (word : String) :
    Legible (fun l => (localClause word l).toList) (Spelled ·.name) (fun _ => True) := by
  rintro ⟨name, ty⟩ hl ⟨name', ty'⟩ s t hl' _ _ h
  simp only [localClause, String.toList_append, List.append_assoc, List.append_cancel_left_eq] at h
  obtain ⟨rfl, htype⟩ := legible_name hl hl' (breaks_append _ rfl rfl) (breaks_append _ rfl rfl) h
  obtain ⟨rfl, hrest⟩ := legible_valType trivial trivial (breaks_append _ rfl rfl) (breaks_append _ rfl rfl)
    (List.append_cancel_left htype)
  exact ⟨rfl, List.append_cancel_left hrest⟩

theorem local_prefix (l : Local) : [' ', '(', 'l'] <+: (localClause "local" l).toList := by
  simp [localClause, String.toList_append]

theorem legible_params :
    Legible (List.flatMap fun l => (localClause "param" l).toList) (∀ l ∈ ·, Spelled l.name)
      (fun s => ¬ [' ', '(', 'p'] <+: s) :=
  (legible_local "param").row fun l => by simp [localClause, String.toList_append]

theorem legible_locals :
    Legible (List.flatMap fun l => (localClause "local" l).toList) (∀ l ∈ ·, Spelled l.name)
      (fun s => ¬ [' ', '(', 'l'] <+: s) :=
  (legible_local "local").row local_prefix

/-- Only a clause for a local starts like one. -/
theorem not_prefix_locals {c : Char} {s : List Char} (hc : c ≠ 'l') (hs : ¬ [' ', '(', c] <+: s) (locals : List Local) :
    ¬ [' ', '(', c] <+: (locals.flatMap fun l => (localClause "local" l).toList) ++ s := by
  cases locals with
  | nil => exact hs
  | cons l locals =>
    intro hlead
    have hprefix := prefix_flatMap local_prefix l locals s
    have heq := (List.prefix_of_prefix_length_le hlead hprefix le_rfl).eq_of_length rfl
    simp [hc] at heq

/-- The clauses of a function's head are set off by blanks. -/
theorem breaks_clauses (params : List Local) (result : Option ValType) (locals : List Local) {s : List Char}
    (hs : Breaks s) :
    Breaks ((params.flatMap fun l => (localClause "param" l).toList) ++ ((resultClause result).toList ++
      ((locals.flatMap fun l => (localClause "local" l).toList) ++ s))) := by
  have hrow {α : Type} (xs : List α) {write : α → String} {u : List Char}
      (hwrite : ∀ x, (write x).toList.head? = some ' ') (hu : Breaks u) :
      Breaks ((xs.flatMap fun x => (write x).toList) ++ u) := by
    cases xs with
    | nil => exact hu
    | cons x xs =>
      rw [List.flatMap_cons, List.append_assoc]
      exact breaks_append _ (hwrite x) rfl
  have hlocal (word : String) (l : Local) : (localClause word l).toList.head? = some ' ' := by
    simp [localClause, String.toList_append]
  rw [toList_resultClause]
  refine hrow params (hlocal "param") (hrow _ (fun ty => ?_) (hrow locals (hlocal "local") hs))
  simp [String.toList_append]

/-! ## Whole fields -/

theorem printable_func {f : Func} (hf : (func f).Printable) : Spelled f.name ∧ (∀ l ∈ f.params, Spelled l.name) ∧
    (∀ l ∈ f.locals, Spelled l.name) ∧ Code.Printable f.body := by
  obtain ⟨hnames, hdoubles, -⟩ := hf
  simp only [names, Func.declared, List.forall_mem_cons, List.forall_mem_append, List.forall_mem_map] at hnames
  obtain ⟨⟨hname, hparams, hlocals⟩, hrefs⟩ := hnames
  exact ⟨hname, hparams, hlocals, hrefs, hdoubles⟩

section

variable {s t : List Char}

theorem legible_type {name name' : String} {signature signature' : Signature} (hname : Spelled name)
    (hname' : Spelled name')
    (h : (type name signature).text.toList ++ s = (type name' signature').text.toList ++ t) :
    type name signature = type name' signature' ∧ s = t := by
  obtain ⟨params, result⟩ := signature
  obtain ⟨params', result'⟩ := signature'
  have hclose (c : Char) (u : List Char) : ¬ [' ', '(', c] <+: "))".toList ++ u := by simp
  rw [toList_type, toList_type] at h
  simp only [List.append_assoc, List.append_cancel_left_eq] at h
  obtain ⟨rfl, hclauses⟩ := legible_name hname hname' (breaks_append _ rfl rfl) (breaks_append _ rfl rfl) h
  obtain ⟨rfl, hresult⟩ := legible_types (fun _ _ => trivial) (fun _ _ => trivial)
    (not_prefix_resultClause (by decide) (hclose 'p' s) result)
    (not_prefix_resultClause (by decide) (hclose 'p' t) result') (List.append_cancel_left hclauses)
  obtain ⟨rfl, hrest⟩ := legible_resultClause trivial trivial (hclose 'r' s) (hclose 'r' t) hresult
  exact ⟨rfl, List.append_cancel_left hrest⟩

theorem legible_func {f f' : Func} (hf : (func f).Printable) (hf' : (func f').Printable)
    (h : (func f).text.toList ++ s = (func f').text.toList ++ t) : func f = func f' ∧ s = t := by
  have hline (c : Char) (u : List Char) : ¬ [' ', '(', c] <+: '\n' :: u := by simp
  have hdeeper (u : List Char) : ¬ "    ".toList <+: "  )".toList ++ u := by simp
  rw [toList_func, toList_func] at h
  simp only [List.append_assoc, List.cons_append, List.append_cancel_left_eq] at h
  obtain ⟨hname, hparams, hlocals, hbody⟩ := printable_func hf
  obtain ⟨hname', hparams', hlocals', hbody'⟩ := printable_func hf'
  obtain ⟨name, params, result, locals, body⟩ := f
  obtain ⟨name', params', result', locals', body'⟩ := f'
  obtain ⟨rfl, hhead⟩ := legible_name hname hname' (breaks_clauses params result locals (breaks_newline _))
    (breaks_clauses params' result' locals' (breaks_newline _)) h
  obtain ⟨rfl, hresult⟩ := legible_params hparams hparams'
    (not_prefix_resultClause (by decide) (not_prefix_locals (by decide) (hline 'p' _) locals) result)
    (not_prefix_resultClause (by decide) (not_prefix_locals (by decide) (hline 'p' _) locals') result') hhead
  obtain ⟨rfl, hrow⟩ := legible_resultClause trivial trivial (not_prefix_locals (by decide) (hline 'r' _) locals)
    (not_prefix_locals (by decide) (hline 'r' _) locals') hresult
  obtain ⟨rfl, hlines⟩ := legible_locals hlocals hlocals' (hline 'l' _) (hline 'l' _) hrow
  obtain ⟨rfl, hrest⟩ := Code.legible "    " hbody hbody' (hdeeper s) (hdeeper t) (List.cons.inj hlines).2
  exact ⟨rfl, List.append_cancel_left hrest⟩

theorem legible_mutability : Legible (fun isMutable : Bool => (if isMutable then " (mut i32)" else " i32").toList)
    (fun _ => True) (fun _ => True) := by
  intro a _ b s t _ _ _ h
  cases a <;> cases b
  case false.false => exact ⟨rfl, List.append_cancel_left h⟩
  case true.true => exact ⟨rfl, List.append_cancel_left h⟩
  all_goals simp at h

theorem legible_global {name name' : String} {isMutable isMutable' : Bool} {init init' : Word} (hname : Spelled name)
    (hname' : Spelled name')
    (h : (global name isMutable init).text.toList ++ s = (global name' isMutable' init').text.toList ++ t) :
    global name isMutable init = global name' isMutable' init' ∧ s = t := by
  have hblank (isMutable : Bool) : (if isMutable then " (mut i32)" else " i32").toList.head? = some ' ' := by
    cases isMutable <;> rfl
  rw [toList_global, toList_global] at h
  simp only [List.append_assoc, List.append_cancel_left_eq] at h
  obtain ⟨rfl, htype⟩ := legible_name hname hname' (breaks_append _ (hblank isMutable) rfl)
    (breaks_append _ (hblank isMutable') rfl) h
  obtain ⟨rfl, hinit⟩ := legible_mutability trivial trivial trivial trivial htype
  obtain ⟨hvalue, hrest⟩ := legible_int trivial trivial (breaks_append _ rfl rfl) (breaks_append _ rfl rfl)
    (List.append_cancel_left hinit)
  rw [BitVec.eq_of_toInt_eq hvalue]
  exact ⟨rfl, List.append_cancel_left hrest⟩

theorem legible_memory {name name' : String} {pages pages' : Nat} (hname : Spelled name) (hname' : Spelled name')
    (h : (memory name pages).text.toList ++ s = (memory name' pages').text.toList ++ t) :
    memory name pages = memory name' pages' ∧ s = t := by
  rw [toList_memory, toList_memory] at h
  simp only [List.append_assoc, List.append_cancel_left_eq] at h
  obtain ⟨rfl, hpages⟩ := legible_name hname hname' (breaks_append _ rfl rfl) (breaks_append _ rfl rfl) h
  obtain ⟨rfl, hrest⟩ := legible_nat trivial trivial (breaks_append _ rfl rfl) (breaks_append _ rfl rfl)
    (List.append_cancel_left hpages)
  exact ⟨rfl, List.append_cancel_left hrest⟩

theorem legible_table {name name' : String} {size size' : Nat} (hname : Spelled name) (hname' : Spelled name')
    (h : (table name size).text.toList ++ s = (table name' size').text.toList ++ t) :
    table name size = table name' size' ∧ s = t := by
  rw [toList_table, toList_table] at h
  simp only [List.append_assoc, List.append_cancel_left_eq] at h
  obtain ⟨rfl, hsize⟩ := legible_name hname hname' (breaks_append _ rfl rfl) (breaks_append _ rfl rfl) h
  obtain ⟨rfl, hrest⟩ := legible_nat trivial trivial (breaks_append _ rfl rfl) (breaks_append _ rfl rfl)
    (List.append_cancel_left hsize)
  exact ⟨rfl, List.append_cancel_left hrest⟩

theorem legible_slots : Legible (List.flatMap fun f : String => (" $" ++ f).toList) (∀ f ∈ ·, Spelled f)
    (fun s => Breaks s ∧ ¬ [' ', '$'] <+: s) := by
  refine Legible.flatMap ?_ (fun f => ?_) ?_
  · intro f hf f' s t hf' hs ht h
    simp only [String.toList_append, List.append_assoc, List.append_cancel_left_eq] at h
    exact legible_name hf hf' hs ht h
  · rw [String.toList_append]
    exact List.prefix_append _ _
  · rintro s ⟨rest, rfl⟩
    exact breaks_append _ rfl rfl

theorem legible_elem {target target' : String} {offset offset' : Word} {funcs funcs' : List String}
    (htarget : Spelled target) (htarget' : Spelled target') (hfuncs : ∀ f ∈ funcs, Spelled f)
    (hfuncs' : ∀ f ∈ funcs', Spelled f)
    (h : (elem target offset funcs).text.toList ++ s = (elem target' offset' funcs').text.toList ++ t) :
    elem target offset funcs = elem target' offset' funcs' ∧ s = t := by
  have hclose (u : List Char) : Breaks (")".toList ++ u) ∧ ¬ [' ', '$'] <+: ")".toList ++ u :=
    ⟨breaks_append _ rfl rfl, by simp⟩
  rw [toList_elem, toList_elem] at h
  simp only [List.append_assoc, List.append_cancel_left_eq] at h
  obtain ⟨rfl, hoffset⟩ := legible_name htarget htarget' (breaks_append _ rfl rfl) (breaks_append _ rfl rfl) h
  obtain ⟨hvalue, hslots⟩ := legible_int trivial trivial (breaks_append _ rfl rfl) (breaks_append _ rfl rfl)
    (List.append_cancel_left hoffset)
  obtain ⟨rfl, hrest⟩ := legible_slots hfuncs hfuncs' (hclose s) (hclose t) (List.append_cancel_left hslots)
  rw [BitVec.eq_of_toInt_eq hvalue]
  exact ⟨rfl, List.append_cancel_left hrest⟩

theorem legible_kind : Legible (fun kind : ExportKind => kind.text.toList) (fun _ => True) Breaks :=
  legible_word (fun kind _ => by cases kind <;> decide) fun kind kind' _ _ h => by
    cases kind <;> cases kind' <;> first | rfl | simp [ExportKind.text] at h

theorem legible_exports {name name' target target' : String} {kind kind' : ExportKind} (hname : Unclosed name)
    (hname' : Unclosed name') (htarget : Spelled target) (htarget' : Spelled target')
    (h : (exports name kind target).text.toList ++ s = (exports name' kind' target').text.toList ++ t) :
    exports name kind target = exports name' kind' target' ∧ s = t := by
  rw [toList_exports, toList_exports] at h
  simp only [List.append_assoc, List.append_cancel_left_eq] at h
  obtain ⟨rfl, hkind⟩ := legible_quoted hname hname' ⟨_, rfl⟩ ⟨_, rfl⟩ h
  obtain ⟨rfl, hend⟩ := legible_kind trivial trivial (breaks_append _ rfl rfl) (breaks_append _ rfl rfl)
    (List.append_cancel_left hkind)
  obtain ⟨rfl, hrest⟩ := legible_name htarget htarget' (breaks_append _ rfl rfl) (breaks_append _ rfl rfl)
    (List.append_cancel_left hend)
  exact ⟨rfl, List.append_cancel_left hrest⟩

end

/-- A field is legible: its opening tells which kind it is, and it ends with the bracket that it opened. -/
theorem legible_text : Legible (fun field : Field => field.text.toList) Printable (fun _ => True) := by
  intro field hfield field' s t hfield' _ _ h
  have hlead := lead_eq h
  have hnames := hfield.names
  have hnames' := hfield'.names
  cases field <;> cases field' <;> first | (simp [lead] at hlead; done) | skip
  case type.type => exact legible_type (hnames _ (.head _)) (hnames' _ (.head _)) h
  case func.func => exact legible_func hfield hfield' h
  case global.global => exact legible_global (hnames _ (.head _)) (hnames' _ (.head _)) h
  case memory.memory => exact legible_memory (hnames _ (.head _)) (hnames' _ (.head _)) h
  case table.table => exact legible_table (hnames _ (.head _)) (hnames' _ (.head _)) h
  case elem.elem =>
    exact legible_elem (hnames _ (.head _)) (hnames' _ (.head _)) (fun f hf => hnames f (.tail _ hf))
      (fun f hf => hnames' f (.tail _ hf)) h
  case exports.exports =>
    exact legible_exports (hfield.exports _ _ _ rfl) (hfield'.exports _ _ _ rfl) (hnames _ (.head _))
      (hnames' _ (.head _)) h

end Field

/-- **The text of a function determines the function**: its head with parameters, result and locals, and
its body with all blocks. -/
theorem func_text_determines (f f' : Func) (hf : (Field.func f).Printable) (hf' : (Field.func f').Printable)
    (h : (Field.func f).text = (Field.func f').text) : f = f' := by
  have hchars : (Field.func f).text.toList ++ [] = (Field.func f').text.toList ++ [] := by rw [h]
  obtain ⟨hfield, -⟩ := Field.legible_func hf hf' hchars
  exact Field.func.inj hfield

/-- A function with a block inside of a block, the second branches of which are given. -/
def Func.choose (inner outer : Code) : Func where
  name := "choose"
  params := [⟨"x", .i32⟩, ⟨"y", .f64⟩]
  result := none
  locals := [⟨"z", .i32⟩]
  body := [.localGet "x",
    .cond none [.localGet "y", .f64Const 0x3ff8000000000000, .op .f64Lt, .cond none [.op .nop] inner] outer]

theorem Func.choose_printable :
    (Field.func (choose [.op .nop] [])).Printable ∧ (Field.func (choose [] [.op .nop])).Printable := by
  have hdoubles {x : Double} (hx : x ∈ [(0x3ff8000000000000 : Double)]) : x.kind ≠ .nan := by
    rw [List.mem_singleton.1 hx]
    decide
  exact ⟨⟨by decide, fun x hx => hdoubles hx, by simp⟩, ⟨by decide, fun x hx => hdoubles hx, by simp⟩⟩

/-- Put together from two parts it has one text, and is one function; with its last branch in the outer block
it is another one, and has another text. -/
theorem func_text_determines_choose :
    let inside := Func.choose [.op .nop] []
    let outside := Func.choose [] [.op .nop]
    (Field.func inside).Printable ∧ (Field.func outside).Printable ∧
      { inside with body := inside.body.take 1 ++ inside.body.drop 1 } = inside ∧
      (Field.func inside).text ≠ (Field.func outside).text := by
  intro inside outside
  obtain ⟨hinside, houtside⟩ := Func.choose_printable
  refine ⟨hinside, houtside, func_text_determines _ _ hinside hinside rfl, fun h => ?_⟩
  have heq := func_text_determines inside outside hinside houtside h
  simp [inside, outside, Func.choose] at heq

/-! ## Modules -/

theorem Module.toList_text (m : Module) : m.text.toList =
    "(module\n".toList ++ ((m.fields.flatMap fun field => ("  " ++ field.text ++ "\n").toList) ++ ")".toList) := by
  unfold Module.text
  rw [← toList_join_map, String.toList_append, String.toList_append, List.append_assoc]

theorem legible_fields :
    Legible (List.flatMap fun field : Field => ("  " ++ field.text ++ "\n").toList) (∀ field ∈ ·, field.Printable)
      (fun s => ¬ [' '] <+: s) := by
  refine Legible.row ?_ fun field => ?_
  · intro field hfield field' s t hfield' _ _ h
    simp only [String.toList_append, List.append_assoc, List.append_cancel_left_eq] at h
    obtain ⟨rfl, hrest⟩ := Field.legible_text hfield hfield' trivial trivial h
    exact ⟨rfl, List.append_cancel_left hrest⟩
  · simp [String.toList_append]

/-- **The text of a module determines the module.** -/
theorem text_determines (m m' : Module) (hm : ∀ field ∈ m.fields, field.Printable)
    (hm' : ∀ field ∈ m'.fields, field.Printable) (h : m.text = m'.text) : m = m' := by
  have hchars := congrArg String.toList h
  rw [Module.toList_text, Module.toList_text] at hchars
  have hclose : ¬ [' '] <+: ")".toList := by decide
  obtain ⟨hfields, -⟩ := legible_fields hm hm' hclose hclose (List.append_cancel_left hchars)
  obtain ⟨fields⟩ := m
  obtain ⟨fields'⟩ := m'
  rw [show fields = fields' from hfields]

/-- A module with every kind of field, whose export has quotes in its name. -/
def Module.greeting : Module := ⟨[
  .type "shape" ⟨[.i32, .f64], some .i32⟩,
  .global "top" true (-4),
  .memory "memory" 16,
  .table "closures" 1,
  .func ⟨"main", [⟨"x", .f64⟩], some .i32, [⟨"y", .i32⟩],
    [.localGet "x", .f64Const 0x3ff8000000000000, .op .f64Lt,
      .cond (some .i32) [.i32Const (-1)] [.localGet "y", .cond none [] [.op .nop], .load .i32 4]]⟩,
  .elem "closures" 0 ["main"],
  .exports "say \"hi\"" .func "main"]⟩

theorem Module.greeting_printable : ∀ field ∈ Module.greeting.fields, field.Printable := by
  have hplain {field : Field} (hnames : ∀ x ∈ field.names, Spelled x) (hdoubles : field.doubles = [])
      (hexports : ∀ name kind target, field ≠ .exports name kind target) : field.Printable :=
    ⟨hnames, by simp [hdoubles], fun name kind target h => absurd h (hexports name kind target)⟩
  simp only [greeting, List.forall_mem_cons]
  refine ⟨hplain (by decide) rfl (by simp), hplain (by decide) rfl (by simp), hplain (by decide) rfl (by simp),
    hplain (by decide) rfl (by simp), ⟨by decide, fun x hx => ?_, by simp⟩, hplain (by decide) rfl (by simp),
    ⟨by decide, by simp [Field.doubles], ?_⟩, by simp⟩
  · rw [List.mem_singleton.1 hx]
    decide
  · rintro name kind target ⟨⟩
    decide

/-- Put together from two parts or written in one piece, it has one text, and is one module. -/
theorem text_determines_greeting : (∀ field ∈ Module.greeting.fields, field.Printable) ∧
    (⟨Module.greeting.fields.take 3 ++ Module.greeting.fields.drop 3⟩ : Module) = Module.greeting := by
  have hparts : Module.greeting.fields.take 3 ++ Module.greeting.fields.drop 3 = Module.greeting.fields :=
    List.take_append_drop _ _
  refine ⟨Module.greeting_printable, text_determines _ _ ?_ Module.greeting_printable ?_⟩
  · exact hparts ▸ Module.greeting_printable
  · exact congrArg (fun fields => Module.text ⟨fields⟩) hparts

/-- Two functions, and their exports. -/
def Module.withExports (exports : List Field) : Module :=
  ⟨.func (.words "one" [] [] [.i32Const 1]) :: .func (.words "two" [] [] [.i32Const 2]) :: exports⟩

/-- **One export may look like two**: its name can hold the end of one export and the start of another. -/
theorem text_ambiguous :
    let one := Module.withExports [.exports "a\" (func $one))\n  (export \"b" .func "two"]
    let two := Module.withExports [.exports "a" .func "one", .exports "b" .func "two"]
    one.text = two.text ∧ one ≠ two ∧ one.check = .ok () ∧ two.check = .ok () ∧
      (∀ field ∈ one.fields ++ two.fields, (∀ x ∈ field.names, Spelled x) ∧ field.doubles = []) := by
  refine ⟨?_, ?_, ?_, ?_, ?_⟩
  · decide +kernel
  · simp [Module.withExports]
  · rfl
  · rfl
  · decide

end WasmBackend
