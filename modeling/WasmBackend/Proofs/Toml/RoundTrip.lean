/-
Settings read back as they are written. What is written is one line for each
setting, a bare key and a scalar. Such a document is read as its pairs, in
order (`ofString?_lines`), and settings from their pairs, so that reading
what was written gives the same settings if they are valid, and says what is
wrong with them if they are not (`ofToml_toToml`).
-/
import WasmBackend.Proofs.Toml.Scalars

namespace WasmBackend.Toml

/-! ## Tokens -/

namespace Token

variable {c d : Char} {cs rest : List Char} {t : Token}

theorem all?_cons (h : next? c cs = some (t, rest)) (hle : rest.length ≤ cs.length) :
    all? (c :: cs) = (all? rest).map (t :: ·) := by
  rw [all?, h]
  simp only [Option.bind_eq_bind, Option.bind_some, if_pos hle]
  cases all? rest <;> rfl

theorem isBlank_of_isBare (hc : isBare c = true) : isBlank c = false := by
  rw [Bool.eq_false_iff]
  intro hblank
  rw [isBlank, Bool.or_eq_true, decide_eq_true_eq, decide_eq_true_eq] at hblank
  rcases hblank with rfl | rfl <;> exact absurd hc (by decide)

theorem next?_bare (hc : isBare c = true) (cs : List Char) :
    next? c cs = some (bare (c :: cs.takeWhile isBare), cs.dropWhile isBare) := by
  unfold next?
  split
  case h_14 => rw [isBlank_of_isBare hc, if_neg (by decide), if_pos hc]
  all_goals exact absurd hc (by decide)

/-- A word ends before a character that is not part of words. -/
theorem next?_word (hc : isBare c = true) (hcs : ∀ c ∈ cs, isBare c = true) (hd : isBare d = false) :
    next? c (cs ++ d :: rest) = some (bare (c :: cs), d :: rest) := by
  have htake : (cs ++ d :: rest).takeWhile isBare = cs := by
    rw [List.takeWhile_append_of_pos hcs, List.takeWhile_cons_of_neg (by simp [hd]), List.append_nil]
  have hdrop : (cs ++ d :: rest).dropWhile isBare = d :: rest := by
    rw [List.dropWhile_append_of_pos hcs, List.dropWhile_cons_of_neg (by simp [hd])]
  rw [next?_bare hc, htake, hdrop]

theorem next?_space (hd : isBlank d = false) : next? ' ' (d :: rest) = some (blank true, d :: rest) := by
  have htake : (d :: rest).takeWhile isBlank = [] := List.takeWhile_cons_of_neg (by simp [hd])
  have hdrop : (d :: rest).dropWhile isBlank = d :: rest := List.dropWhile_cons_of_neg (by simp [hd])
  change some (blank (decide (' ' = ' ') && ((d :: rest).takeWhile isBlank).isEmpty), _) = _
  rw [htake, hdrop]
  rfl

/-- A text that is one token at the end of a line. -/
def Spells (text : List Char) (t : Token) : Prop :=
  ∃ c cs, text = c :: cs ∧ isBlank c = false ∧ ∀ rest, next? c (cs ++ '\n' :: rest) = some (t, '\n' :: rest)

theorem spells_word (hne : cs ≠ []) (hcs : ∀ c ∈ cs, isBare c = true) : Spells cs (bare cs) := by
  cases cs with
  | nil => exact absurd rfl hne
  | cons c cs =>
    have hc := hcs c (by simp)
    refine ⟨c, cs, rfl, isBlank_of_isBare hc, fun rest => ?_⟩
    exact next?_word hc (fun d hd => hcs d (List.mem_cons_of_mem c hd)) (by decide)

theorem ofDoubleQuote?_of_ne (hc : c ≠ '"') (cs : List Char) :
    ofDoubleQuote? (c :: cs) = (basic? (c :: cs)).map (ofText false) := by
  unfold ofDoubleQuote?
  split
  next heq => exact absurd (List.cons.inj heq).1 hc
  next heq => exact absurd (List.cons.inj heq).1 hc
  next => rfl

/-- No character is written with a quote in front. -/
theorem escape_eq_cons (c : Char) : ∃ d cs, Settings.escape c = d :: cs ∧ d ≠ '"' := by
  unfold Settings.escape
  split
  case h_8 h _ =>
    split
    next => exact ⟨_, _, rfl, by decide⟩
    next => exact ⟨c, [], rfl, h⟩
  all_goals exact ⟨_, _, rfl, by decide⟩

theorem spells_quoted (cs : List Char) : Spells ('"' :: (cs.flatMap Settings.escape ++ ['"'])) (string cs false) := by
  refine ⟨'"', _, rfl, by decide, fun rest => ?_⟩
  change ofDoubleQuote? _ = _
  cases cs with
  | nil => rfl
  | cons c cs =>
    have hread := basic?_flatMap_escape (c :: cs) ('\n' :: rest)
    obtain ⟨d, ds, hescape, hd⟩ := escape_eq_cons c
    rw [List.append_assoc, List.singleton_append, List.flatMap_cons, hescape, List.append_assoc, List.cons_append]
    rw [List.flatMap_cons, hescape, List.append_assoc, List.cons_append] at hread
    rw [ofDoubleQuote?_of_ne hd, hread]
    rfl

end Token

/-! ## Lines -/

/-- A pair of a bare key and a scalar, as it is written and as it is read. -/
structure Line where
  key : List Char
  text : List Char
  token : Token
  value : Value

namespace Line

def written (l : Line) : List Char := l.key ++ " = ".toList ++ l.text ++ "\n".toList

def tokens (l : Line) : List Token := [.bare l.key, .blank true, .equals, .blank true, l.token, .newline]

def pair (l : Line) : String × Value := (String.ofList l.key, l.value)

/-- What makes a line be read as its pair. -/
structure Readable (l : Line) : Prop where
  key_ne : l.key ≠ []
  key_bare : ∀ c ∈ l.key, isBare c = true
  spells : Token.Spells l.text l.token
  reads : ∀ fuel ts, Token.value? (fuel + 1) (l.token :: .newline :: ts) = some (l.value, .newline :: ts)
  unbroken : '\r' ∉ l.text

variable {l : Line}

theorem Readable.all?_written (h : l.Readable) (rest : List Char) :
    Token.all? (l.written ++ rest) = (Token.all? rest).map (l.tokens ++ ·) := by
  obtain ⟨c, cs, hkey⟩ := List.exists_cons_of_ne_nil h.key_ne
  obtain ⟨d, ds, htext, hd, hvalue⟩ := h.spells
  have hbare := h.key_bare
  rw [hkey] at hbare
  have hword (after : List Char) : Token.next? c (cs ++ ' ' :: after) = some (.bare l.key, ' ' :: after) := by
    rw [hkey]
    exact Token.next?_word (hbare c (by simp)) (fun d hd => hbare d (List.mem_cons_of_mem c hd)) (by decide)
  have hwritten : l.written ++ rest = c :: (cs ++ ' ' :: ('=' :: ' ' :: d :: (ds ++ '\n' :: rest))) := by
    simp [written, hkey, htext]
  rw [hwritten, Token.all?_cons (hword _) (by simp), Token.all?_cons (Token.next?_space (by decide)) (by simp),
    Token.all?_cons (rfl : Token.next? '=' _ = some (.equals, _)) (by simp),
    Token.all?_cons (Token.next?_space hd) (by simp), Token.all?_cons (hvalue rest) (by simp),
    Token.all?_cons (rfl : Token.next? '\n' _ = some (.newline, _)) (by simp)]
  cases Token.all? rest <;> rfl

theorem Readable.read?_tokens (h : l.Readable) (fuel : Nat) (top : Pairs) (ts : List Token) :
    Document.read? (fuel + 1) ⟨top, []⟩ top (l.tokens ++ ts) =
      Document.read? fuel ⟨top ++ [l.pair], []⟩ (top ++ [l.pair]) ts := by
  simp [Document.read?, tokens, Token.skipLines?, Token.dottedKey?, Token.key?, Token.moreKeys?, Token.skipBlank,
    h.reads, Token.lineEnd?, Pairs.add, pair]

end Line

variable {ls : List Line}

theorem all?_lines (h : ∀ l ∈ ls, l.Readable) :
    Token.all? (ls.flatMap Line.written) = some (ls.flatMap Line.tokens) := by
  induction ls with
  | nil => rw [List.flatMap_nil, Token.all?]; rfl
  | cons l ls ih =>
    rw [List.flatMap_cons, (h l (by simp)).all?_written, ih fun l hl => h l (List.mem_cons_of_mem _ hl)]
    rfl

theorem read?_lines (h : ∀ l ∈ ls, l.Readable) {fuel : Nat} (hfuel : ls.length < fuel) (top : Pairs) :
    Document.read? fuel ⟨top, []⟩ top (ls.flatMap Line.tokens) = some ⟨top ++ ls.map Line.pair, []⟩ := by
  induction ls generalizing fuel top with
  | nil =>
    obtain ⟨fuel, rfl⟩ := Nat.exists_eq_succ_of_ne_zero (Nat.ne_of_gt hfuel)
    simp [Document.read?, Token.skipLines?]
  | cons l ls ih =>
    obtain ⟨fuel, rfl⟩ := Nat.exists_eq_succ_of_ne_zero (Nat.ne_of_gt (Nat.zero_lt_of_lt hfuel))
    rw [List.flatMap_cons, (h l (by simp)).read?_tokens, ih (fun l hl => h l (List.mem_cons_of_mem _ hl))
      (Nat.lt_of_succ_lt_succ hfuel)]
    simp

theorem joinLineEnds_of_notMem {cs : List Char} (h : '\r' ∉ cs) : joinLineEnds cs = cs := by
  fun_induction joinLineEnds cs with
  | case1 cs ih => simp at h
  | case2 c cs _ ih => rw [ih fun hmem => h (List.mem_cons_of_mem c hmem)]
  | case3 => rfl

theorem Line.Readable.notMem_written {l : Line} (h : l.Readable) : '\r' ∉ l.written := by
  have hkey : '\r' ∉ l.key := fun hmem => absurd (h.key_bare _ hmem) (by decide)
  simp [written, hkey, h.unbroken]

theorem dropMark_lines (h : ∀ l ∈ ls, l.Readable) : dropMark (ls.flatMap Line.written) = ls.flatMap Line.written := by
  cases ls with
  | nil => rfl
  | cons l ls =>
    obtain ⟨c, cs, hkey⟩ := List.exists_cons_of_ne_nil (h l (by simp)).key_ne
    have hc : c ≠ '\ufeff' := by
      rintro rfl
      exact absurd ((h l (by simp)).key_bare '\ufeff' (by simp [hkey])) (by decide)
    simp only [List.flatMap_cons, Line.written, hkey, List.cons_append]
    unfold dropMark
    split
    next heq => exact absurd (List.cons.inj heq).1 hc
    next => rfl

/-- **A document of such lines is read as their pairs.** -/
theorem ofString?_lines (h : ∀ l ∈ ls, l.Readable) :
    Document.ofString? (String.ofList (ls.flatMap Line.written)) = some ⟨ls.map Line.pair, []⟩ := by
  have hbreak : '\r' ∉ ls.flatMap Line.written := by
    rw [List.mem_flatMap]
    rintro ⟨l, hl, hmem⟩
    exact (h l hl).notMem_written hmem
  have htokens : Token.ofString? (String.ofList (ls.flatMap Line.written)) = some (ls.flatMap Line.tokens) := by
    rw [Token.ofString?, String.toList_ofList, dropMark_lines h, joinLineEnds_of_notMem hbreak, all?_lines h]
  have hfuel : ls.length < (ls.flatMap Line.tokens).length.succ := by
    have hsum : (ls.flatMap Line.tokens).length = ls.length * 6 := by simp [List.length_flatMap, Line.tokens]
    omega
  rw [Document.ofString?, htokens]
  simp only [Option.bind_eq_bind, Option.bind_some, read?_lines h hfuel, List.nil_append]
  rfl

/-! ## Settings -/

theorem spells_boolText (b : Bool) :
    Token.Spells (Settings.boolText b).toList (.bare (Settings.boolText b).toList) := by
  have hbare : (Settings.boolText b).toList.all isBare = true := by cases b <;> rfl
  exact Token.spells_word (by cases b <;> simp [Settings.boolText]) (List.all_eq_true.1 hbare)

theorem notMem_boolText (b : Bool) : '\r' ∉ (Settings.boolText b).toList := by
  cases b <;> decide

theorem notMem_hexPair : ∀ n < 0x80, '\r' ∉ Settings.hexPair n := by decide

/-- A carriage return is not written as it is. -/
theorem notMem_escape (c : Char) : '\r' ∉ Settings.escape c := by
  unfold Settings.escape
  split
  case h_8 h _ _ =>
    split
    next hcontrol => simpa using notMem_hexPair c.toNat (by omega)
    next => simpa using Ne.symm h
  all_goals decide

namespace Line

/-- A setting that is on or off. -/
def flag (key : String) (b : Bool) : Line :=
  ⟨key.toList, (Settings.boolText b).toList, .bare (Settings.boolText b).toList, .boolean b⟩

/-- A setting that is a number. -/
def number (key : String) (n : Nat) : Line := ⟨key.toList, Nat.toDigits 10 n, .bare (Nat.toDigits 10 n), .integer n⟩

/-- A setting that is some text. -/
def quoted (key : String) (text : String) : Line :=
  ⟨key.toList, '"' :: (text.toList.flatMap Settings.escape ++ ['"']), .string text.toList false, .string text⟩

theorem ofList_flag (key : String) (b : Bool) :
    String.ofList (flag key b).written = key ++ " = " ++ Settings.boolText b ++ "\n" := by
  simp only [written, flag, String.ofList_append, String.ofList_toList]

theorem ofList_number (key : String) (n : Nat) :
    String.ofList (number key n).written = key ++ " = " ++ toString n ++ "\n" := by
  simp only [written, number, String.ofList_append, String.ofList_toList, Nat.toString_eq_ofList_toDigits]

theorem ofList_quoted (key text : String) :
    String.ofList (quoted key text).written = key ++ " = " ++ Settings.quote text ++ "\n" := by
  have hquote : Settings.quote text = String.ofList ('"' :: (text.toList.flatMap Settings.escape ++ ['"'])) := by
    rw [Settings.quote, ← List.singleton_append, String.ofList_append, String.ofList_append, ← String.append_assoc]
  simp only [written, quoted, String.ofList_append, String.ofList_toList, hquote]

variable {key : String} (hne : key.toList ≠ []) (hkey : key.toList.all isBare = true)

include hne hkey

theorem readable_flag (b : Bool) : (flag key b).Readable where
  key_ne := hne
  key_bare := List.all_eq_true.1 hkey
  spells := spells_boolText b
  reads fuel ts := by cases b <;> rfl
  unbroken := notMem_boolText b

theorem readable_number {n : Nat} (hn : n ≤ 9223372036854775807) : (number key n).Readable := by
  have hdigits := isDigit_toDigits n
  refine ⟨hne, List.all_eq_true.1 hkey, Token.spells_word Nat.toDigits_ne_nil fun c hc => ?_, fun fuel ts => ?_,
    notMem_digits hdigits (by decide)⟩
  · simp [isBare, Char.isAlphanum, hdigits c hc]
  · change Token.scalar? (Nat.toDigits 10 n) (.newline :: ts) = _
    rw [scalar?_digits hdigits Nat.toDigits_ne_nil, decimal?_toDigits hn]
    rfl

theorem readable_quoted (text : String) : (quoted key text).Readable := by
  refine ⟨hne, List.all_eq_true.1 hkey, Token.spells_quoted text.toList, fun fuel ts => ?_, ?_⟩
  · change some (Value.string (String.ofList text.toList), Token.newline :: ts) = _
    rw [String.ofList_toList]
    rfl
  · have hflat : '\r' ∉ text.toList.flatMap Settings.escape := by
      rw [List.mem_flatMap]
      rintro ⟨c, -, hc⟩
      exact notMem_escape c hc
    simp [quoted, hflat]

end Line

end WasmBackend.Toml

namespace WasmBackend.Settings

open Toml

/-- The lines of settings. -/
def lines (s : Settings) : List Line :=
  [.flag "dispatchUsingInferredType" s.dispatchUsingInferredType, .flag "reduceInstructions" s.reduceInstructions,
    .flag "enableNameSection" s.enableNameSection, .number "memoryPages" s.memoryPages.toNat,
    .quoted "exportName" s.exportName]

theorem toToml_eq_lines (s : Settings) : s.toToml = String.ofList (s.lines.flatMap Line.written) := by
  -- `unfold`, as `rw` would try to compare the two texts by evaluation.
  unfold toToml lines
  simp only [List.flatMap_cons, List.flatMap_nil, List.append_nil, String.ofList_append, Line.ofList_flag,
    Line.ofList_number, Line.ofList_quoted, String.reduceAppend]
  simp only [String.append_assoc]

theorem readable_lines (s : Settings) : ∀ l ∈ s.lines, l.Readable := by
  have hpages : s.memoryPages.toNat ≤ 9223372036854775807 := by
    have hlt := s.memoryPages.toNat_lt
    omega
  simp only [lines, List.mem_cons, List.not_mem_nil, or_false]
  rintro l (rfl | rfl | rfl | rfl | rfl)
  · exact Line.readable_flag (by simp) rfl _
  · exact Line.readable_flag (by simp) rfl _
  · exact Line.readable_flag (by simp) rfl _
  · exact Line.readable_number (by simp) rfl hpages
  · exact Line.readable_quoted (by simp) rfl _

theorem ofPairs?_lines (s : Settings) : ofPairs? (s.lines.map Line.pair) = some s := by
  have hpages : ofInteger? (.integer s.memoryPages.toNat) = some s.memoryPages := by
    have hlt := s.memoryPages.toNat_lt
    have hfits : (0 : Int) ≤ s.memoryPages.toNat ∧ (s.memoryPages.toNat : Int) ≤ 4294967295 := by omega
    rw [ofInteger?, if_pos hfits, Int.toNat_natCast, UInt32.ofNat_toNat]
  simp [lines, Line.pair, Line.flag, Line.number, Line.quoted, ofPairs?, Key.read?, Key.dispatch, Key.reduce,
    Key.nameSection, Key.pages, Key.exports, ofBoolean?, ofText?, hpages]

theorem ofToml?_toToml (s : Settings) : ofToml? s.toToml = some s := by
  rw [ofToml?, toToml_eq_lines, ofString?_lines s.readable_lines]
  exact s.ofPairs?_lines

/-- **Settings that were written are read as they were if they are valid, and otherwise with the
error that says why they are not.** -/
theorem ofToml_toToml (s : Settings) :
    (ofToml s.toToml = .ok s ↔ s.validate = .ok ()) ∧
      ∀ e, ofToml s.toToml = .error (.invalid e) ↔ s.validate = .error e := by
  rw [ofToml, ofToml?_toToml]
  cases hvalid : s.validate with
  | error e => simp [hvalid, Except.mapError, Except.map]
  | ok => simp [hvalid, Except.mapError, Except.map]

end WasmBackend.Settings
