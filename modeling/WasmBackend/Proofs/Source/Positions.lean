/-
Lines and columns of positions. A text can be cut between any two of its
characters and nowhere else (`splitBytes?_eq_none_iff`). Its lines are told
by newlines between them and its pieces by newlines at their ends, so that a
position is taken to be on the line of the character before it. That is the
line it is on, unless the character is a newline (`locates_iff`).
-/
import Mathlib
import WasmBackend.Source.Span

namespace WasmBackend

open String (utf8Len)

namespace Text

/-- The characters after the last newline. -/
def lastLine (cs : List Char) : List Char := cs.rtakeWhile (· ≠ '\n')

/-- The characters before the first newline. -/
def firstLine (cs : List Char) : List Char := cs.takeWhile (· ≠ '\n')

/-- A place in a text that is strictly inside of a character. -/
def InsideChar (cs : List Char) (i : Nat) : Prop :=
  ∃ before c after, cs = before ++ c :: after ∧ utf8Len before < i ∧ i < utf8Len before + c.utf8Size

/-! ## Cuts -/

theorem splitBytes?_append (before after : List Char) :
    splitBytes? (utf8Len before) (before ++ after) = some (before, after) := by
  induction before with
  | nil => simp [splitBytes?]
  | cons c before ih =>
    obtain ⟨n, hn⟩ := Nat.exists_eq_succ_of_ne_zero (Nat.pos_iff_ne_zero.1 c.utf8Size_pos)
    have hlen : utf8Len (c :: before) = utf8Len before + n + 1 := by
      rw [String.utf8Len_cons, hn]
      rfl
    have hrest : utf8Len before + n + 1 - c.utf8Size = utf8Len before := by omega
    rw [hlen, List.cons_append, splitBytes?, if_pos (by omega), hrest, ih]
    rfl

theorem splitBytes?_eq_some {n : Nat} {cs before after : List Char} (h : splitBytes? n cs = some (before, after)) :
    cs = before ++ after ∧ n = utf8Len before := by
  fun_induction splitBytes? n cs generalizing before with
  | case1 cs =>
    cases h
    simp
  | case2 n => cases h
  | case3 n c cs hc ih =>
    obtain ⟨⟨b, a⟩, hrest, heq⟩ := Option.map_eq_some_iff.1 h
    cases heq
    obtain ⟨rfl, hn⟩ := ih hrest
    rw [String.utf8Len_cons]
    exact ⟨rfl, by omega⟩
  | case4 n c cs hc => cases h

theorem insideChar_cons {c : Char} {cs : List Char} {i : Nat} :
    InsideChar (c :: cs) i ↔ 0 < i ∧ i < c.utf8Size ∨ c.utf8Size ≤ i ∧ InsideChar cs (i - c.utf8Size) := by
  constructor
  · rintro ⟨before, d, after, hcs, hlo, hhi⟩
    cases before with
    | nil =>
      obtain ⟨rfl, rfl⟩ := List.cons.inj hcs
      rw [String.utf8Len_nil] at hlo hhi
      exact .inl ⟨hlo, by omega⟩
    | cons e before =>
      obtain ⟨rfl, rfl⟩ := List.cons.inj hcs
      rw [String.utf8Len_cons] at hlo hhi
      exact .inr ⟨by omega, before, d, after, rfl, by omega, by omega⟩
  · rintro (⟨hlo, hhi⟩ | ⟨hle, before, d, after, rfl, hlo, hhi⟩)
    · exact ⟨[], c, cs, rfl, by simpa using hlo, by simpa using hhi⟩
    · refine ⟨c :: before, d, after, rfl, ?_, ?_⟩ <;> rw [String.utf8Len_cons] <;> omega

/-- **A text can be cut anywhere but inside of its characters.** -/
theorem splitBytes?_eq_none_iff {cs : List Char} {n : Nat} (hn : n ≤ utf8Len cs) :
    splitBytes? n cs = none ↔ InsideChar cs n := by
  fun_induction splitBytes? n cs with
  | case1 cs => simp [InsideChar]
  | case2 n => simp at hn
  | case3 n c cs hc ih =>
    rw [String.utf8Len_cons] at hn
    rw [Option.map_eq_none_iff, ih (by omega), insideChar_cons]
    simp only [hc, true_and, Nat.not_lt.2 hc, and_false, false_or]
  | case4 n c cs hc => simp [insideChar_cons, Nat.lt_of_not_le hc]

/-! ## Lines -/

theorem newline_notMem_lastLine (cs : List Char) : '\n' ∉ lastLine cs := by
  intro h
  simpa using List.mem_rtakeWhile_imp h

/-- What stands before the last line is empty or ends with a newline. -/
theorem eq_append_lastLine (cs : List Char) : cs = lastLine cs ∨ ∃ above, cs = above ++ '\n' :: lastLine cs := by
  have hsplit : cs.rdropWhile (· ≠ '\n') ++ lastLine cs = cs := List.rdropWhile_append_rtakeWhile
  by_cases hnil : cs.rdropWhile (· ≠ '\n') = []
  · rw [hnil, List.nil_append] at hsplit
    exact .inl hsplit.symm
  · have hlast : (cs.rdropWhile (· ≠ '\n')).getLast hnil = '\n' := by
      simpa using List.rdropWhile_last_not _ _ hnil
    refine .inr ⟨(cs.rdropWhile (· ≠ '\n')).dropLast, ?_⟩
    rw [← List.dropLast_append_getLast hnil, hlast] at hsplit
    simpa using hsplit.symm

theorem lastLine_append {inside : List Char} (h : '\n' ∉ inside) (before : List Char) :
    lastLine (before ++ inside) = lastLine before ++ inside := by
  have hall : ∀ c ∈ inside.reverse, decide (c ≠ '\n') = true := by
    intro c hc
    simpa using ne_of_mem_of_not_mem (List.mem_reverse.1 hc) h
  rw [lastLine, List.rtakeWhile, List.reverse_append, List.takeWhile_append_of_pos hall, List.reverse_append,
    List.reverse_reverse]
  rfl

theorem firstLine_append {inside : List Char} (h : '\n' ∉ inside) (after : List Char) :
    firstLine (inside ++ after) = inside ++ firstLine after := by
  refine List.takeWhile_append_of_pos fun c hc => ?_
  simpa using ne_of_mem_of_not_mem hc h

theorem lines_eq_splitOn (cs : List Char) : lines cs = cs.splitOn '\n' := by
  rw [List.splitOn_eq_splitOnP]
  induction cs with
  | nil => rfl
  | cons c cs ih =>
    rw [lines, List.splitOnP_cons_eq_if_modifyHead, ih]
    simp only [beq_iff_eq]
    split
    next => rfl
    next =>
      cases hs : List.splitOnP (· == '\n') cs with
      | nil => exact absurd hs (List.splitOnP_ne_nil _ _)
      | cons l ls => rfl

theorem lines_eq_cons (cs : List Char) : ∃ below, lines cs = firstLine cs :: below := by
  induction cs with
  | nil => exact ⟨[], rfl⟩
  | cons c cs ih =>
    obtain ⟨below, hbelow⟩ := ih
    by_cases hc : c = '\n'
    · exact ⟨lines cs, by simp [lines, firstLine, hc]⟩
    · exact ⟨below, by simp [lines, hbelow, firstLine, hc]⟩

theorem length_lines (cs : List Char) : (lines cs).length = cs.count '\n' + 1 := by
  induction cs with
  | nil => rfl
  | cons c cs ih =>
    obtain ⟨below, hbelow⟩ := lines_eq_cons cs
    rw [hbelow] at ih
    by_cases hc : c = '\n' <;> simpa [lines, hbelow, hc] using ih

/-- The line that a position is on, with the lines above and below. -/
theorem lines_append (before after : List Char) : ∃ above below,
    lines (before ++ after) = above ++ (lastLine before ++ firstLine after) :: below ∧
      above.length = before.count '\n' := by
  have hnone := newline_notMem_lastLine before
  obtain ⟨below, hbelow⟩ := lines_eq_cons (lastLine before ++ after)
  rw [firstLine_append hnone] at hbelow
  rcases eq_append_lastLine before with hbefore | ⟨above, hbefore⟩
  · refine ⟨[], below, ?_, ?_⟩
    · rw [← hbefore] at hbelow ⊢
      exact hbelow
    · rw [hbefore, List.count_eq_zero_of_not_mem hnone, List.length_nil]
  · refine ⟨lines above, below, ?_, ?_⟩
    · rw [← hbelow, lines_eq_splitOn above, lines_eq_splitOn (lastLine before ++ after),
        ← List.splitOn_append_cons_self, ← lines_eq_splitOn, ← List.cons_append, ← List.append_assoc, ← hbefore]
    · rw [length_lines, hbefore, List.count_append, List.count_cons_self, List.count_eq_zero_of_not_mem hnone]

/-! ## Pieces -/

theorem length_pieces_concat (cs : List Char) (c : Char) : (pieces (cs ++ [c])).length = cs.count '\n' + 1 := by
  induction cs with
  | nil => by_cases hc : c = '\n' <;> simp [pieces, hc]
  | cons d cs ih =>
    rw [List.cons_append, pieces]
    cases hp : pieces (cs ++ [c]) with
    | nil => simp [hp] at ih
    | cons p ps =>
      rw [hp] at ih
      by_cases hd : d = '\n' <;> simpa [hd] using ih

theorem pieces_append_newline (before after : List Char) :
    pieces (before ++ '\n' :: after) = pieces (before ++ ['\n']) ++ pieces after := by
  induction before with
  | nil => rfl
  | cons c before ih =>
    rw [List.cons_append, List.cons_append, pieces, pieces, ih]
    split
    next => rfl
    next =>
      cases hp : pieces (before ++ ['\n']) with
      | nil => simpa [hp] using length_pieces_concat before '\n'
      | cons p ps => rfl

theorem pieces_concat_of_notMem {cs : List Char} (h : '\n' ∉ cs) (c : Char) : pieces (cs ++ [c]) = [cs ++ [c]] := by
  induction cs with
  | nil => by_cases hc : c = '\n' <;> simp [pieces, hc]
  | cons d cs ih =>
    rw [List.mem_cons, not_or] at h
    rw [List.cons_append, pieces, if_neg (Ne.symm h.1), ih h.2]

/-- The last piece of a text is what its last character ends. -/
theorem getLast?_pieces_concat (cs : List Char) (c : Char) :
    (pieces (cs ++ [c])).getLast? = some (lastLine cs ++ [c]) := by
  have hlast := pieces_concat_of_notMem (newline_notMem_lastLine cs) c
  rcases eq_append_lastLine cs with hcs | ⟨above, hcs⟩
  · rw [← hcs] at hlast ⊢
    rw [hlast, List.getLast?_singleton]
  · have hpieces : pieces (cs ++ [c]) = pieces (above ++ ['\n']) ++ [lastLine cs ++ [c]] := by
      rw [← hlast, ← pieces_append_newline, ← List.cons_append, ← List.append_assoc, ← hcs]
    rw [hpieces, List.getLast?_concat]

end Text

/-! ## Positions -/

namespace Source

variable {before after : List Char} {i : Nat} {s : Source}

/-- The line and the column of a position are those that the newlines before it tell. -/
structure Locates (s : Source) (i : Nat) (before : List Char) : Prop where
  line : s.line? i = some (before.count '\n')
  col : s.col? i = some (Text.lastLine before).length

theorem upTo?_append (h : s.contents.toList = before ++ after) : s.upTo? (utf8Len before) = some before := by
  have hsize : s.contents.utf8ByteSize = utf8Len before + utf8Len after := by
    rw [← String.utf8Len_append, ← h, ← String.utf8ByteSize_ofList, String.ofList_toList]
  rw [upTo?, hsize, h, Nat.min_eq_left (Nat.le_add_right _ _), Text.splitBytes?_append]
  rfl

theorem upTo?_eq_none_iff : s.upTo? i = none ↔ Text.InsideChar s.contents.toList (min i s.contents.utf8ByteSize) := by
  rw [upTo?, Option.map_eq_none_iff, Text.splitBytes?_eq_none_iff]
  rw [← String.utf8ByteSize_ofList, String.ofList_toList]
  exact Nat.min_le_right _ _

/-- The text up to a position has the bytes before it. -/
theorem upTo?_eq_some {text : List Char} (h : s.upTo? i = some text) :
    text <+: s.contents.toList ∧ utf8Len text = min i s.contents.utf8ByteSize := by
  obtain ⟨⟨before, after⟩, hsplit, rfl⟩ := Option.map_eq_some_iff.1 h
  obtain ⟨hcontents, hlen⟩ := Text.splitBytes?_eq_some hsplit
  exact ⟨⟨after, hcontents.symm⟩, hlen.symm⟩

theorem line?_of_upTo? (h : s.upTo? i = some before) : s.line? i = some (before.dropLast.count '\n') := by
  rw [line?, h, Option.map_some]
  rcases List.eq_nil_or_concat before with rfl | ⟨cs, c, rfl⟩
  · rfl
  · rw [List.concat_eq_append, Text.length_pieces_concat, List.dropLast_concat, Nat.add_sub_cancel]

theorem col?_of_upTo? {c : Char} (h : s.upTo? i = some (before ++ [c])) :
    s.col? i = some ((Text.lastLine before).length + 1) := by
  rw [col?, h, Option.map_some, Text.getLast?_pieces_concat, Option.getD_some, List.length_append]
  rfl

/-- **A position is on its line and in its column unless it follows a newline.** -/
theorem locates_iff (h : s.upTo? i = some before) : s.Locates i before ↔ before.getLast? ≠ some '\n' := by
  have hline := line?_of_upTo? h
  rcases List.eq_nil_or_concat before with rfl | ⟨cs, c, rfl⟩
  · simp only [List.getLast?_nil, ne_eq, reduceCtorEq, not_false_eq_true, iff_true]
    exact ⟨hline, by rw [col?, h]; rfl⟩
  · rw [List.concat_eq_append] at h hline ⊢
    rw [List.dropLast_concat] at hline
    rw [List.getLast?_concat, ne_eq, Option.some.injEq]
    constructor
    · rintro ⟨hcount, -⟩ rfl
      simp [hline] at hcount
    · intro hc
      have hnone : '\n' ∉ [c] := by simpa using Ne.symm hc
      refine ⟨?_, ?_⟩
      · rw [hline, List.count_append, List.count_eq_zero_of_not_mem hnone, Nat.add_zero]
      · rw [col?_of_upTo? h, Text.lastLine_append hnone, List.length_append, List.length_singleton]

end Source

end WasmBackend
