/-
Excerpts of spans. Every span has one, wherever it lies, unless one of its
ends is inside of a character (`rendering_fails_iff`): the lines that it is on
are always in range. A span without newlines is shown on its own line, with
carets right under its characters, unless it starts right after a newline; then
it is shown from the line above on (`located_and_shown_iff`).
-/
import WasmBackend.Diagnostic
import WasmBackend.Proofs.Source.Positions

namespace WasmBackend

open String (utf8Len)

/-! ## Lines -/

theorem Text.count_dropLast_le {cs ds : List Char} (h : cs <+: ds) :
    cs.dropLast.count '\n' ≤ ds.dropLast.count '\n' := by
  obtain ⟨rest, rfl⟩ := h
  rcases List.eq_nil_or_concat rest with rfl | ⟨rest, c, rfl⟩
  · rw [List.append_nil]
  · rw [List.concat_eq_append, ← List.append_assoc, List.dropLast_concat, List.count_append]
    exact Nat.le_add_right_of_le ((List.dropLast_sublist _).count_le _)

namespace Span

variable {s : Span} {before upto : List Char}

/-- A span one end of which, moved back into the text, is inside of a character. -/
def Misplaced (s : Span) : Prop :=
  Text.InsideChar s.source.contents.toList (min s.offset s.source.contents.utf8ByteSize) ∨
    Text.InsideChar s.source.contents.toList (min s.stop s.source.contents.utf8ByteSize)

/-- The lines that are shown for a span follow each other in the text, from the one that it starts
on to the one that it ends on. -/
structure Shows (s : Span) (first last : Nat) (shown : List String) : Prop where
  starts : s.source.line? s.offset = some first
  ends : s.source.line? s.stop = some last
  ordered : first ≤ last
  lines : s.lines? = some shown
  count : shown.length = last - first + 1
  consecutive : ∃ above below : List String,
    (s.source.contents.toList.splitOn '\n').map String.ofList = above ++ (shown ++ below) ∧ above.length = first

theorem misplaced_iff : s.Misplaced ↔ s.source.upTo? s.offset = none ∨ s.source.upTo? s.stop = none := by
  rw [Misplaced, Source.upTo?_eq_none_iff, Source.upTo?_eq_none_iff]

/-- The text up to the end of a span starts with the text up to its start. -/
theorem upTo?_le (hb : s.source.upTo? s.offset = some before) (hu : s.source.upTo? s.stop = some upto) :
    before <+: upto := by
  obtain ⟨hbefore, hblen⟩ := Source.upTo?_eq_some hb
  obtain ⟨hupto, hulen⟩ := Source.upTo?_eq_some hu
  refine List.prefix_of_prefix_length_le hbefore hupto (Nat.le_of_not_lt fun hlt => ?_)
  obtain ⟨rest, rfl⟩ := List.prefix_of_prefix_length_le hupto hbefore (Nat.le_of_lt hlt)
  have hle : s.offset ≤ s.stop := Nat.le_add_right _ _
  have hrest : utf8Len rest = 0 := by
    rw [String.utf8Len_append] at hblen
    omega
  rw [String.utf8Len_eq_zero.1 hrest, List.append_nil] at hlt
  exact Nat.lt_irrefl _ hlt

theorem shows_of_upTo? (hb : s.source.upTo? s.offset = some before) (hu : s.source.upTo? s.stop = some upto) :
    ∃ shown, s.Shows (before.dropLast.count '\n') (upto.dropLast.count '\n') shown := by
  have hfirst := Source.line?_of_upTo? hb
  have hlast := Source.line?_of_upTo? hu
  have hle := Text.count_dropLast_le (upTo?_le hb hu)
  have hlt : upto.dropLast.count '\n' ≤ s.source.contents.toList.count '\n' :=
    ((List.dropLast_prefix _).trans (Source.upTo?_eq_some hu).1).sublist.count_le _
  generalize before.dropLast.count '\n' = first at *
  generalize upto.dropLast.count '\n' = last at *
  have hlength := Text.length_lines s.source.contents.toList
  have hlines : s.lines? =
      some ((((Text.lines s.source.contents.toList).drop first).take (last + 1 - first)).map String.ofList) := by
    have hmax : max (min last (s.source.contents.toList.count '\n' + 1 - 1)) first = last := by omega
    rw [lines?, hfirst, hlast]
    simp only [Option.bind_eq_bind, Option.bind_some, hlength, hmax]
    rw [Text.between?, if_pos (by omega)]
    rfl
  refine ⟨_, hfirst, hlast, hle, hlines, ?_, ((Text.lines s.source.contents.toList).take first).map String.ofList,
    (((Text.lines s.source.contents.toList).drop first).drop (last + 1 - first)).map String.ofList, ?_, ?_⟩
  · rw [List.length_map, List.length_take, List.length_drop, hlength]
    omega
  · rw [← List.map_append, ← List.map_append, List.take_append_drop, List.take_append_drop, Text.lines_eq_splitOn]
  · rw [List.length_map, List.length_take, hlength]
    omega

theorem Shows.excerpt? {first last startCol endCol : Nat} {shown : List String} (h : s.Shows first last shown)
    (hstart : s.source.col? s.offset = some startCol) (hend : s.source.col? s.stop = some endCol) :
    s.excerpt? = some ⟨s.source.path, first, shown, startCol, endCol⟩ := by
  simp [Span.excerpt?, h.starts, h.lines, hstart, hend]

theorem excerpt?_eq_none_iff : s.excerpt? = none ↔ s.Misplaced := by
  rw [misplaced_iff]
  cases hb : s.source.upTo? s.offset with
  | none => simp [Span.excerpt?, Source.line?, hb]
  | some before =>
    cases hu : s.source.upTo? s.stop with
    | none => simp [Span.excerpt?, lines?, Source.line?, hb, hu]
    | some upto =>
      obtain ⟨shown, h⟩ := shows_of_upTo? hb hu
      simp [Span.excerpt?, h.starts, h.lines, Source.col?, hb, hu]

theorem exists_shows_iff : (∃ first last shown, s.Shows first last shown) ↔ ¬ s.Misplaced := by
  constructor
  · rintro ⟨first, last, shown, h⟩ hmis
    have hlines : s.lines? = none := by
      rcases misplaced_iff.1 hmis with hnone | hnone <;> simp [lines?, Source.line?, hnone]
    cases hlines.symm.trans h.lines
  · intro hmis
    rw [misplaced_iff, not_or, ← ne_eq, ← ne_eq, Option.ne_none_iff_exists', Option.ne_none_iff_exists'] at hmis
    obtain ⟨⟨before, hb⟩, upto, hu⟩ := hmis
    exact ⟨_, _, shows_of_upTo? hb hu⟩

end Span

theorem CompileError.report?_eq_none_iff {e : CompileError} :
    e.report? = none ↔ ∃ s, e.span? = some s ∧ s.Misplaced := by
  rw [report?, Option.map_eq_none_iff, context?]
  cases e.span? with
  | none => simp
  | some s => simp [Span.excerpt?_eq_none_iff]

/-- **A span has no excerpt exactly if one of its ends, moved back into the text, is inside of a
character**, and so an error at it has no report. -/
theorem Span.rendering_fails_iff (s : Span) (e : CompileError) :
    (s.excerpt? = none ↔ s.Misplaced) ∧ (s.render? = none ↔ s.Misplaced) ∧
      (e.report? = none ↔ ∃ t, e.span? = some t ∧ t.Misplaced) ∧
      ((∃ first last shown, s.Shows first last shown) ↔ ¬ s.Misplaced) := by
  refine ⟨excerpt?_eq_none_iff, ?_, CompileError.report?_eq_none_iff, exists_shows_iff⟩
  rw [render?, Option.map_eq_none_iff, excerpt?_eq_none_iff]

/-! ## Single lines -/

/-- Some characters of a text, as a span of it. -/
structure Span.Covers (s : Span) (before inside after : List Char) : Prop where
  contents : s.source.contents.toList = before ++ inside ++ after
  offset : s.offset = utf8Len before
  length : s.length = utf8Len inside

/-- The excerpt of characters on the line that they are on. -/
def Excerpt.ofLine (path : String) (before inside after : List Char) : Excerpt where
  path
  start := before.count '\n'
  lines := [String.ofList (Text.lastLine before ++ inside ++ Text.firstLine after)]
  startCol := (Text.lastLine before).length
  endCol := (Text.lastLine before).length + inside.length

/-- A text that ends with a line after its number, and carets in the row below: right under some
characters of the line, or one caret if there are none. -/
def PointsAt (text : String) (number : Nat) (left inside right : List Char) : Prop :=
  ∃ heading margin under : List Char,
    text.toList = heading ++ '\n' :: (margin ++ left ++ inside ++ right) ++
      '\n' :: (under ++ List.replicate (max inside.length 1) '^') ++ ['\n'] ∧
    margin = (toString number).toList ++ [' ', '|', ' '] ∧ under.length = (margin ++ left).length ∧ '^' ∉ under

theorem Excerpt.render_ofLine (path : String) (before inside after : List Char) :
    PointsAt (ofLine path before inside after).render (before.count '\n' + 1) (Text.lastLine before) inside
      (Text.firstLine after) := by
  refine ⟨"In ".toList ++ path.toList ++ ':' :: (toString (before.count '\n' + 1)).toList ++
    ':' :: (toString ((Text.lastLine before).length + 1)).toList ++
      '\n' :: List.replicate (toString (before.count '\n' + 1)).length ' ' ++ [' ', '|'], _,
    List.replicate (toString (before.count '\n' + 1)).length ' ' ++ [' ', '|', ' '] ++
      List.replicate (Text.lastLine before).length ' ', ?_, rfl, ?_, ?_⟩
  · simp [render, pointed, ofLine, gutter, blanks]
  · simp only [List.length_append, List.length_replicate, String.length_toList]
  · simp [List.mem_replicate]

namespace Span

variable {s : Span} {before inside after : List Char}

namespace Covers

theorem upTo?_offset (h : s.Covers before inside after) : s.source.upTo? s.offset = some before := by
  rw [h.offset]
  exact Source.upTo?_append (h.contents.trans (List.append_assoc _ _ _))

theorem upTo?_stop (h : s.Covers before inside after) : s.source.upTo? s.stop = some (before ++ inside) := by
  rw [stop, h.offset, h.length, ← String.utf8Len_append]
  exact Source.upTo?_append h.contents

/-- The one line that is shown is the line that the span is on. -/
theorem eq_line (h : s.Covers before inside after) (hinside : '\n' ∉ inside) {last : Nat} {line : String}
    (hshown : s.Shows (before.count '\n') last [line]) :
    line = String.ofList (Text.lastLine before ++ inside ++ Text.firstLine after) := by
  obtain ⟨above, below, hlines, habove⟩ := hshown.consecutive
  obtain ⟨above', below', hlines', habove'⟩ := Text.lines_append before (inside ++ after)
  rw [h.contents, List.append_assoc, ← Text.lines_eq_splitOn, hlines', List.map_append, List.map_cons] at hlines
  have htail := (List.append_inj hlines (by rw [List.length_map, habove, habove'])).2
  rw [List.singleton_append, Text.firstLine_append hinside, ← List.append_assoc] at htail
  exact (List.cons.inj htail).1.symm

theorem getLast?_ne (hinside : '\n' ∉ inside) (hbefore : before.getLast? ≠ some '\n') :
    (before ++ inside).getLast? ≠ some '\n' := by
  rcases List.eq_nil_or_concat inside with rfl | ⟨cs, c, rfl⟩
  · rwa [List.append_nil]
  · rw [List.concat_eq_append] at hinside ⊢
    rw [← List.append_assoc, List.getLast?_concat]
    rintro ⟨⟩
    exact hinside (by simp)

theorem excerpt?_ofLine (h : s.Covers before inside after) (hinside : '\n' ∉ inside)
    (hbefore : before.getLast? ≠ some '\n') : s.excerpt? = some (.ofLine s.source.path before inside after) := by
  have hstart := (Source.locates_iff h.upTo?_offset).2 hbefore
  have hstop := (Source.locates_iff h.upTo?_stop).2 (getLast?_ne hinside hbefore)
  obtain ⟨shown, hshown⟩ := shows_of_upTo? h.upTo?_offset h.upTo?_stop
  have hfirst := Option.some.inj (hshown.starts.symm.trans hstart.line)
  have hlast := Option.some.inj (hshown.ends.symm.trans hstop.line)
  rw [List.count_append, List.count_eq_zero_of_not_mem hinside, Nat.add_zero] at hlast
  rw [hfirst, hlast] at hshown
  obtain ⟨line, rfl⟩ := List.length_eq_one_iff.1 (hshown.count.trans (by omega))
  rw [hshown.excerpt? hstart.col hstop.col, h.eq_line hinside hshown, Text.lastLine_append hinside, List.length_append]
  rfl

/-- A span right after a newline is shown from the line above on. -/
theorem excerpt?_afterNewline {above : List Char} (h : s.Covers (above ++ ['\n']) inside after)
    (hinside : '\n' ∉ inside) :
    ∃ e, s.excerpt? = some e ∧ e.start = above.count '\n' ∧ (e.isMultiline = true ↔ inside ≠ []) := by
  obtain ⟨shown, hshown⟩ := shows_of_upTo? h.upTo?_offset h.upTo?_stop
  have hcol : s.source.col? s.stop = some ((Text.pieces (above ++ ['\n'] ++ inside)).getLast?.getD []).length := by
    rw [Source.col?, h.upTo?_stop, Option.map_some]
  rw [List.dropLast_concat] at hshown
  refine ⟨_, hshown.excerpt? (Source.col?_of_upTo? h.upTo?_offset) hcol, rfl, ?_⟩
  have hcount := hshown.count
  rcases List.eq_nil_or_concat inside with rfl | ⟨cs, c, rfl⟩
  · rw [List.append_nil, List.dropLast_concat, Nat.sub_self] at hcount
    simp [Excerpt.isMultiline, hcount]
  · rw [List.concat_eq_append] at hinside hcount
    have hcs : '\n' ∉ cs := fun hmem => hinside (List.mem_append_left _ hmem)
    rw [← List.append_assoc, List.dropLast_concat, List.count_append, List.count_append,
      List.count_eq_zero_of_not_mem hcs, List.count_singleton_self] at hcount
    simp [Excerpt.isMultiline, hcount]

end Covers

/-- **A position is where it is said to be, and a span without newlines is shown where it is,
exactly if no newline stands right before.** Otherwise it is taken to be at the end of the line above. -/
theorem located_and_shown_iff (s : Span) (before inside after : List Char) (h : s.Covers before inside after)
    (hinside : '\n' ∉ inside) :
    (s.source.Locates s.offset before ↔ before.getLast? ≠ some '\n') ∧
      (s.excerpt? = some (.ofLine s.source.path before inside after) ↔ before.getLast? ≠ some '\n') ∧
      (before.getLast? ≠ some '\n' → ∃ text, s.render? = some text ∧
        PointsAt text (before.count '\n' + 1) (Text.lastLine before) inside (Text.firstLine after)) ∧
      ∀ above, before = above ++ ['\n'] →
        s.source.line? s.offset = some (above.count '\n') ∧
        s.source.col? s.offset = some ((Text.lastLine above).length + 1) ∧
        ∃ e, s.excerpt? = some e ∧ e.start = above.count '\n' ∧ (e.isMultiline = true ↔ inside ≠ []) := by
  refine ⟨Source.locates_iff h.upTo?_offset, ⟨?_, h.excerpt?_ofLine hinside⟩, ?_, ?_⟩
  · intro he hlast
    obtain ⟨above, rfl⟩ := List.getLast?_eq_some_iff.1 hlast
    obtain ⟨e, he', hstart, -⟩ := h.excerpt?_afterNewline hinside
    obtain rfl := Option.some.inj (he.symm.trans he')
    simp [Excerpt.ofLine] at hstart
  · intro hlast
    refine ⟨_, ?_, Excerpt.render_ofLine s.source.path before inside after⟩
    rw [render?, h.excerpt?_ofLine hinside hlast, Option.map_some]
  · rintro above rfl
    refine ⟨?_, Source.col?_of_upTo? h.upTo?_offset, h.excerpt?_afterNewline hinside⟩
    rw [Source.line?_of_upTo? h.upTo?_offset, List.dropLast_concat]

/-- The last letter of a text of two lines. -/
def secondOfLine : Span := ⟨⟨"ab\ncd", Source.defaultPath⟩, 4, 1⟩

theorem secondOfLine_covers : secondOfLine.Covers ['a', 'b', '\n', 'c'] ['d'] [] :=
  ⟨by decide, by decide, by decide⟩

theorem located_and_shown_iff_secondOfLine :
    secondOfLine.source.Locates 4 ['a', 'b', '\n', 'c'] ∧
      secondOfLine.excerpt? = some ⟨Source.defaultPath, 1, ["cd"], 1, 2⟩ := by
  obtain ⟨hlocates, hexcerpt, -⟩ :=
    located_and_shown_iff secondOfLine _ _ _ secondOfLine_covers (by decide)
  exact ⟨hlocates.2 (by decide), hexcerpt.2 (by decide)⟩

/-- The first letter of the second line of a text. -/
def firstOfLine : Span := ⟨⟨"a\nb", Source.defaultPath⟩, 2, 1⟩

/-- It is taken to be on the first line, after its newline, and both lines are shown for it. -/
theorem firstOfLine_misplaced :
    firstOfLine.Covers ['a', '\n'] ['b'] [] ∧ ¬ firstOfLine.source.Locates 2 ['a', '\n'] ∧
      firstOfLine.excerpt? = some ⟨Source.defaultPath, 0, ["a", "b"], 2, 1⟩ := by
  refine ⟨⟨by decide, by decide, by decide⟩, ?_, rfl⟩
  rintro ⟨hline, -⟩
  revert hline
  decide

end Span

end WasmBackend
