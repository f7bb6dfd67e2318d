import TagLint.Proofs.Location.Lines
import TagLint.Proofs.Text.LastLine

/-!
# What a span points at

A span has the offsets of a stretch of the source, and the line and the column of its start.

- `Location.first_behind`: the location behind a text, counted from its newlines and its last line.
- `Span.Covers`: the span is that of a word that stands in the source.
- `Lines.span_covers`: so it is if the offsets are those of the word.
-/

namespace TagLint

open Text

/-- Behind a text the line is counted from its newlines, and the column from its last line. -/
theorem Location.first_behind (text : List Char) :
    first.behind text = ⟨1 + text.count '\n', 1 + (lastLine text).length⟩ := by
  rcases Lines.exists_last_line text with hline | ⟨front, line, rfl, hline⟩
  · rw [behind_of_notMem _ hline, lastLine_of_notMem hline, List.count_eq_zero_of_not_mem hline]
    rfl
  · have hcount : (front ++ '\n' :: line).count '\n' = front.count '\n' + 1 := by
      rw [List.count_append, List.count_cons_self, List.count_eq_zero_of_not_mem hline]
    rw [behind_append, behind_cons, next, if_pos rfl, behind_of_notMem _ hline, line_behind,
      lastLine_newline front hline, hcount]
    rfl

/-- The span of a word of a source: the source is what stands before the word, the word, and what
stands behind it. The offsets are the bytes up to the two ends of the word. The line and the column
count what stands before it. -/
def Span.Covers (source : List Char) (span : Span) (word : List Char) : Prop :=
  ∃ before behind, source = before ++ (word ++ behind) ∧
    span.start = byteSize before ∧ span.stop = byteSize before + byteSize word ∧
    span.location.line = 1 + before.count '\n' ∧
    span.location.column = 1 + (lastLine before).length

theorem Span.Covers.start_le_stop {source word : List Char} {span : Span}
    (h : span.Covers source word) : span.start ≤ span.stop := by
  obtain ⟨before, behind, -, hstart, hstop, -⟩ := h
  rw [hstart, hstop]
  exact Nat.le_add_right ..

/-- The offsets of a word that stands in a source have the span of that word. -/
theorem Lines.span_covers (before word behind : List Char) :
    ((ofText (before ++ (word ++ behind))).span (byteSize before)
      (byteSize before + byteSize word)).Covers (before ++ (word ++ behind)) word := by
  have hlocate := locate_ofText before (word ++ behind)
  rw [Location.first_behind] at hlocate
  refine ⟨before, behind, rfl, rfl, rfl, ?_, ?_⟩
  · rw [span, hlocate]
  · rw [span, hlocate]

end TagLint
