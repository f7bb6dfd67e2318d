import Mathlib.Data.List.DropRight

/-!
# The last line of a text

`lastLine` is what stands behind the last newline of a text, and the whole text if it has none. A
column counts the characters of such a line, and a report ends with one.

- `lastLine_of_notMem`, `lastLine_newline`: a line without newlines is the last one by itself, and
  behind any newline.
- `WholeLines`: a text that a newline ends, if there is any text. Behind it a line is the last one
  (`WholeLines.lastLine_append`).
-/

namespace TagLint.Text

/-- What stands behind the last newline of a text. -/
def lastLine (text : List Char) : List Char :=
  text.rtakeWhile (· != '\n')

theorem lastLine_of_notMem {text : List Char} (h : '\n' ∉ text) : lastLine text = text := by
  rw [lastLine, List.rtakeWhile_eq_self_iff]
  intro c hc
  simpa using fun heq : c = '\n' => h (heq ▸ hc)

/-- A line without newlines is the last one behind any text that a newline ends. -/
theorem lastLine_newline (front : List Char) {line : List Char} (h : '\n' ∉ line) :
    lastLine (front ++ '\n' :: line) = line := by
  have hline : ∀ c ∈ line.reverse, (c != '\n') = true := by
    intro c hc
    simpa using fun heq : c = '\n' => h (heq ▸ List.mem_reverse.1 hc)
  rw [lastLine, List.rtakeWhile, List.reverse_append, List.reverse_cons, List.append_assoc,
    List.takeWhile_append_of_pos hline, List.singleton_append,
    List.takeWhile_cons_of_neg (by simp), List.append_nil, List.reverse_reverse]

/-- A text of whole lines: there is none, or a newline ends it. -/
def WholeLines (text : List Char) : Prop :=
  text = [] ∨ ∃ front, text = front ++ ['\n']

theorem wholeLines_newline (front : List Char) : WholeLines (front ++ ['\n']) :=
  .inr ⟨front, rfl⟩

theorem WholeLines.append {first second : List Char} (hfirst : WholeLines first)
    (hsecond : WholeLines second) : WholeLines (first ++ second) := by
  rcases hsecond with rfl | ⟨front, rfl⟩
  · rw [List.append_nil]
    exact hfirst
  · rw [← List.append_assoc]
    exact wholeLines_newline _

/-- Whole lines, one after the other, are whole lines. -/
theorem wholeLines_flatMap {α : Type} {lines : α → List Char} (items : List α)
    (h : ∀ item ∈ items, WholeLines (lines item)) : WholeLines (items.flatMap lines) := by
  induction items with
  | nil => exact .inl rfl
  | cons item items ih =>
    have htail := ih fun next hnext => h next (List.mem_cons_of_mem _ hnext)
    rw [List.flatMap_cons]
    exact (h item List.mem_cons_self).append htail

/-- Behind whole lines a line without newlines is the last one. -/
theorem WholeLines.lastLine_append {front line : List Char} (hfront : WholeLines front)
    (hline : '\n' ∉ line) : lastLine (front ++ line) = line := by
  rcases hfront with rfl | ⟨front, rfl⟩
  · exact lastLine_of_notMem hline
  · rw [List.append_assoc]
    exact lastLine_newline front hline

end TagLint.Text
