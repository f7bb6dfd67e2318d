import TagLint.Text.Size
import TagLint.Location.Basic

/-!
# The lines of a source

`Lines` lists where the lines of a source start, once, so that a later look-up halves the list and
walks a single line.

- `bisect`: the last number of a range at which a property holds that, once lost, stays lost.
- `Lines.ofText`: the lines of a source. A line is kept as its offset and the source from there
  on, which shares the source's own characters.
- `Lines.locate`: the line and column of an offset. An offset past the end counts as the end, and
  one inside a character has the column that its bytes give.
-/

namespace TagLint

/-! ## Bisection -/

/-- Halves the range from `low` to before `high`, keeping a `low` at which `holds` is true. -/
def bisect (holds : Nat → Bool) (low high : Nat) : Nat :=
  if low + 1 < high then
    let middle := low + (high - low) / 2
    if holds middle then bisect holds middle high else bisect holds low middle
  else low
termination_by high - low

/-- The answer is in the range. -/
theorem bisect_lt {holds : Nat → Bool} {low high : Nat} (h : low < high) :
    bisect holds low high < high := by
  fun_induction bisect holds low high with
  | case1 low high _ middle _ ih => exact ih (by omega)
  | case2 low high _ middle _ ih => exact Nat.lt_trans (ih (by omega)) (by omega)
  | case3 low high _ => exact h

/-! ## Columns -/

/-- The number of characters in the first `bytes` bytes of a text, unless these end inside a
character or there are not so many. -/
def charsBefore? (bytes : Nat) (text : List Char) : Option Nat :=
  go 0 bytes text
where
  /-- Goes on after `taken` characters. -/
  go (taken bytes : Nat) : List Char → Option Nat
    | [] => if bytes = 0 then some taken else none
    | c :: rest =>
      if bytes = 0 then some taken
      else if c.utf8Size ≤ bytes then go (taken + 1) (bytes - c.utf8Size) rest
      else none

/-! ## Lines -/

/-- The start of a line. -/
structure LineStart where
  /-- The offset of the line's first byte. -/
  offset : Nat
  /-- The source from the line's start on. -/
  text : List Char
  deriving DecidableEq, Repr

/-- The starts of a source's lines, and its size. -/
structure Lines where
  /-- The bytes of the source. -/
  size : Nat
  /-- The starts, in the order of the lines. -/
  starts : Array LineStart
  /-- An empty source has one line too. -/
  starts_pos : 0 < starts.size
  deriving DecidableEq, Repr

namespace Lines

/-- Adds the lines that start behind the newlines of `text`, which stands at `offset`. -/
def collect (starts : Array LineStart) (offset : Nat) : List Char → Array LineStart
  | [] => starts
  | c :: rest =>
    let next := offset + c.utf8Size
    collect (if c = '\n' then starts.push ⟨next, rest⟩ else starts) next rest

theorem size_le_size_collect (starts : Array LineStart) (offset : Nat) (text : List Char) :
    starts.size ≤ (collect starts offset text).size := by
  induction text generalizing starts offset with
  | nil => exact Nat.le_refl _
  | cons c rest ih =>
    refine Nat.le_trans ?_ (ih _ _)
    split
    · rw [Array.size_push]
      exact Nat.le_succ _
    · exact Nat.le_refl _

/-- The lines of a source. -/
def ofText (text : List Char) : Lines where
  size := Text.byteSize text
  starts := collect #[⟨0, text⟩] 0 text
  starts_pos := Nat.lt_of_lt_of_le Nat.one_pos (size_le_size_collect #[⟨0, text⟩] 0 text)

/-- The lines of a source string. -/
def ofString (source : String) : Lines :=
  ofText source.toList

/-- The number of lines: one more than the newlines. -/
def count (lines : Lines) : Nat :=
  lines.starts.size

/-- The number of the last line that starts at or before an offset, counted from zero. -/
def lineAt (lines : Lines) (offset : Nat) : Nat :=
  bisect (fun i => lines.starts[i]?.any (·.offset ≤ offset)) 0 lines.starts.size

theorem lineAt_lt (lines : Lines) (offset : Nat) : lines.lineAt offset < lines.starts.size :=
  bisect_lt lines.starts_pos

/-- The line and column of an offset. -/
def locate (lines : Lines) (offset : Nat) : Location :=
  let place := min offset lines.size
  have := lines.lineAt_lt place
  let start := lines.starts[lines.lineAt place]
  let bytes := place - start.offset
  ⟨lines.lineAt place + 1, (charsBefore? bytes start.text).getD bytes + 1⟩

/-- The region from `start` to `stop`, which are kept as they are. -/
def span (lines : Lines) (start stop : Nat) : Span :=
  ⟨start, stop, lines.locate start⟩

end Lines

end TagLint
