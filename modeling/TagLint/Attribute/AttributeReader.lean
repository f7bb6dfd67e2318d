import TagLint.Attribute.Segment
import TagLint.Tag.Basic

/-!
# Reading the attributes of a tag

An `AttributeReader` is a place behind a tag's name. It goes on segment by segment and stops where
something occurs.

- `AttributeReader.segment?`: the next segment, and the reader behind it.
- `AttributeReader.next?`: the next occurrence, and the reader behind its segment.
- `AttributeReader.occurrences`: all that are left.
- `Tag.occurrences`, `Tag.attributes`: those of a tag.

At the tail of a tag there is no segment, so nothing follows there. Every segment takes the place
further (`segment?_length_lt`), so a reader comes to its end.
-/

namespace TagLint

/-- A place among the attributes of a tag. -/
structure AttributeReader where
  /-- The offset of the place in the source. -/
  offset : Nat
  /-- The tag's text from the place on. -/
  rest : List Char
  deriving DecidableEq, Repr

namespace AttributeReader

/-- The reader behind the name of a tag whose text stands at an offset. -/
def ofText (offset : Nat) (text : List Char) : AttributeReader :=
  let rest := Tag.afterName text
  ⟨offset + (Text.byteSize text - Text.byteSize rest), rest⟩

/-- The reader behind the name of a tag. -/
def ofTag (tag : Tag) : AttributeReader :=
  ofText tag.span.start tag.text.toList

/-- The reader behind a segment. -/
def advance (r : AttributeReader) (segment : Segment) : AttributeReader :=
  ⟨r.offset + Text.byteSize segment.text, r.rest.drop segment.text.length⟩

/-- The next segment, and the reader behind it. -/
def segment? (r : AttributeReader) : Option (Segment × AttributeReader) :=
  match r.rest with
  | [] => none
  | c :: rest => (Segment.front? c rest).map fun segment => (segment, r.advance segment)

/-- A segment takes the place further. -/
theorem segment?_length_lt {r behind : AttributeReader} {segment : Segment}
    (h : r.segment? = some (segment, behind)) : behind.rest.length < r.rest.length := by
  unfold segment? at h
  split at h
  · cases h
  · rename_i c rest hrest
    obtain ⟨_, hfront, heq⟩ := Option.map_eq_some_iff.1 h
    cases heq
    have := List.length_pos_iff.2 (Segment.text_ne_nil hfront)
    simp only [advance, List.length_drop, hrest, List.length_cons]
    omega

/-- The next occurrence, and the reader behind its segment. -/
def next? (r : AttributeReader) : Option (Occurrence × AttributeReader) :=
  match h : r.segment? with
  | none => none
  | some (segment, behind) =>
    have := segment?_length_lt h
    match segment.occurrence? r.offset with
    | some found => some (found, behind)
    | none => behind.next?
termination_by r.rest.length

/-- An occurrence takes the place further. -/
theorem next?_length_lt {r behind : AttributeReader} {found : Occurrence}
    (h : r.next? = some (found, behind)) : behind.rest.length < r.rest.length := by
  fun_induction next? r with
  | case1 => cases h
  | case2 r segment ahead hsegment hlt found hfound => cases h; exact hlt
  | case3 r segment ahead hsegment hlt hnone ih => exact Nat.lt_trans (ih h) hlt

/-- The occurrences that are left, in order. -/
def occurrences (r : AttributeReader) : List Occurrence :=
  go [] r
where
  /-- Goes on behind the occurrences of `before`, which has the last one first. -/
  go (before : List Occurrence) (r : AttributeReader) : List Occurrence :=
    match h : r.next? with
    | none => before.reverse
    | some (found, behind) =>
      have := next?_length_lt h
      go (found :: before) behind
  termination_by r.rest.length

end AttributeReader

/-- What occurs among the attributes of a tag, in order. -/
def Tag.occurrences (tag : Tag) : List Occurrence :=
  (AttributeReader.ofTag tag).occurrences

/-- The attributes of a tag, in order. -/
def Tag.attributes (tag : Tag) : List Attribute :=
  tag.occurrences.filterMap Occurrence.declared?

end TagLint
