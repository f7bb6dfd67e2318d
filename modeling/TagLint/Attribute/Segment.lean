import TagLint.Attribute.Basic
import TagLint.Attribute.Value
import TagLint.Text.Size

/-!
# Segments of a tag

Behind its name a tag is read segment by segment: white space, a spread, an attribute with its
value, or a character out of place. `Segment.front?` says which segment stands at the front of a
text; there is none at the tail of the tag, which begins with `>` or with the slash of a
self-closing tag. A segment is never empty (`Segment.text_ne_nil`).
-/

namespace TagLint

/-- A part of a tag behind its name. -/
inductive Segment where
  /-- White space. -/
  | blank (text : List Char)
  /-- A braced expression that stands among the attributes. -/
  | spread (text : List Char)
  /-- An attribute: its name, and what assigns its value, which may be nothing. -/
  | declaration (name assignment : List Char)
  /-- A character that can begin none of these. -/
  | stray (found : Char)
  deriving DecidableEq, Repr

namespace Segment

/-- The characters of a segment. -/
def text : Segment → List Char
  | blank text => text
  | spread text => text
  | declaration name assignment => name ++ assignment
  | stray found => [found]

/-- What occurs with a segment that stands at an offset: white space and spreads are passed over. -/
def occurrence? (offset : Nat) : Segment → Option Occurrence
  | blank _ => none
  | spread _ => none
  | declaration name _ => some (.declared ⟨String.ofList name, offset⟩)
  | stray found => some (.stray found offset)

/-- Whether a slash before `rest` belongs to the end of the tag: nothing but white space stands
between it and the `>` or the end of the text. -/
def endsTag (rest : List Char) : Bool :=
  match rest.dropWhile Text.isSpace with
  | [] => true
  | c :: _ => c = '>'

/-- The attribute whose name `c` begins. -/
def ofName (c : Char) (rest : List Char) : Segment :=
  let behind := rest.dropWhile Text.isNameChar
  declaration (c :: rest.takeWhile Text.isNameChar)
    (behind.take (Attribute.assignmentLength behind))

/-- The segment at the front of the text that `c` begins and `rest` continues. -/
def front? (c : Char) (rest : List Char) : Option Segment :=
  if Text.isSpace c then some (blank (c :: rest.takeWhile Text.isSpace))
  else if c = '>' then none
  else if c = '/' && endsTag rest then none
  else if c = '{' then some (spread (c :: rest.take (Script.bracedTail rest)))
  else if Text.isNameChar c then some (ofName c rest)
  else some (stray c)

/-- A segment at the front of a text has characters. -/
theorem text_ne_nil {c : Char} {rest : List Char} {segment : Segment}
    (h : front? c rest = some segment) : segment.text ≠ [] := by
  unfold front? at h
  split at h
  · cases h; simp [text]
  split at h
  · cases h
  split at h
  · cases h
  split at h
  · cases h; simp [text]
  split at h
  · cases h; simp [text, ofName]
  · cases h; simp [text]

end Segment

end TagLint
