import TagLint.Attribute.AttributeReader
import TagLint.Attribute.Repeats
import TagLint.Lint.Finding
import TagLint.Location.Lines

/-!
# Remarks on one tag

The remarks on a tag are a finding for every attribute that repeats a name, and a warning for
every character out of place. A closing tag has none.
-/

namespace TagLint

/-- What is reported of one tag. -/
structure Remarks where
  /-- The repeated names, in the order of the repetitions. -/
  findings : List Finding
  /-- The faults, in order. -/
  warnings : List Warning
  deriving DecidableEq, Repr

/-- The region of an attribute's name. -/
def Attribute.span (found : Attribute) (lines : Lines) : Span :=
  lines.span found.offset (found.offset + found.name.utf8ByteSize)

/-- The finding that an attribute repeats the name of an earlier one. -/
def Finding.ofRepeat (tag : Tag) (lines : Lines) (first found : Attribute) : Finding :=
  ⟨tag, found.name, first.span lines, found.span lines⟩

/-- The warning of a character out of place. -/
def Warning.ofStray (tag : Tag) (lines : Lines) (found : Char) (offset : Nat) : Warning where
  cause := .stray
  message := "unexpected character `" ++ String.singleton found ++ "` in attributes of `<"
    ++ tag.name ++ ">`"
  span := lines.span offset (offset + found.utf8Size)

/-- The warning of what occurs among attributes; an attribute has none. -/
def Warning.ofOccurrence? (tag : Tag) (lines : Lines) : Occurrence → Option Warning
  | .declared _ => none
  | .stray found offset => some (.ofStray tag lines found offset)

/-- What is reported of a tag in a source with these lines. -/
def Tag.remarks (tag : Tag) (lines : Lines) : Remarks :=
  if tag.isClosing then ⟨[], []⟩
  else
    let occurrences := tag.occurrences
    { findings := (Attribute.repeats [] (occurrences.filterMap Occurrence.declared?)).map
        fun (first, found) => .ofRepeat tag lines first found
      warnings := occurrences.filterMap (Warning.ofOccurrence? tag lines) }

end TagLint
