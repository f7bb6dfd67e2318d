import TagLint.Lint.Finding
import TagLint.Proofs.Location.Lines
import TagLint.Proofs.Text.LineEnds

/-!
# Locations with another line end

A carriage return before a newline is the last character of its line, so the characters that are
the same have the same lines and columns.

- `Location.behind_crlf`: counting over a text and over its counterpart.
- `Lines.locate_crlf`: the counterpart of a place has the same location.
- `Span.crlf`, `Tag.crlf`, `Fault.crlf`: the counterparts of what is found in a source.
-/

namespace TagLint

open Text

/-- Behind the counterpart of a text is the location behind the text. -/
theorem Location.behind_crlf (place : Location) (text : List Char) :
    place.behind (crlf text) = place.behind text := by
  induction text generalizing place with
  | nil => rfl
  | cons c rest ih =>
    by_cases hc : c = '\n'
    · subst hc
      exact ih _
    · rw [crlf_cons hc, behind_cons, behind_cons, ih]

/-- **The counterpart of a place has the same location.** -/
theorem Lines.locate_crlf (before rest : List Char) :
    (ofText (crlf (before ++ rest))).locate (byteSize (crlf before)) =
      (ofText (before ++ rest)).locate (byteSize before) := by
  rw [crlf_append, locate_ofText, locate_ofText, Location.behind_crlf]

/-! ### What is found in a source -/

/-- The counterpart of a region of a source. -/
def Span.crlf (source : List Char) (span : Span) : Span :=
  ⟨crlfOffset source span.start, crlfOffset source span.stop, span.location⟩

/-- The counterpart of a tag of a source. -/
def Tag.crlf (source : List Char) (tag : Tag) : Tag :=
  ⟨String.ofList (Text.crlf tag.text.toList), tag.name, tag.span.crlf source⟩

/-- The counterpart of a fault of a source. -/
def Fault.crlf (source : List Char) (fault : Fault) : Fault :=
  ⟨fault.message, crlfOffset source fault.offset, fault.location⟩

/-- The region from a place through some characters has its counterpart from the counterpart of the
place through the counterparts of the characters. -/
theorem Lines.span_crlf (before text rest : List Char) :
    (ofText (crlf (before ++ (text ++ rest)))).span (byteSize (crlf before))
        (byteSize (crlf before) + byteSize (crlf text)) =
      ((ofText (before ++ (text ++ rest))).span (byteSize before)
        (byteSize before + byteSize text)).crlf (before ++ (text ++ rest)) := by
  rw [span, span, Span.crlf, locate_crlf before (text ++ rest), crlfOffset_append,
    ← byteSize_append, ← byteSize_append, ← crlf_append, ← List.append_assoc before,
    crlfOffset_append]

end TagLint
