/-!
# Places in a source

A place is known by its byte offset, and for people by its line and column, both counted from one.
-/

namespace TagLint

/-- A line and a column, both counted from one. -/
structure Location where
  /-- One more than the newlines before the place. -/
  line : Nat
  /-- One more than the characters before the place on its line. -/
  column : Nat
  deriving DecidableEq, Repr

/-- A region of a source, with the location of its start. -/
structure Span where
  /-- The offset of the first byte. -/
  start : Nat
  /-- The offset just past the last byte. -/
  stop : Nat
  /-- Where the region starts. -/
  location : Location
  deriving DecidableEq, Repr

end TagLint
