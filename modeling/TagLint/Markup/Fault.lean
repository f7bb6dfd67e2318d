import TagLint.Location.Basic
import TagLint.Markup.Comment
import TagLint.Tag.Nesting

/-!
# Faults

Reading a source stops at the first thing that the end of the source leaves open. The fault is
put on the innermost such thing: inside a tag that is the last quote or brace still open, and the
message then also says where the tag is.
-/

namespace TagLint

/-- Something that the end of a source leaves open. -/
inductive Unclosed where
  /-- A comment outside tags. -/
  | comment (kind : CommentKind)
  /-- A tag, in which nothing else is open. -/
  | tag (name : String)
  /-- A quoted value in the tag at `place`. -/
  | quoted (quote : Char) (place : Location)
  /-- A braced expression in the tag at `place`. -/
  | braced (place : Location)
  deriving DecidableEq, Repr

namespace Unclosed

/-- The innermost thing that is open inside the tag of a name at a place. -/
def ofNesting (name : String) (place : Location) : Nesting → Unclosed
  | .tag => .tag name
  | .quoted quote _ => .quoted quote place
  | .braced _ _ => .braced place

/-- What is open in the tag at a place, in words. -/
def inTag (noun : String) (place : Location) : String :=
  s!"unterminated {noun} in tag opened at line {place.line}, column {place.column}"

/-- What is open, in words. -/
def message : Unclosed → String
  | comment kind => "unterminated comment `" ++ String.ofList kind.opener ++ "`"
  | tag name => "unterminated tag `<" ++ name ++ "`"
  | quoted quote place =>
    inTag (if quote = '\'' then "single-quoted value" else "double-quoted value") place
  | braced place => inTag "brace expression" place

end Unclosed

/-- What stopped the reading of a source, and where. -/
structure Fault where
  /-- What is wrong, in words. -/
  message : String
  /-- The offset that is to blame. -/
  offset : Nat
  /-- The location of that offset. -/
  location : Location
  deriving DecidableEq, Repr

/-- A fault in one line of text. -/
def Fault.display (fault : Fault) : String :=
  let place := fault.location
  s!"Malformed tag at line {place.line}, column {place.column}: {fault.message}"

end TagLint
