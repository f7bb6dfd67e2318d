import TagLint.Text.Blank
import TagLint.Text.Class
import TagLint.Text.Cut
import TagLint.Location.Basic

/-!
# Tags

A tag is kept as it is written, from its `<` through its `>`, with its name and its place. The
name follows the `<` and the slash of a closing tag, and may be empty. Whether a tag is closing
or self-closing is read off its text.
-/

namespace TagLint

/-- A tag of a source. -/
structure Tag where
  /-- The tag as written, with its delimiters. -/
  text : String
  /-- The name as written; empty for a fragment. -/
  name : String
  /-- Where the tag stands. -/
  span : Span
  deriving DecidableEq, Repr

namespace Tag

/-- A text after the `<` and the slash that may stand in front of a tag's name. -/
def afterOpener (text : List Char) : List Char :=
  Text.dropOptional '/' (Text.dropOptional '<' text)

/-- The name of the tag at the front of a text. -/
def nameOf (text : List Char) : List Char :=
  (afterOpener text).takeWhile Text.isTagNameChar

/-- A text after the name of the tag at its front. -/
def afterName (text : List Char) : List Char :=
  (afterOpener text).dropWhile Text.isTagNameChar

/-- A tag that closes an element: a slash follows the `<`. -/
def isClosing (tag : Tag) : Bool :=
  ['<', '/'].isPrefixOf tag.text.toList

/-- A tag without content: a slash stands before the `>`, blanks aside. -/
def isSelfClosing (tag : Tag) : Bool :=
  match tag.text.toList.reverse with
  | '>' :: body => (body.dropWhile Text.isBlank).head? == some '/'
  | _ => false

end Tag

end TagLint
