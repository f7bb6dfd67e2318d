import TagLint.Text.Cut

/-!
# Comments outside tags

Two kinds of comment may stand between tags, each with an opener and a closer of its own. The
closer is looked for after the whole opener.
-/

namespace TagLint

/-- The kinds of comment that may stand outside tags. -/
inductive CommentKind where
  /-- A comment of the markup. -/
  | markup
  /-- A braced expression that opens with a block comment of the script. -/
  | script
  deriving DecidableEq, Repr

namespace CommentKind

/-- The characters that open a comment. -/
def opener : CommentKind → List Char
  | markup => ['<', '!', '-', '-']
  | script => ['{', '/', '*']

/-- The characters that close a comment. -/
def closer : CommentKind → List Char
  | markup => ['-', '-', '>']
  | script => ['*', '/']

/-- The kind of comment that a text opens with. -/
def opening? (text : List Char) : Option CommentKind :=
  if markup.opener.isPrefixOf text then some markup
  else if script.opener.isPrefixOf text then some script
  else none

/-- The length of the comment at the front of a text that opens with one, unless the text leaves
it open. -/
def length? (kind : CommentKind) (text : List Char) : Option Nat :=
  (Text.through? kind.closer (text.drop kind.opener.length)).map (kind.opener.length + ·)

/-- A comment has at least the characters of its opener. -/
theorem length?_pos {kind : CommentKind} {text : List Char} {length : Nat}
    (h : kind.length? text = some length) : 0 < length := by
  obtain ⟨n, _, rfl⟩ := Option.map_eq_some_iff.1 h
  cases kind <;> simp only [opener, List.length_cons] <;> omega

end CommentKind

end TagLint
