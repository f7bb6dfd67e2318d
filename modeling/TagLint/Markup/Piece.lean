import TagLint.Markup.Comment
import TagLint.Tag.Nesting

/-!
# Pieces of a source

Outside tags a source is read piece by piece. A piece is a comment, a tag, a backslash with the
character after it, or any other character. `Piece.front` says what stands at the front of a text;
the order of its questions decides where several answers are possible. A piece is never empty.
-/

namespace TagLint

/-- What stands at the front of a text outside tags. -/
inductive Piece where
  /-- A backslash, which takes the next character along. -/
  | escape
  /-- Any other character. -/
  | plain
  /-- A comment that is closed. -/
  | comment (length : Nat)
  /-- A tag that is closed. -/
  | tag (length : Nat)
  /-- A comment that the text leaves open. -/
  | openComment (kind : CommentKind)
  /-- A tag that the text leaves open, and what is open at the end. -/
  | openTag (nest : Nesting)
  deriving DecidableEq, Repr

namespace Piece

/-- Whether a text opens a tag: `<` with a letter or a slash after it. -/
def opensTag : List Char → Bool
  | '<' :: c :: _ => c.isAlpha || c = '/'
  | _ => false

/-- The comment at the front of a text that opens with one. -/
def ofComment (kind : CommentKind) (text : List Char) : Piece :=
  match kind.length? text with
  | some length => .comment length
  | none => .openComment kind

/-- The tag at the front of a text that opens one. -/
def ofTag (text : List Char) : Piece :=
  match tagLength text with
  | .ok length => .tag length
  | .error nest => .openTag nest

/-- What stands at the front of the text that `c` begins and `rest` continues. -/
def front (c : Char) (rest : List Char) : Piece :=
  if c = '\\' then .escape
  else match CommentKind.opening? (c :: rest) with
  | some kind => ofComment kind (c :: rest)
  | none => if opensTag (c :: rest) then ofTag (c :: rest) else .plain

theorem ofComment_eq_comment {kind : CommentKind} {text : List Char} {length : Nat} :
    ofComment kind text = .comment length ↔ kind.length? text = some length := by
  unfold ofComment
  split <;> simp [*]

theorem ofTag_eq_tag {text : List Char} {length : Nat} :
    ofTag text = .tag length ↔ tagLength text = .ok length := by
  unfold ofTag
  split <;> simp [*]

/-- A closed comment has characters. -/
theorem length_pos_of_comment {c : Char} {rest : List Char} {length : Nat}
    (h : front c rest = .comment length) : 0 < length := by
  unfold front at h
  split at h
  · simp at h
  · split at h
    · exact CommentKind.length?_pos (ofComment_eq_comment.1 h)
    · split at h
      · unfold ofTag at h
        split at h <;> simp at h
      · simp at h

/-- A closed tag has characters. -/
theorem length_pos_of_tag {c : Char} {rest : List Char} {length : Nat}
    (h : front c rest = .tag length) : 0 < length := by
  unfold front at h
  split at h
  · simp at h
  · split at h
    · unfold ofComment at h
      split at h <;> simp at h
    · split at h
      · exact tagLength_pos (ofTag_eq_tag.1 h)
      · simp at h

end Piece

end TagLint
