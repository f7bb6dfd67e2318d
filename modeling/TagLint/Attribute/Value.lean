import TagLint.Script.Braced
import TagLint.Text.Class

/-!
# Attribute values

How far a value reaches, so that nothing in it is taken for an attribute. A value is quoted,
braced, or a run without white space and `>`. A quoted or braced value that nothing closes reaches
to the end of the text.

- `quotedTail`: from an opening quote on.
- `valueLength`: the value at the front of a text.
- `assignmentLength`: white space, `=`, white space and a value; nothing without `=`.
-/

namespace TagLint.Attribute

/-- The characters of a quoted value after its opening quote: through the first such quote that
no backslash escapes, or the whole text. -/
def quotedTail (quote : Char) (text : List Char) : Nat :=
  go 0 text
where
  /-- Goes on after `taken` characters. -/
  go (taken : Nat) : List Char → Nat
    | [] => taken
    | c :: rest =>
      if c = '\\' then
        match rest with
        | [] => taken + 1
        | _ :: rest => go (taken + 2) rest
      else if c = quote then taken + 1
      else go (taken + 1) rest

/-- The characters of an unquoted value. -/
def isBare (c : Char) : Bool :=
  !Text.isSpace c && c != '>'

/-- The length of the value at the front of a text. -/
def valueLength : List Char → Nat
  | [] => 0
  | c :: rest =>
    if c = '"' || c = '\'' then 1 + quotedTail c rest
    else if c = '{' then 1 + Script.bracedTail rest
    else ((c :: rest).takeWhile isBare).length

/-- The length of the `=` and the value at the front of a text, with the white space before each;
zero if there is no `=`. -/
def assignmentLength (text : List Char) : Nat :=
  match text.dropWhile Text.isSpace with
  | '=' :: rest =>
    (text.takeWhile Text.isSpace).length + 1 + (rest.takeWhile Text.isSpace).length
      + valueLength (rest.dropWhile Text.isSpace)
  | _ => 0

end TagLint.Attribute
