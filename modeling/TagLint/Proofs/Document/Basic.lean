import TagLint.Lint.Scan
import TagLint.Proofs.Script.Braced

/-!
# Documents

The grammar of the sources that are read as they are meant. A document is given as the list of its
parts, and every piece of it carries the proof that it is well formed. From the parts follow the
text of the document, and what should be found in it.

- `Part`, `Part.text`: the parts of a document, and how they are written.
- `OpeningTag.attributesAt`: the attributes that an opening tag declares.
- `declarations`: the tags of a document with their attributes.
-/

namespace TagLint.Document

/-! ### Pieces of a tag -/

/-- White space, which may be empty. -/
structure Blanks where
  /-- The characters. -/
  text : List Char
  isSpace : ∀ c ∈ text, Text.isSpace c = true

/-- The name of a tag: a letter, then characters of tag names. -/
structure TagName where
  /-- The letter. -/
  initial : Char
  /-- The characters after it. -/
  rest : List Char
  isAlpha : initial.isAlpha = true
  isTagNameChar : ∀ c ∈ rest, Text.isTagNameChar c = true

/-- The name as written. -/
def TagName.text (name : TagName) : List Char :=
  name.initial :: name.rest

/-- The name of an attribute. -/
structure AttributeName where
  /-- The characters. -/
  text : List Char
  ne_nil : text ≠ []
  isNameChar : ∀ c ∈ text, Text.isNameChar c = true

/-- A character that may stand in an unquoted value. -/
def IsBareChar (c : Char) : Prop :=
  Text.isSpace c = false ∧ c ∉ ['>', '\'', '"', '{', '\\']

/-- The value of an attribute. -/
inductive Value where
  /-- A text in quotes, in which a backslash takes any character along. -/
  | quoted (quote : Char) (body : List Char) (isQuote : quote = '\'' ∨ quote = '"')
    (closed : Text.Escaped (· ≠ quote) body)
  /-- A run of characters. -/
  | bare (text : List Char) (ne_nil : text ≠ []) (isBare : ∀ c ∈ text, IsBareChar c)
  /-- A script in braces. -/
  | braced (inner : List Char) (items : Script.Items inner)

/-- The value as written. -/
def Value.text : Value → List Char
  | quoted quote body _ _ => quote :: (body ++ [quote])
  | bare text _ _ => text
  | braced inner _ => '{' :: (inner ++ ['}'])

/-- What stands among the attributes of a tag. -/
inductive Entry where
  /-- An attribute without a value. -/
  | flag (name : AttributeName)
  /-- An attribute with a value, and the white space around the `=`. -/
  | assigned (name : AttributeName) (before behind : Blanks) (value : Value)
  /-- A script in braces that stands for attributes. -/
  | spread (inner : List Char) (items : Script.Items inner)

/-- The entry as written. -/
def Entry.text : Entry → List Char
  | flag name => name.text
  | assigned name before behind value =>
    name.text ++ (before.text ++ '=' :: (behind.text ++ value.text))
  | spread inner _ => '{' :: (inner ++ ['}'])

/-- The attribute that an entry at an offset declares. -/
def Entry.attribute? (offset : Nat) : Entry → Option Attribute
  | flag name => some ⟨String.ofList name.text, offset⟩
  | assigned name _ _ _ => some ⟨String.ofList name.text, offset⟩
  | spread _ _ => none

/-- An entry with the white space in front of it, of which there is some. -/
structure SpacedEntry where
  /-- The white space. -/
  before : Blanks
  ne_nil : before.text ≠ []
  /-- The entry. -/
  entry : Entry

/-- The entry and the white space as written. -/
def SpacedEntry.text (spaced : SpacedEntry) : List Char :=
  spaced.before.text ++ spaced.entry.text

/-! ### Tags -/

/-- A tag that opens an element. -/
structure OpeningTag where
  /-- The name. -/
  name : TagName
  /-- What stands behind the name. -/
  entries : List SpacedEntry
  /-- The white space behind the last entry. -/
  before : Blanks
  /-- Whether a slash ends the element. -/
  slash : Bool
  /-- The white space in front of the `>`. -/
  behind : Blanks

namespace OpeningTag

/-- What stands behind the entries of the tag. -/
def tail (tag : OpeningTag) : List Char :=
  tag.before.text ++ ((if tag.slash then ['/'] else []) ++ (tag.behind.text ++ ['>']))

/-- The tag as written. -/
def text (tag : OpeningTag) : List Char :=
  '<' :: (tag.name.text ++ (tag.entries.flatMap SpacedEntry.text ++ tag.tail))

/-- The attributes that entries declare, the first of which stands with its white space at an
offset. -/
def entryAttributes (offset : Nat) : List SpacedEntry → List Attribute
  | [] => []
  | spaced :: rest =>
    (spaced.entry.attribute? (offset + Text.byteSize spaced.before.text)).toList ++
      entryAttributes (offset + Text.byteSize spaced.text) rest

/-- The attributes that a tag at an offset declares. -/
def attributesAt (offset : Nat) (tag : OpeningTag) : List Attribute :=
  entryAttributes (offset + Text.byteSize ('<' :: tag.name.text)) tag.entries

end OpeningTag

/-! ### Parts -/

/-- A part of a document. -/
inductive Part where
  /-- Text that opens nothing. -/
  | plain (text : List Char) (isPlain : ∀ c ∈ text, c ∉ ['<', '{', '\\'])
  /-- A backslash and the character that it takes along. -/
  | escape (c : Char)
  /-- A comment. -/
  | comment (kind : CommentKind) (body : List Char) (closed : ¬ kind.closer <:+: body)
  /-- A tag that closes an element. -/
  | closing (name : TagName) (behind : Blanks)
  /-- A tag that opens an element. -/
  | opening (tag : OpeningTag)

namespace Part

/-- A comment of the script is closed together with the braces around it. -/
def commentEnd : CommentKind → List Char
  | .markup => []
  | .script => ['}']

/-- The part as written. -/
def text : Part → List Char
  | plain text _ => text
  | escape c => ['\\', c]
  | comment kind body _ => kind.opener ++ (body ++ (kind.closer ++ commentEnd kind))
  | closing name behind => '<' :: '/' :: (name.text ++ (behind.text ++ ['>']))
  | opening tag => tag.text

/-- The name of a tag and the attributes that it declares at an offset; other parts are no tags. -/
def tag? (offset : Nat) : Part → Option (TagName × List Attribute)
  | plain _ _ => none
  | escape _ => none
  | comment _ _ _ => none
  | closing name _ => some (name, [])
  | opening tag => some (tag.name, tag.attributesAt offset)

end Part

/-! ### What should be found -/

/-- The text of a document. -/
def text (parts : List Part) : List Char :=
  parts.flatMap Part.text

/-- The tags of parts that begin at an offset, each with its attributes. -/
def declarations (lines : Lines) (offset : Nat) : List Part → List (Tag × List Attribute)
  | [] => []
  | part :: rest =>
    let stop := offset + Text.byteSize part.text
    ((part.tag? offset).map fun (name, attributes) =>
        (⟨String.ofList part.text, String.ofList name.text, lines.span offset stop⟩, attributes)
      ).toList ++ declarations lines stop rest

end TagLint.Document
