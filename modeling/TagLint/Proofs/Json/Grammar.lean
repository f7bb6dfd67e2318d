import TagLint.Json.Value
import TagLint.Proofs.Text.Extent

/-!
# The grammar of JSON texts

A text stands for a value in two steps: the text is a sequence of tokens with white space around
them, and the tokens are those of the value. The grammar is that of JSON, less what no value here
needs: null, and numbers with a sign, a fraction or an exponent.

- `Value.tokens`: the tokens of a value, which are the same in every text of it.
- `Spells`: the texts of a sequence of tokens. Characters of strings may be written in any of their
  forms.
- `Value.IsText`: the texts of a value.
-/

namespace TagLint.Json

/-- A token of a JSON text. -/
inductive Token where
  /-- A bracket, a brace, a colon or a comma. -/
  | mark (found : Char)
  /-- A truth value. -/
  | literal (value : Bool)
  /-- A natural number. -/
  | number (value : Nat)
  /-- A string: an item, a member or the name of a member. -/
  | string (value : String)
  deriving DecidableEq, Repr

namespace Value

mutual

/-- The tokens of a value. -/
def tokens : Value → List Token
  | bool value => [.literal value]
  | number value => [.number value]
  | string value => [.string value]
  | array items => .mark '[' :: (itemTokens items ++ [.mark ']'])
  | object members => .mark '{' :: (memberTokens members ++ [.mark '}'])

/-- The tokens of the items of an array, with a comma between any two. -/
def itemTokens : List Value → List Token
  | [] => []
  | [item] => item.tokens
  | item :: items => item.tokens ++ .mark ',' :: itemTokens items

/-- The tokens of the members of an object, with a comma between any two. -/
def memberTokens : List (String × Value) → List Token
  | [] => []
  | [(name, value)] => .string name :: .mark ':' :: value.tokens
  | (name, value) :: members =>
    .string name :: .mark ':' :: (value.tokens ++ .mark ',' :: memberTokens members)

end

end Value

/-! ### Words -/

/-- The value of a hexadecimal digit in either case. -/
def hexDigit? (c : Char) : Option Nat :=
  if c.isDigit then some (c.toNat - '0'.toNat)
  else if 'a' ≤ c ∧ c ≤ 'f' then some (c.toNat - 'a'.toNat + 10)
  else if 'A' ≤ c ∧ c ≤ 'F' then some (c.toNat - 'A'.toNat + 10)
  else none

/-- The value of four hexadecimal digits. -/
def code? (a b c d : Char) : Option Nat := do
  return 0x1000 * (← hexDigit? a) + 0x100 * (← hexDigit? b) + 0x10 * (← hexDigit? c)
    + (← hexDigit? d)

/-- What a short escape stands for. -/
def short? : Char → Option Char
  | '"' => some '"'
  | '\\' => some '\\'
  | '/' => some '/'
  | 'b' => some '\x08'
  | 'f' => some '\x0c'
  | 'n' => some '\n'
  | 'r' => some '\r'
  | 't' => some '\t'
  | _ => none

/-- The code units that stand only in pairs are not the codes of characters. -/
def isHigh (code : Nat) : Bool :=
  0xD800 ≤ code ∧ code < 0xDC00

@[inherit_doc isHigh]
def isLow (code : Nat) : Bool :=
  0xDC00 ≤ code ∧ code < 0xE000

/-- The code of the character that a pair of code units stands for. -/
def pairCode (high low : Nat) : Nat :=
  0x10000 + 0x400 * (high - 0xD800) + (low - 0xDC00)

/-- A character that stands for itself inside a string. -/
def isPlain (c : Char) : Bool :=
  0x20 ≤ c.toNat && c != '"' && c != '\\'

/-- The forms of a character inside a string. -/
inductive Writes : List Char → Char → Prop where
  /-- The character itself. -/
  | plain {c : Char} (h : isPlain c = true) : Writes [c] c
  /-- A backslash and a letter or a mark. -/
  | short {letter c : Char} (h : short? letter = some c) : Writes ['\\', letter] c
  /-- The code of the character. -/
  | code {a b c d : Char} {code : Nat} (h : code? a b c d = some code)
      (hhigh : isHigh code = false) (hlow : isLow code = false) :
      Writes ['\\', 'u', a, b, c, d] (Char.ofNat code)
  /-- The two units of a character that one unit does not hold. -/
  | pair {a b c d a' b' c' d' : Char} {high low : Nat} (h : code? a b c d = some high)
      (h' : code? a' b' c' d' = some low) (hhigh : isHigh high = true) (hlow : isLow low = true) :
      Writes ['\\', 'u', a, b, c, d, '\\', 'u', a', b', c', d'] (Char.ofNat (pairCode high low))

/-- The forms of a text inside a string. -/
inductive WritesAll : List Char → List Char → Prop where
  /-- Nothing. -/
  | nil : WritesAll [] []
  /-- One character, and the others behind it. -/
  | cons {word body text : List Char} {c : Char} (h : Writes word c) (hbody : WritesAll body text) :
      WritesAll (word ++ body) (c :: text)

/-- The marks. -/
def marks : List Char :=
  ['[', ']', '{', '}', ':', ',']

/-- The forms of a token. -/
inductive Word : List Char → Token → Prop where
  /-- A mark. -/
  | mark {c : Char} (h : c ∈ marks) : Word [c] (.mark c)
  /-- The word for true. -/
  | yes : Word ['t', 'r', 'u', 'e'] (.literal true)
  /-- The word for false. -/
  | no : Word ['f', 'a', 'l', 's', 'e'] (.literal false)
  /-- The decimal digits of a number. -/
  | number (value : Nat) : Word (Nat.toDigits 10 value) (.number value)
  /-- A text in quotes. -/
  | string {body : List Char} {value : String} (h : WritesAll body value.toList) :
    Word ('"' :: (body ++ ['"'])) (.string value)

/-- White space between tokens. -/
def isSpace (c : Char) : Bool :=
  c = ' ' || c = '\t' || c = '\n' || c = '\r'

/-- A text is a sequence of tokens, with white space around them. A number ends with its last
digit. -/
inductive Spells : List Char → List Token → Prop where
  /-- The text is over. -/
  | nil : Spells [] []
  /-- White space. -/
  | space {c : Char} {text : List Char} {tokens : List Token} (h : isSpace c = true)
      (htext : Spells text tokens) : Spells (c :: text) tokens
  /-- A token. -/
  | token {word text : List Char} {token : Token} {tokens : List Token} (h : Word word token)
      (hend : ∀ value, token = .number value → Text.Ends Char.isDigit text)
      (htext : Spells text tokens) : Spells (word ++ text) (token :: tokens)

/-- A text stands for a value: it is a text of the tokens of the value. -/
def Value.IsText (value : Value) (text : String) : Prop :=
  Spells text.toList value.tokens

end TagLint.Json
