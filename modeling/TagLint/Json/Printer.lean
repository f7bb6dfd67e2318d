import TagLint.Json.Value

/-!
# Printing JSON

Values are printed over several lines: every item of an array and every member of an object has a
line of its own, two blanks deeper than what holds it, and an array without items is `[]`. Of a
string only quotes, backslashes and control characters are escaped, the latter in their short form
where there is one.
-/

namespace TagLint.Json

/-- A character inside a quoted string. -/
def escape (c : Char) : List Char :=
  if c = '"' then ['\\', '"']
  else if c = '\\' then ['\\', '\\']
  else if c = '\x08' then ['\\', 'b']
  else if c = '\x0c' then ['\\', 'f']
  else if c = '\n' then ['\\', 'n']
  else if c = '\r' then ['\\', 'r']
  else if c = '\t' then ['\\', 't']
  else if c.toNat < 0x20 then
    ['\\', 'u', '0', '0', Nat.digitChar (c.toNat / 16), Nat.digitChar (c.toNat % 16)]
  else [c]

/-- A text as a quoted string. -/
def quote (text : List Char) : List Char :=
  '"' :: (text.flatMap escape ++ ['"'])

/-- The start of a line at a depth of nesting. -/
def newline (depth : Nat) : List Char :=
  '\n' :: List.replicate (2 * depth) ' '

namespace Value

mutual

/-- A value that stands at a depth of nesting. -/
def print (depth : Nat) : Value → List Char
  | bool true => ['t', 'r', 'u', 'e']
  | bool false => ['f', 'a', 'l', 's', 'e']
  | number value => Nat.toDigits 10 value
  | string value => quote value.toList
  | array [] => ['[', ']']
  | array (item :: items) =>
    '[' :: (printItems (depth + 1) (item :: items) ++ newline depth ++ [']'])
  | object [] => ['{', '}']
  | object (member :: members) =>
    '{' :: (printMembers (depth + 1) (member :: members) ++ newline depth ++ ['}'])

/-- The items of an array, each on a line of its own. -/
def printItems (depth : Nat) : List Value → List Char
  | [] => []
  | [item] => newline depth ++ item.print depth
  | item :: items => newline depth ++ item.print depth ++ ',' :: printItems depth items

/-- The members of an object, each on a line of its own. -/
def printMembers (depth : Nat) : List (String × Value) → List Char
  | [] => []
  | [(name, value)] => newline depth ++ quote name.toList ++ ':' :: ' ' :: value.print depth
  | (name, value) :: members =>
    newline depth ++ quote name.toList ++ ':' :: ' ' :: value.print depth
      ++ ',' :: printMembers depth members

end

/-- The text of a value. -/
def render (value : Value) : String :=
  String.ofList (value.print 0)

end Value

end TagLint.Json
