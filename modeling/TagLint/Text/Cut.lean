/-!
# Cutting a text

The small operations with which the readers take a text apart: drop a character that may stand
in front, and find where the first closer ends.
-/

namespace TagLint.Text

/-- A text without the character `c` in front, if it has it. -/
def dropOptional (c : Char) : List Char → List Char
  | [] => []
  | d :: rest => if d = c then rest else d :: rest

/-- The number of characters through the end of the first `closer` in a text. -/
def through? (closer : List Char) (text : List Char) : Option Nat :=
  go 0 text
where
  /-- Looks for the closer after `taken` characters. -/
  go (taken : Nat) : List Char → Option Nat
    | [] => if closer.isEmpty then some taken else none
    | c :: rest =>
      if closer.isPrefixOf (c :: rest) then some (taken + closer.length) else go (taken + 1) rest

end TagLint.Text
