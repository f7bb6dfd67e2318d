import TagLint.Text.Cut

/-!
# Atoms of a script

The text between braces is a script. It is read atom by atom: a literal or comment that is closed
is one atom, and so is every other character. A quote or a comment opener that nothing closes is
an ordinary character, so an apostrophe in running text cannot swallow what follows.

- `literalTail?`: from an opening quote to the quote that closes it.
- `commentTail?`: from the slash of a comment to its end.
- `atomTail`: how many of the characters after `c` belong to the atom that `c` opens.

The three count the characters after the one that opens the atom.
-/

namespace TagLint.Script

/-- The quote of a template, which newlines do not end. -/
def templateQuote : Char := '\x60'

/-- The characters that open a literal. -/
def isQuote (c : Char) : Bool :=
  c = '\'' || c = '"' || c = templateQuote

/-- The characters of a literal after its opening quote: through the first such quote that no
backslash escapes. A newline that no backslash escapes leaves the literal open, except in a
template, and so does the end of the text. -/
def literalTail? (quote : Char) (text : List Char) : Option Nat :=
  go 0 text
where
  /-- Goes on after `taken` characters. -/
  go (taken : Nat) : List Char → Option Nat
    | [] => none
    | c :: rest =>
      if c = '\\' then
        match rest with
        | [] => none
        | _ :: rest => go (taken + 2) rest
      else if c = '\n' && quote != templateQuote then none
      else if c = quote then some (taken + 1)
      else go (taken + 1) rest

/-- The characters of a comment after its slash. A line comment ends before the newline, and is
closed by the end of the text too. A block comment ends with the first closer after its opener. -/
def commentTail? : List Char → Option Nat
  | '/' :: rest => some (1 + (rest.takeWhile (· != '\n')).length)
  | '*' :: rest => (Text.through? ['*', '/'] rest).map (1 + ·)
  | _ => none

/-- How many of the characters of `rest`, which follows `c`, belong to the atom that `c` opens. -/
def atomTail (c : Char) (rest : List Char) : Nat :=
  if c = '/' then (commentTail? rest).getD 0
  else if isQuote c then (literalTail? c rest).getD 0
  else 0

end TagLint.Script
