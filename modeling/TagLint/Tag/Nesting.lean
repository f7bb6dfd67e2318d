import TagLint.Script.Atom

/-!
# Where a tag ends

Quotes, braces and backslashes hide a `>`, so the end of a tag is found by reading it from its
`<` on and keeping account of what is open.

- `Nesting`: what is open at a place inside a tag, and where it was opened. A quote is open on its
  own; braces may stand in braces; the two never mix, since literals in braces are read whole.
- `Nesting.step`: what one character does.
- `tagLength`: the length of the tag at the front of a text, or what the end of the text leaves
  open.

Places are counted in characters from the tag's `<`.
-/

namespace TagLint

/-- What is open at a place inside a tag. -/
inductive Nesting where
  /-- The tag alone. -/
  | tag
  /-- A quoted value, and the place of its opening quote. -/
  | quoted (quote : Char) (opened : Nat)
  /-- A braced expression, the place of its opening brace, and those of the braces around it from
  the inside out. -/
  | braced (opened : Nat) (outer : List Nat)
  deriving DecidableEq, Repr

namespace Nesting

/-- What a character inside a tag does. -/
inductive Step where
  /-- It ends the tag. -/
  | finish
  /-- It is read together with the `tail` characters after it, and `next` is open then. -/
  | read (next : Nesting) (tail : Nat)
  deriving DecidableEq, Repr

/-- The place where the innermost open thing was opened. -/
def opened : Nesting → Nat
  | tag => 0
  | quoted _ opened => opened
  | braced opened _ => opened

/-- What is open once the innermost of some braces is closed. -/
def ofOuter : List Nat → Nesting
  | [] => tag
  | opened :: outer => braced opened outer

/-- What the character `c` at `place` does, with `rest` after it. A backslash takes the next
character along, except in braces, where an atom of the script is read whole. -/
def step (nest : Nesting) (place : Nat) (c : Char) (rest : List Char) : Step :=
  match nest with
  | tag =>
    if c = '>' then .finish
    else if c = '\\' then .read tag 1
    else if c = '"' || c = '\'' then .read (quoted c place) 0
    else if c = '{' then .read (braced place []) 0
    else .read tag 0
  | quoted quote opened =>
    if c = '\\' then .read (quoted quote opened) 1
    else if c = quote then .read tag 0
    else .read (quoted quote opened) 0
  | braced opened outer =>
    if c = '{' then .read (braced place (opened :: outer)) 0
    else if c = '}' then .read (ofOuter outer) 0
    else .read (braced opened outer) (Script.atomTail c rest)

/-- Reads on from `place` to the end of the tag. Answers with the place just past the tag, or with
what is open at the end of the text. -/
def finish (nest : Nesting) (place : Nat) : List Char → Except Nesting Nat
  | [] => .error nest
  | c :: rest =>
    match nest.step place c rest with
    | .finish => .ok (place + 1)
    | .read next tail => next.finish (place + 1 + tail) (rest.drop tail)
termination_by text => text.length
decreasing_by simp only [List.length_drop, List.length_cons]; omega

/-- The end of a tag is behind the place where the reading of it began. -/
theorem lt_of_finish {nest : Nesting} {place stop : Nat} {text : List Char}
    (h : nest.finish place text = .ok stop) : place < stop := by
  fun_induction finish nest place text with
  | case1 => simp at h
  | case2 nest place c rest hstep => cases h; exact Nat.lt_succ_self place
  | case3 nest place c rest next tail hstep ih => exact Nat.lt_trans (by omega) (ih h)

end Nesting

/-- The length of the tag whose `<` is the first character of a text, or what the text leaves
open. -/
def tagLength (text : List Char) : Except Nesting Nat :=
  Nesting.tag.finish 1 (text.drop 1)

theorem tagLength_pos {text : List Char} {length : Nat} (h : tagLength text = .ok length) :
    0 < length :=
  Nat.lt_trans Nat.one_pos (Nesting.lt_of_finish h)

end TagLint
