/-!
# Attributes

What the reading of a tag's attributes yields: attributes, and characters that can begin none.
Values are read past and not kept.
-/

namespace TagLint

/-- One declaration of an attribute. -/
structure Attribute where
  /-- The name as written. -/
  name : String
  /-- The offset of the name in the source. -/
  offset : Nat
  deriving DecidableEq, Repr

/-- What occurs among the attributes of a tag. -/
inductive Occurrence where
  /-- An attribute is declared. -/
  | declared (found : Attribute)
  /-- A character that can begin no attribute, and its offset in the source. -/
  | stray (found : Char) (offset : Nat)
  deriving DecidableEq, Repr

/-- The attribute that is declared. -/
def Occurrence.declared? : Occurrence → Option Attribute
  | declared found => some found
  | stray _ _ => none

end TagLint
