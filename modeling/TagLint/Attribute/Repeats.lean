import TagLint.Attribute.Basic

/-!
# Repeated names

`Attribute.repeats` goes through attributes in order and keeps the first of every name. Names are
compared as written, so two names that differ in case are different.
-/

namespace TagLint.Attribute

/-- The attributes whose name occurred before, each behind the first attribute of that name.
`seen` holds the first attribute of every name so far. -/
def repeats (seen : List Attribute) : List Attribute → List (Attribute × Attribute)
  | [] => []
  | found :: rest =>
    match seen.find? (·.name = found.name) with
    | some first => (first, found) :: repeats seen rest
    | none => repeats (found :: seen) rest

end TagLint.Attribute
