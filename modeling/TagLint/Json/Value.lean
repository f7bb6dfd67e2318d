/-!
# JSON values

The values that a JSON text can hold, as far as reports need them: numbers are natural, and the
members of an object keep their order.
-/

namespace TagLint.Json

/-- A JSON value. -/
inductive Value where
  /-- A truth value. -/
  | bool (value : Bool)
  /-- A natural number. -/
  | number (value : Nat)
  /-- A string. -/
  | string (value : String)
  /-- An array. -/
  | array (items : List Value)
  /-- An object: its members, each with its name. -/
  | object (members : List (String × Value))
  deriving Repr

end TagLint.Json
