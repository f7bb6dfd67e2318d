import TagLint.Script.Atom

/-!
# Braced expressions

The extent of a script in braces. Only braces that are atoms of their own count, so those in
literals and comments do not.
-/

namespace TagLint.Script

/-- The characters of a braced expression after its opening brace: through the brace that
balances it, or the whole text when none does. -/
def bracedTail (text : List Char) : Nat :=
  go 0 0 text
where
  /-- Goes on after `taken` characters, with `outer` braces open around the innermost one. -/
  go (outer taken : Nat) : List Char → Nat
    | [] => taken
    | c :: rest =>
      if c = '{' then go (outer + 1) (taken + 1) rest
      else if c = '}' then
        match outer with
        | 0 => taken + 1
        | outer + 1 => go outer (taken + 1) rest
      else
        let tail := atomTail c rest
        go outer (taken + 1 + tail) (rest.drop tail)
  termination_by text => text.length
  decreasing_by all_goals simp only [List.length_drop, List.length_cons]; omega

end TagLint.Script
