/-!
# Character classes of tags

White space between attributes and the characters of names are ASCII: a character outside ASCII
is in none of these classes.
-/

namespace TagLint.Text

/-- White space inside a tag: blank, tab, newline, form feed and carriage return. -/
def isSpace (c : Char) : Bool :=
  c = ' ' || c = '\t' || c = '\n' || c = '\x0c' || c = '\r'

/-- The characters of an attribute name. -/
def isNameChar (c : Char) : Bool :=
  c.isAlphanum || c = ':' || c = '_' || c = '-'

/-- The characters of a tag name: a point joins the parts of a member name. -/
def isTagNameChar (c : Char) : Bool :=
  isNameChar c || c = '.'

/-- A name ends where white space begins. -/
theorem not_isNameChar_of_isSpace {c : Char} (h : isSpace c = true) : isNameChar c = false := by
  simp only [isSpace, Bool.or_eq_true, decide_eq_true_eq] at h
  rcases h with (((rfl | rfl) | rfl) | rfl) | rfl <;> rfl

theorem not_isSpace_of_isNameChar {c : Char} (h : isNameChar c = true) : isSpace c = false := by
  rw [Bool.eq_false_iff]
  intro hspace
  rw [not_isNameChar_of_isSpace hspace] at h
  cases h

end TagLint.Text
