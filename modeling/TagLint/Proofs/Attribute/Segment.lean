import Mathlib.Data.List.TakeWhile
import TagLint.Attribute.Segment

/-!
# What a segment is made of

A segment is the front of the text it was read from (`Segment.text_prefix`). Its characters fall
into two kinds: `Segment.Hides` are those that are read past, as part of a value or of a spread,
and the others are white space, names and stray characters (`Segment.getElem?_text_cases`).
-/

namespace TagLint

namespace Segment

/-- The characters of a segment that are read past: all of a spread, and of an attribute what
assigns its value. -/
def Hides : Segment → Nat → Prop
  | blank _, _ => False
  | spread text, i => i < text.length
  | declaration name assignment, i => name.length ≤ i ∧ i < name.length + assignment.length
  | stray _, _ => False

theorem Hides.lt {segment : Segment} {i : Nat} (h : segment.Hides i) :
    i < segment.text.length := by
  cases segment with
  | blank => exact h.elim
  | spread text => exact h
  | declaration name assignment =>
    rw [text, List.length_append]
    exact h.2
  | stray => exact h.elim

/-- What the segment in front of a text may be. -/
theorem front?_cases {c : Char} {rest : List Char} {segment : Segment}
    (h : front? c rest = some segment) :
    (Text.isSpace c = true ∧ segment = blank (c :: rest.takeWhile Text.isSpace)) ∨
    (c = '{' ∧ segment = spread (c :: rest.take (Script.bracedTail rest))) ∨
    (Text.isNameChar c = true ∧ segment = ofName c rest) ∨
    (c ≠ '>' ∧ Text.isNameChar c = false ∧ segment = stray c) := by
  unfold front? at h
  split at h
  · next hspace =>
    cases h
    exact .inl ⟨hspace, rfl⟩
  split at h
  · cases h
  · next hclose =>
    split at h
    · cases h
    split at h
    · next hbrace =>
      cases h
      exact .inr (.inl ⟨hbrace, rfl⟩)
    split at h
    · next hname =>
      cases h
      exact .inr (.inr (.inl ⟨hname, rfl⟩))
    · next hname =>
      cases h
      exact .inr (.inr (.inr ⟨hclose, by simpa using hname, rfl⟩))

/-- Where there is no segment, the tail of the tag begins. -/
theorem front?_eq_none_iff {c : Char} {rest : List Char} :
    front? c rest = none ↔ c = '>' ∨ (c = '/' ∧ endsTag rest = true) := by
  constructor
  · intro h
    unfold front? at h
    split at h
    · cases h
    split at h
    · next hclose => exact .inl hclose
    split at h
    · next hslash => exact .inr (by simpa using hslash)
    repeat' (first | split at h | cases h)
  · rintro (rfl | ⟨rfl, hends⟩)
    · rfl
    · simp [front?, Text.isSpace, hends]

/-- A segment is the front of the text. -/
theorem text_prefix {c : Char} {rest : List Char} {segment : Segment}
    (h : front? c rest = some segment) : segment.text <+: c :: rest := by
  rcases front?_cases h with ⟨-, rfl⟩ | ⟨-, rfl⟩ | ⟨-, rfl⟩ | ⟨-, -, rfl⟩
  · exact (List.prefix_cons_inj c).2 (List.takeWhile_prefix _)
  · exact (List.prefix_cons_inj c).2 (List.take_prefix _ _)
  · refine (List.prefix_cons_inj c).2 ?_
    have hname : rest.takeWhile Text.isNameChar ++ rest.dropWhile Text.isNameChar = rest :=
      List.takeWhile_append_dropWhile
    have hcut := (List.prefix_append_right_inj (rest.takeWhile Text.isNameChar)).2
      (List.take_prefix (Attribute.assignmentLength (rest.dropWhile Text.isNameChar))
        (rest.dropWhile Text.isNameChar))
    rwa [hname] at hcut
  · exact (List.prefix_cons_inj c).2 List.nil_prefix

/-- A character of a segment is read past, or it is white space, a character of a name, or a stray
one, which is the whole segment. -/
theorem getElem?_text_cases {c x : Char} {rest : List Char} {segment : Segment} {i : Nat}
    (h : front? c rest = some segment) (hi : segment.text[i]? = some x) :
    segment.Hides i ∨ Text.isSpace x = true ∨
    (Text.isNameChar x = true ∧ ∃ name assignment,
      segment = declaration name assignment ∧ i < name.length) ∨
    (x ≠ '>' ∧ Text.isNameChar x = false ∧ c = x ∧ i = 0) := by
  have hlt := (List.getElem?_eq_some_iff.1 hi).1
  rcases front?_cases h with ⟨hspace, rfl⟩ | ⟨-, rfl⟩ | ⟨hname, rfl⟩ | ⟨hclose, hname, rfl⟩
  · rcases List.mem_cons.1 (List.mem_of_getElem? hi) with rfl | hmem
    · exact .inr (.inl hspace)
    · exact .inr (.inl (List.mem_takeWhile_imp hmem))
  · exact .inl hlt
  · by_cases hin : i < (c :: rest.takeWhile Text.isNameChar).length
    · rw [ofName, text, List.getElem?_append_left hin] at hi
      refine .inr (.inr (.inl ⟨?_, _, _, rfl, hin⟩))
      rcases List.mem_cons.1 (List.mem_of_getElem? hi) with rfl | hmem
      · exact hname
      · exact List.mem_takeWhile_imp hmem
    · rw [ofName, text, List.length_append] at hlt
      exact .inl ⟨Nat.le_of_not_lt hin, hlt⟩
  · rcases List.mem_singleton.1 (List.mem_of_getElem? hi) with rfl
    exact .inr (.inr (.inr ⟨hclose, hname, rfl, Nat.lt_one_iff.1 hlt⟩))

/-- A name is made of the characters of names, and is not empty. -/
theorem name_of_front? {c : Char} {rest name assignment : List Char}
    (h : front? c rest = some (declaration name assignment)) :
    name ≠ [] ∧ ∀ x ∈ name, Text.isNameChar x = true := by
  rcases front?_cases h with ⟨-, heq⟩ | ⟨-, heq⟩ | ⟨hname, heq⟩ | ⟨-, -, heq⟩
  · cases heq
  · cases heq
  · cases heq
    refine ⟨nofun, fun x hx => ?_⟩
    rcases List.mem_cons.1 hx with rfl | hmem
    · exact hname
    · exact List.mem_takeWhile_imp hmem
  · cases heq

/-- White space is never out of place. -/
theorem isSpace_of_front?_stray {c found : Char} {rest : List Char}
    (h : front? c rest = some (stray found)) : Text.isSpace found = false := by
  rw [Bool.eq_false_iff]
  intro hspace
  rcases front?_cases h with ⟨-, heq⟩ | ⟨-, heq⟩ | ⟨-, heq⟩ | ⟨-, -, heq⟩
  · cases heq
  · cases heq
  · cases heq
  · cases heq
    rw [front?, if_pos hspace] at h
    cases h

end Segment

end TagLint
