import Mathlib.Data.List.Basic
import TagLint.Proofs.Attribute.Order
import TagLint.Proofs.Script.Reading
import TagLint.Proofs.Tag.Parts

/-!
# The names of a tag are whole words

A name that is found among the attributes of a tag is not a part of a longer word. To its right that
is plain, for a name reaches as far as it can. To its left it depends on all that may stand there,
which is what the reader goes on behind: the name of the tag, a value of any kind or none, a spread,
white space or a character out of place.

- `Text.Breaks`: between two texts no name goes on.
- `Segment.Fits.breaks`: so it is behind every segment.
- `Segment.Row.stands`: so every name in a row of segments is a whole word.
- `Tag.WholeWords`: what is so of all that is found in a tag (`Tag.words_are_whole`).
-/

namespace TagLint

open Text (isNameChar)

/-! ### Breaks -/

/-- No name goes on from a text to the one behind it. -/
def Text.Breaks (front behind : List Char) : Prop :=
  (∀ c ∈ front.getLast?, isNameChar c = false) ∨ Ends isNameChar behind

namespace Text

variable {front behind rest : List Char} {c : Char}

/-- What stands further in front has no say. -/
theorem breaks_of_getLast? (before : List Char) (h : front.getLast? = some c)
    (hc : isNameChar c = false) : Breaks (before ++ front) behind := by
  left
  rw [List.getLast?_append, h]
  rintro _ ⟨⟩
  exact hc

/-- It breaks off also if nothing is behind it. -/
theorem breaks_of_ends (before : List Char) (h : front.getLast? = some c ∨ behind = [])
    (hc : isNameChar c = false) : Breaks (before ++ front) behind := by
  rcases h with hlast | rfl
  · exact breaks_of_getLast? before hlast hc
  · exact .inr nofun

/-- Where a name begins behind a break, the character before it is none of a name. -/
theorem Breaks.left (h : Breaks front (c :: rest)) (hc : isNameChar c = true) :
    ∀ d ∈ front.getLast?, isNameChar d = false := by
  rcases h with hlast | hends
  · exact hlast
  · cases (hends c rfl).symm.trans hc

end Text

open Text (breaks_of_getLast? breaks_of_ends)

/-- A braced expression breaks off the names behind it. -/
theorem Script.breaks_of_braced {inner behind : List Char}
    (h : bracedTail (inner ++ behind) = inner.length) (before : List Char) :
    Text.Breaks (before ++ '{' :: inner) behind := by
  have hends := bracedTail_ends (inner ++ behind)
  rw [h, List.take_left, List.drop_left] at hends
  rw [List.append_cons]
  exact breaks_of_ends _ hends (by decide)

/-- A value breaks off the names behind it. -/
theorem Attribute.IsValue.breaks {value behind : List Char} (h : IsValue value behind)
    (before : List Char) : Text.Breaks (before ++ value) behind := by
  cases h with
  | @quoted quote inner _ hquote hlength =>
    obtain ⟨hslash, hplain⟩ : quote ≠ '\\' ∧ isNameChar quote = false := by
      rcases hquote with rfl | rfl <;> decide
    have hends := quotedTail_ends hslash (inner ++ behind)
    rw [hlength, List.take_left, List.drop_left] at hends
    rw [List.append_cons]
    exact breaks_of_ends _ hends hplain
  | braced hlength => exact Script.breaks_of_braced hlength before
  | bare _ hends _ =>
    right
    intro c hc
    have hbare := hends c hc
    rw [isBare, Bool.and_eq_false_iff] at hbare
    rcases hbare with hspace | hclose
    · exact Text.not_isNameChar_of_isSpace (by simpa using hspace)
    · obtain rfl : c = '>' := by simpa using hclose
      rfl

/-- Every segment breaks off the names behind it. -/
theorem Segment.Fits.breaks {segment : Segment} {behind : List Char} (h : segment.Fits behind)
    (before : List Char) : Text.Breaks (before ++ segment.text) behind := by
  cases h with
  | @blank run _ hne hspace _ =>
    have hlast := List.getLast?_eq_some_getLast hne
    exact breaks_of_getLast? before hlast
      (Text.not_isNameChar_of_isSpace (hspace _ (List.getLast_mem hne)))
  | spread hlength => exact Script.breaks_of_braced hlength before
  | @declaration name assignment _ _ _ hends hassignment =>
    cases hassignment with
    | nothing => exact .inr hends
    | @value blanks after value _ _ _ _ hvalue =>
      have htext : before ++ (name ++ (blanks ++ '=' :: (after ++ value))) =
          (before ++ (name ++ (blanks ++ '=' :: after))) ++ value := by simp
      rw [text, htext]
      exact hvalue.breaks _
  | @stray found _ _ hname _ _ => exact breaks_of_getLast? before rfl hname

/-! ### Words -/

/-- A name that stands in a text is a whole word. It has characters, all of which are those of a
name, and neither the character before it nor the one behind it is. -/
structure Text.IsWord (front name behind : List Char) : Prop where
  ne_nil : name ≠ []
  name : ∀ c ∈ name, isNameChar c = true
  left : ∀ c ∈ front.getLast?, isNameChar c = false
  right : Ends isNameChar behind

/-- An occurrence stands in a text, which begins at an offset. If it is an attribute, its name is a
whole word there. -/
def Occurrence.Stands (start : Nat) (text : List Char) (found : Occurrence) : Prop :=
  ∃ front behind, text = front ++ (found.word ++ behind) ∧
    found.offset = start + Text.byteSize front ∧
    (found.declared?.isSome → Text.IsWord front found.word behind)

/-- What occurs with a segment stands at the front of it. If it is a name, there is a break before
it, since the name would go on. -/
theorem Segment.Fits.stands {segment : Segment} {before behind : List Char} {start : Nat}
    (h : segment.Fits behind) (hbreaks : Text.Breaks before (segment.text ++ behind))
    {found : Occurrence}
    (hfound : segment.occurrence? (start + Text.byteSize before) = some found) :
    found.Stands start (before ++ (segment.text ++ behind)) := by
  cases h with
  | blank => cases hfound
  | spread => cases hfound
  | @declaration name assignment _ hne hname hends _ =>
    cases hfound
    have hword : (Occurrence.declared ⟨String.ofList name, start + Text.byteSize before⟩).word =
        name := String.toList_ofList
    refine ⟨before, assignment ++ behind, ?_, rfl, ?_⟩
    · rw [hword, text, List.append_assoc]
    · intro _
      rw [hword]
      refine ⟨hne, hname, ?_, hends⟩
      obtain ⟨c, rest, rfl⟩ := List.exists_cons_of_ne_nil hne
      exact hbreaks.left (hname c List.mem_cons_self)
  | stray =>
    cases hfound
    refine ⟨before, behind, rfl, rfl, ?_⟩
    intro hdeclared
    cases hdeclared

/-- So it is with all that occurs in a row of segments. Each segment makes the break for the one
behind it. -/
theorem Segment.Row.stands {segments : List Segment} {tail before : List Char} {start : Nat}
    (h : Row segments tail) (hbreaks : Text.Breaks before (segments.flatMap text ++ tail)) :
    ∀ found ∈ occurrencesAt (start + Text.byteSize before) segments,
      found.Stands start (before ++ (segments.flatMap text ++ tail)) := by
  induction h generalizing before with
  | nil => exact nofun
  | @cons segment segments tail hfits _ ih =>
    intro found hfound
    rw [List.flatMap_cons, List.append_assoc] at hbreaks ⊢
    rw [occurrencesAt_cons] at hfound
    rcases List.mem_append.1 hfound with hfirst | hmore
    · exact hfits.stands hbreaks (Option.mem_toList.1 hfirst)
    · rw [Nat.add_assoc, ← Text.byteSize_append] at hmore
      rw [← List.append_assoc]
      exact ih (hfits.breaks before) found hmore

/-- What stands in a text takes some of it. -/
theorem Occurrence.Stands.offset_lt {start : Nat} {text : List Char} {found : Occurrence}
    (h : found.Stands start text) : found.offset < found.stop := by
  obtain ⟨front, behind, -, -, hword⟩ := h
  have hne : found.word ≠ [] := by
    cases found with
    | declared found => exact (hword rfl).ne_nil
    | stray found offset => exact List.cons_ne_nil _ _
  exact Nat.lt_add_of_pos_right (Text.byteSize_pos hne)

namespace Tag

/-- What occurs in a tag stands in its text, and names are whole words. -/
theorem stands_of_mem_occurrences {tag : Tag} {found : Occurrence} (h : found ∈ tag.occurrences) :
    found.Stands tag.span.start tag.text.toList := by
  obtain ⟨parts, hmake⟩ := Parts.exists_make tag.text.toList
  have hoccurrences : tag.occurrences = parts.occurrencesAt tag.span.start :=
    hmake.occurrences_eq tag.span.start
  rw [hoccurrences] at h
  rw [hmake.text_eq]
  -- the name of a tag goes on as long as it can, and takes the characters of attribute names along
  have hends : Text.Ends isNameChar parts.body := by
    intro c hc
    have hnot := hmake.name_ends c hc
    rw [Text.isTagNameChar, Bool.or_eq_false_iff] at hnot
    exact hnot.1
  exact hmake.row.stands (.inr hends) found h

/-- What is found in a tag, in the order in which it is found. -/
structure WholeWords (tag : Tag) : Prop where
  /-- The name of an attribute is a whole word, and stands at the offset of the attribute. -/
  attributes : ∀ found, .declared found ∈ tag.occurrences → ∃ front behind,
    tag.text.toList = front ++ (found.name.toList ++ behind) ∧
      found.offset = tag.span.start + Text.byteSize front ∧
      Text.IsWord front found.name.toList behind
  /-- A character out of place stands at its offset. -/
  strays : ∀ found offset, .stray found offset ∈ tag.occurrences → ∃ front behind,
    tag.text.toList = front ++ found :: behind ∧ offset = tag.span.start + Text.byteSize front
  /-- No two occurrences have a character in common. -/
  apart : tag.occurrences.Pairwise fun first second => first.stop ≤ second.offset
  /-- Offsets increase. -/
  increasing : tag.occurrences.Pairwise fun first second => first.offset < second.offset

/-- **No name is a part of a longer word, and nothing is found twice.** -/
theorem words_are_whole (tag : Tag) : tag.WholeWords := by
  have hpairwise : tag.occurrences.Pairwise Occurrence.Before :=
    AttributeReader.occurrences_pairwise (.ofTag tag)
  have happart := hpairwise.imp fun hbefore => hbefore.stop_le
  constructor
  case attributes =>
    intro found hfound
    obtain ⟨front, behind, htext, hoffset, hword⟩ := stands_of_mem_occurrences hfound
    exact ⟨front, behind, htext, hoffset, hword rfl⟩
  case strays =>
    intro found offset hfound
    obtain ⟨front, behind, htext, hoffset, -⟩ := stands_of_mem_occurrences hfound
    exact ⟨front, behind, htext, hoffset⟩
  case apart => exact happart
  case increasing =>
    refine List.Pairwise.imp_of_mem (fun hfirst _ hle => ?_) happart
    exact Nat.lt_of_lt_of_le (stands_of_mem_occurrences hfirst).offset_lt hle

end Tag

end TagLint
