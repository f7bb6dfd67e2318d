import TagLint.Proofs.Markup.Abreast

/-!
# The two readers of a tag

A tag is read twice: by the reader of tags, which looks for its end in the whole source, and by
the reader of attributes, which has the tag's own text.

- `Tag.region_iff_value`: both leave a quoted or braced region at the same place.
- `Tag.StopsAtEnd`: the reader of attributes comes to the end that the reader of tags has found. It
  need not (`Tag.not_stopsAtEnd_of_untidy`), for two reasons. A quote that does not stand behind a `=`
  is a stray character for the one and hides what follows for the other, and so does a backslash. And
  a quote, a brace or a backslash inside an unquoted value is a part of the value for the one, while
  for the other it hides what follows, also behind the value.
- `Tag.stopsAtEnd_of_isTidy`: in a tidy tag there is neither, so both readers are abreast to the end.
-/

namespace TagLint.Tag

open Nesting

variable {source : String} {tag : Tag}

/-- **A value ends where its region ends.** Where the reader of tags opens a quote or a brace at
tag level, it is first back at tag level behind the characters that the reader of attributes counts
in the tag's own text. -/
theorem region_iff_value {first stop : Nat} {c : Char} {rest : List Char}
    (htag : .ok tag ∈ (TagReader.ofString source).items)
    (hfirst : Reaches (tag.readFrom source) .tag first)
    (htext : tag.text.toList.drop first = c :: rest) :
    ((c = '"' ∨ c = '\'') → (Region (tag.readFrom source) first stop ↔
      stop = first + 1 + Attribute.quotedTail c rest)) ∧
    (c = '{' → (Region (tag.readFrom source) first stop ↔
      stop = first + 1 + Script.bracedTail rest)) := by
  constructor
  · exact quoted_region_iff_quotedTail htag hfirst htext
  · rintro rfl
    exact braced_region_iff_bracedTail htag hfirst htext

/-- In this tag the quote opens at place 5, and only the quote at place 9 closes it. -/
theorem region_of_quoted_close :
    .ok ⟨"<p a=\"x>y\">", "p", ⟨0, 11, ⟨1, 1⟩⟩⟩ ∈ (TagReader.ofString "<p a=\"x>y\">").items ∧
      ∀ stop, Region "<p a=\"x>y\">".toList 5 stop ↔ stop = 10 := by
  have htag : .ok ⟨"<p a=\"x>y\">", "p", ⟨0, 11, ⟨1, 1⟩⟩⟩ ∈
      (TagReader.ofString "<p a=\"x>y\">").items := by decide +kernel
  have hfrom : readFrom "<p a=\"x>y\">" ⟨"<p a=\"x>y\">", "p", ⟨0, 11, ⟨1, 1⟩⟩⟩ =
      "<p a=\"x>y\">".toList := by decide +kernel
  have hrun : "<p a=\"x>y\">".toList.drop 1 = "p a=".toList ++ "\"x>y\">".toList := rfl
  have hreach : Reaches "<p a=\"x>y\">".toList .tag 5 :=
    reaches_of_isPlain .refl hrun (by decide)
  refine ⟨htag, fun stop => ?_⟩
  rw [← hfrom] at hreach ⊢
  have hrest : "<p a=\"x>y\">".toList.drop 5 = '"' :: ['x', '>', 'y', '"', '>'] := rfl
  exact (region_iff_value htag hreach hrest).1 (.inl rfl)


/-! ### The end of a tag -/

/-- The reading of attributes stops at the last character of the tag, its `>`, or at a slash with
nothing but white space between the two. -/
def StopsAtEnd (tag : Tag) : Prop :=
  (AttributeReader.ofTag tag).exhaust.rest = ['>'] ∨
  ∃ blanks : List Char, (∀ c ∈ blanks, Text.isSpace c = true) ∧
    (AttributeReader.ofTag tag).exhaust.rest = '/' :: (blanks ++ ['>'])

theorem not_stopsAtEnd_of_close {c : Char} {rest : List Char}
    (h : (AttributeReader.ofTag tag).exhaust.rest = '>' :: c :: rest) : ¬ tag.StopsAtEnd := by
  rintro (heq | ⟨blanks, -, heq⟩)
  · cases h.symm.trans heq
  · cases h.symm.trans heq

/-- Behind a quote out of place, and behind quotes in an unquoted value, the reader of attributes stops
at a `>` that the quotes hide from the reader of tags. The two attributes behind it are left unread. -/
theorem not_stopsAtEnd_of_untidy :
    .ok ⟨"<p [a]=\"x>y\" id id>", "p", ⟨0, 19, ⟨1, 1⟩⟩⟩ ∈
        (TagReader.ofString "<p [a]=\"x>y\" id id>").items ∧
      ¬ StopsAtEnd ⟨"<p [a]=\"x>y\" id id>", "p", ⟨0, 19, ⟨1, 1⟩⟩⟩ ∧
      (attributes ⟨"<p [a]=\"x>y\" id id>", "p", ⟨0, 19, ⟨1, 1⟩⟩⟩).map Attribute.name = ["a", "x"] ∧
    .ok ⟨"<p a=x\"y>z\" id id>", "p", ⟨0, 18, ⟨1, 1⟩⟩⟩ ∈
        (TagReader.ofString "<p a=x\"y>z\" id id>").items ∧
      ¬ StopsAtEnd ⟨"<p a=x\"y>z\" id id>", "p", ⟨0, 18, ⟨1, 1⟩⟩⟩ ∧
      (attributes ⟨"<p a=x\"y>z\" id id>", "p", ⟨0, 18, ⟨1, 1⟩⟩⟩).map Attribute.name = ["a"] := by
  have hstray : (AttributeReader.ofTag
      ⟨"<p [a]=\"x>y\" id id>", "p", ⟨0, 19, ⟨1, 1⟩⟩⟩).exhaust.rest = ">y\" id id>".toList := by
    decide +kernel
  have hvalue : (AttributeReader.ofTag
      ⟨"<p a=x\"y>z\" id id>", "p", ⟨0, 18, ⟨1, 1⟩⟩⟩).exhaust.rest = ">z\" id id>".toList := by
    decide +kernel
  refine ⟨by decide +kernel, ?_, by decide +kernel, by decide +kernel, ?_, by decide +kernel⟩
  · exact not_stopsAtEnd_of_close hstray
  · exact not_stopsAtEnd_of_close hvalue

/-- Where both readers are abreast in front of the tail of a tag, the tail is that of the text: its
`>` is the last character. -/
theorem Abreast.tail_cases {place : Nat} {tail : List Char} (h : Abreast source tag place)
    (htag : .ok tag ∈ (TagReader.ofString source).items)
    (htext : tag.text.toList.drop place = tail) (htail : Segment.IsTail tail) :
    tail = ['>'] ∨ ∃ blanks : List Char, (∀ c ∈ blanks, Text.isSpace c = true) ∧
      tail = '/' :: (blanks ++ ['>']) := by
  -- behind the slash and the blanks the reader of tags is still at tag level
  have hblanks {blanks rest : List Char} (hspace : ∀ c ∈ blanks, Text.isSpace c = true)
      (htext : tag.text.toList.drop place = '/' :: (blanks ++ rest)) :
      Reaches (tag.readFrom source) .tag (place + 1 + blanks.length) ∧
        tag.text.toList.drop (place + 1 + blanks.length) = rest := by
    have hbehind : tag.text.toList.drop (place + 1) = blanks ++ rest := Text.drop_behind htext 0
    constructor
    · exact reaches_of_plain_run htag (h.next htag htext rfl) hbehind
        fun c hc => isPlain_of_isSpace (hspace c hc)
    · rw [← List.drop_drop, hbehind, List.drop_left]
  cases htail with
  | nothing =>
    rcases h with hlevel | ⟨first, c, -, -, -, hget, -⟩
    · exact absurd htext (drop_ne_nil_of_reaches htag hlevel)
    · rw [← Nat.add_zero place, ← List.getElem?_drop, htext] at hget
      cases hget
  | close rest => exact .inl (by rw [eq_nil_of_reaches htag (h.reaches htext rfl) htext])
  | @slash blanks hspace =>
    rw [← List.append_nil blanks] at htext
    obtain ⟨hlevel, hnil⟩ := hblanks hspace htext
    exact absurd hnil (drop_ne_nil_of_reaches htag hlevel)
  | @slashClose blanks rest hspace =>
    obtain ⟨hlevel, hclose⟩ := hblanks hspace htext
    exact .inr ⟨blanks, hspace, by rw [eq_nil_of_reaches htag hlevel hclose]⟩

/-- **Both readers come to the same end of a tidy tag.** -/
theorem stopsAtEnd_of_isTidy (htag : .ok tag ∈ (TagReader.ofString source).items)
    (htidy : tag.IsTidy) : tag.StopsAtEnd := by
  have hstands := stands_exhaust tag
  have habreast := htidy.abreast_of_reaches htag (AttributeReader.reaches_exhaust _) hstands
  obtain ⟨parts, hmake, -⟩ := htidy
  have hrest := hmake.rest_exhaust
  rw [StopsAtEnd, hrest]
  exact habreast.tail_cases htag (hstands.rest.symm.trans hrest) hmake.isTail

/-- Both readers come to the end of a tag that hides a `>` in quotes and another in braces, has quotes
in an unquoted value, and has a backslash in front of a name. -/
theorem stopsAtEnd_of_mixedValues :
    .ok mixedValues ∈ (TagReader.ofString mixedValues.text).items ∧ mixedValues.IsTidy ∧
      mixedValues.StopsAtEnd := by
  have htag : .ok mixedValues ∈ (TagReader.ofString mixedValues.text).items := by decide +kernel
  exact ⟨htag, isTidy_mixedValues, stopsAtEnd_of_isTidy htag isTidy_mixedValues⟩

end TagLint.Tag
