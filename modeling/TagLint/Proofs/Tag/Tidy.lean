import TagLint.Proofs.Tag.Nesting
import TagLint.Proofs.Tag.Parts

/-!
# Tidy tags

A tag is read twice, and a quote, a brace or a backslash does not mean the same to both readers
everywhere. To the reader of tags it means something wherever it stands at tag level. To the reader
of attributes a quote does so only at the front of a value, a brace there and among the attributes,
and a backslash nowhere at tag level. So there are two ways for a tag to be untidy:

- A quote stands out of place, or a backslash stands out of place and takes along a character that
  means something.
- An unquoted value leaves something open: a quote or a brace in it is not closed in it, or the
  backslash at its end takes along a character that means something.

The condition is on the parts of the tag's text:

- `Attribute.Settles`: characters that leave nothing open.
- `Segment.IsTidy`, `Segment.AllTidy`: a segment, or segments in a row, of which no one is untidy.
- `Tag.IsTidy`: a tag that is made up of such segments. A tag without any quote, brace or backslash in
  such a place is one (`Tag.Parts.Make.isTidy_of_plain`).
- `Tag.Parts.Make.exists_append_of_reaches`: the reader of attributes comes to these segments.
-/

namespace TagLint

open Nesting (isPlain)

/-! ### Unquoted values -/

namespace Attribute

/-- Characters that leave nothing open at tag level, in front of the text behind them: some that mean
nothing there, pairs of a backslash and a character, and quotes and braces, each to where it is
closed. A backslash at the end takes along a character of the text behind, which has to mean
nothing. -/
inductive Settles : List Char → List Char → Prop
  | nil {behind : List Char} : Settles [] behind
  | plain {c : Char} {run behind : List Char} :
    isPlain c = true → Settles run behind → Settles (c :: run) behind
  | pair (c : Char) {run behind : List Char} :
    Settles run behind → Settles ('\\' :: c :: run) behind
  | slash {c : Char} {behind : List Char} : isPlain c = true → Settles ['\\'] (c :: behind)
  | quoted {quote : Char} {inner run behind : List Char} : quote = '"' ∨ quote = '\'' →
    quotedTail quote (inner ++ (run ++ behind)) = inner.length → Settles run behind →
    Settles (quote :: (inner ++ run)) behind
  | braced {inner run behind : List Char} :
    Script.bracedTail (inner ++ (run ++ behind)) = inner.length → Settles run behind →
    Settles ('{' :: (inner ++ run)) behind

/-- Characters that mean nothing leave nothing open. -/
theorem Settles.of_plain {run behind : List Char} (h : ∀ c ∈ run, isPlain c = true) :
    Settles run behind := by
  induction run with
  | nil => exact .nil
  | cons c run ih =>
    obtain ⟨hc, hrun⟩ := List.forall_mem_cons.1 h
    exact .plain hc (ih hrun)

/-- The value at the front of a text, unless there are quotes or braces around it. -/
def unquotedValue : List Char → List Char
  | [] => []
  | c :: value => if c = '"' || c = '\'' || c = '{' then [] else c :: value

/-- The value that an assignment has, unless there are quotes or braces around it. -/
def unquoted (assignment : List Char) : List Char :=
  match assignment.dropWhile Text.isSpace with
  | '=' :: rest => unquotedValue (rest.dropWhile Text.isSpace)
  | _ => []

theorem unquoted_append {before rest : List Char} (hbefore : ∀ c ∈ before, Text.isSpace c = true) :
    unquoted (before ++ '=' :: rest) = unquotedValue (rest.dropWhile Text.isSpace) := by
  have hequals : Text.Ends Text.isSpace ('=' :: rest) := Text.ends_cons rfl
  rw [unquoted, Text.dropWhile_append hbefore hequals]
  rfl

variable {before after value : List Char}

/-- A value that begins with no quote and no brace is the unquoted value of its assignment. -/
theorem unquoted_eq (hbefore : ∀ c ∈ before, Text.isSpace c = true)
    (hafter : ∀ c ∈ after, Text.isSpace c = true) (hvalue : ∀ c ∈ value, isBare c = true)
    (hhead : ∀ c ∈ value.head?, c ≠ '"' ∧ c ≠ '\'' ∧ c ≠ '{') :
    unquoted (before ++ '=' :: (after ++ value)) = value := by
  have hspace : Text.Ends Text.isSpace value := by
    intro c hc
    have hbare := hvalue c (List.mem_of_mem_head? hc)
    rw [isBare, Bool.and_eq_true] at hbare
    simpa using hbare.1
  rw [unquoted_append hbefore, Text.dropWhile_append hafter hspace]
  cases value with
  | nil => rfl
  | cons c value =>
    obtain ⟨hdouble, hsingle, hbrace⟩ := hhead c rfl
    exact if_neg (by simp [hdouble, hsingle, hbrace])

theorem unquoted_eq_nil {c : Char} (hbefore : ∀ c ∈ before, Text.isSpace c = true)
    (hafter : ∀ c ∈ after, Text.isSpace c = true) (hc : c = '"' ∨ c = '\'' ∨ c = '{') :
    unquoted (before ++ '=' :: (after ++ c :: value)) = [] := by
  have hspace : Text.Ends Text.isSpace (c :: value) := by
    refine Text.ends_cons ?_
    rcases hc with rfl | rfl | rfl <;> rfl
  rw [unquoted_append hbefore, Text.dropWhile_append hafter hspace]
  exact if_pos (by simpa [or_assoc] using hc)

end Attribute

/-! ### Segments -/

namespace Segment

/-- The characters of a segment that need not mean the same to both readers: an unquoted value, and a
character out of place. -/
def exposed : Segment → List Char
  | blank _ => []
  | spread _ => []
  | declaration _ assignment => Attribute.unquoted assignment
  | stray found => [found]

/-- A segment that leaves nothing open in front of the text behind it. White space, spreads and
attributes with values in quotes or braces are always so. -/
def IsTidy (behind : List Char) (segment : Segment) : Prop :=
  Attribute.Settles segment.exposed behind

/-- All segments of a row are tidy, each in front of what is behind it. -/
def AllTidy : List Segment → List Char → Prop
  | [], _ => True
  | segment :: segments, tail =>
    segment.IsTidy (segments.flatMap text ++ tail) ∧ AllTidy segments tail

variable {before after : List Segment} {tail : List Char}

theorem Row.of_append (h : Row (before ++ after) tail) : Row after tail := by
  induction before with
  | nil => exact h
  | cons segment before ih =>
    cases h with
    | cons _ hmore => exact ih hmore

/-- Segments are tidy if no quote, no brace and no backslash is out of place or in an unquoted value. -/
theorem allTidy_of_plain {segments : List Segment}
    (h : ∀ segment ∈ segments, ∀ c ∈ segment.exposed, isPlain c = true) : AllTidy segments tail := by
  induction segments with
  | nil => trivial
  | cons segment segments ih =>
    obtain ⟨hsegment, hsegments⟩ := List.forall_mem_cons.1 h
    exact ⟨.of_plain hsegment, ih hsegments⟩

theorem AllTidy.of_append (h : AllTidy (before ++ after) tail) : AllTidy after tail := by
  induction before with
  | nil => exact h
  | cons segment before ih => exact ih h.2

/-- A row grows in front by the segment that is read there. -/
theorem Row.cons_of_segment? {segment : Segment} {segments : List Segment}
    (h : (⟨0, (segment :: segments).flatMap text ++ tail⟩ : AttributeReader).segment?.map Prod.fst =
      some segment) (hrow : Row segments tail) : Row (segment :: segments) tail := by
  obtain ⟨⟨found, behind⟩, hsegment, rfl⟩ := Option.map_eq_some_iff.1 h
  obtain ⟨c, rest, hrest, hfront, -⟩ := AttributeReader.segment?_eq_some_iff.1 hsegment
  have hfits := fits_of_front? hfront
  rw [← hrest, List.flatMap_cons, List.append_assoc, List.drop_left] at hfits
  exact .cons hfits hrow

/-- In front of a row a reader reads its first segment. -/
theorem Row.exists_cons_of_segment? {segments : List Segment} {segment : Segment}
    {r behind : AttributeReader} (h : Row segments tail)
    (hrest : r.rest = segments.flatMap text ++ tail) (hsegment : r.segment? = some (segment, behind)) :
    ∃ more, segments = segment :: more ∧ behind.rest = more.flatMap text ++ tail := by
  obtain ⟨c, rest, hcons, hfront, rfl⟩ := AttributeReader.segment?_eq_some_iff.1 hsegment
  have htext := hcons.symm.trans hrest
  cases h with
  | nil htail =>
    rw [List.flatMap_nil, List.nil_append] at htext
    rw [← htext] at htail
    cases hfront.symm.trans (front?_cons_eq_none_iff.2 htail)
  | @cons first more _ hfits _ =>
    rw [List.flatMap_cons, List.append_assoc] at htext hrest
    obtain rfl := Option.some.inj (hfront.symm.trans (hfits.front? htext))
    refine ⟨more, rfl, ?_⟩
    rw [AttributeReader.advance, hrest, List.drop_left]

/-- In front of a row a reader reads nothing only if the row is empty. -/
theorem Row.eq_nil_of_segment? {segments : List Segment} {r : AttributeReader}
    (h : Row segments tail) (hrest : r.rest = segments.flatMap text ++ tail)
    (hnone : r.segment? = none) : segments = [] := by
  cases h with
  | nil => rfl
  | @cons first more _ hfits _ =>
    rw [List.flatMap_cons, List.append_assoc] at hrest
    obtain ⟨c, rest, hcons, hfront⟩ := hfits.exists_front?
    have hsome :=
      AttributeReader.segment?_eq_some_iff.2 ⟨c, rest, hrest.trans hcons.symm, hfront, rfl⟩
    cases hnone.symm.trans hsome

end Segment

namespace Tag

/-- A tag whose text is made up of tidy segments, behind its head and in front of its tail. -/
def IsTidy (tag : Tag) : Prop :=
  ∃ parts : Parts, parts.Make tag.text.toList ∧ Segment.AllTidy parts.segments parts.tail

variable {tag : Tag} {parts : Parts} {r behind : AttributeReader}

/-- A tag is tidy if no quote, no brace and no backslash is out of place or in an unquoted value. -/
theorem Parts.Make.isTidy_of_plain (h : parts.Make tag.text.toList)
    (hplain : ∀ segment ∈ parts.segments, ∀ c ∈ segment.exposed, isPlain c = true) : tag.IsTidy :=
  ⟨parts, h, Segment.allTidy_of_plain hplain⟩

/-- The reader of attributes reads the segments of a tag in order. -/
theorem Parts.Make.exists_append_of_reaches (h : parts.Make tag.text.toList)
    (hreach : AttributeReader.Reaches (.ofTag tag) r) :
    ∃ before after, parts.segments = before ++ after ∧
      r.rest = after.flatMap Segment.text ++ parts.tail := by
  induction hreach with
  | refl => exact ⟨[], parts.segments, rfl, h.body_eq.symm⟩
  | @tail s r _ hmove ih =>
    obtain ⟨segment, hsegment⟩ := hmove
    obtain ⟨before, after, hsegments, hrest⟩ := ih
    have hrow : Segment.Row (before ++ after) parts.tail := hsegments ▸ h.row
    obtain ⟨more, rfl, hmore⟩ := hrow.of_append.exists_cons_of_segment? hrest hsegment
    exact ⟨before ++ [segment], more, by simp [hsegments], hmore⟩

/-- The reader of attributes comes to a segment only in front of all that is behind the segment. -/
theorem Parts.Make.exists_append_of_segment? {segment : Segment} (h : parts.Make tag.text.toList)
    (hreach : AttributeReader.Reaches (.ofTag tag) r)
    (hsegment : r.segment? = some (segment, behind)) :
    ∃ before after, parts.segments = before ++ segment :: after ∧
      r.rest = segment.text ++ (after.flatMap Segment.text ++ parts.tail) := by
  obtain ⟨before, after, hsegments, hrest⟩ := h.exists_append_of_reaches hreach
  have hrow : Segment.Row (before ++ after) parts.tail := hsegments ▸ h.row
  obtain ⟨more, rfl, -⟩ := hrow.of_append.exists_cons_of_segment? hrest hsegment
  refine ⟨before, more, hsegments, ?_⟩
  rw [hrest, List.flatMap_cons, List.append_assoc]

/-- The reader of attributes stops at the tail of a tag. -/
theorem Parts.Make.rest_exhaust (h : parts.Make tag.text.toList) :
    (AttributeReader.ofTag tag).exhaust.rest = parts.tail := by
  obtain ⟨before, after, hsegments, hrest⟩ :=
    h.exists_append_of_reaches (AttributeReader.reaches_exhaust _)
  have hrow : Segment.Row (before ++ after) parts.tail := hsegments ▸ h.row
  obtain rfl := hrow.of_append.eq_nil_of_segment? hrest (AttributeReader.segment?_exhaust _)
  exact hrest

/-- The tail of a tag is one. -/
theorem Parts.Make.isTail (h : parts.Make tag.text.toList) : Segment.IsTail parts.tail := by
  have hrow : Segment.Row (parts.segments ++ []) parts.tail := by
    rw [List.append_nil]
    exact h.row
  cases hrow.of_append with
  | nil htail => exact htail

/-- A tag with a `>` in quotes and in braces, a quoted part inside an unquoted value, and a name that
is repeated behind a backslash. -/
def mixedValues : Tag :=
  ⟨"<p a=\"x>y\" b=x\"y\"z \\b \x7bd>e\x7d>", "p", ⟨0, 28, ⟨1, 1⟩⟩⟩

/-- The tag is tidy, for the quotes inside the unquoted value close each other, and the backslash takes
along a letter. -/
theorem isTidy_mixedValues : mixedValues.IsTidy := by
  have hvalue (behind : List Char) :
      Attribute.Settles ('x' :: '"' :: (['y', '"'] ++ ['z'])) behind := by
    have hclosed : Attribute.quotedTail '"' (['y', '"'] ++ (['z'] ++ behind)) = 2 := by
      simp [Attribute.quotedTail, Attribute.quotedTail.go]
    exact .plain rfl (.quoted (.inl rfl) hclosed (.plain rfl .nil))
  refine ⟨⟨['<'], [], ['p'], [.blank [' '], .declaration ['a'] "=\"x>y\"".toList, .blank [' '],
    .declaration ['b'] "=x\"y\"z".toList, .blank [' '], .stray '\\', .declaration ['b'] [],
    .blank [' '], .spread "\x7bd>e\x7d".toList], ['>']⟩, ?_, ?_⟩
  · constructor
    case text_eq => rfl
    case opener => exact .present _
    case slash => exact .absent (by decide)
    case name => exact List.forall_mem_singleton.2 rfl
    case name_ends => exact Text.ends_cons rfl
    case row =>
      repeat' refine .cons_of_segment? (by decide +kernel) ?_
      exact .nil (.close [])
  · exact ⟨.nil, .nil, .nil, hvalue _, .nil, .slash rfl, .nil, .nil, .nil, trivial⟩

end Tag

end TagLint
