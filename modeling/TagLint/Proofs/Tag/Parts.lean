import TagLint.Proofs.Attribute.Extent

/-!
# The parts of a tag

The text of a tag consists of a head, of segments, and of a tail, and there is only one way to take
it apart. What occurs in the tag is what occurs with the segments, so the reader of attributes
leaves no character out.

- `Tag.Parts`: a head, segments and a tail.
- `Tag.Parts.Make`: parts that make up a text, each as long as its rule says.
- `Tag.Parts.occurrencesAt`: what occurs with the segments, each at its own offset.
- `Tag.Parts.exists_make`, `Tag.Parts.Make.unique`: every text has its parts, and no others.
- `Tag.existsUnique_parts`: so has every tag, and its reader finds what occurs with them.
-/

namespace TagLint

/-! ### Segments in a row -/

namespace Segment

/-- Segments in a row, in front of the tail. Each fits in front of all that is behind it. -/
inductive Row : List Segment → List Char → Prop
  | nil {tail : List Char} : IsTail tail → Row [] tail
  | cons {segment : Segment} {segments : List Segment} {tail : List Char} :
    segment.Fits (segments.flatMap text ++ tail) → Row segments tail →
    Row (segment :: segments) tail

/-- What occurs with segments in a row, the first of which stands at an offset: an attribute with
every declaration, and every stray character. -/
def occurrencesAt (offset : Nat) : List Segment → List Occurrence
  | [] => []
  | .blank run :: rest => occurrencesAt (offset + Text.byteSize run) rest
  | .spread run :: rest => occurrencesAt (offset + Text.byteSize run) rest
  | .declaration name assignment :: rest =>
    .declared ⟨String.ofList name, offset⟩ ::
      occurrencesAt (offset + Text.byteSize (name ++ assignment)) rest
  | .stray found :: rest =>
    .stray found offset :: occurrencesAt (offset + found.utf8Size) rest

theorem occurrencesAt_cons (offset : Nat) (segment : Segment) (segments : List Segment) :
    occurrencesAt offset (segment :: segments) = (segment.occurrence? offset).toList ++
      occurrencesAt (offset + Text.byteSize segment.text) segments := by
  cases segment <;> rfl

/-- A tail has no segment in front. -/
theorem IsTail.ne_segment {tail behind : List Char} {segment : Segment} (h : IsTail tail)
    (hfits : segment.Fits behind) : tail ≠ segment.text ++ behind := by
  rintro rfl
  obtain ⟨c, rest, htext, hfront⟩ := hfits.exists_front?
  rw [← htext] at h
  cases (front?_cons_eq_none_iff.2 h).symm.trans hfront

/-- Of two segments in front of one text the first is the second. -/
theorem Fits.unique {segment other : Segment} {behind behind' : List Char}
    (h : segment.Fits behind) (hother : other.Fits behind')
    (htext : segment.text ++ behind = other.text ++ behind') :
    segment = other ∧ behind = behind' := by
  obtain ⟨c, rest, hcons, hfirst⟩ := h.exists_front?
  have hsecond := hother.front? (hcons.trans htext)
  obtain rfl := Option.some.inj (hfirst.symm.trans hsecond)
  exact ⟨rfl, List.append_cancel_left htext⟩

/-- **A text has at most one row of segments.** -/
theorem Row.unique {segments others : List Segment} {tail tail' : List Char}
    (h : Row segments tail) (hother : Row others tail')
    (htext : segments.flatMap text ++ tail = others.flatMap text ++ tail') :
    segments = others ∧ tail = tail' := by
  induction h generalizing others with
  | nil htail =>
    cases hother with
    | nil => exact ⟨rfl, htext⟩
    | cons hfits =>
      rw [List.flatMap_cons, List.append_assoc] at htext
      exact absurd htext (htail.ne_segment hfits)
  | cons hfits _ ih =>
    rw [List.flatMap_cons, List.append_assoc] at htext
    cases hother with
    | nil htail => exact absurd htext.symm (htail.ne_segment hfits)
    | cons hfits' hmore =>
      rw [List.flatMap_cons, List.append_assoc] at htext
      obtain ⟨rfl, hbehind⟩ := hfits.unique hfits' htext
      obtain ⟨rfl, rfl⟩ := ih hmore hbehind
      exact ⟨rfl, rfl⟩

/-- **A text has a row of segments.** -/
theorem exists_row (text : List Char) : ∃ (segments : List Segment) (tail : List Char),
    text = segments.flatMap Segment.text ++ tail ∧ Row segments tail := by
  induction hn : text.length using Nat.strongRecOn generalizing text with
  | ind n ih =>
    subst hn
    rcases isTail_or_fits text with htail | ⟨segment, behind, rfl, hfits⟩
    · exact ⟨[], text, rfl, .nil htail⟩
    · have hlt : behind.length < (segment.text ++ behind).length := by
        have hpos := List.length_pos_iff.2 hfits.text_ne_nil
        rw [List.length_append]
        omega
      obtain ⟨segments, tail, rfl, hrow⟩ := ih _ hlt behind rfl
      refine ⟨segment :: segments, tail, ?_, .cons hfits hrow⟩
      rw [List.flatMap_cons, List.append_assoc]

/-- What a reader finds in a row of segments is what occurs with them. -/
theorem Row.occurrences_eq {segments : List Segment} {tail : List Char} (h : Row segments tail)
    (offset : Nat) :
    (⟨offset, segments.flatMap text ++ tail⟩ : AttributeReader).occurrences =
      occurrencesAt offset segments := by
  induction h generalizing offset with
  | nil htail => exact AttributeReader.occurrences_of_isTail htail offset
  | cons hfits _ ih =>
    rw [List.flatMap_cons, List.append_assoc, AttributeReader.occurrences_of_fits hfits, ih,
      occurrencesAt_cons]

end Segment

/-! ### The head -/

namespace Text

/-- A character in front of a text, if it is there: the part that has it, and what is behind. -/
inductive Optional (c : Char) : List Char → List Char → Prop
  | present (behind : List Char) : Optional c [c] behind
  | absent {behind : List Char} : behind.head? ≠ some c → Optional c [] behind

theorem Optional.dropOptional_append {c : Char} {front behind : List Char}
    (h : Optional c front behind) : dropOptional c (front ++ behind) = behind := by
  cases h with
  | present => exact if_pos rfl
  | absent hhead =>
    cases behind with
    | nil => rfl
    | cons d rest => exact if_neg fun hd => hhead (congrArg some hd)

theorem exists_optional (c : Char) (text : List Char) :
    ∃ front, text = front ++ dropOptional c text ∧ Optional c front (dropOptional c text) := by
  cases text with
  | nil => exact ⟨[], rfl, .absent nofun⟩
  | cons d rest =>
    by_cases hd : d = c
    · subst hd
      rw [dropOptional, if_pos rfl]
      exact ⟨[d], rfl, .present rest⟩
    · rw [dropOptional, if_neg hd]
      exact ⟨[], rfl, .absent fun hhead => hd (Option.some.inj hhead)⟩

end Text

namespace Tag

/-- The parts of a tag's text: of the head, the `<`, the slash and the name, each of which may be
empty, then the segments, and the tail. -/
@[ext]
structure Parts where
  opener : List Char
  slash : List Char
  name : List Char
  segments : List Segment
  tail : List Char

namespace Parts

/-- What is behind the head. -/
def body (parts : Parts) : List Char :=
  parts.segments.flatMap Segment.text ++ parts.tail

/-- The head. -/
def head (parts : Parts) : List Char :=
  parts.opener ++ (parts.slash ++ parts.name)

/-- The parts make up a text. In the head are a `<` and a slash, if there are any, and all of the
name. Behind it are the segments, in front of the tail. -/
structure Make (parts : Parts) (text : List Char) : Prop where
  text_eq : text = parts.head ++ parts.body
  opener : Text.Optional '<' parts.opener (parts.slash ++ (parts.name ++ parts.body))
  slash : Text.Optional '/' parts.slash (parts.name ++ parts.body)
  name : ∀ c ∈ parts.name, Text.isTagNameChar c = true
  name_ends : Text.Ends Text.isTagNameChar parts.body
  row : Segment.Row parts.segments parts.tail

/-- What occurs with the segments, when the text stands at an offset. -/
def occurrencesAt (offset : Nat) (parts : Parts) : List Occurrence :=
  Segment.occurrencesAt (offset + Text.byteSize parts.head) parts.segments

variable {parts other : Parts} {text : List Char}

/-- The head is read off the text from left to right. -/
theorem Make.afterOpener_eq (h : parts.Make text) :
    afterOpener text = parts.name ++ parts.body := by
  have htext : text = parts.opener ++ (parts.slash ++ (parts.name ++ parts.body)) := by
    rw [h.text_eq, head, List.append_assoc, List.append_assoc]
  rw [afterOpener, htext, h.opener.dropOptional_append, h.slash.dropOptional_append]

theorem Make.name_eq (h : parts.Make text) : parts.name = nameOf text := by
  rw [nameOf, h.afterOpener_eq, Text.takeWhile_append h.name h.name_ends]

theorem Make.body_eq (h : parts.Make text) : parts.body = afterName text := by
  rw [afterName, h.afterOpener_eq, Text.dropWhile_append h.name h.name_ends]

/-- **A text has at most one way of being made up of parts.** -/
theorem Make.unique (h : parts.Make text) (hother : other.Make text) : parts = other := by
  have hname : parts.name = other.name := h.name_eq.trans hother.name_eq.symm
  have hbody : parts.body = other.body := h.body_eq.trans hother.body_eq.symm
  obtain ⟨hsegments, htail⟩ := h.row.unique hother.row hbody
  have hafter : Text.dropOptional '<' text = parts.slash ++ (parts.name ++ parts.body) := by
    rw [h.text_eq, head, List.append_assoc, List.append_assoc, h.opener.dropOptional_append]
  have hafter' : Text.dropOptional '<' text = other.slash ++ (other.name ++ other.body) := by
    rw [hother.text_eq, head, List.append_assoc, List.append_assoc,
      hother.opener.dropOptional_append]
  have hslash : parts.slash = other.slash := by
    rw [hafter, hname, hbody] at hafter'
    exact List.append_cancel_right hafter'
  have hopener : parts.opener = other.opener := by
    have htext := h.text_eq.symm.trans hother.text_eq
    rw [head, head, hslash, hname, hbody] at htext
    exact List.append_cancel_right (List.append_cancel_right htext)
  exact Parts.ext hopener hslash hname hsegments htail

/-- **A text is made up of parts.** -/
theorem exists_make (text : List Char) : ∃ parts : Parts, parts.Make text := by
  obtain ⟨opener, hopener, hopenerFits⟩ := Text.exists_optional '<' text
  obtain ⟨slash, hslash, hslashFits⟩ := Text.exists_optional '/' (Text.dropOptional '<' text)
  obtain ⟨segments, tail, hbody, hrow⟩ := Segment.exists_row (afterName text)
  have hname : nameOf text ++ afterName text = afterOpener text :=
    List.takeWhile_append_dropWhile
  refine ⟨⟨opener, slash, nameOf text, segments, tail⟩, ?_⟩
  constructor
  case text_eq =>
    rw [head, body, ← hbody, List.append_assoc, List.append_assoc, hname, afterOpener, ← hslash,
      ← hopener]
  case opener =>
    rw [body, ← hbody, hname, afterOpener, ← hslash]
    exact hopenerFits
  case slash =>
    rw [body, ← hbody, hname]
    exact hslashFits
  case name => exact fun c hc => List.mem_takeWhile_imp hc
  case name_ends =>
    rw [body, ← hbody]
    exact Text.ends_dropWhile _ _
  case row => exact hrow

/-- The reader of attributes begins behind the head, and finds what occurs with the segments. -/
theorem Make.occurrences_eq (h : parts.Make text) (start : Nat) :
    (AttributeReader.ofText start text).occurrences = parts.occurrencesAt start := by
  have hsize := congrArg Text.byteSize h.text_eq
  rw [Text.byteSize_append] at hsize
  rw [AttributeReader.ofText, ← h.body_eq, hsize, Nat.add_sub_cancel]
  exact h.row.occurrences_eq _

end Parts

/-- **Every character of a tag is accounted for.** The text of a tag is made up of parts, in exactly
one way. The name of the tag is among them, and what occurs in the tag is what occurs with the
segments. -/
theorem existsUnique_parts (tag : Tag) : ∃ parts : Parts, parts.Make tag.text.toList ∧
    (∀ other : Parts, other.Make tag.text.toList → other = parts) ∧
    parts.name = nameOf tag.text.toList ∧
    tag.occurrences = parts.occurrencesAt tag.span.start := by
  obtain ⟨parts, hmake⟩ := Parts.exists_make tag.text.toList
  refine ⟨parts, hmake, ?_, hmake.name_eq, hmake.occurrences_eq tag.span.start⟩
  intro other hother
  exact hother.unique hmake

end Tag

end TagLint
