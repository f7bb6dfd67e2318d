import TagLint.Proofs.Attribute.AttributeReader
import TagLint.Proofs.Attribute.Segment
import TagLint.Proofs.Text.Bytes

/-!
# The segments of a tag

The reader of attributes takes the text of a tag apart, from behind the name to the place where it
stops.

- `AttributeReader.Stands`: which place of the tag's text a reader stands at.
- `Tag.HasSegment`: the reading comes to a segment at a place. The segments cover the text without
  gaps (`Tag.exists_hasSegment`).
- `Tag.Skips`: the characters that are read past, as part of a value or of a spread.
-/

namespace TagLint

namespace Tag

/-! ### In front of the attributes -/

theorem exists_append_dropOptional (c : Char) (text : List Char) :
    ∃ front, front ++ Text.dropOptional c text = text := by
  unfold Text.dropOptional
  split
  · exact ⟨[], rfl⟩
  · next d rest =>
    split
    · exact ⟨[d], rfl⟩
    · exact ⟨[], rfl⟩

/-- In front of the attributes stand the delimiters of the tag and its name. -/
theorem exists_append_afterName (text : List Char) : ∃ front, front ++ afterName text = text := by
  obtain ⟨opener, hopener⟩ := exists_append_dropOptional '<' text
  obtain ⟨slash, hslash⟩ := exists_append_dropOptional '/' (Text.dropOptional '<' text)
  refine ⟨opener ++ (slash ++ nameOf text), ?_⟩
  rw [List.append_assoc, List.append_assoc, nameOf, afterName, List.takeWhile_append_dropWhile,
    afterOpener, hslash, hopener]

/-- The place behind the name of the tag, where the attributes begin. -/
def attributeStart (tag : Tag) : Nat :=
  tag.text.toList.length - (afterName tag.text.toList).length

/-- The offset of a place of a tag in the source. -/
def offsetAt (tag : Tag) (place : Nat) : Nat :=
  tag.span.start + Text.byteSize (tag.text.toList.take place)

theorem offsetAt_le_iff {tag : Tag} {first second : Nat} (hfirst : first ≤ tag.text.toList.length)
    (hsecond : second ≤ tag.text.toList.length) :
    tag.offsetAt first ≤ tag.offsetAt second ↔ first ≤ second := by
  rw [offsetAt, offsetAt, Nat.add_le_add_iff_left]
  exact Text.byteSize_take_le_iff hfirst hsecond

end Tag

namespace AttributeReader

open Relation

/-! ### Places of the reader -/

variable {r s behind : AttributeReader} {segment : Segment} {tag : Tag} {place : Nat}

/-- The reader stands at a place of the tag's text. -/
structure Stands (tag : Tag) (r : AttributeReader) (place : Nat) : Prop where
  le : place ≤ tag.text.toList.length
  rest : r.rest = tag.text.toList.drop place
  offset : r.offset = tag.offsetAt place

/-- The place of a reader is determined by the text that is left. -/
theorem Stands.place_eq (h : Stands tag r place) :
    place = tag.text.toList.length - r.rest.length := by
  have := h.le
  rw [h.rest, List.length_drop]
  omega

/-- Behind a segment the reader stands behind the segment's characters. -/
theorem Stands.advance (h : Stands tag r place) (hsegment : r.segment? = some (segment, behind)) :
    Stands tag behind (place + segment.text.length) := by
  obtain ⟨c, rest, hrest, hfront, rfl⟩ := segment?_eq_some_iff.1 hsegment
  have htext : segment.text = (tag.text.toList.drop place).take segment.text.length := by
    rw [← h.rest, hrest]
    exact (List.prefix_iff_eq_take.1 (Segment.text_prefix hfront))
  have hlen := (Segment.text_prefix hfront).length_le
  rw [← hrest, h.rest, List.length_drop] at hlen
  refine ⟨?_, ?_, ?_⟩
  · have := h.le
    omega
  · rw [AttributeReader.advance, h.rest, List.drop_drop]
  · rw [AttributeReader.advance, h.offset, Tag.offsetAt, Tag.offsetAt, List.take_add,
      Text.byteSize_append, ← htext, Nat.add_assoc]

theorem stands_ofTag (tag : Tag) : Stands tag (ofTag tag) tag.attributeStart := by
  obtain ⟨front, htext⟩ := Tag.exists_append_afterName tag.text.toList
  have hlen := congrArg List.length htext
  have hsize := congrArg Text.byteSize htext
  have htake := congrArg (List.take front.length) htext
  have hdrop := congrArg (List.drop front.length) htext
  rw [List.length_append] at hlen
  rw [Text.byteSize_append] at hsize
  rw [List.take_left] at htake
  rw [List.drop_left] at hdrop
  have hhead : tag.attributeStart = front.length := by
    rw [Tag.attributeStart]
    omega
  refine ⟨?_, ?_, ?_⟩
  · omega
  · rw [hhead, ← hdrop]
    rfl
  · rw [hhead, Tag.offsetAt, ← htake]
    show tag.span.start + (Text.byteSize tag.text.toList -
      Text.byteSize (Tag.afterName tag.text.toList)) = _
    omega

/-- Wherever the reader comes to, it stands at a later place of the same tag. -/
theorem exists_stands_of_reaches (h : Reaches r s) (hr : Stands tag r place) :
    ∃ later, place ≤ later ∧ Stands tag s later := by
  induction h with
  | refl => exact ⟨place, Nat.le_refl _, hr⟩
  | tail _ hmove ih =>
    obtain ⟨segment, hsegment⟩ := hmove
    obtain ⟨later, hle, hstands⟩ := ih
    exact ⟨_, by omega, hstands.advance hsegment⟩

end AttributeReader

/-! ### The segments of a tag -/

namespace Tag

open AttributeReader

/-- The reading of a tag's attributes comes to a segment that stands at a place of the tag. -/
def HasSegment (tag : Tag) (first : Nat) (segment : Segment) : Prop :=
  ∃ r behind, Reaches (ofTag tag) r ∧ Stands tag r first ∧ r.segment? = some (segment, behind)

/-- The place where the reading of a tag's attributes stops. -/
def attributeStop (tag : Tag) : Nat :=
  tag.text.toList.length - (ofTag tag).exhaust.rest.length

/-- The reading of a tag's attributes reads past the character at a place. -/
def Skips (tag : Tag) (place : Nat) : Prop :=
  ∃ first segment i, tag.HasSegment first segment ∧ segment.Hides i ∧ place = first + i

variable {tag : Tag} {first second x : Nat} {segment other : Segment}

theorem stands_exhaust (tag : Tag) : Stands tag (ofTag tag).exhaust tag.attributeStop := by
  obtain ⟨later, -, hstands⟩ :=
    exists_stands_of_reaches (reaches_exhaust (ofTag tag)) (stands_ofTag tag)
  rw [attributeStop, ← hstands.place_eq]
  exact hstands

/-- A segment ends before the reading stops. -/
theorem HasSegment.le_stop (h : tag.HasSegment first segment) :
    first + segment.text.length ≤ tag.attributeStop := by
  obtain ⟨r, behind, hreach, hstands, hsegment⟩ := h
  have hbehind : Reaches (ofTag tag) behind := .tail hreach ⟨segment, hsegment⟩
  -- from behind the segment the reading still comes to where it stops
  have hpath := reaches_exhaust behind
  rw [exhaust_of_reaches hbehind] at hpath
  obtain ⟨later, hle, hlater⟩ := exists_stands_of_reaches hpath (hstands.advance hsegment)
  rw [hlater.place_eq, ← attributeStop] at hle
  exact hle

/-- Every place from the name of the tag to where the reading stops is in a segment. -/
theorem exists_hasSegment (hhead : tag.attributeStart ≤ x) (hstop : x < tag.attributeStop) :
    ∃ first segment, tag.HasSegment first segment ∧ first ≤ x ∧
      x < first + segment.text.length := by
  -- by induction on the way there: the last segment covers the place, or an earlier one does
  have hcover {r : AttributeReader} {place : Nat} (hreach : Reaches (ofTag tag) r)
      (hr : Stands tag r place) (hlt : x < place) :
      ∃ first segment, tag.HasSegment first segment ∧ first ≤ x ∧
        x < first + segment.text.length := by
    induction hreach generalizing place with
    | refl =>
      rw [hr.place_eq, ← (stands_ofTag tag).place_eq] at hlt
      omega
    | @tail s behind hs hmove ih =>
      obtain ⟨segment, hsegment⟩ := hmove
      obtain ⟨first, -, hfirst⟩ := exists_stands_of_reaches hs (stands_ofTag tag)
      rw [hr.place_eq, ← (hfirst.advance hsegment).place_eq] at hlt
      by_cases hin : first ≤ x
      · exact ⟨first, segment, ⟨s, behind, hs, hfirst, hsegment⟩, hin, hlt⟩
      · exact ih hfirst (Nat.lt_of_not_le hin)
  exact hcover (reaches_exhaust _) (stands_exhaust tag) hstop

/-- The characters of a segment stand in the tag from its place on. -/
theorem HasSegment.text_prefix (h : tag.HasSegment first segment) :
    segment.text <+: tag.text.toList.drop first := by
  obtain ⟨r, behind, -, hstands, hsegment⟩ := h
  obtain ⟨c, rest, hrest, hfront, -⟩ := segment?_eq_some_iff.1 hsegment
  rw [← hstands.rest, hrest]
  exact Segment.text_prefix hfront

theorem HasSegment.getElem? (h : tag.HasSegment first segment) {i : Nat}
    (hi : i < segment.text.length) : segment.text[i]? = tag.text.toList[first + i]? := by
  obtain ⟨behind, htext⟩ := h.text_prefix
  rw [← List.getElem?_drop, ← htext, List.getElem?_append_left hi]

/-- A segment stands at the front of some text. -/
theorem HasSegment.exists_front? (h : tag.HasSegment first segment) :
    ∃ c rest, Segment.front? c rest = some segment := by
  obtain ⟨r, behind, -, -, hsegment⟩ := h
  obtain ⟨c, rest, -, hfront, -⟩ := segment?_eq_some_iff.1 hsegment
  exact ⟨c, rest, hfront⟩

/-- The attributes of a tag are its declarations, each at the offset of its place. -/
theorem mem_attributes_iff {found : Attribute} :
    found ∈ tag.attributes ↔ ∃ first name assignment,
      tag.HasSegment first (.declaration name assignment) ∧
        found = ⟨String.ofList name, tag.offsetAt first⟩ := by
  rw [attributes, List.mem_filterMap]
  constructor
  · rintro ⟨occurrence, hmem, hfound⟩
    obtain ⟨s, segment, behind, hreach, hsegment, hoccurs⟩ := mem_occurrences_iff.1 hmem
    obtain ⟨first, -, hstands⟩ := exists_stands_of_reaches hreach (stands_ofTag tag)
    cases segment with
    | blank => cases hoccurs
    | spread => cases hoccurs
    | stray =>
      cases hoccurs
      cases hfound
    | declaration name assignment =>
      cases hoccurs
      cases hfound
      rw [hstands.offset]
      exact ⟨first, name, assignment, ⟨s, behind, hreach, hstands, hsegment⟩, rfl⟩
  · rintro ⟨first, name, assignment, ⟨r, behind, hreach, hstands, hsegment⟩, rfl⟩
    refine ⟨.declared _, mem_occurrences_iff.2 ⟨r, _, behind, hreach, hsegment, ?_⟩, rfl⟩
    rw [Segment.occurrence?, hstands.offset]

/-- The bytes of an attribute's name are those from its place to behind its last character. -/
theorem HasSegment.offsetAt_name {name assignment : List Char}
    (h : tag.HasSegment first (.declaration name assignment)) :
    tag.offsetAt first + Text.byteSize name = tag.offsetAt (first + name.length) := by
  have hname : name <+: tag.text.toList.drop first :=
    (List.prefix_append name assignment).trans h.text_prefix
  rw [offsetAt, offsetAt, List.take_add, Text.byteSize_append,
    ← List.prefix_iff_eq_take.1 hname, Nat.add_assoc]

/-- What is read past stands between the name of the tag and where the reading stops. -/
theorem Skips.lt_stop (h : tag.Skips x) : x < tag.attributeStop := by
  obtain ⟨first, segment, i, hsegment, hhides, rfl⟩ := h
  have := hsegment.le_stop
  have := hhides.lt
  omega

end Tag

end TagLint
