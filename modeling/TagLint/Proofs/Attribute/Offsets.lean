import TagLint.Attribute.Repeats
import TagLint.Proofs.Tag.Segments

/-!
# The same attributes at other offsets

Offsets are carried along by the reading of attributes, but nothing is decided by them. So a tag
that is moved has the same occurrences at other offsets, and the same repetitions.

- `Attribute.mapOffset`, `Occurrence.mapOffset`: what is read at another offset.
- `Attribute.repeats_map`: repetitions are found by the names only.
- `AttributeReader.occurrences_move`: a reader that is moved finds the same, moved.
- `Tag.exists_place_of_mem_occurrences`: every occurrence is at a place of its tag.
-/

namespace TagLint

/-- The attribute at another offset. -/
def Attribute.mapOffset (move : Nat → Nat) (found : Attribute) : Attribute :=
  { found with offset := move found.offset }

namespace Occurrence

/-- What occurs, at another offset. -/
def mapOffset (move : Nat → Nat) : Occurrence → Occurrence
  | declared found => declared (found.mapOffset move)
  | stray found offset => stray found (move offset)

/-- Where something occurs. -/
def offset : Occurrence → Nat
  | declared found => found.offset
  | stray _ offset => offset

/-- The characters that occur. -/
def word : Occurrence → List Char
  | declared found => found.name.toList
  | stray found _ => [found]

@[simp] theorem offset_mapOffset (move : Nat → Nat) (found : Occurrence) :
    (found.mapOffset move).offset = move found.offset := by
  cases found <;> rfl

@[simp] theorem word_mapOffset (move : Nat → Nat) (found : Occurrence) :
    (found.mapOffset move).word = found.word := by
  cases found <;> rfl

theorem declared?_mapOffset (move : Nat → Nat) (found : Occurrence) :
    (found.mapOffset move).declared? = found.declared?.map (Attribute.mapOffset move) := by
  cases found <;> rfl

theorem filterMap_declared?_mapOffset (move : Nat → Nat) (occurrences : List Occurrence) :
    (occurrences.map (mapOffset move)).filterMap declared? =
      (occurrences.filterMap declared?).map (Attribute.mapOffset move) := by
  rw [List.filterMap_map, List.map_filterMap]
  congr 1
  funext found
  exact declared?_mapOffset move found

end Occurrence

/-- Whether an attribute repeats a name, and of which one, is a matter of names. -/
theorem Attribute.repeats_map (move : Attribute → Attribute)
    (hname : ∀ found, (move found).name = found.name) (seen attributes : List Attribute) :
    repeats (seen.map move) (attributes.map move) =
      (repeats seen attributes).map (Prod.map move move) := by
  induction attributes generalizing seen with
  | nil => rfl
  | cons found rest ih =>
    have hfind : (seen.map move).find? (·.name = (move found).name) =
        (seen.find? (·.name = found.name)).map move := by
      rw [List.find?_map]
      simp only [hname, Function.comp_def]
    rw [List.map_cons, repeats, hfind, repeats]
    cases seen.find? (·.name = found.name) with
    | none => exact ih (found :: seen)
    | some first => exact congrArg _ (ih seen)

/-! ### Readers -/

namespace Segment

/-- What occurs with a segment does not depend on where it stands. -/
theorem occurrence?_mapOffset (move : Nat → Nat) (offset : Nat) (segment : Segment) :
    segment.occurrence? (move offset) =
      (segment.occurrence? offset).map (Occurrence.mapOffset move) := by
  cases segment <;> rfl

end Segment

namespace AttributeReader

/-- A reader that is moved finds the same, moved. -/
theorem occurrences_move (base offset : Nat) (rest : List Char) :
    (⟨base + offset, rest⟩ : AttributeReader).occurrences =
      (⟨offset, rest⟩ : AttributeReader).occurrences.map (Occurrence.mapOffset (base + ·)) := by
  induction hn : rest.length using Nat.strongRecOn generalizing offset rest with
  | ind n ih =>
    subst hn
    rcases hsegment : (⟨offset, rest⟩ : AttributeReader).segment? with _ | ⟨segment, behind⟩
    · have hmoved : (⟨base + offset, rest⟩ : AttributeReader).segment? = none := by
        rcases rest with _ | ⟨c, rest⟩
        · rfl
        · rw [segment?, Option.map_eq_none_iff] at hsegment ⊢
          exact hsegment
      rw [occurrences_of_none hmoved, occurrences_of_none hsegment, List.map_nil]
    · have hlt := segment?_length_lt hsegment
      obtain ⟨c, more, hrest, hfront, rfl⟩ := segment?_eq_some_iff.1 hsegment
      have hmoved : (⟨base + offset, rest⟩ : AttributeReader).segment? =
          some (segment, (⟨base + offset, rest⟩ : AttributeReader).advance segment) :=
        segment?_eq_some_iff.2 ⟨c, more, hrest, hfront, rfl⟩
      have hmore := ih _ hlt (offset + Text.byteSize segment.text) _ rfl
      rw [← Nat.add_assoc] at hmore
      have hfirst : (segment.occurrence? (base + offset)).toList =
          (segment.occurrence? offset).toList.map (Occurrence.mapOffset (base + ·)) := by
        rw [Segment.occurrence?_mapOffset (base + ·), Option.toList_map]
      rw [occurrences_of_some hmoved, occurrences_of_some hsegment, List.map_append, ← hfirst]
      exact congrArg _ hmore

end AttributeReader

/-! ### Places -/

open AttributeReader in
/-- Every occurrence is at a place of its tag, and is a word without white space there. -/
theorem Tag.exists_place_of_mem_occurrences {tag : Tag} {found : Occurrence}
    (h : found ∈ tag.occurrences) : ∃ place, found.offset = tag.offsetAt place ∧
      found.word <+: tag.text.toList.drop place ∧ ∀ c ∈ found.word, Text.isSpace c = false := by
  obtain ⟨s, segment, behind, hreach, hsegment, hoccurs⟩ := mem_occurrences_iff.1 h
  obtain ⟨place, -, hstands⟩ := exists_stands_of_reaches hreach (stands_ofTag tag)
  obtain ⟨c, rest, hrest, hfront, -⟩ := segment?_eq_some_iff.1 hsegment
  have hprefix : segment.text <+: tag.text.toList.drop place := by
    rw [← hstands.rest, hrest]
    exact Segment.text_prefix hfront
  refine ⟨place, ?_⟩
  rw [← hstands.offset]
  cases segment with
  | blank => cases hoccurs
  | spread => cases hoccurs
  | declaration name assignment =>
    cases hoccurs
    refine ⟨rfl, ?_, fun d hd => ?_⟩
    · rw [Occurrence.word, String.toList_ofList]
      exact (List.prefix_append name assignment).trans hprefix
    · rw [Occurrence.word, String.toList_ofList] at hd
      exact Text.not_isSpace_of_isNameChar ((Segment.name_of_front? hfront).2 d hd)
  | stray found =>
    cases hoccurs
    refine ⟨rfl, hprefix, fun d hd => ?_⟩
    rw [Occurrence.word, List.mem_singleton] at hd
    subst hd
    exact Segment.isSpace_of_front?_stray hfront

/-- A tag that stands further on has the same occurrences, further on. -/
theorem Tag.occurrences_move {tag moved : Tag} {base : Nat} (htext : moved.text = tag.text)
    (hstart : moved.span.start = base + tag.span.start) :
    moved.occurrences = tag.occurrences.map (Occurrence.mapOffset (base + ·)) := by
  rw [occurrences, occurrences, AttributeReader.ofTag, AttributeReader.ofTag,
    AttributeReader.ofText, AttributeReader.ofText, htext, hstart, Nat.add_assoc]
  exact AttributeReader.occurrences_move ..

end TagLint
