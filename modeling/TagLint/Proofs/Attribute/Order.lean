import TagLint.Proofs.Attribute.Offsets
import TagLint.Proofs.Text.Extent

/-!
# The order of what occurs in a tag

What occurs among the attributes of a tag stands in the order in which it is read, and each
occurrence ends before the next one begins. Two attributes are a character apart at least, since a
name reaches as far as it can.

- `Occurrence.Before`: one occurrence ends before another one begins.
- `AttributeReader.occurrences_pairwise`: so it is with what a reader finds.
- `Attribute.forall_repeats`: what holds of any two attributes in their order holds of an attribute
  and the earlier one whose name it repeats.
- `Tag.bounds_of_mem_occurrences`: what occurs in a tag of a source stands between the delimiters of
  the tag.
-/

namespace TagLint

namespace Occurrence

/-- The offset just past what occurs. -/
def stop (found : Occurrence) : Nat :=
  found.offset + Text.byteSize found.word

/-- An occurrence ends before another one begins. Between two attributes there is a character. -/
structure Before (first second : Occurrence) : Prop where
  stop_le : first.stop ≤ second.offset
  stop_lt : first.declared?.isSome → second.declared?.isSome → first.stop < second.offset

end Occurrence

/-! ### Segments -/

/-- What occurs with a segment begins with it. -/
theorem Segment.word_of_occurrence? {segment : Segment} {offset : Nat} {found : Occurrence}
    (h : segment.occurrence? offset = some found) :
    found.offset = offset ∧ found.word <+: segment.text := by
  cases segment with
  | blank => cases h
  | spread => cases h
  | declaration name assignment =>
    cases h
    rw [Occurrence.word, String.toList_ofList]
    exact ⟨rfl, List.prefix_append name assignment⟩
  | stray found =>
    cases h
    exact ⟨rfl, List.prefix_rfl⟩

/-- What occurs with a segment has a character, and no `>`. -/
theorem Segment.word_of_front? {c : Char} {rest : List Char} {segment : Segment} {offset : Nat}
    {found : Occurrence} (hfront : front? c rest = some segment)
    (h : segment.occurrence? offset = some found) : found.word ≠ [] ∧ '>' ∉ found.word := by
  cases segment with
  | blank => cases h
  | spread => cases h
  | declaration name assignment =>
    cases h
    obtain ⟨hne, hname⟩ := name_of_front? hfront
    rw [Occurrence.word, String.toList_ofList]
    refine ⟨hne, fun hclose => ?_⟩
    cases hname _ hclose
  | stray found =>
    cases h
    refine ⟨List.cons_ne_nil _ _, fun hclose => ?_⟩
    obtain rfl := List.mem_singleton.1 hclose
    rcases front?_cases hfront with ⟨-, heq⟩ | ⟨-, heq⟩ | ⟨-, heq⟩ | ⟨hne, -, heq⟩
    · cases heq
    · cases heq
    · cases heq
    · cases heq
      exact hne rfl

/-- Behind an attribute that assigns nothing its name cannot go on. -/
theorem Segment.ends_of_front? {c : Char} {rest name : List Char}
    (h : front? c rest = some (declaration name [])) :
    Text.Ends Text.isNameChar ((c :: rest).drop name.length) := by
  rcases front?_cases h with ⟨-, heq⟩ | ⟨-, heq⟩ | ⟨-, heq⟩ | ⟨-, -, heq⟩
  · cases heq
  · cases heq
  · rw [ofName] at heq
    obtain ⟨rfl, -⟩ := Segment.declaration.inj heq
    rw [List.length_cons, List.drop_succ_cons, Text.drop_length_takeWhile]
    exact Text.ends_dropWhile _ _
  · cases heq

/-! ### Readers -/

namespace AttributeReader

variable {r s behind : AttributeReader} {segment : Segment} {found : Occurrence}

/-- What a reader comes to is not in front of it. -/
theorem offset_le_of_reaches (h : Reaches r s) : r.offset ≤ s.offset := by
  induction h with
  | refl => exact Nat.le_refl _
  | tail _ hmove ih =>
    obtain ⟨segment, hsegment⟩ := hmove
    obtain ⟨c, rest, -, -, rfl⟩ := segment?_eq_some_iff.1 hsegment
    exact Nat.le_trans ih (Nat.le_add_right ..)

/-- Nothing occurs in front of the reader. -/
theorem offset_le_of_mem_occurrences (h : found ∈ r.occurrences) : r.offset ≤ found.offset := by
  obtain ⟨s, segment, behind, hreach, -, hfound⟩ := mem_occurrences_iff.1 h
  rw [(Segment.word_of_occurrence? hfound).1]
  exact offset_le_of_reaches hreach

/-- Where no name can go on, no attribute begins. -/
theorem offset_lt_of_ends (hends : Text.Ends Text.isNameChar r.rest) (h : found ∈ r.occurrences)
    (hdeclared : found.declared?.isSome) : r.offset < found.offset := by
  rcases hsegment : r.segment? with _ | ⟨segment, behind⟩
  · rw [occurrences_of_none hsegment] at h
    cases h
  obtain ⟨c, rest, hrest, hfront, rfl⟩ := segment?_eq_some_iff.1 hsegment
  rw [occurrences_of_some hsegment] at h
  rcases List.mem_append.1 h with h | h
  · -- the first segment would be an attribute, whose name begins with `c`
    have hfound : segment.occurrence? r.offset = some found := Option.mem_toList.1 h
    rw [hrest] at hends
    cases segment with
    | blank => cases hfound
    | spread => cases hfound
    | stray => cases hfound; cases hdeclared
    | declaration name assignment =>
      obtain ⟨hne, hname⟩ := Segment.name_of_front? hfront
      obtain ⟨d, more, rfl⟩ := List.exists_cons_of_ne_nil hne
      obtain ⟨rfl, -⟩ := List.cons_prefix_cons.1 (Segment.text_prefix hfront)
      cases (hends d rfl).symm.trans (hname d List.mem_cons_self)
  · have hpos := Text.byteSize_pos (Segment.text_ne_nil hfront)
    have hle : r.offset + Text.byteSize segment.text ≤ found.offset :=
      offset_le_of_mem_occurrences h
    omega

/-- What occurs with a segment is before what occurs behind it. -/
theorem before_of_segment? {second : Occurrence} (hsegment : r.segment? = some (segment, behind))
    (hfound : segment.occurrence? r.offset = some found) (hsecond : second ∈ behind.occurrences) :
    found.Before second := by
  obtain ⟨c, rest, hrest, hfront, rfl⟩ := segment?_eq_some_iff.1 hsegment
  obtain ⟨hoffset, more, htext⟩ := Segment.word_of_occurrence? hfound
  have hsize := congrArg Text.byteSize htext
  rw [Text.byteSize_append] at hsize
  have hle : r.offset + Text.byteSize segment.text ≤ second.offset :=
    offset_le_of_mem_occurrences hsecond
  constructor
  · rw [Occurrence.stop, hoffset]
    omega
  · intro hdeclared hattribute
    cases segment with
    | blank => cases hfound
    | spread => cases hfound
    | stray => cases hfound; cases hdeclared
    | declaration name assignment =>
      cases hfound
      have hstop : (Occurrence.declared ⟨String.ofList name, r.offset⟩).stop =
          r.offset + Text.byteSize name := by
        rw [Occurrence.stop, Occurrence.word, String.toList_ofList]
        rfl
      rw [hstop]
      rcases List.eq_nil_or_concat assignment with rfl | ⟨front, last, rfl⟩
      · -- nothing is assigned, so the name ends where the reader is behind it
        have hends : Text.Ends Text.isNameChar (r.advance (.declaration name [])).rest := by
          have hbehind := Segment.ends_of_front? hfront
          rw [← hrest, ← List.append_nil name] at hbehind
          exact hbehind
        have hlt := offset_lt_of_ends hends hsecond hattribute
        rw [advance, Segment.text, List.append_nil] at hlt
        exact hlt
      · have hpos := last.utf8Size_pos
        rw [Segment.text, List.concat_eq_append, Text.byteSize_append, Text.byteSize_append,
          Text.byteSize_cons] at hle
        omega

/-- **What a reader finds is in order.** -/
theorem occurrences_pairwise (r : AttributeReader) :
    r.occurrences.Pairwise Occurrence.Before := by
  induction hn : r.rest.length using Nat.strongRecOn generalizing r with
  | ind n ih =>
    subst hn
    rcases hsegment : r.segment? with _ | ⟨segment, behind⟩
    · rw [occurrences_of_none hsegment]
      exact .nil
    rw [occurrences_of_some hsegment, List.pairwise_append]
    refine ⟨?_, ih _ (segment?_length_lt hsegment) behind rfl, ?_⟩
    · cases segment.occurrence? r.offset with
      | none => exact .nil
      | some found => exact List.pairwise_singleton _ _
    · intro found hfound second hsecond
      exact before_of_segment? hsegment (Option.mem_toList.1 hfound) hsecond

end AttributeReader

/-! ### Tags -/

open AttributeReader in
/-- What occurs in a tag stands between the `<` and the `>` of the tag. -/
theorem Tag.bounds_of_mem_occurrences {tag : Tag} {body : List Char}
    (htext : tag.text.toList = '<' :: (body ++ ['>'])) {found : Occurrence}
    (h : found ∈ tag.occurrences) : tag.span.start < found.offset ∧
      found.stop < tag.span.start + Text.byteSize tag.text.toList := by
  obtain ⟨s, segment, behind, hreach, hsegment, hoccurs⟩ := mem_occurrences_iff.1 h
  obtain ⟨c, rest, -, hfront, -⟩ := segment?_eq_some_iff.1 hsegment
  constructor
  · -- the attributes begin behind the `<`
    have hstart : 0 < tag.attributeStart := by
      obtain ⟨front, hslash⟩ := exists_append_dropOptional '/' (body ++ ['>'])
      have hlen := congrArg List.length hslash
      have hle : (afterName ('<' :: (body ++ ['>']))).length ≤
          (Text.dropOptional '/' (body ++ ['>'])).length := List.length_dropWhile_le _ _
      rw [List.length_append] at hlen
      rw [attributeStart, htext, List.length_cons]
      omega
    have hlt : Text.byteSize (tag.text.toList.take 0) <
        Text.byteSize (tag.text.toList.take tag.attributeStart) :=
      Text.byteSize_take_lt hstart (by rw [htext]; exact Nat.succ_pos _)
    have hle := offset_le_of_reaches hreach
    rw [(stands_ofTag tag).offset, offsetAt, ← (Segment.word_of_occurrence? hoccurs).1] at hle
    omega
  · -- the word is not the last part of the tag, for that has the `>`
    obtain ⟨place, hplace, ⟨more, hword⟩, -⟩ := exists_place_of_mem_occurrences h
    obtain ⟨hne, hclose⟩ := Segment.word_of_front? hfront hoccurs
    have hparts : tag.text.toList.take place ++ (found.word ++ more) = tag.text.toList := by
      rw [hword, List.take_append_drop]
    have hmore : more ≠ [] := by
      rintro rfl
      obtain ⟨front, last, heq⟩ := List.eq_nil_or_concat found.word |>.resolve_left hne
      have hlast := congrArg List.getLast? hparts
      rw [heq, htext, List.append_nil, List.concat_eq_append, ← List.append_assoc,
        List.getLast?_concat, ← List.cons_append, List.getLast?_concat] at hlast
      rw [heq, Option.some.inj hlast, List.concat_eq_append] at hclose
      exact hclose (List.mem_append_right _ List.mem_cons_self)
    have hsize := congrArg Text.byteSize hparts
    have hpos := Text.byteSize_pos hmore
    rw [Text.byteSize_append, Text.byteSize_append] at hsize
    rw [Occurrence.stop, hplace, offsetAt]
    omega

/-! ### Repetitions -/

/-- What holds of any two attributes in their order holds of an attribute and the earlier one whose
name it repeats. -/
theorem Attribute.forall_repeats {R : Attribute → Attribute → Prop} {seen attributes : List Attribute}
    (hseen : ∀ first ∈ seen, ∀ found ∈ attributes, R first found)
    (hpairwise : attributes.Pairwise R) {first found : Attribute}
    (h : (first, found) ∈ repeats seen attributes) : R first found ∧ first.name = found.name := by
  induction attributes generalizing seen with
  | nil => cases h
  | cons next rest ih =>
    obtain ⟨hnext, hrest⟩ := List.pairwise_cons.1 hpairwise
    have hlater : ∀ first ∈ seen, ∀ found ∈ rest, R first found := fun first hfirst found hfound =>
      hseen first hfirst found (List.mem_cons_of_mem _ hfound)
    rw [repeats] at h
    split at h
    · next earlier hearlier =>
      rcases List.mem_cons.1 h with heq | h
      · cases heq
        refine ⟨hseen _ (List.mem_of_find?_eq_some hearlier) _ List.mem_cons_self, ?_⟩
        simpa using List.find?_some hearlier
      · exact ih hlater hrest h
    · refine ih (fun first hfirst found hfound => ?_) hrest h
      rcases List.mem_cons.1 hfirst with rfl | hfirst
      · exact hnext found hfound
      · exact hlater first hfirst found hfound

/-- The attributes that repeat a name keep their order. -/
theorem Attribute.repeats_sublist (seen attributes : List Attribute) :
    ((repeats seen attributes).map Prod.snd).Sublist attributes := by
  induction attributes generalizing seen with
  | nil => exact .slnil
  | cons next rest ih =>
    rw [repeats]
    split
    · exact (ih seen).cons_cons next
    · exact (ih (next :: seen)).cons next

end TagLint
