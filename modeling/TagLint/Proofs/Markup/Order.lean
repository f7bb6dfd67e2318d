import TagLint.Lint.Finding
import TagLint.Proofs.Location.Spans
import TagLint.Proofs.Markup.Layout

/-!
# Tags and faults in order

The tags of a source are read from left to right, and a fault comes behind all of them.

- `Tag.exists_parts`: the source in front of a tag, the tag, and the source behind it.
- `TagReader.Reads.between`, `TagReader.Reads.pairwise`: the tags that are read on the way from one
  place to another are between the two, apart and in order.
- `TagReader.exists_items_ordered`: so are all tags of a source, and the fault is behind them.
-/

namespace TagLint

/-- The parts of a source around a tag that is found. The tag has the span of its text, and this
text has its delimiters. -/
theorem Tag.exists_parts {source : String} {tag : Tag}
    (h : .ok tag ∈ (TagReader.ofString source).items) :
    ∃ before behind body, source.toList = before ++ (tag.text.toList ++ behind) ∧
      tag.span = (Lines.ofString source).span (Text.byteSize before)
        (Text.byteSize before + Text.byteSize tag.text.toList) ∧
      tag.text.toList = '<' :: (body ++ ['>']) := by
  obtain ⟨before, c, rest, behind, hsource, hfront, rfl⟩ := TagReader.exists_text_of_mem_items h
  obtain ⟨hopens, hlength⟩ := Piece.front_eq_tag hfront
  rw [← List.append_nil (c :: rest)] at hopens
  have hlength : tagLength (c :: rest ++ []) = .ok (c :: rest).length := by
    rw [List.append_nil]
    exact hlength
  obtain ⟨d, body, hbody, -⟩ := delimited_of_tagLength hopens hlength
  refine ⟨before, behind, d :: body, ?_, ?_, ?_⟩
  · rw [String.toList_ofList]
    exact hsource
  · rw [String.toList_ofList, Lines.ofString, hsource, Lines.span, Lines.locate_ofText]
  · rw [String.toList_ofList]
    exact hbody

namespace TagReader

variable {r s : TagReader} {tags : List Tag}

/-- The tags that are read on the way are between its two ends. -/
theorem Reads.between (h : Reads r tags s) :
    r.offset ≤ s.offset ∧ ∀ tag ∈ tags, r.offset ≤ tag.span.start ∧ tag.span.stop ≤ s.offset := by
  induction h with
  | refl r => exact ⟨Nat.le_refl _, nofun⟩
  | @piece r s c rest n tags hrest hlength _ ih =>
    obtain ⟨hle, htags⟩ := ih
    have hadvance : r.offset ≤ (r.advance n).offset := Nat.le_add_right ..
    refine ⟨Nat.le_trans hadvance hle, fun tag htag => ?_⟩
    rcases List.mem_append.1 htag with htag | htag
    · obtain ⟨length, hfront, rfl⟩ := tagOf?_eq_some_iff.1 (Option.mem_toList.1 htag)
      rw [hfront] at hlength
      cases hlength
      exact ⟨Nat.le_refl _, hle⟩
    · obtain ⟨hstart, hstop⟩ := htags tag htag
      exact ⟨Nat.le_trans hadvance hstart, hstop⟩

/-- The tags that are read on the way are apart and in order. -/
theorem Reads.pairwise (h : Reads r tags s) :
    tags.Pairwise fun first second => first.span.stop ≤ second.span.start := by
  induction h with
  | refl r => exact .nil
  | @piece r s c rest n tags hrest hlength hreads ih =>
    rcases hfound : r.tagOf? (Piece.front c rest) with _ | found
    · exact ih
    · obtain ⟨length, hfront, rfl⟩ := tagOf?_eq_some_iff.1 hfound
      rw [hfront] at hlength
      cases hlength
      exact .cons (fun tag htag => (hreads.between.2 tag htag).1) ih

/-- What is left open opens at a place that the reader has in front of it. -/
theorem exists_of_faultOf? {piece : Piece} {cause : Fault} (h : r.faultOf? piece = some cause) :
    ∃ count, cause.offset = (r.advance count).offset ∧
      cause.location = r.lines.locate (r.advance count).offset := by
  cases piece with
  | openComment kind =>
    cases h
    exact ⟨0, rfl, rfl⟩
  | openTag nest =>
    cases h
    exact ⟨nest.opened, rfl, rfl⟩
  | escape => cases h
  | plain => cases h
  | comment => cases h
  | tag => cases h

/-- **The items of a source are in order.** First there are tags, apart and in order. A fault is
the last item, points at a place of the source and is behind all tags. -/
theorem exists_items_ordered (source : String) : ∃ (tags : List Tag) (fault? : Option Fault),
    (ofString source).items = tags.map .ok ++ (fault?.map .error).toList ∧
    (tags.Pairwise fun first second => first.span.stop ≤ second.span.start) ∧
    ∀ fault ∈ fault?, (∀ tag ∈ tags, tag.span.stop ≤ fault.offset) ∧
      (Warning.ofFault fault).span.Covers source.toList [] := by
  obtain ⟨tags, s, hreads, hrest | ⟨c, rest, hrest, hlength⟩⟩ := exists_reads (ofString source)
  · refine ⟨tags, none, ?_, hreads.pairwise, nofun⟩
    rw [hreads.items_eq, items_nil hrest]
    rfl
  · obtain ⟨cause, hcause, hitems⟩ := items_of_length?_eq_none hrest hlength
    obtain ⟨front, htext, hoffset, hlines⟩ := hreads.exists_append
    obtain ⟨count, hplace, hlocate⟩ := exists_of_faultOf? hcause
    refine ⟨tags, some cause, ?_, hreads.pairwise, ?_⟩
    · rw [hreads.items_eq, hitems]
      rfl
    · rintro _ ⟨⟩
      constructor
      · intro tag htag
        rw [hplace]
        exact Nat.le_trans (hreads.between.2 tag htag).2 (Nat.le_add_right ..)
      · -- the source up to the place to blame, and what stands behind it
        have hsource : source.toList =
            (front ++ s.rest.take count) ++ ([] ++ s.rest.drop count) := by
          rw [List.nil_append, List.append_assoc, List.take_append_drop]
          exact htext
        have hblame : (s.advance count).offset = Text.byteSize (front ++ s.rest.take count) := by
          have hfront : s.offset = Text.byteSize front := hoffset.trans (Nat.zero_add _)
          rw [Text.byteSize_append, ← hfront]
          rfl
        have hspan : (Warning.ofFault cause).span =
            (Lines.ofText source.toList).span (Text.byteSize (front ++ s.rest.take count))
              (Text.byteSize (front ++ s.rest.take count) + Text.byteSize []) := by
          rw [Warning.ofFault, hlocate, hplace, hblame, hlines]
          rfl
        rw [hspan, hsource]
        exact Lines.span_covers _ _ _

end TagReader

end TagLint
