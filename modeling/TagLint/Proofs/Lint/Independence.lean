import TagLint.Lint.Scan
import TagLint.Proofs.Lint.Remarks
import TagLint.Proofs.Location.Origin
import TagLint.Proofs.Markup.Reading

/-!
# Tag by tag

The tags of a source may be scanned one by one. A scan finds of the source what it finds of the
texts of the tags, each based on the place of its tag.

- `Tag.alone`: a tag as it stands in a source of its own.
- `TagReader.items_alone`: the text of a tag has that one tag.
- `Tag.remarks_rebase`: the remarks on a tag of a piece are those on the tag of the source.
- `Scan.ofString_eq_merge`: a scan is the scans of the tags, put together.
-/

namespace TagLint

namespace Tag

/-- The place of a tag. -/
def origin (tag : Tag) : Origin :=
  ⟨tag.span.start, tag.span.location⟩

/-- The tag as it stands in a source that is nothing but its text. -/
def alone (tag : Tag) : Tag :=
  { tag with span := ⟨0, tag.text.utf8ByteSize, .first⟩ }

variable {inner outer : Lines} {origin : Origin} {tag : Tag}

/-- The region of what occurs in a tag of a piece, which begins with the tag, is its region in the
source. -/
theorem occurrence_span_rebase (hpiece : inner.IsPiece outer origin tag.text.toList)
    (hstart : tag.span.start = 0) {found : Occurrence} (h : found ∈ tag.occurrences) :
    (found.mapOffset (origin.offset + ·)).span outer = (found.span inner).rebase origin := by
  obtain ⟨place, hplace, -⟩ := exists_place_of_mem_occurrences h
  have hoffset : found.offset = Text.byteSize (tag.text.toList.take place) := by
    rw [hplace, offsetAt, hstart, Nat.zero_add]
  rw [Occurrence.span, Occurrence.span, Occurrence.offset_mapOffset, Occurrence.word_mapOffset,
    Nat.add_assoc, hoffset]
  exact Lines.span_rebase hpiece (List.take_prefix place tag.text.toList) _

/-- **The remarks on a tag of a piece are the remarks on the tag of the source**, based on the
cut. -/
theorem remarks_rebase (hpiece : inner.IsPiece outer origin tag.text.toList)
    (hstart : tag.span.start = 0) :
    (tag.rebase origin).remarks outer =
      ⟨(tag.remarks inner).findings.map (.rebase origin),
        (tag.remarks inner).warnings.map (.rebase origin)⟩ := by
  have hoccurs : (tag.rebase origin).occurrences =
      tag.occurrences.map (Occurrence.mapOffset (origin.offset + ·)) :=
    occurrences_move rfl rfl
  exact remarks_map rfl rfl (fun _ => hoccurs)
    fun found hfound => occurrence_span_rebase hpiece hstart hfound

end Tag

/-! ### A tag by itself -/

namespace TagReader

variable {source : String} {tag : Tag}

/-- The text of a tag that is found has that one tag. -/
theorem items_alone (h : .ok tag ∈ (ofString source).items) :
    (ofString tag.text).items = [.ok tag.alone] := by
  obtain ⟨front, c, rest, behind, -, hfront, rfl⟩ := exists_text_of_mem_items h
  have hrest : (ofString (String.ofList (c :: rest))).rest = c :: rest := String.toList_ofList
  have hlocate : (Lines.ofText (c :: rest)).locate 0 = Location.first :=
    Lines.locate_ofText [] (c :: rest)
  have hnil : ((ofText (c :: rest)).advance (c :: rest).length).items = [] :=
    items_nil List.drop_length
  rw [items_tag hrest hfront, tagOfLength, hrest, List.take_length, Tag.alone,
    Text.utf8ByteSize_ofList]
  show Except.ok (Tag.mk _ _ ((Lines.ofText _).span 0 (0 + _))) ::
    ((ofText _).advance (c :: rest).length).items = _
  rw [String.toList_ofList, hnil, Lines.span, hlocate, Nat.zero_add]

/-- A tag by itself is, based on its place, the tag of the source. -/
theorem rebase_alone (h : .ok tag ∈ (ofString source).items) :
    tag.alone.rebase tag.origin = tag ∧
    (Lines.ofString tag.text).IsPiece (Lines.ofString source) tag.origin tag.text.toList := by
  obtain ⟨front, c, rest, behind, hsource, -, rfl⟩ := exists_text_of_mem_items h
  constructor
  · rw [Tag.alone, Text.utf8ByteSize_ofList]
    rfl
  · have hpiece := Lines.isPiece_ofText front (c :: rest) behind
    rw [← hsource] at hpiece
    rw [Lines.ofString, Lines.ofString, String.toList_ofList]
    exact hpiece

end TagReader

/-! ### All tags -/

namespace Scan

/-- What is reported of the text of a tag, based on the place of the tag, is what is reported of
the tag in the source. -/
theorem ofString_text_rebase {source : String} {tag : Tag}
    (h : .ok tag ∈ (TagReader.ofString source).items) :
    (ofString tag.text).findings.map (.rebase tag.origin) =
        (tag.remarks (Lines.ofString source)).findings ∧
      (ofString tag.text).warnings.map (.rebase tag.origin) =
        (tag.remarks (Lines.ofString source)).warnings := by
  obtain ⟨hrebase, hpiece⟩ := TagReader.rebase_alone h
  have hremarks : (tag.alone.rebase tag.origin).remarks (Lines.ofString source) = _ :=
    Tag.remarks_rebase hpiece rfl
  rw [hrebase] at hremarks
  have hscan : ofString tag.text = .ofItems (Lines.ofString tag.text) [.ok tag.alone] := by
    rw [ofString, TagReader.items_alone h]
    rfl
  rw [hscan, hremarks]
  constructor
  · show List.map _ (_ ++ []) = _
    rw [List.append_nil]
    rfl
  · show List.map _ (_ ++ []) = _
    rw [List.append_nil]
    rfl

/-- **Tags may be scanned one by one.** The text of every tag has that one tag. The findings in a
source are those in the texts of its tags, and so are the warnings, but for that of the fault which
ended the reading. -/
theorem ofString_eq_merge (source : String) : ∃ (tags : List Tag) (fault? : Option Fault),
    (TagReader.ofString source).items = tags.map .ok ++ (fault?.map .error).toList ∧
    (∀ tag ∈ tags, (TagReader.ofString tag.text).items = [.ok tag.alone]) ∧
    (ofString source).findings = tags.flatMap (fun tag =>
      (ofString tag.text).findings.map (.rebase tag.origin)) ∧
    (ofString source).warnings = tags.flatMap (fun tag =>
      (ofString tag.text).warnings.map (.rebase tag.origin)) ++
        (fault?.map .ofFault).toList ∧
    (∀ tag ∈ tags, ∀ warning ∈ (ofString tag.text).warnings, warning.cause = .stray) := by
  obtain ⟨tags, fault?, hitems⟩ := TagReader.exists_items_eq (TagReader.ofString source)
  have hfound : ∀ tag ∈ tags, .ok tag ∈ (TagReader.ofString source).items := by
    intro tag htag
    rw [hitems]
    exact List.mem_append_left _ (List.mem_map_of_mem htag)
  have hscan : ofString source = .ofItems (Lines.ofString source)
      (tags.map .ok ++ (fault?.map .error).toList) := by
    rw [ofString, hitems]
    rfl
  refine ⟨tags, fault?, hitems, fun tag htag => TagReader.items_alone (hfound tag htag),
    ?_, ?_, ?_⟩
  · have hfault : (((fault?.map .error).toList.map (Item.remarks (Lines.ofString source))).flatMap
        Remarks.findings) = [] := by
      cases fault? <;> rfl
    simp only [hscan, ofItems, List.map_append, List.flatMap_append, hfault, List.append_nil,
      List.map_map, List.flatMap_map]
    refine List.flatMap_congr fun tag htag => ?_
    exact (ofString_text_rebase (hfound tag htag)).1.symm
  · have hfault : (((fault?.map .error).toList.map (Item.remarks (Lines.ofString source))).flatMap
        Remarks.warnings) = (fault?.map .ofFault).toList := by
      cases fault? <;> rfl
    simp only [hscan, ofItems, List.map_append, List.flatMap_append, hfault, List.map_map,
      List.flatMap_map]
    congr 1
    refine List.flatMap_congr fun tag htag => ?_
    exact (ofString_text_rebase (hfound tag htag)).2.symm
  · intro tag htag warning hwarning
    have hmem : warning.rebase tag.origin ∈ (tag.remarks (Lines.ofString source)).warnings := by
      rw [← (ofString_text_rebase (hfound tag htag)).2]
      exact List.mem_map_of_mem hwarning
    have hcause : (warning.rebase tag.origin).cause = .stray := Tag.cause_of_mem_warnings hmem
    exact hcause

end Scan

end TagLint
