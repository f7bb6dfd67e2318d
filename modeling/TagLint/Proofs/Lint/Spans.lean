import TagLint.Lint.Scan
import TagLint.Proofs.Attribute.Order
import TagLint.Proofs.Lint.Remarks
import TagLint.Proofs.Markup.Order

/-!
# Where a scan points

Everything that a scan reports has a span, and the span is that of what is reported.

- `Finding.PointsInto`: a finding names a tag of the source, and the two places in the tag where its
  name stands.
- `Warning.PointsAtStray`: a warning has the span of the one character that it names.
- `Scan.PointsInto`: so it is with all findings and warnings, and both are in the order of the
  source.
- `Scan.pointsInto_ofString`: the scan of a source points into it.
-/

namespace TagLint

/-- A finding is about a tag of the source that closes nothing. Its two spans are those of the
name, which stands twice between the delimiters of the tag. -/
structure Finding.PointsInto (source : String) (finding : Finding) : Prop where
  tag_mem : .ok finding.tag ∈ (TagReader.ofString source).items
  not_closing : finding.tag.isClosing = false
  tag_covers : finding.tag.span.Covers source.toList finding.tag.text.toList
  first_covers : finding.first.Covers source.toList finding.name.toList
  duplicate_covers : finding.duplicate.Covers source.toList finding.name.toList
  start_lt : finding.tag.span.start < finding.first.start
  first_lt : finding.first.stop < finding.duplicate.start
  lt_stop : finding.duplicate.stop < finding.tag.span.stop

/-- A warning has the span of the character that it names, which stands between the delimiters of
a tag. -/
structure Warning.PointsAtStray (source : String) (warning : Warning) (tag : Tag) (found : Char) :
    Prop where
  tag_mem : .ok tag ∈ (TagReader.ofString source).items
  message_eq : warning.message = "unexpected character `" ++ String.singleton found ++
    "` in attributes of `<" ++ tag.name ++ ">`"
  covers : warning.span.Covers source.toList [found]
  start_lt : tag.span.start < warning.span.start
  lt_stop : warning.span.stop < tag.span.stop

/-- What a scan reports points into the source, in the order of the source. The warning that
something is left open is the last one, if there is one. -/
structure Scan.PointsInto (source : String) (scan : Scan) : Prop where
  findings : ∀ finding ∈ scan.findings, finding.PointsInto source
  findings_pairwise : scan.findings.Pairwise fun first second =>
    first.duplicate.start < second.duplicate.start
  strays : ∀ warning ∈ scan.warnings, warning.cause = .stray →
    ∃ tag found, warning.PointsAtStray source tag found
  unclosed : ∀ warning ∈ scan.warnings, warning.cause = .unclosed →
    warning.span.Covers source.toList []
  warnings_pairwise : scan.warnings.Pairwise fun first second =>
    first.span.start < second.span.start
  unclosed_last : ∃ (strays : List Warning) (last? : Option Warning),
    scan.warnings = strays ++ last?.toList ∧ (∀ warning ∈ strays, warning.cause = .stray) ∧
    ∀ warning ∈ last?, warning.cause = .unclosed
  tagCount : scan.tagCount = (tagsOf (TagReader.ofString source).items).length

namespace Tag

variable {source : String} {tag : Tag}

/-! ### One tag -/

/-- What occurs in a tag has the span of its word in the source, between the delimiters of the
tag. -/
theorem span_of_mem_occurrences (htag : .ok tag ∈ (TagReader.ofString source).items)
    {found : Occurrence} (h : found ∈ tag.occurrences) :
    (found.span (Lines.ofString source)).Covers source.toList found.word ∧
      tag.span.start < found.offset ∧ found.stop < tag.span.stop := by
  obtain ⟨before, behind, body, hsource, hspan, htext⟩ := exists_parts htag
  have hstart : tag.span.start = Text.byteSize before := by rw [hspan, Lines.span]
  have hstop : tag.span.stop = tag.span.start + Text.byteSize tag.text.toList := by
    rw [hspan, Lines.span]
  obtain ⟨hlt, hend⟩ := bounds_of_mem_occurrences htext h
  refine ⟨?_, hlt, hstop ▸ hend⟩
  obtain ⟨place, hplace, ⟨more, hword⟩, -⟩ := exists_place_of_mem_occurrences h
  -- the source up to the word, the word, and the rest
  have hparts : source.toList =
      (before ++ tag.text.toList.take place) ++ (found.word ++ (more ++ behind)) := by
    rw [hsource, List.append_assoc, ← List.append_assoc found.word, hword,
      ← List.append_assoc (tag.text.toList.take _), List.take_append_drop]
  have hoffset : found.offset = Text.byteSize (before ++ tag.text.toList.take place) := by
    rw [hplace, offsetAt, hstart, Text.byteSize_append]
  rw [Occurrence.span, Lines.ofString, hoffset, hparts]
  exact Lines.span_covers _ _ _

/-- The attributes of a tag are in order, with a character between any two. -/
theorem attributes_pairwise (tag : Tag) :
    tag.attributes.Pairwise fun first second =>
      (Occurrence.declared first).stop < second.offset := by
  refine List.Pairwise.filterMap _ ?_ (AttributeReader.occurrences_pairwise _)
  intro first second hbefore attribute₁ hfirst attribute₂ hsecond
  cases first with
  | stray => cases hfirst
  | declared first =>
    cases second with
    | stray => cases hsecond
    | declared second =>
      cases hfirst
      cases hsecond
      exact hbefore.stop_lt rfl rfl

/-- The findings on a tag point into the source. -/
theorem pointsInto_of_mem_findings (htag : .ok tag ∈ (TagReader.ofString source).items)
    {finding : Finding} (h : finding ∈ (tag.remarks (Lines.ofString source)).findings) :
    finding.PointsInto source ∧ finding.tag = tag := by
  rw [remarks] at h
  by_cases hclosing : tag.isClosing = true
  · rw [if_pos hclosing] at h
    cases h
  rw [if_neg hclosing] at h
  obtain ⟨⟨first, found⟩, hmem, rfl⟩ := List.mem_map.1 h
  obtain ⟨hfirst, hfound⟩ := Attribute.mem_of_mem_repeats hmem
  obtain ⟨hlt, hname⟩ := Attribute.forall_repeats
    (fun _ hseen => absurd hseen List.not_mem_nil) (attributes_pairwise tag) hmem
  -- both attributes occur in the tag
  have hoccurs : ∀ next ∈ tag.attributes, .declared next ∈ tag.occurrences := by
    intro next hnext
    obtain ⟨occurrence, hoccurrence, hdeclared⟩ := List.mem_filterMap.1 hnext
    cases occurrence with
    | stray => cases hdeclared
    | declared => cases hdeclared; exact hoccurrence
  obtain ⟨hfirstCovers, hstart, -⟩ :=
    span_of_mem_occurrences htag (hoccurs first (hfirst.resolve_left List.not_mem_nil))
  obtain ⟨hfoundCovers, -, hstop⟩ := span_of_mem_occurrences htag (hoccurs found hfound)
  obtain ⟨before, behind, body, hsource, hspan, -⟩ := exists_parts htag
  rw [← Attribute.span_eq] at hfirstCovers hfoundCovers
  have hword : (Occurrence.declared first).word = found.name.toList := congrArg String.toList hname
  refine ⟨⟨htag, Bool.eq_false_iff.2 hclosing, ?_, ?_, hfoundCovers, hstart, ?_, ?_⟩, rfl⟩
  · show tag.span.Covers source.toList tag.text.toList
    rw [hspan, Lines.ofString, hsource]
    exact Lines.span_covers _ _ _
  · rw [hword] at hfirstCovers
    exact hfirstCovers
  · show (first.span (Lines.ofString source)).stop < found.offset
    rw [Attribute.span_eq]
    exact hlt
  · show (found.span (Lines.ofString source)).stop < tag.span.stop
    rw [Attribute.span_eq]
    exact hstop

/-- The findings on a tag are in the order of what repeats. -/
theorem findings_pairwise (tag : Tag) (lines : Lines) :
    (tag.remarks lines).findings.Pairwise fun first second =>
      first.duplicate.start < second.duplicate.start := by
  rw [remarks]
  split
  · exact .nil
  · show ((Attribute.repeats [] tag.attributes).map _).Pairwise _
    have hsublist := Attribute.repeats_sublist [] tag.attributes
    have hpairwise := (attributes_pairwise tag).sublist hsublist
    rw [List.pairwise_map] at hpairwise ⊢
    refine hpairwise.imp fun {first second} hlt => ?_
    exact Nat.lt_of_le_of_lt (Nat.le_add_right ..) hlt

/-- The warnings about a tag point at the characters that they name. -/
theorem pointsAtStray_of_mem_warnings (htag : .ok tag ∈ (TagReader.ofString source).items)
    {warning : Warning} (h : warning ∈ (tag.remarks (Lines.ofString source)).warnings) :
    ∃ found, warning.PointsAtStray source tag found := by
  rw [remarks] at h
  split at h
  · cases h
  · obtain ⟨occurrence, hoccurrence, hwarning⟩ := List.mem_filterMap.1 h
    cases occurrence with
    | declared => cases hwarning
    | stray found offset =>
      cases hwarning
      obtain ⟨hcovers, hstart, hstop⟩ := span_of_mem_occurrences htag hoccurrence
      exact ⟨found, htag, rfl, hcovers, hstart, hstop⟩

/-- The warnings about a tag are in the order of what they are about. -/
theorem warnings_pairwise (tag : Tag) (lines : Lines) :
    (tag.remarks lines).warnings.Pairwise fun first second =>
      first.span.start < second.span.start := by
  rw [remarks]
  split
  · exact .nil
  · refine List.Pairwise.filterMap _ ?_ (AttributeReader.occurrences_pairwise _)
    intro first second hbefore warning hfirst other hsecond
    cases first with
    | declared => cases hfirst
    | stray found offset =>
      cases second with
      | declared => cases hsecond
      | stray next place =>
        cases hfirst
        cases hsecond
        have hpos := found.utf8Size_pos
        have hle : offset + (found.utf8Size + 0) ≤ place := hbefore.stop_le
        show offset < place
        omega

/-- What is in order within each tag and lies between its delimiters is in order over tags that
are in order. -/
theorem flatMap_pairwise {α : Type} {report : Tag → List α} {place : α → Nat} {tags : List Tag}
    (htags : tags.Pairwise fun first second => first.span.stop ≤ second.span.start)
    (hinside : ∀ tag ∈ tags, ∀ found ∈ report tag,
      tag.span.start < place found ∧ place found < tag.span.stop)
    (hreport : ∀ tag ∈ tags, (report tag).Pairwise fun first second =>
      place first < place second) :
    (tags.flatMap report).Pairwise fun first second => place first < place second := by
  rw [List.pairwise_flatMap]
  constructor
  · exact hreport
  · refine htags.imp_of_mem ?_
    intro tag other htag hother hle first hfirst second hsecond
    have hstop := (hinside tag htag first hfirst).2
    have hstart := (hinside other hother second hsecond).1
    exact Nat.lt_trans (Nat.lt_of_lt_of_le hstop hle) hstart

end Tag

/-! ### All tags -/

/-- A finding repeats a name between the delimiters of its tag. -/
theorem Finding.PointsInto.inside {source : String} {finding : Finding} (h : finding.PointsInto source) :
    finding.tag.span.start < finding.duplicate.start ∧
      finding.duplicate.start < finding.tag.span.stop := by
  have hfirst : finding.first.start ≤ finding.first.stop := h.first_covers.start_le_stop
  have hduplicate : finding.duplicate.start ≤ finding.duplicate.stop :=
    h.duplicate_covers.start_le_stop
  have hstart := h.start_lt
  have hlt := h.first_lt
  have hstop := h.lt_stop
  omega

namespace Scan

variable {lines : Lines} {tags : List Tag} {fault? : Option Fault}

/-- The findings of tags and a fault are those of the tags. -/
theorem findings_ofItems : (ofItems lines (tags.map .ok ++ (fault?.map .error).toList)).findings =
    tags.flatMap fun tag => (tag.remarks lines).findings := by
  have hfault : ((fault?.map .error).toList.map (Item.remarks lines)).flatMap Remarks.findings =
      [] := by
    cases fault? <;> rfl
  show List.flatMap _ (List.map _ _) = _
  rw [List.map_append, List.flatMap_append, hfault, List.append_nil, List.map_map,
    List.flatMap_map]
  rfl

/-- The warnings of tags and a fault are those of the tags, and then that of the fault. -/
theorem warnings_ofItems : (ofItems lines (tags.map .ok ++ (fault?.map .error).toList)).warnings =
    tags.flatMap (fun tag => (tag.remarks lines).warnings) ++ (fault?.map .ofFault).toList := by
  have hfault : ((fault?.map .error).toList.map (Item.remarks lines)).flatMap Remarks.warnings =
      (fault?.map .ofFault).toList := by
    cases fault? <;> rfl
  show List.flatMap _ (List.map _ _) = _
  rw [List.map_append, List.flatMap_append, hfault, List.map_map, List.flatMap_map]
  rfl

/-- The tags of tags and a fault are counted. -/
theorem tagCount_ofItems (items : List Item) :
    (ofItems lines items).tagCount = (tagsOf items).length := by
  rw [ofItems, tagsOf, List.length_filterMap_eq_countP]
  refine List.countP_congr fun item _ => ?_
  cases item <;> rfl

/-- A scan reports what is reported of the tags of its source, which are in order, and then the
fault that ended the reading, which is behind them. -/
theorem exists_tags_ofString (source : String) : ∃ (tags : List Tag) (last? : Option Warning),
    (∀ tag ∈ tags, .ok tag ∈ (TagReader.ofString source).items) ∧
    (tags.Pairwise fun first second => first.span.stop ≤ second.span.start) ∧
    ((ofString source).findings =
      tags.flatMap fun tag => (tag.remarks (Lines.ofString source)).findings) ∧
    ((ofString source).warnings =
      tags.flatMap (fun tag => (tag.remarks (Lines.ofString source)).warnings) ++
        last?.toList) ∧
    ∀ warning ∈ last?, warning.cause = .unclosed ∧ warning.span.Covers source.toList [] ∧
      ∀ tag ∈ tags, tag.span.stop ≤ warning.span.start := by
  obtain ⟨tags, fault?, hitems, hpairwise, hfault⟩ := TagReader.exists_items_ordered source
  have hscan : ofString source =
      ofItems (Lines.ofString source) (tags.map .ok ++ (fault?.map .error).toList) := by
    rw [← hitems]
    rfl
  refine ⟨tags, fault?.map .ofFault, ?_, hpairwise, ?_, ?_, ?_⟩
  · intro tag htag
    rw [hitems]
    exact List.mem_append_left _ (List.mem_map_of_mem htag)
  · rw [hscan]
    exact findings_ofItems
  · rw [hscan]
    exact warnings_ofItems
  · intro warning hwarning
    obtain ⟨fault, hmem, rfl⟩ := Option.map_eq_some_iff.1 hwarning
    obtain ⟨hbehind, hcovers⟩ := hfault fault hmem
    exact ⟨rfl, hcovers, hbehind⟩

/-- The warnings about tags point at stray characters. -/
theorem exists_stray_of_mem {source : String} {warning : Warning}
    (htags : ∀ tag ∈ tags, .ok tag ∈ (TagReader.ofString source).items)
    (h : warning ∈ tags.flatMap fun tag => (tag.remarks (Lines.ofString source)).warnings) :
    ∃ tag ∈ tags, ∃ found, warning.PointsAtStray source tag found ∧ warning.cause = .stray := by
  obtain ⟨tag, hmem, hwarning⟩ := List.mem_flatMap.1 h
  obtain ⟨found, hfound⟩ := Tag.pointsAtStray_of_mem_warnings (htags tag hmem) hwarning
  exact ⟨tag, hmem, found, hfound, Tag.cause_of_mem_warnings hwarning⟩

/-- **A scan points into its source.** -/
theorem pointsInto_ofString (source : String) : (ofString source).PointsInto source := by
  obtain ⟨tags, last?, htags, hpairwise, hfindings, hwarnings, hlast⟩ := exists_tags_ofString source
  constructor
  case findings =>
    intro finding hfinding
    rw [hfindings] at hfinding
    obtain ⟨tag, hmem, hfinding⟩ := List.mem_flatMap.1 hfinding
    exact (Tag.pointsInto_of_mem_findings (htags tag hmem) hfinding).1
  case findings_pairwise =>
    rw [hfindings]
    refine Tag.flatMap_pairwise hpairwise ?_ fun tag _ => Tag.findings_pairwise tag _
    intro tag hmem finding hfinding
    obtain ⟨hpoints, rfl⟩ := Tag.pointsInto_of_mem_findings (htags tag hmem) hfinding
    exact hpoints.inside
  -- the causes tell where a warning comes from
  case strays =>
    intro warning hwarning hcause
    rw [hwarnings] at hwarning
    rcases List.mem_append.1 hwarning with hwarning | hwarning
    · obtain ⟨tag, -, found, hfound, -⟩ := exists_stray_of_mem htags hwarning
      exact ⟨tag, found, hfound⟩
    · rw [(hlast warning (Option.mem_toList.1 hwarning)).1] at hcause
      cases hcause
  case unclosed =>
    intro warning hwarning hcause
    rw [hwarnings] at hwarning
    rcases List.mem_append.1 hwarning with hwarning | hwarning
    · obtain ⟨-, -, -, -, hother⟩ := exists_stray_of_mem htags hwarning
      rw [hother] at hcause
      cases hcause
    · exact (hlast warning (Option.mem_toList.1 hwarning)).2.1
  case warnings_pairwise =>
    rw [hwarnings, List.pairwise_append]
    refine ⟨?_, ?_, ?_⟩
    · refine Tag.flatMap_pairwise hpairwise ?_ fun tag _ => Tag.warnings_pairwise tag _
      intro tag hmem warning hwarning
      obtain ⟨found, hpoints⟩ := Tag.pointsAtStray_of_mem_warnings (htags tag hmem) hwarning
      exact ⟨hpoints.start_lt, Nat.lt_of_le_of_lt hpoints.covers.start_le_stop hpoints.lt_stop⟩
    · cases last?
      · exact .nil
      · exact List.pairwise_singleton _ _
    · intro warning hwarning last hmem
      obtain ⟨tag, htag, found, hpoints, -⟩ := exists_stray_of_mem htags hwarning
      have hbehind := (hlast last (Option.mem_toList.1 hmem)).2.2 tag htag
      have hle := hpoints.covers.start_le_stop
      have hlt := hpoints.lt_stop
      omega
  case unclosed_last =>
    refine ⟨_, last?, hwarnings, ?_, fun warning hmem => (hlast warning hmem).1⟩
    intro warning hwarning
    obtain ⟨-, -, -, -, hcause⟩ := exists_stray_of_mem htags hwarning
    exact hcause
  case tagCount =>
    exact tagCount_ofItems _

end Scan

end TagLint
