import TagLint.Lint.Scan
import TagLint.Proofs.Lint.Remarks
import TagLint.Proofs.Markup.Layout
import TagLint.Proofs.Markup.LineEnds

/-!
# Scans and line ends

A source may end its lines with a newline or with a carriage return and a newline. A scan reports
the same of both, unless a literal in braces goes on over an escaped line end.

- `Scan.quotedLiterals`: the single- and double-quoted literals in braces that a scan reads.
- `Scan.ofString_crlf`: the scan of the counterpart is the counterpart of the scan.
- `Scan.reportsAlike_crlf`: the same tags, findings and warnings, at the same lines and columns.
- `Scan.not_reportsAlike_crlf`: a literal that escapes a newline makes the difference.
-/

namespace TagLint

open Text Script

/-- The source with a carriage return before every newline. -/
def crlfSource (source : String) : String :=
  String.ofList (crlf source.toList)

/-! ### Remarks -/

namespace Tag

variable {source before behind : List Char} {tag : Tag}

/-- The region of what occurs in a tag has the region of what occurs in the counterpart for its
counterpart. -/
theorem occurrence_span_crlf (hsource : source = before ++ (tag.text.toList ++ behind))
    (hstart : tag.span.start = byteSize before) {found : Occurrence} (h : found ∈ tag.occurrences) :
    (found.mapOffset (crlfOffset source)).span (Lines.ofText (Text.crlf source)) =
      (found.span (Lines.ofText source)).crlf source := by
  obtain ⟨place, hplace, ⟨more, hword⟩, hspace⟩ := exists_place_of_mem_occurrences h
  have hnewline : '\n' ∉ found.word := by
    intro hmem
    cases hspace _ hmem
  have hoffset : found.offset = byteSize (before ++ tag.text.toList.take place) := by
    rw [hplace, offsetAt, hstart, byteSize_append]
  -- the source up to the word, the word, and the rest
  have hparts : source =
      before ++ tag.text.toList.take place ++ (found.word ++ (more ++ behind)) := by
    rw [hsource, List.append_assoc, ← List.append_assoc found.word, hword,
      ← List.append_assoc (tag.text.toList.take _), List.take_append_drop]
  have hspan := Lines.span_crlf (before ++ tag.text.toList.take place) found.word (more ++ behind)
  have hmove := crlfOffset_append (before ++ tag.text.toList.take place)
    (found.word ++ (more ++ behind))
  rw [← hparts] at hspan hmove
  rw [crlf_of_notMem hnewline] at hspan
  rw [Occurrence.span, Occurrence.span, Occurrence.offset_mapOffset, Occurrence.word_mapOffset,
    hoffset, hmove, hspan]

/-- The remarks on the counterpart of a tag are the counterparts of the remarks. -/
theorem remarks_crlf (hsource : source = before ++ (tag.text.toList ++ behind))
    (hstart : tag.span.start = byteSize before) (h : Portable tag.literals) :
    (tag.crlf source).remarks (Lines.ofText (Text.crlf source)) =
      (tag.remarks (Lines.ofText source)).map (.crlf source) (.crlf source) := by
  have hclosing : (tag.crlf source).isClosing = tag.isClosing := by
    rw [isClosing, isClosing, crlf, String.toList_ofList, Bool.eq_iff_iff,
      List.isPrefixOf_iff_prefix, List.isPrefixOf_iff_prefix]
    exact prefix_crlf (by decide) (by decide) _
  refine remarks_map hclosing rfl (fun htag => ?_)
    fun found hfound => occurrence_span_crlf hsource hstart hfound
  have hliterals :
      Portable (AttributeReader.ofText (byteSize before) tag.text.toList).literals := by
    rw [literals, if_neg (by rw [htag]; exact Bool.false_ne_true), AttributeReader.ofTag,
      hstart] at h
    exact h
  have hoffset : (tag.crlf source).span.start = byteSize (Text.crlf before) := by
    show crlfOffset source tag.span.start = _
    rw [hstart, hsource, crlfOffset_append]
  have htext : (tag.crlf source).text.toList = Text.crlf tag.text.toList := String.toList_ofList
  have hoccurs := AttributeReader.occurrences_ofText_crlf behind hliterals
  rw [← hsource] at hoccurs
  rw [occurrences, occurrences, AttributeReader.ofTag, AttributeReader.ofTag, hoffset, htext,
    hstart]
  exact hoccurs

end Tag

/-! ### Scans -/

namespace Scan

/-- A scan of other items, with the tags and the regions there. -/
def map (mapTag : Tag → Tag) (mapSpan : Span → Span) (scan : Scan) : Scan where
  findings := scan.findings.map (.map mapTag mapSpan)
  warnings := scan.warnings.map (.map mapSpan)
  tagCount := scan.tagCount

/-- Items with the same remarks, in other places, make the same scan there. -/
theorem ofItems_map {inner outer : Lines} {items : List Item} {mapTag : Tag → Tag}
    {mapSpan : Span → Span} {mapItem : Item → Item}
    (hremarks : ∀ item ∈ items,
      (mapItem item).remarks outer = (item.remarks inner).map mapTag mapSpan)
    (hok : ∀ item, (mapItem item).isOk = item.isOk) :
    ofItems outer (items.map mapItem) = (ofItems inner items).map mapTag mapSpan := by
  have hmapped : (items.map mapItem).map (Item.remarks outer) =
      (items.map (Item.remarks inner)).map (.map mapTag mapSpan) := by
    rw [List.map_map, List.map_map]
    exact List.map_congr_left hremarks
  have hcount : (items.map mapItem).countP (fun item => item.isOk) =
      items.countP fun item => item.isOk := by
    rw [List.countP_map]
    refine List.countP_congr fun item _ => ?_
    rw [Function.comp_apply, hok]
  have hfindings (remarks : List Remarks) :
      (remarks.map (.map mapTag mapSpan)).flatMap Remarks.findings =
        (remarks.flatMap Remarks.findings).map (.map mapTag mapSpan) := by
    rw [List.flatMap_map, List.map_flatMap]
    rfl
  have hwarnings (remarks : List Remarks) :
      (remarks.map (.map mapTag mapSpan)).flatMap Remarks.warnings =
        (remarks.flatMap Remarks.warnings).map (.map mapSpan) := by
    rw [List.flatMap_map, List.map_flatMap]
    rfl
  rw [ofItems, ofItems, map, hmapped, hcount, hfindings, hwarnings]

/-- The single- and double-quoted literals in braces that a scan reads: those that it comes to
where it looks for the ends of tags, and those that it comes to among the attributes. -/
def quotedLiterals (source : String) : List (List Char) :=
  tagLiterals source.toList ++ (tagsOf (TagReader.ofString source).items).flatMap Tag.literals

variable {source : String}

/-- The items of the counterpart of a source. -/
theorem items_crlfSource (h : Portable (quotedLiterals source)) :
    (TagReader.ofString (crlfSource source)).items =
      (TagReader.ofString source).items.map (Item.crlf source.toList) := by
  have hitems : (TagReader.ofPartsCrlf [] source.toList).items = _ :=
    TagReader.items_crlf h.of_append.1
  rw [TagReader.ofString, crlfSource, String.toList_ofList]
  exact hitems

/-- What is reported of the counterpart of an item. -/
theorem remarks_crlf (h : Portable (quotedLiterals source)) {item : Item}
    (hitem : item ∈ (TagReader.ofString source).items) :
    (item.crlf source.toList).remarks (Lines.ofString (crlfSource source)) =
      (item.remarks (Lines.ofString source)).map (.crlf source.toList) (.crlf source.toList) := by
  cases item with
  | error fault => rfl
  | ok tag =>
    obtain ⟨front, c, rest, behind, hsource, -, htag⟩ :=
      TagReader.exists_text_of_mem_items hitem
    have htext : tag.text.toList = c :: rest := by
      rw [htag]
      exact String.toList_ofList
    have hstart : tag.span.start = byteSize front := by
      rw [htag]
    have hliterals : Portable tag.literals := by
      intro literal hliteral
      refine h.of_append.2 literal (List.mem_flatMap.2 ⟨tag, ?_, hliteral⟩)
      exact List.mem_filterMap.2 ⟨.ok tag, hitem, rfl⟩
    rw [← htext] at hsource
    have hremarks := Tag.remarks_crlf hsource hstart hliterals
    rw [Lines.ofString, Lines.ofString, crlfSource, String.toList_ofList]
    exact hremarks

/-- **The scan of the counterpart is the counterpart of the scan**, if no quoted literal in braces
escapes a newline. -/
theorem ofString_crlf (h : Portable (quotedLiterals source)) :
    ofString (crlfSource source) =
      (ofString source).map (.crlf source.toList) (.crlf source.toList) := by
  have hscan : ofString (crlfSource source) = .ofItems (Lines.ofString (crlfSource source))
      ((TagReader.ofString source).items.map (Item.crlf source.toList)) := by
    rw [← items_crlfSource h]
    rfl
  rw [hscan]
  refine ofItems_map (fun item hitem => remarks_crlf h hitem) fun item => ?_
  cases item <;> rfl

/-- Two sources of which the same is reported, at the same lines and columns. -/
structure ReportsAlike (source other : String) : Prop where
  /-- They have the same tags, by name and in order. -/
  names : (tagsOf (TagReader.ofString other).items).map Tag.name =
    (tagsOf (TagReader.ofString source).items).map Tag.name
  /-- As many tags are counted. -/
  tagCount : (ofString other).tagCount = (ofString source).tagCount
  /-- The same names are found to be repeated, in order and at the same places. -/
  findings : (ofString other).findings.map (fun finding =>
      (finding.name, finding.first.location, finding.duplicate.location)) =
    (ofString source).findings.map fun finding =>
      (finding.name, finding.first.location, finding.duplicate.location)
  /-- The same warnings are given, in order and at the same places. -/
  warnings : (ofString other).warnings.map (fun warning =>
      (warning.cause, warning.span.location)) =
    (ofString source).warnings.map fun warning => (warning.cause, warning.span.location)

/-- **Line ends make no difference**, if no quoted literal in braces escapes a newline. -/
theorem reportsAlike_crlf (h : Portable (quotedLiterals source)) :
    ReportsAlike source (crlfSource source) := by
  constructor
  · have htags (items : List Item) : (tagsOf (items.map (Item.crlf source.toList))).map Tag.name =
        (tagsOf items).map Tag.name := by
      induction items with
      | nil => rfl
      | cons item items ih =>
        cases item with
        | error => exact ih
        | ok tag => exact congrArg (tag.name :: ·) ih
    rw [items_crlfSource h, htags]
  · rw [ofString_crlf h, map]
  · rw [ofString_crlf h, map, List.map_map]
    rfl
  · rw [ofString_crlf h, map, List.map_map]
    rfl

/-- Newlines are escaped in a value and in a template here, but not in the literal. A name is
repeated on the next line, and a character is out of place there. -/
theorem reportsAlike_crlf_of_template :
    quotedLiterals "<p t=\"\\\n\" a=\x7b`\\\n` + '\x7d'\x7d\nid id [>" =
        ["'\x7d'".toList, "'\x7d'".toList] ∧
      Portable (quotedLiterals "<p t=\"\\\n\" a=\x7b`\\\n` + '\x7d'\x7d\nid id [>") ∧
      (ofString "<p t=\"\\\n\" a=\x7b`\\\n` + '\x7d'\x7d\nid id [>").findings.length = 1 ∧
      (ofString "<p t=\"\\\n\" a=\x7b`\\\n` + '\x7d'\x7d\nid id [>").warnings.length = 1 ∧
      ReportsAlike "<p t=\"\\\n\" a=\x7b`\\\n` + '\x7d'\x7d\nid id [>"
        "<p t=\"\\\r\n\" a=\x7b`\\\r\n` + '\x7d'\x7d\r\nid id [>" := by
  have hliterals : quotedLiterals "<p t=\"\\\n\" a=\x7b`\\\n` + '\x7d'\x7d\nid id [>" =
      ["'\x7d'".toList, "'\x7d'".toList] := by decide +kernel
  have hportable :
      Portable (quotedLiterals "<p t=\"\\\n\" a=\x7b`\\\n` + '\x7d'\x7d\nid id [>") := by
    rw [hliterals]
    intro literal hliteral
    rcases List.mem_pair.1 hliteral with rfl | rfl
    · rfl
    · rfl
  have halike := reportsAlike_crlf hportable
  have hcrlf : crlfSource "<p t=\"\\\n\" a=\x7b`\\\n` + '\x7d'\x7d\nid id [>" =
      "<p t=\"\\\r\n\" a=\x7b`\\\r\n` + '\x7d'\x7d\r\nid id [>" := by decide +kernel
  rw [hcrlf] at halike
  exact ⟨hliterals, hportable, by decide +kernel, by decide +kernel, halike⟩

/-- A double-quoted literal in braces escapes a newline. With a carriage return before that newline
the literal is left open, so the brace in it closes the expression, and the tag is left open. -/
theorem not_reportsAlike_crlf :
    '\r' ∉ "<p a=\x7b\"\\\n\x7d\"\x7d id id>".toList ∧
      crlfSource "<p a=\x7b\"\\\n\x7d\"\x7d id id>" = "<p a=\x7b\"\\\r\n\x7d\"\x7d id id>" ∧
      (ofString "<p a=\x7b\"\\\n\x7d\"\x7d id id>").findings.map Finding.name = ["id"] ∧
      (ofString "<p a=\x7b\"\\\r\n\x7d\"\x7d id id>").findings = [] ∧
      (ofString "<p a=\x7b\"\\\r\n\x7d\"\x7d id id>").warnings.map Warning.cause = [.unclosed] ∧
      ¬ ReportsAlike "<p a=\x7b\"\\\n\x7d\"\x7d id id>" "<p a=\x7b\"\\\r\n\x7d\"\x7d id id>" := by
  refine ⟨by decide +kernel, by decide +kernel, by decide +kernel, by decide +kernel,
    by decide +kernel, fun halike => ?_⟩
  have hcount := halike.tagCount
  revert hcount
  decide +kernel

end Scan

end TagLint
