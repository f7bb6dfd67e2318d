import TagLint.Lint.Scan
import TagLint.Proofs.Attribute.Order
import TagLint.Proofs.Bytes.Source
import TagLint.Proofs.Lint.Spans
import TagLint.Proofs.Markup.Reading

/-!
# Scans, read byte by byte

- `extract`, `locate`, `check`, `scan`: the tags of a source, the line and column of an offset, the
  remarks on a tag and the scan of a source, with every step over bytes and indices.
- `Tag.Fits`: what is asked of a tag that may have been made by hand: it ends in range.
- `readers_never_fail`: none of them fails, and each finds what the reader of characters finds.

A text in memory has at most `maxTextSize` bytes, so that is asked of every text.
-/

namespace TagLint.Bytes

open Text (byteSize)

/-! ### Over bytes -/

section Tag

variable (source : List Char) (starts : List Nat) (tag : Tag)

/-- The finding that an attribute repeats the name of an earlier one. -/
def findingOf (first found : Attribute) : Checked Finding := do
  let length := (utf8 found.name.toList).length
  let earlier ← spanAt source starts first.offset (← add first.offset length)
  let later ← spanAt source starts found.offset (← add found.offset length)
  return ⟨tag, found.name, earlier, later⟩

/-- The warning of a character out of place. -/
def warningOf (found : Char) (offset : Nat) : Checked Warning := do
  let span ← spanAt source starts offset (← add offset found.utf8Size)
  let message := "unexpected character `" ++ String.singleton found ++ "` in attributes of `<"
    ++ tag.name ++ ">`"
  return ⟨.stray, message, span⟩

/-- The remarks on some occurrences. `seen` holds the first attribute of every name so far. -/
def remarksFrom (seen : List Attribute) : List Occurrence → Checked Remarks
  | [] => .ok ⟨[], []⟩
  | .declared found :: rest =>
    match seen.find? (·.name = found.name) with
    | some first => do
      let finding ← findingOf source starts tag first found
      let behind ← remarksFrom seen rest
      return { behind with findings := finding :: behind.findings }
    | none => remarksFrom (found :: seen) rest
  | .stray found offset :: rest => do
    let warning ← warningOf source starts tag found offset
    let behind ← remarksFrom seen rest
    return { behind with warnings := warning :: behind.warnings }

/-- The remarks on a tag. -/
def remarksOf : Checked Remarks :=
  if tag.isClosing then .ok ⟨[], []⟩
  else do remarksFrom source starts tag [] (← occurrencesOf tag)

/-- The scan of some items. -/
def scanItems : List Item → Checked Scan
  | [] => .ok ⟨[], [], 0⟩
  | .ok tag :: rest => do
    let remarks ← remarksOf source starts tag
    let behind ← scanItems rest
    return ⟨remarks.findings ++ behind.findings, remarks.warnings ++ behind.warnings,
      ← add behind.tagCount 1⟩
  | .error fault :: rest => do
    let behind ← scanItems rest
    return { behind with warnings := .ofFault fault :: behind.warnings }

end Tag

/-- The tags of a source, and the fault that ends the reading, if there is one. -/
def extract (source : String) : Checked (List Item) := do
  itemsOf source.toList (← lineStarts (utf8 source.toList))

/-- The line and column of an offset of a source. -/
def locate (source : String) (offset : Nat) : Checked Location := do
  position source.toList (← lineStarts (utf8 source.toList)) offset

/-- The remarks on a tag, whose offsets are those of a source. -/
def check (source : String) (tag : Tag) : Checked Remarks := do
  remarksOf source.toList (← lineStarts (utf8 source.toList)) tag

/-- The scan of a source. -/
def scan (source : String) : Checked Scan := do
  let starts ← lineStarts (utf8 source.toList)
  scanItems source.toList starts (← itemsOf source.toList starts)

/-! ### Remarks -/

variable {source : List Char} {tag : Tag}

theorem spanAt_eq (h : byteSize source ≤ maxTextSize) (start stop : Nat) :
    spanAt source (startsOf source) start stop = .ok ((Lines.ofText source).span start stop) :=
  (At.start h).spanAt start stop

theorem length_utf8_toList (word : String) : (utf8 word.toList).length = word.utf8ByteSize := by
  rw [length_utf8, ← Text.utf8ByteSize_ofList, String.ofList_toList]

/-- A finding is located if both names end in range. -/
theorem findingOf_eq (h : byteSize source ≤ maxTextSize) {first found : Attribute}
    (hname : first.name = found.name) (hfirst : (Occurrence.declared first).stop ≤ maxSize)
    (hfound : (Occurrence.declared found).stop ≤ maxSize) :
    findingOf source (startsOf source) tag first found =
      .ok (.ofRepeat tag (Lines.ofText source) first found) := by
  have hearlier : first.offset + (utf8 found.name.toList).length ≤ maxSize := by
    rw [length_utf8, ← hname]
    exact hfirst
  have hlater : found.offset + (utf8 found.name.toList).length ≤ maxSize := by
    rw [length_utf8]
    exact hfound
  rw [findingOf]
  simp only [add_eq_ok hearlier, add_eq_ok hlater, spanAt_eq h, ok_bind]
  rw [length_utf8_toList, Finding.ofRepeat, Attribute.span, Attribute.span, hname]
  rfl

/-- A warning is located if its character ends in range. -/
theorem warningOf_eq (h : byteSize source ≤ maxTextSize) {found : Char} {offset : Nat}
    (hstop : (Occurrence.stray found offset).stop ≤ maxSize) :
    warningOf source (startsOf source) tag found offset =
      .ok (.ofStray tag (Lines.ofText source) found offset) := by
  rw [warningOf, add_eq_ok (show offset + found.utf8Size ≤ maxSize from hstop), ok_bind,
    spanAt_eq h, ok_bind]
  rfl

/-- The remarks on occurrences that end in range are found in their order. -/
theorem remarksFrom_eq (h : byteSize source ≤ maxTextSize) {seen : List Attribute}
    {occurrences : List Occurrence}
    (hseen : ∀ first ∈ seen, (Occurrence.declared first).stop ≤ maxSize)
    (hstop : ∀ found ∈ occurrences, found.stop ≤ maxSize) :
    remarksFrom source (startsOf source) tag seen occurrences = .ok
      { findings := (Attribute.repeats seen (occurrences.filterMap Occurrence.declared?)).map
          fun (first, found) => .ofRepeat tag (Lines.ofText source) first found
        warnings := occurrences.filterMap (Warning.ofOccurrence? tag (Lines.ofText source)) } := by
  induction occurrences generalizing seen with
  | nil => rfl
  | cons found rest ih =>
    have hfound := hstop found List.mem_cons_self
    have hrest : ∀ found ∈ rest, found.stop ≤ maxSize := fun found hmem =>
      hstop found (List.mem_cons_of_mem _ hmem)
    cases found with
    | declared found =>
      simp only [remarksFrom, List.filterMap_cons, Occurrence.declared?, Warning.ofOccurrence?,
        Attribute.repeats]
      cases hfind : seen.find? (·.name = found.name) with
      | some first =>
        have hname : first.name = found.name := by
          simpa using List.find?_some hfind
        have hfirst := hseen first (List.mem_of_find?_eq_some hfind)
        simp only [findingOf_eq h hname hfirst hfound, ok_bind, ih hseen hrest]
        rfl
      | none =>
        refine ih (fun first hmem => ?_) hrest
        rcases List.mem_cons.1 hmem with rfl | hmem
        · exact hfound
        · exact hseen first hmem
    | stray found offset =>
      simp only [remarksFrom, List.filterMap_cons, Occurrence.declared?, Warning.ofOccurrence?,
        warningOf_eq h hfound, ok_bind, ih hseen hrest]
      rfl

/-- A tag that ends in range. -/
structure Fits (tag : Tag) : Prop where
  text : tag.text.utf8ByteSize ≤ maxTextSize
  stop : tag.span.start + tag.text.utf8ByteSize ≤ maxSize

/-- What occurs in a tag ends where the tag ends. -/
theorem stop_le_of_mem_occurrences {found : Occurrence} (h : found ∈ tag.occurrences) :
    found.stop ≤ tag.span.start + byteSize tag.text.toList := by
  obtain ⟨place, hplace, ⟨more, hword⟩, -⟩ := Tag.exists_place_of_mem_occurrences h
  have hsize : byteSize tag.text.toList =
      byteSize (tag.text.toList.take place) + (byteSize found.word + byteSize more) := by
    rw [← Text.byteSize_append, hword, ← Text.byteSize_append, List.take_append_drop]
  rw [Occurrence.stop, hplace, Tag.offsetAt]
  omega

theorem Fits.occurrencesOf (h : Fits tag) : Bytes.occurrencesOf tag = .ok tag.occurrences := by
  obtain ⟨htext, hstop⟩ := h
  rw [← length_utf8_toList, length_utf8] at htext hstop
  exact occurrencesOf_eq htext hstop

/-- The remarks on a tag that ends in range are found. -/
theorem Fits.remarksOf (h : Fits tag) (hsource : byteSize source ≤ maxTextSize) :
    Bytes.remarksOf source (startsOf source) tag = .ok (tag.remarks (Lines.ofText source)) := by
  rw [Bytes.remarksOf, Tag.remarks]
  split
  · rfl
  · rw [h.occurrencesOf, ok_bind]
    refine remarksFrom_eq hsource (fun first hmem => absurd hmem List.not_mem_nil) ?_
    intro found hmem
    have hle := stop_le_of_mem_occurrences hmem
    have hstop := h.stop
    rw [← length_utf8_toList, length_utf8] at hstop
    exact Nat.le_trans hle hstop

/-! ### Scans -/

/-- The scan of items whose tags end in range is found. -/
theorem scanItems_eq (h : byteSize source ≤ maxTextSize) {items : List Item}
    (hitems : ∀ tag, .ok tag ∈ items → Fits tag) (hlength : items.length ≤ maxSize) :
    scanItems source (startsOf source) items = .ok (Scan.ofItems (Lines.ofText source) items) := by
  induction items with
  | nil => rfl
  | cons item items ih =>
    rw [List.length_cons] at hlength
    have hbehind := ih (fun tag hmem => hitems tag (List.mem_cons_of_mem _ hmem)) (by omega)
    cases item with
    | ok tag =>
      have hcount : (Scan.ofItems (Lines.ofText source) items).tagCount ≤ items.length :=
        List.countP_le_length
      rw [scanItems, (hitems tag List.mem_cons_self).remarksOf h, ok_bind, hbehind, ok_bind,
        add_eq_ok (by omega), ok_bind]
      have htagCount : (Scan.ofItems (Lines.ofText source) (.ok tag :: items)).tagCount =
          (Scan.ofItems (Lines.ofText source) items).tagCount + 1 := by
        rw [Scan.tagCount_ofItems, Scan.tagCount_ofItems, tagsOf_cons_ok, List.length_cons]
      rw [← htagCount]
      rfl
    | error fault =>
      rw [scanItems, hbehind]
      rfl

/-- A tag of a source ends in range. -/
theorem fits_of_mem_items {source : String} (h : source.utf8ByteSize ≤ maxTextSize)
    (htag : .ok tag ∈ (TagReader.ofString source).items) : Fits tag := by
  obtain ⟨before, behind, body, hsource, hspan, -⟩ := Tag.exists_parts htag
  have hstart : tag.span.start = byteSize before := by
    rw [hspan, Lines.span]
  have hsize : source.utf8ByteSize =
      byteSize before + (tag.text.utf8ByteSize + byteSize behind) := by
    rw [← length_utf8_toList, length_utf8, hsource, Text.byteSize_append, Text.byteSize_append,
      ← length_utf8_toList tag.text, length_utf8]
  have hmax : maxTextSize ≤ maxSize := by decide
  constructor
  · omega
  · omega

/-- The readers of bytes do not fail, and find what the readers of characters find. -/
structure NeverFails (source : String) : Prop where
  extract : extract source = .ok (TagReader.ofString source).items
  scan : scan source = .ok (Scan.ofString source)
  locate : ∀ offset, locate source offset = .ok ((Lines.ofString source).locate offset)
  occurrences : ∀ tag, Fits tag → occurrencesOf tag = .ok tag.occurrences
  check : ∀ tag, Fits tag → check source tag = .ok (tag.remarks (Lines.ofString source))

/-- **No source and no tag makes a reader of bytes fail.** -/
theorem readers_never_fail {source : String} (h : source.utf8ByteSize ≤ maxTextSize) :
    NeverFails source := by
  have hsize : byteSize source.toList ≤ maxTextSize := by
    rw [← length_utf8, length_utf8_toList]
    exact h
  have hstarts := lineStarts_eq hsize
  have hitems := itemsOf_eq hsize
  constructor
  case extract =>
    rw [Bytes.extract, hstarts, ok_bind, hitems]
    rfl
  case scan =>
    -- every item takes a byte, but for the last one
    have hlength := length_le_of_drain hitems
    rw [length_utf8] at hlength
    have hmax : maxTextSize + 1 ≤ maxSize := by decide
    rw [Bytes.scan, hstarts, ok_bind, hitems, ok_bind]
    exact scanItems_eq hsize (fun tag htag => fits_of_mem_items h htag) (by omega)
  case locate =>
    intro offset
    rw [Bytes.locate, hstarts, ok_bind, position_eq hsize]
    rfl
  case occurrences =>
    intro tag htag
    exact htag.occurrencesOf
  case check =>
    intro tag htag
    rw [Bytes.check, hstarts, ok_bind, htag.remarksOf hsize]
    rfl

/-- In a source with wide characters behind backslashes and out of place, and on a tag without
delimiters whose text ends with a backslash, the readers do not fail. -/
theorem readers_never_fail_of_wide :
    "\\é<p a='\\é' ß=\x7b'é\\ß'\x7d a/>\\".utf8ByteSize ≤ maxTextSize ∧
      NeverFails "\\é<p a='\\é' ß=\x7b'é\\ß'\x7d a/>\\" ∧
      occurrencesOf ⟨"é=\"\\", "", ⟨7, 9, ⟨1, 8⟩⟩⟩ =
        .ok (Tag.mk "é=\"\\" "" ⟨7, 9, ⟨1, 8⟩⟩).occurrences := by
  have hsize : "\\é<p a='\\é' ß=\x7b'é\\ß'\x7d a/>\\".utf8ByteSize ≤ maxTextSize := by decide
  have h := readers_never_fail hsize
  exact ⟨hsize, h, h.occurrences _ ⟨by decide, by decide⟩⟩

end TagLint.Bytes
