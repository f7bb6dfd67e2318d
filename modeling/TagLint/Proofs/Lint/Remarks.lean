import Mathlib.Data.List.Basic
import TagLint.Lint.Remarks
import TagLint.Proofs.Attribute.Offsets
import TagLint.Proofs.Attribute.Repeats

/-!
# The same remarks at another place

The remarks on a tag are made from what occurs in it. If the same occurs in another tag at other
offsets, then the remarks are the same with other spans (`Tag.remarks_map`).
-/

namespace TagLint

/-- The region that something occurs in. -/
def Occurrence.span (lines : Lines) (found : Occurrence) : Span :=
  lines.span found.offset (found.offset + Text.byteSize found.word)

theorem Attribute.span_eq (found : Attribute) (lines : Lines) :
    found.span lines = (Occurrence.declared found).span lines := by
  have hsize : found.name.utf8ByteSize = Text.byteSize found.name.toList := by
    rw [← Text.utf8ByteSize_ofList, String.ofList_toList]
  rw [span, hsize]
  rfl

/-- A finding on another tag, with its regions there. -/
def Finding.map (mapTag : Tag → Tag) (mapSpan : Span → Span) (finding : Finding) : Finding :=
  ⟨mapTag finding.tag, finding.name, mapSpan finding.first, mapSpan finding.duplicate⟩

/-- A warning about another region. -/
def Warning.map (mapSpan : Span → Span) (warning : Warning) : Warning :=
  { warning with span := mapSpan warning.span }

/-- The remarks on another tag, with the regions there. -/
def Remarks.map (mapTag : Tag → Tag) (mapSpan : Span → Span) (remarks : Remarks) : Remarks :=
  ⟨remarks.findings.map (.map mapTag mapSpan), remarks.warnings.map (.map mapSpan)⟩

namespace Tag

variable {inner outer : Lines} {tag : Tag} {mapTag : Tag → Tag} {mapSpan : Span → Span}
  {move : Nat → Nat}

/-- **The same occurrences at other offsets make the same remarks with other spans.** -/
theorem remarks_map (hclosing : (mapTag tag).isClosing = tag.isClosing)
    (hname : (mapTag tag).name = tag.name)
    (hoccurs : tag.isClosing = false →
      (mapTag tag).occurrences = tag.occurrences.map (Occurrence.mapOffset move))
    (hspan : ∀ found ∈ tag.occurrences,
      (found.mapOffset move).span outer = mapSpan (found.span inner)) :
    (mapTag tag).remarks outer = (tag.remarks inner).map mapTag mapSpan := by
  have hattribute : ∀ found ∈ tag.attributes,
      (found.mapOffset move).span outer = mapSpan (found.span inner) := by
    intro found hfound
    obtain ⟨occurrence, hmem, hdeclared⟩ := List.mem_filterMap.1 hfound
    cases occurrence with
    | stray => cases hdeclared
    | declared found =>
      cases hdeclared
      rw [Attribute.span_eq, Attribute.span_eq]
      exact hspan _ hmem
  rw [remarks, remarks, hclosing]
  by_cases htag : tag.isClosing = true
  · rw [if_pos htag, if_pos htag]
    rfl
  rw [if_neg htag, if_neg htag, Remarks.map, hoccurs (Bool.eq_false_iff.2 htag)]
  simp only [Remarks.mk.injEq]
  constructor
  · have hrepeats : Attribute.repeats [] (tag.attributes.map (Attribute.mapOffset move)) =
        (Attribute.repeats [] tag.attributes).map
          (Prod.map (Attribute.mapOffset move) (Attribute.mapOffset move)) :=
      Attribute.repeats_map (Attribute.mapOffset move) (fun _ => rfl) [] tag.attributes
    rw [Occurrence.filterMap_declared?_mapOffset]
    refine (congrArg _ hrepeats).trans ?_
    rw [List.map_map, List.map_map]
    refine List.map_congr_left ?_
    rintro ⟨first, found⟩ hmem
    obtain ⟨hfirst, hfound⟩ := Attribute.mem_of_mem_repeats hmem
    have hfirstSpan := hattribute first (hfirst.resolve_left nofun)
    have hduplicate := hattribute found hfound
    show Finding.mk (mapTag tag) found.name ((first.mapOffset move).span outer)
      ((found.mapOffset move).span outer) = _
    rw [hfirstSpan, hduplicate]
    rfl
  · rw [List.filterMap_map, List.map_filterMap]
    refine List.filterMap_congr fun found hfound => ?_
    have hregion := hspan found hfound
    cases found with
    | declared => rfl
    | stray c offset =>
      show some (Warning.mk .stray _ ((Occurrence.stray c (move offset)).span outer)) = _
      rw [hname]
      exact congrArg (fun span => some (Warning.mk .stray _ span)) hregion

/-- Of a tag only characters out of place are warned about. -/
theorem cause_of_mem_warnings {lines : Lines} {warning : Warning}
    (h : warning ∈ (tag.remarks lines).warnings) : warning.cause = .stray := by
  rw [remarks] at h
  by_cases htag : tag.isClosing = true
  · rw [if_pos htag] at h
    cases h
  · rw [if_neg htag] at h
    obtain ⟨occurrence, -, hwarning⟩ := List.mem_filterMap.1 h
    cases occurrence with
    | declared => cases hwarning
    | stray => cases hwarning; rfl

end Tag

end TagLint
