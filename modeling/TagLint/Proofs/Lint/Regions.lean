import TagLint.Lint.Scan
import TagLint.Proofs.Attribute.Repeats
import TagLint.Proofs.Markup.Abreast

/-!
# Names and regions

What stands in quotes or braces is a value, and no name in it should be reported.

- `Tag.IsOutside`: a stretch of the source that no region of a tag has a byte of.
- `Tag.not_isOutside_of_untidy`: names in regions are reported where a quote stands out of place, and
  where an unquoted value has a quote or a brace that is not closed in it.
- `Tag.attributes_isOutside_of_isTidy`: in a tidy tag no attribute and no finding is in a region. Both
  readers are abreast in front of every name (`Tag.Abreast.isOutside_name`), and the reader of tags is
  at tag level nowhere inside a region (`Nesting.Region.le_of_reaches`).
-/

namespace TagLint

/-! ### What the findings of a scan are -/

/-- A finding names two attributes of its tag. -/
theorem Scan.exists_of_mem_findings {source : String} {finding : Finding}
    (h : finding ∈ (ofString source).findings) :
    ∃ first ∈ finding.tag.attributes, ∃ found ∈ finding.tag.attributes,
      finding = .ofRepeat finding.tag (TagReader.ofString source).lines first found := by
  obtain ⟨remarks, hremarks, hfinding⟩ := List.mem_flatMap.1 h
  obtain ⟨item, -, rfl⟩ := List.mem_map.1 hremarks
  cases item with
  | error fault => cases hfinding
  | ok tag =>
    rw [Item.remarks, Tag.remarks] at hfinding
    split at hfinding
    · cases hfinding
    · obtain ⟨⟨first, found⟩, hmem, rfl⟩ := List.mem_map.1 hfinding
      obtain ⟨hfirst, hfound⟩ := Attribute.mem_of_mem_repeats hmem
      exact ⟨first, hfirst.resolve_left nofun, found, hfound, rfl⟩

namespace Tag

open Nesting

variable {source : String} {tag : Tag}

/-- The bytes from `start` to before `stop` are in no quoted or braced region of the tag. -/
def IsOutside (source : String) (tag : Tag) (start stop : Nat) : Prop :=
  ∀ first last, Region (tag.readFrom source) first last →
    stop ≤ tag.offsetAt first ∨ tag.offsetAt last ≤ start

/-- An attribute is not outside if it ends behind the first quote of a tag and begins in front of where
this quote is closed. -/
theorem not_forall_isOutside {run rest : List Char} {quote : Char} {found : Attribute}
    (htag : .ok tag ∈ (TagReader.ofString source).items)
    (htext : tag.text.toList.drop 1 = run ++ quote :: rest) (hrun : run.all isPlain = true)
    (hquote : quote = '"' ∨ quote = '\'') (hfound : found ∈ tag.attributes)
    (hends : tag.offsetAt (1 + run.length) < found.offset + found.name.utf8ByteSize)
    (hbegins : found.offset <
      tag.offsetAt (1 + run.length + 1 + Attribute.quotedTail quote rest)) :
    ¬ ∀ found ∈ tag.attributes,
      tag.IsOutside source found.offset (found.offset + found.name.utf8ByteSize) := by
  have hlevel := reaches_of_plain_run htag .refl htext (List.all_eq_true.1 hrun)
  have hquoted : tag.text.toList.drop (1 + run.length) = quote :: rest := by
    rw [← List.drop_drop, htext, List.drop_left]
  have hregion := (quoted_region_iff_quotedTail htag hlevel hquoted hquote).2 rfl
  intro houtside
  rcases houtside found hfound _ _ hregion with hle | hle
  · exact absurd hle (Nat.not_le.2 hends)
  · exact absurd hle (Nat.not_le.2 hbegins)

/-- Behind a quote out of place the names in the quotes are read as attributes, and so are those in the
quotes of an unquoted value, behind the white space at which that value ends. -/
theorem not_isOutside_of_untidy :
    .ok ⟨"<p [a]=\"id id\">", "p", ⟨0, 15, ⟨1, 1⟩⟩⟩ ∈
        (TagReader.ofString "<p [a]=\"id id\">").items ∧
      (¬ ∀ found ∈ attributes ⟨"<p [a]=\"id id\">", "p", ⟨0, 15, ⟨1, 1⟩⟩⟩,
        IsOutside "<p [a]=\"id id\">" ⟨"<p [a]=\"id id\">", "p", ⟨0, 15, ⟨1, 1⟩⟩⟩ found.offset
          (found.offset + found.name.utf8ByteSize)) ∧
      (Scan.ofString "<p [a]=\"id id\">").findings.map Finding.name = ["id"] ∧
    .ok ⟨"<p a=x\"id id id\">", "p", ⟨0, 17, ⟨1, 1⟩⟩⟩ ∈
        (TagReader.ofString "<p a=x\"id id id\">").items ∧
      (¬ ∀ found ∈ attributes ⟨"<p a=x\"id id id\">", "p", ⟨0, 17, ⟨1, 1⟩⟩⟩,
        IsOutside "<p a=x\"id id id\">" ⟨"<p a=x\"id id id\">", "p", ⟨0, 17, ⟨1, 1⟩⟩⟩ found.offset
          (found.offset + found.name.utf8ByteSize)) ∧
      (Scan.ofString "<p a=x\"id id id\">").findings.map Finding.name = ["id"] := by
  have hstray : .ok ⟨"<p [a]=\"id id\">", "p", ⟨0, 15, ⟨1, 1⟩⟩⟩ ∈
      (TagReader.ofString "<p [a]=\"id id\">").items := by decide +kernel
  have hvalue : .ok ⟨"<p a=x\"id id id\">", "p", ⟨0, 17, ⟨1, 1⟩⟩⟩ ∈
      (TagReader.ofString "<p a=x\"id id id\">").items := by decide +kernel
  refine ⟨hstray, ?_, by decide +kernel, hvalue, ?_, by decide +kernel⟩
  · have htext : "<p [a]=\"id id\">".toList.drop 1 = "p [a]=".toList ++ "\"id id\">".toList := rfl
    have hfound : ⟨"id", 8⟩ ∈ attributes ⟨"<p [a]=\"id id\">", "p", ⟨0, 15, ⟨1, 1⟩⟩⟩ := by
      decide +kernel
    exact not_forall_isOutside hstray htext (by decide) (.inl rfl) hfound (by decide +kernel)
      (by decide +kernel)
  · have htext : "<p a=x\"id id id\">".toList.drop 1 = "p a=x".toList ++ "\"id id id\">".toList := rfl
    have hfound : ⟨"id", 10⟩ ∈ attributes ⟨"<p a=x\"id id id\">", "p", ⟨0, 17, ⟨1, 1⟩⟩⟩ := by
      decide +kernel
    exact not_forall_isOutside hvalue htext (by decide) (.inl rfl) hfound (by decide +kernel)
      (by decide +kernel)

/-- The name of an attribute is outside the regions exactly if no region has a place of it. -/
theorem HasSegment.isOutside_iff (htag : .ok tag ∈ (TagReader.ofString source).items)
    {place : Nat} {name assignment : List Char}
    (h : tag.HasSegment place (.declaration name assignment)) :
    tag.IsOutside source (tag.offsetAt place) (tag.offsetAt place + Text.byteSize name) ↔
      ∀ first last, Region (tag.readFrom source) first last →
        place + name.length ≤ first ∨ last ≤ place := by
  obtain ⟨behind, -, -, hlength⟩ := readFrom_of_mem_items htag
  have hname := h.le_stop
  have hstop := (stands_exhaust tag).le
  rw [Segment.text, List.length_append] at hname
  rw [IsOutside, h.offsetAt_name]
  refine forall₃_congr fun first last hregion => ?_
  have hfirst := lt_of_reaches hregion.1 hlength
  have hlast := hregion.lt hlength
  rw [offsetAt_le_iff (by omega) (by omega), offsetAt_le_iff (by omega) (by omega)]

/-- A character of a name is in no region if both readers are abreast in front of it. -/
theorem Abreast.not_mem_region {first stop place : Nat} {c : Char}
    (h : Abreast source tag place) (htag : .ok tag ∈ (TagReader.ofString source).items)
    (hget : tag.text.toList[place]? = some c) (hc : Text.isNameChar c = true)
    (hregion : Region (tag.readFrom source) first stop) : place < first ∨ stop ≤ place := by
  have hopens : ¬(c = '"' ∨ c = '\'' ∨ c = '{') := by
    rintro (rfl | rfl | rfl) <;> cases hc
  rcases h.le_of_region htag hregion with hle | hle
  · exact .inl (Nat.lt_of_le_of_ne hle (ne_of_region htag hregion hget hopens))
  · exact .inr hle

/-- The name of an attribute is in no region if both readers are abreast in front of it. -/
theorem Abreast.isOutside_name {place : Nat} {name assignment : List Char}
    (h : Abreast source tag place) (htag : .ok tag ∈ (TagReader.ofString source).items)
    (hsegment : tag.HasSegment place (.declaration name assignment)) :
    tag.IsOutside source (tag.offsetAt place) (tag.offsetAt place + Text.byteSize name) := by
  obtain ⟨c, rest, hfront⟩ := hsegment.exists_front?
  obtain ⟨hnil, hchars⟩ := Segment.name_of_front? hfront
  have hlength := List.length_pos_iff.2 hnil
  obtain ⟨behind, htext⟩ := hsegment.text_prefix
  rw [Segment.text, List.append_assoc] at htext
  -- both readers are abreast in front of all its characters
  have habreast (i : Nat) (hi : i < name.length) : Abreast source tag (place + i) := by
    rcases Nat.eq_zero_or_pos i with rfl | hpos
    · exact h
    · have hlength : (name.take i).length = i := List.length_take_of_le (Nat.le_of_lt hi)
      have hsplit : tag.text.toList.drop place =
          name.take i ++ (name.drop i ++ (assignment ++ behind)) := by
        rw [← htext, ← List.append_assoc (name.take i), List.take_append_drop]
      have hne : name.take i ≠ [] := List.length_pos_iff.1 (hlength.symm ▸ hpos)
      have hlevel := h.name htag hne
        (fun c hc => isPlain_of_isNameChar (hchars c (List.mem_of_mem_take hc))) hsplit
      rw [hlength] at hlevel
      exact .inl hlevel
  rw [hsegment.isOutside_iff htag]
  intro first last hregion
  by_contra hoverlap
  have hpos := hregion.first_lt
  -- the first place that the name and the region share
  obtain ⟨i, hi⟩ := Nat.exists_eq_add_of_le (Nat.le_max_left place first)
  have hin : i < name.length := by omega
  have hget : tag.text.toList[place + i]? = some name[i] := by
    rw [← List.getElem?_drop, ← htext, List.getElem?_append_left hin, List.getElem?_eq_getElem hin]
  have hout := (habreast i hin).not_mem_region htag hget (hchars _ (List.getElem_mem hin)) hregion
  omega

/-- **In a tidy tag no attribute is in a region, and no finding names anything in one.** -/
theorem attributes_isOutside_of_isTidy (htag : .ok tag ∈ (TagReader.ofString source).items)
    (htidy : tag.IsTidy) :
    (∀ found ∈ tag.attributes,
      tag.IsOutside source found.offset (found.offset + found.name.utf8ByteSize)) ∧
    ∀ finding ∈ (Scan.ofString source).findings, finding.tag = tag →
      tag.IsOutside source finding.first.start finding.first.stop ∧
      tag.IsOutside source finding.duplicate.start finding.duplicate.stop := by
  have hattributes : ∀ found ∈ tag.attributes,
      tag.IsOutside source found.offset (found.offset + found.name.utf8ByteSize) := by
    intro found hfound
    obtain ⟨place, name, assignment, hsegment, rfl⟩ := mem_attributes_iff.1 hfound
    rw [Text.utf8ByteSize_ofList]
    exact (htidy.abreast_of_hasSegment htag hsegment).isOutside_name htag hsegment
  refine ⟨hattributes, ?_⟩
  rintro finding hfinding rfl
  obtain ⟨first, hfirst, found, hfound, heq⟩ := Scan.exists_of_mem_findings hfinding
  have hfirstSpan := congrArg Finding.first heq
  have hduplicate := congrArg Finding.duplicate heq
  rw [hfirstSpan, hduplicate]
  exact ⟨hattributes first hfirst, hattributes found hfound⟩

/-- A tag with regions of both kinds, a quoted part in an unquoted value, and a name that is
repeated. -/
theorem attributes_isOutside_of_mixedValues :
    .ok mixedValues ∈ (TagReader.ofString mixedValues.text).items ∧ mixedValues.IsTidy ∧
      (Scan.ofString mixedValues.text).findings.map Finding.name = ["b"] ∧
      (∀ found ∈ mixedValues.attributes, mixedValues.IsOutside mixedValues.text found.offset
        (found.offset + found.name.utf8ByteSize)) ∧
      ∀ finding ∈ (Scan.ofString mixedValues.text).findings, finding.tag = mixedValues →
        mixedValues.IsOutside mixedValues.text finding.first.start finding.first.stop ∧
        mixedValues.IsOutside mixedValues.text finding.duplicate.start finding.duplicate.stop := by
  have htag : .ok mixedValues ∈ (TagReader.ofString mixedValues.text).items := by decide +kernel
  have hrepeat : (Scan.ofString mixedValues.text).findings.map Finding.name = ["b"] := by
    decide +kernel
  exact ⟨htag, isTidy_mixedValues, hrepeat, attributes_isOutside_of_isTidy htag isTidy_mixedValues⟩

end Tag

end TagLint
