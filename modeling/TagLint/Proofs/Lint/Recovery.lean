import TagLint.Proofs.Attribute.Insert
import TagLint.Proofs.Lint.Remarks
import TagLint.Proofs.Text.Bytes

/-!
# Recovery from a character out of place

A character that begins nothing among attributes is reported, and the reading goes on behind it. So
if one is put into a tag right before an attribute, all else is found as without it.

- `Tag.insertAt`: the tag with a character put in.
- `Tag.Parts.Make.insert`: its parts are those of the tag, with a stray character among the
  segments.
- `Tag.Recovers`: what there is to say of the tag with the character, and what the remarks on it
  are. This holds for all characters that belong to nothing in a tag, and before every attribute
  (`Tag.recovers_of_insert`).
-/

namespace TagLint

open Text (byteSize takeBytes dropBytes)

/-- A region some bytes further on, among the lines of another source. -/
def Lines.respan (lines : Lines) (bytes : Nat) (span : Span) : Span :=
  lines.span (span.start + bytes) (span.stop + bytes)

theorem Occurrence.mapOffset_add_zero (found : Occurrence) : found.mapOffset (· + 0) = found := by
  cases found <;> rfl

/-! ### Names -/

namespace Attribute

/-- Which names are repeated, and in which order, is read off the names. -/
theorem map_repeats_of_names {attributes others : List Attribute}
    (h : attributes.map name = others.map name) :
    (repeats [] attributes).map (·.2.name) = (repeats [] others).map (·.2.name) := by
  -- without their offsets the attributes are the same
  have hbare (attributes : List Attribute) : (repeats [] attributes).map (·.2.name) =
      (repeats [] (attributes.map (mapOffset fun _ => 0))).map (·.2.name) := by
    have hmap := repeats_map (mapOffset fun _ => 0) (fun _ => rfl) [] attributes
    rw [List.map_nil] at hmap
    rw [hmap, List.map_map]
    rfl
  have hsame : attributes.map (mapOffset fun _ => 0) = others.map (mapOffset fun _ => 0) := by
    have hnames (attributes : List Attribute) : attributes.map (mapOffset fun _ => 0) =
        (attributes.map name).map (⟨·, 0⟩) := by
      rw [List.map_map]
      rfl
    rw [hnames, hnames, h]
  rw [hbare, hsame, ← hbare]

end Attribute

/-! ### A character among the parts -/

/-- Whether a character is in front of a text depends on the first character of the text only. -/
theorem Text.Optional.congr_head {c : Char} {front behind other : List Char}
    (h : Optional c front behind) (hhead : behind.head? = other.head?) :
    Optional c front other := by
  cases h with
  | present => exact .present other
  | absent hne => exact .absent (hhead ▸ hne)

namespace Tag

/-- A tag with a character put in behind some bytes of its text. -/
def insertAt (tag : Tag) (bytes : Nat) (c : Char) : Tag where
  text := String.ofList (takeBytes bytes tag.text.toList ++ c :: dropBytes bytes tag.text.toList)
  name := tag.name
  span := { tag.span with stop := tag.span.stop + c.utf8Size }

theorem insertAt_text {tag : Tag} {front rest : List Char} (h : tag.text.toList = front ++ rest)
    (c : Char) : (tag.insertAt (byteSize front) c).text.toList = front ++ c :: rest := by
  rw [insertAt, String.toList_ofList, h, Text.takeBytes_byteSize, Text.dropBytes_byteSize]

namespace Parts

variable {parts : Parts} {text : List Char} {c : Char} {before after : List Segment}
  {name assignment : List Char}

/-- Between the head and an attribute there is another segment: the name of the tag would go on
with the name of the attribute. -/
theorem Make.ne_nil_of_declaration (h : parts.Make text)
    (hsegments : parts.segments = before ++ .declaration name assignment :: after) :
    before ≠ [] := by
  rintro rfl
  have hrow := h.row
  rw [hsegments] at hrow
  obtain ⟨d, more, rfl, hd⟩ := hrow.exists_name
  have hends := h.name_ends d (by rw [body, hsegments]; rfl)
  rw [Text.isTagNameChar, hd] at hends
  cases hends

/-- **With a foreign character before an attribute a text has the same parts, and the character as
a segment of its own.** -/
theorem Make.insert (h : parts.Make text) (hc : IsForeign c)
    (hsegments : parts.segments = before ++ .declaration name assignment :: after) :
    ({ parts with segments := before ++ .stray c :: .declaration name assignment :: after } :
      Parts).Make (parts.head ++ before.flatMap Segment.text ++ c ::
        ((Segment.declaration name assignment :: after).flatMap Segment.text ++ parts.tail)) := by
  have hrow := h.row
  rw [hsegments] at hrow
  -- the head stands in front of the same character
  have hhead : parts.body.head? =
      ((before ++ .stray c :: .declaration name assignment :: after).flatMap Segment.text ++
        parts.tail).head? := by
    obtain ⟨segment, more, rfl⟩ := List.exists_cons_of_ne_nil (h.ne_nil_of_declaration hsegments)
    obtain ⟨d, rest, hcons⟩ := List.exists_cons_of_ne_nil hrow.tail_cons.1.text_ne_nil
    rw [body, hsegments, List.cons_append, List.cons_append, List.flatMap_cons, List.flatMap_cons,
      hcons]
    rfl
  have hbehind {front : List Char} {other : List Char} (hother : parts.body.head? = other.head?) :
      (front ++ parts.body).head? = (front ++ other).head? := by
    rw [List.head?_append, List.head?_append, hother]
  constructor
  case text_eq =>
    show _ = parts.head ++ ((before ++ .stray c :: .declaration name assignment :: after).flatMap
      Segment.text ++ parts.tail)
    have hstray : (.stray c :: .declaration name assignment :: after).flatMap Segment.text =
        c :: (Segment.declaration name assignment :: after).flatMap Segment.text := rfl
    rw [List.flatMap_append, hstray, List.append_assoc, List.append_assoc, List.cons_append]
  case opener =>
    refine h.opener.congr_head ?_
    rw [← List.append_assoc, ← List.append_assoc]
    exact hbehind hhead
  case slash => exact h.slash.congr_head (hbehind hhead)
  case name => exact h.name
  case name_ends =>
    intro d hd
    exact h.name_ends d (hhead ▸ hd)
  case row => exact hrow.insert hc

/-- A text is that of a closing tag if its head has both the `<` and the slash. -/
theorem Make.isClosing_iff (h : parts.Make text) :
    ['<', '/'] <+: text ↔ parts.opener = ['<'] ∧ parts.slash = ['/'] := by
  have htext : text = parts.opener ++ (parts.slash ++ (parts.name ++ parts.body)) := by
    rw [h.text_eq, head, List.append_assoc, List.append_assoc]
  have hopener := h.opener
  have hslash := h.slash
  rw [htext]
  generalize parts.opener = opener at hopener ⊢
  generalize parts.slash = slash at hopener hslash ⊢
  cases hopener with
  | absent hne =>
    refine iff_of_false ?_ (fun hparts => by cases hparts.1)
    rintro ⟨rest, hrest⟩
    rw [List.nil_append] at hrest
    exact hne (hrest ▸ rfl)
  | present =>
    cases hslash with
    | present => exact iff_of_true ⟨parts.name ++ parts.body, rfl⟩ ⟨rfl, rfl⟩
    | absent hne =>
      refine iff_of_false ?_ (fun hparts => by cases hparts.2)
      rintro ⟨rest, hrest⟩
      obtain ⟨-, hbehind⟩ := List.cons.inj hrest
      exact hne (congrArg List.head? hbehind).symm

end Parts

/-! ### The tag with the character -/

/-- A character is put into a tag right before an attribute that is found in it. `earlier` and
`later` are what occurs before and after the attribute. -/
structure Recovers (tag : Tag) (c : Char) (earlier : List Occurrence) (found : Attribute)
    (later : List Occurrence) (inserted : Tag) : Prop where
  /-- The same occurs before the character, and then the character is out of place. From the
  attribute on the same occurs behind it. -/
  occurrences : inserted.occurrences = earlier ++ .stray c found.offset ::
    (.declared found :: later).map (.mapOffset (· + c.utf8Size))
  /-- No attribute is hidden, and none is added. -/
  names : inserted.attributes.map Attribute.name = tag.attributes.map Attribute.name
  /-- The text has the same name. -/
  nameOf : nameOf inserted.text.toList = nameOf tag.text.toList
  /-- It is that of a closing tag or not, as before. -/
  isClosing : inserted.isClosing = tag.isClosing
  /-- The same names are reported as declared again, in the same order. -/
  findings : ∀ lines others, (inserted.remarks others).findings.map Finding.name =
    (tag.remarks lines).findings.map Finding.name
  /-- One character more is warned about. The other warnings are about the same regions before the
  character, and about the same regions behind it further on. -/
  warnings : tag.isClosing = false → ∀ lines others, ∃ before after,
    (tag.remarks lines).warnings = before ++ after ∧
    (inserted.remarks others).warnings = before.map (.map (others.respan 0)) ++
      .ofStray tag others c found.offset :: after.map (.map (others.respan c.utf8Size))
  /-- Of a closing tag nothing is warned about. -/
  closing : tag.isClosing = true → ∀ lines, (inserted.remarks lines).warnings = []

/-- The warnings of what occurs further on are the warnings further on. -/
theorem filterMap_ofOccurrence?_respan (tag : Tag) (lines others : Lines) (bytes : Nat)
    (occurrences : List Occurrence) :
    (occurrences.map (Occurrence.mapOffset (· + bytes))).filterMap
        (Warning.ofOccurrence? tag others) =
      (occurrences.filterMap (Warning.ofOccurrence? tag lines)).map
        (Warning.map (others.respan bytes)) := by
  rw [List.filterMap_map, List.map_filterMap]
  refine List.filterMap_congr fun found _ => ?_
  cases found with
  | declared => rfl
  | stray c offset =>
    have hstop : offset + bytes + c.utf8Size = offset + c.utf8Size + bytes := Nat.add_right_comm ..
    show some (Warning.mk .stray _ (others.span _ (offset + bytes + c.utf8Size))) = _
    rw [hstop]
    rfl

/-- The tag with the character is read as the tag is, but for the character. -/
theorem read_insertAt {tag : Tag} {c : Char} {earlier later : List Occurrence}
    {found : Attribute} (hc : IsForeign c)
    (h : tag.occurrences = earlier ++ .declared found :: later) :
    (tag.insertAt (found.offset - tag.span.start) c).occurrences =
      earlier ++ .stray c found.offset ::
        (.declared found :: later).map (.mapOffset (· + c.utf8Size)) ∧
    nameOf (tag.insertAt (found.offset - tag.span.start) c).text.toList =
      nameOf tag.text.toList ∧
    (tag.insertAt (found.offset - tag.span.start) c).isClosing = tag.isClosing := by
  obtain ⟨parts, hmake⟩ := Parts.exists_make tag.text.toList
  have hoccurs : Segment.occurrencesAt (tag.span.start + byteSize parts.head) parts.segments =
      earlier ++ .declared found :: later := by
    rw [← h]
    exact (hmake.occurrences_eq tag.span.start).symm
  obtain ⟨before, name, assignment, after, hsegments, hearlier, hoffset, hlater⟩ :=
    Segment.exists_declaration_of_occurrencesAt hoccurs
  -- the text in front of the attribute, and the parts with the character behind that
  have hplace : found.offset - tag.span.start =
      byteSize (parts.head ++ before.flatMap Segment.text) := by
    rw [hoffset, Text.byteSize_append, Nat.add_assoc, Nat.add_sub_cancel_left]
  have htext : tag.text.toList = (parts.head ++ before.flatMap Segment.text) ++
      ((Segment.declaration name assignment :: after).flatMap Segment.text ++ parts.tail) := by
    rw [hmake.text_eq, Parts.body, hsegments, List.flatMap_append, List.append_assoc,
      List.append_assoc]
  have hinsert := hmake.insert hc hsegments
  rw [← insertAt_text htext, ← hplace] at hinsert
  refine ⟨?_, ?_, ?_⟩
  · refine (hinsert.occurrences_eq tag.span.start).trans ?_
    show Segment.occurrencesAt (tag.span.start + byteSize parts.head) _ = _
    rw [Segment.occurrencesAt_append, ← hearlier, ← hoffset, Segment.occurrencesAt,
      Segment.occurrencesAt_add, ← hlater]
  · rw [← hinsert.name_eq, ← hmake.name_eq]
  · rw [isClosing, isClosing, Bool.eq_iff_iff, List.isPrefixOf_iff_prefix,
      List.isPrefixOf_iff_prefix, hinsert.isClosing_iff, hmake.isClosing_iff]

/-- **Recovery from a character out of place is local.** If a character that belongs to nothing in a
tag is put in right before any of its attributes, then the character is warned about, and everything
else is found as before. -/
theorem recovers_of_insert {tag : Tag} {c : Char} {earlier later : List Occurrence}
    {found : Attribute} (hc : IsForeign c)
    (h : tag.occurrences = earlier ++ .declared found :: later) :
    tag.Recovers c earlier found later (tag.insertAt (found.offset - tag.span.start) c) := by
  have hname : (tag.insertAt (found.offset - tag.span.start) c).name = tag.name := rfl
  obtain ⟨hfound, hnameOf, hclosing⟩ := read_insertAt hc h
  generalize tag.insertAt (found.offset - tag.span.start) c = inserted at *
  have hnames : inserted.attributes.map Attribute.name = tag.attributes.map Attribute.name := by
    rw [attributes, attributes, hfound, h, List.filterMap_append, List.filterMap_append,
      List.filterMap_cons_none rfl, Occurrence.filterMap_declared?_mapOffset, List.map_append,
      List.map_append, List.map_map]
    rfl
  constructor
  case occurrences => exact hfound
  case names => exact hnames
  case nameOf => exact hnameOf
  case isClosing => exact hclosing
  case findings =>
    intro lines others
    rw [remarks, remarks, hclosing]
    by_cases htag : tag.isClosing = true
    · rw [if_pos htag, if_pos htag]
    rw [if_neg htag, if_neg htag]
    show List.map Finding.name ((Attribute.repeats [] inserted.attributes).map _) =
      List.map Finding.name ((Attribute.repeats [] tag.attributes).map _)
    rw [List.map_map, List.map_map]
    exact Attribute.map_repeats_of_names hnames
  case warnings =>
    intro htag lines others
    have hwarning : Warning.ofOccurrence? inserted others = Warning.ofOccurrence? tag others := by
      funext found
      cases found with
      | declared => rfl
      | stray =>
        rw [Warning.ofOccurrence?, Warning.ofOccurrence?, Warning.ofStray, Warning.ofStray, hname]
    have hfront := filterMap_ofOccurrence?_respan tag lines others 0 earlier
    have hbehind := filterMap_ofOccurrence?_respan tag lines others c.utf8Size later
    rw [List.map_congr_left (fun _ _ => Occurrence.mapOffset_add_zero _), List.map_id'] at hfront
    refine ⟨earlier.filterMap (Warning.ofOccurrence? tag lines),
      later.filterMap (Warning.ofOccurrence? tag lines), ?_, ?_⟩
    · rw [remarks, htag, h]
      show List.filterMap _ _ = _
      rw [List.filterMap_append, List.filterMap_cons_none rfl]
    · rw [remarks, hclosing, htag]
      show inserted.occurrences.filterMap (Warning.ofOccurrence? inserted others) = _
      rw [hwarning, hfound, List.filterMap_append, hfront, ← hbehind]
      rfl
  case closing =>
    intro htag lines
    rw [remarks, hclosing, if_pos htag]

/-- A backslash before the second `a` is warned about, and the `a` is reported as before. -/
theorem recovers_of_backslash :
    IsForeign '\\' ∧
      occurrences ⟨"<p a b={1} a>", "p", ⟨0, 13, ⟨1, 1⟩⟩⟩ =
        [.declared ⟨"a", 3⟩, .declared ⟨"b", 5⟩] ++ .declared ⟨"a", 11⟩ :: [] ∧
      occurrences ⟨"<p a b={1} \\a>", "p", ⟨0, 14, ⟨1, 1⟩⟩⟩ =
        [.declared ⟨"a", 3⟩, .declared ⟨"b", 5⟩, .stray '\\' 11, .declared ⟨"a", 12⟩] := by
  have hc : IsForeign '\\' := by constructor <;> decide
  have hoccurs : occurrences ⟨"<p a b={1} a>", "p", ⟨0, 13, ⟨1, 1⟩⟩⟩ =
      [.declared ⟨"a", 3⟩, .declared ⟨"b", 5⟩] ++ .declared ⟨"a", 11⟩ :: [] := by decide +kernel
  have hinsert : insertAt ⟨"<p a b={1} a>", "p", ⟨0, 13, ⟨1, 1⟩⟩⟩ 11 '\\' =
      ⟨"<p a b={1} \\a>", "p", ⟨0, 14, ⟨1, 1⟩⟩⟩ := by decide +kernel
  have hfound := (recovers_of_insert hc hoccurs).occurrences
  rw [Nat.sub_zero, hinsert] at hfound
  exact ⟨hc, hoccurs, hfound⟩

end Tag

end TagLint
