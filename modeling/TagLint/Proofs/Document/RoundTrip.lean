import TagLint.Proofs.Attribute.Repeats
import TagLint.Proofs.Document.Attributes
import TagLint.Proofs.Document.Tag

/-!
# Documents are read as they are meant

Reading the text of a document gives back its tags, each at its place, and of every tag the
attributes that it declares. A scan reports the repetitions among them and nothing else
(`roundTrip`). Each part is read by itself (`items_part`): nothing behind a part changes how the
part is read.
-/

namespace TagLint

/-! ### Names of tags -/

theorem Text.not_isTagNameChar_of_isSpace {c : Char} (h : isSpace c = true) :
    isTagNameChar c = false := by
  simp only [isSpace, Bool.or_eq_true, decide_eq_true_eq] at h
  rcases h with (((rfl | rfl) | rfl) | rfl) | rfl <;> rfl

namespace Document

theorem TagName.initial_ne_slash (name : TagName) : name.initial ≠ '/' := by
  intro h
  have halpha := name.isAlpha
  rw [h] at halpha
  cases halpha

theorem TagName.afterOpener_opening (name : TagName) (behind : List Char) :
    Tag.afterOpener ('<' :: (name.text ++ behind)) = name.text ++ behind := by
  show Text.dropOptional '/' (name.initial :: (name.rest ++ behind)) = _
  rw [Text.dropOptional, if_neg name.initial_ne_slash]
  rfl

theorem TagName.afterOpener_closing (name : TagName) (behind : List Char) :
    Tag.afterOpener ('<' :: '/' :: (name.text ++ behind)) = name.text ++ behind :=
  rfl

/-- The name of a tag is read up to where it ends. -/
theorem TagName.nameOf {name : TagName} {text behind : List Char}
    (hopener : Tag.afterOpener text = name.text ++ behind)
    (hends : Text.Ends Text.isTagNameChar behind) :
    Tag.nameOf text = name.text ∧ Tag.afterName text = behind := by
  rw [Tag.nameOf, Tag.afterName, hopener]
  exact ⟨Text.takeWhile_append name.isTagNameChar_text hends,
    Text.dropWhile_append name.isTagNameChar_text hends⟩

theorem OpeningTag.nameOf_text (tag : OpeningTag) :
    Tag.nameOf tag.text = tag.name.text ∧
      Tag.afterName tag.text = tag.entries.flatMap SpacedEntry.text ++ tag.tail :=
  TagName.nameOf (tag.name.afterOpener_opening _)
    (ends_entries (fun _ => Text.not_isTagNameChar_of_isSpace) rfl rfl tag tag.entries)

theorem nameOf_closing (name : TagName) (blanks : Blanks) :
    Tag.nameOf ('<' :: '/' :: (name.text ++ (blanks.text ++ ['>']))) = name.text ∧
      Tag.afterName ('<' :: '/' :: (name.text ++ (blanks.text ++ ['>']))) =
        blanks.text ++ ['>'] := by
  refine TagName.nameOf (name.afterOpener_closing _) (Text.Ends.append (fun c hc => ?_) ?_)
  · exact Text.not_isTagNameChar_of_isSpace (blanks.isSpace c hc)
  · exact Text.ends_cons rfl

/-! ### Part by part -/

open TagReader

variable {lines : Lines} {offset : Nat}

/-- A comment is passed over, together with the brace behind one of the script. -/
theorem items_comment_append {kind : CommentKind} {body : List Char}
    (hbody : ¬ kind.closer <:+: body) (behind : List Char) :
    (⟨lines, offset, (Part.comment kind body hbody).text ++ behind⟩ : TagReader).items =
      (⟨lines, offset + Text.byteSize (Part.comment kind body hbody).text, behind⟩ :
        TagReader).items := by
  have htext : (Part.comment kind body hbody).text =
      (kind.opener ++ (body ++ kind.closer)) ++ Part.commentEnd kind := by
    simp only [Part.text, List.append_assoc]
  have hend : ∀ c ∈ Part.commentEnd kind, c ∉ ['<', '{', '\\'] := by
    cases kind <;> simp [Part.commentEnd]
  -- the comment itself ends with its closer, and the brace behind it is plain text
  obtain ⟨c, rest, hrest⟩ : ∃ c rest, c :: rest =
      (kind.opener ++ (body ++ kind.closer)) ++ (Part.commentEnd kind ++ behind) := by
    cases kind <;> exact ⟨_, _, rfl⟩
  have hfront : Piece.front c rest = .comment (kind.opener ++ (body ++ kind.closer)).length := by
    refine Piece.front_of_comment hbody (Part.commentEnd kind ++ behind) ?_
    rw [hrest]
    simp only [List.append_assoc]
  rw [htext, List.append_assoc, items_comment hrest.symm hfront, advance_append,
    items_plain_run hend, Nat.add_assoc, ← Text.byteSize_append]

/-- The tag of a part at an offset. -/
def Part.item? (lines : Lines) (offset : Nat) (part : Part) : Option Item :=
  (part.tag? offset).map fun (name, _) =>
    .ok ⟨String.ofList part.text, String.ofList name.text,
      lines.span offset (offset + Text.byteSize part.text)⟩

/-- **A part is read by itself**: whatever follows, it is the next item if it is a tag, and passed
over if it is not. -/
theorem items_part (part : Part) (behind : List Char) :
    (⟨lines, offset, part.text ++ behind⟩ : TagReader).items =
      (part.item? lines offset).toList ++
        (⟨lines, offset + Text.byteSize part.text, behind⟩ : TagReader).items := by
  cases part with
  | plain text hplain => exact items_plain_run hplain behind
  | escape c =>
    have hadvance := advance_append lines offset ['\\', c] behind
    exact (items_escape rfl rfl).trans (congrArg items hadvance)
  | comment kind body hbody => exact items_comment_append hbody behind
  | closing name blanks =>
    exact items_tag_append (.inr rfl) rfl (tagLength_closing name blanks behind)
      (nameOf_closing name blanks).1
  | opening tag =>
    exact items_tag_append (.inl tag.name.isAlpha) rfl (tag.tagLength_text behind)
      tag.nameOf_text.1

/-- The tags of a document are found in order. -/
theorem items_text (parts : List Part) :
    (⟨lines, offset, text parts⟩ : TagReader).items =
      (declarations lines offset parts).map fun (tag, _) => .ok tag := by
  induction parts generalizing offset with
  | nil => exact items_nil rfl
  | cons part rest ih =>
    rw [text, List.flatMap_cons, items_part, ← text, ih, declarations, List.map_append, Part.item?]
    congr 1
    cases part.tag? offset <;> rfl

/-! ### The attributes of each tag -/

/-- A tag with the attributes that it declares, read as it is meant. -/
structure Agrees (tag : Tag) (attributes : List Attribute) : Prop where
  occurrences : tag.occurrences = attributes.map .declared
  closing : tag.isClosing = true → attributes = []

/-- The attributes are read from behind the name of the tag. -/
theorem occurrences_ofList {front behind : List Char}
    (hafter : Tag.afterName (front ++ behind) = behind) (name : String) (stop : Nat) :
    Tag.occurrences ⟨String.ofList (front ++ behind), name, lines.span offset stop⟩ =
      (⟨offset + Text.byteSize front, behind⟩ : AttributeReader).occurrences := by
  show (AttributeReader.ofText offset (String.ofList (front ++ behind)).toList).occurrences = _
  rw [String.toList_ofList, AttributeReader.ofText, hafter, Text.byteSize_append,
    Nat.add_sub_cancel]

theorem agrees_opening (tag : OpeningTag) :
    Agrees ⟨String.ofList tag.text, String.ofList tag.name.text,
      lines.span offset (offset + Text.byteSize tag.text)⟩ (tag.attributesAt offset) := by
  have htext : tag.text =
      ('<' :: tag.name.text) ++ (tag.entries.flatMap SpacedEntry.text ++ tag.tail) := rfl
  constructor
  · have hafter := tag.nameOf_text.2
    rw [htext] at hafter ⊢
    rw [occurrences_ofList hafter, tag.occurrences_entries]
    rfl
  · intro h
    rw [Tag.isClosing, String.toList_ofList] at h
    have hslash : '/' = tag.name.initial := by
      have hprefix := List.isPrefixOf_iff_prefix.1 h
      exact (List.cons_prefix_cons.1 (List.cons_prefix_cons.1 hprefix).2).1
    exact absurd hslash.symm tag.name.initial_ne_slash

theorem agrees_closing (name : TagName) (blanks : Blanks) :
    Agrees ⟨String.ofList (Part.closing name blanks).text, String.ofList name.text,
      lines.span offset (offset + Text.byteSize (Part.closing name blanks).text)⟩ [] := by
  have htext : (Part.closing name blanks).text =
      ('<' :: '/' :: name.text) ++ (blanks.text ++ ['>']) := rfl
  constructor
  · have hafter := (nameOf_closing name blanks).2
    rw [htext]
    exact (occurrences_ofList hafter _ _).trans (occurrences_blanks_close blanks _)
  · exact fun _ => rfl

/-- Every tag of a document declares its attributes. -/
theorem agrees_of_mem_declarations {parts : List Part} {tag : Tag} {attributes : List Attribute}
    (h : (tag, attributes) ∈ declarations lines offset parts) : Agrees tag attributes := by
  induction parts generalizing offset with
  | nil => cases h
  | cons part rest ih =>
    rcases List.mem_append.1 h with h | h
    · cases part with
      | plain => cases h
      | escape => cases h
      | comment => cases h
      | closing name blanks =>
        cases List.mem_singleton.1 h
        exact agrees_closing name blanks
      | opening tag =>
        cases List.mem_singleton.1 h
        exact agrees_opening tag
    · exact ih h

/-- What is reported of a tag are the repetitions among its attributes. -/
theorem Agrees.remarks_eq {tag : Tag} {attributes : List Attribute} (h : Agrees tag attributes)
    (lines : Lines) :
    tag.remarks lines = ⟨(Attribute.repetitions attributes).map fun (first, found) =>
      .ofRepeat tag lines first found, []⟩ := by
  unfold Tag.remarks
  split
  · next hclosing =>
    rw [h.closing hclosing]
    rfl
  · have hdeclared : (attributes.map Occurrence.declared).filterMap Occurrence.declared? =
        attributes := by
      rw [List.filterMap_map]
      exact List.filterMap_some
    have hstray : (attributes.map Occurrence.declared).filterMap
        (Warning.ofOccurrence? tag lines) = [] := by
      rw [List.filterMap_map]
      exact List.filterMap_eq_nil_iff.2 fun _ _ => rfl
    simp only [h.occurrences, hdeclared, hstray, Attribute.repeats_eq_repetitions]

/-! ### The whole document -/

/-- The source that parts make up. -/
def source (parts : List Part) : String :=
  String.ofList (text parts)

/-- The tags of the source that parts make up, each with its attributes. -/
def declared (parts : List Part) : List (Tag × List Attribute) :=
  declarations (Lines.ofString (source parts)) 0 parts

/-- The scan of tags that declare their attributes. -/
theorem ofItems_of_agrees (lines : Lines) {found : List (Tag × List Attribute)}
    (h : ∀ tag attributes, (tag, attributes) ∈ found → Agrees tag attributes) :
    Scan.ofItems lines (found.map fun (tag, _) => .ok tag) =
      { findings := found.flatMap fun (tag, attributes) =>
          (Attribute.repetitions attributes).map fun (first, found) =>
            .ofRepeat tag lines first found
        warnings := []
        tagCount := found.length } := by
  have hremarks : (found.map fun (tag, _) => .ok tag).map (Item.remarks lines) =
      found.map fun (tag, attributes) =>
        ⟨(Attribute.repetitions attributes).map fun (first, found) =>
          .ofRepeat tag lines first found, []⟩ := by
    rw [List.map_map]
    exact List.map_congr_left fun (tag, attributes) hmem => (h tag attributes hmem).remarks_eq lines
  have hwarnings : (found.map fun (tag, attributes) =>
      (⟨(Attribute.repetitions attributes).map fun (first, found) =>
        .ofRepeat tag lines first found, []⟩ : Remarks)).flatMap Remarks.warnings = [] := by
    rw [List.flatMap_eq_nil_iff]
    intro remarks hmem
    obtain ⟨_, -, rfl⟩ := List.mem_map.1 hmem
    rfl
  have hcount : (found.map fun (tag, _) => (.ok tag : Item)).countP (fun item => item.isOk) =
      found.length := by
    rw [List.countP_map]
    exact List.countP_eq_length.2 fun _ _ => rfl
  simp only [Scan.ofItems, hremarks, hwarnings, hcount]
  rw [List.flatMap_map]

/-- **Documents are read as they are meant.** The tags are found in order, each with its text, name
and place; what occurs among the attributes of a tag is what the tag declares, at its place; and a
scan finds the repeated names and nothing else. -/
theorem roundTrip (parts : List Part) :
    (TagReader.ofString (source parts)).items = (declared parts).map (fun (tag, _) => .ok tag) ∧
    (∀ tag attributes, (tag, attributes) ∈ declared parts →
      tag.occurrences = attributes.map .declared) ∧
    Scan.ofString (source parts) =
      { findings := (declared parts).flatMap fun (tag, attributes) =>
          (Attribute.repetitions attributes).map fun (first, found) =>
            .ofRepeat tag (Lines.ofString (source parts)) first found
        warnings := []
        tagCount := (declared parts).length } := by
  have hitems : (TagReader.ofString (source parts)).items =
      (declared parts).map (fun (tag, _) => .ok tag) := by
    have hreader : TagReader.ofString (source parts) =
        ⟨Lines.ofString (source parts), 0, text parts⟩ :=
      congrArg (TagReader.mk _ 0) String.toList_ofList
    rw [hreader, items_text]
    rfl
  refine ⟨hitems, fun tag attributes h => (agrees_of_mem_declarations h).occurrences, ?_⟩
  show Scan.ofItems (Lines.ofString (source parts)) (TagReader.ofString (source parts)).items = _
  rw [hitems]
  exact ofItems_of_agrees _ fun _ _ => agrees_of_mem_declarations

end Document

end TagLint
