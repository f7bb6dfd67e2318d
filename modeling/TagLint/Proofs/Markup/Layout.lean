import TagLint.Proofs.Markup.Cut
import TagLint.Proofs.Markup.Reading

/-!
# How a source is laid out

The items of a source are all of it that is not passed over, and what is passed over holds no tag.

- `Passed`, `Gap`: what is passed over at one go, and a stretch of it.
- `Layout`: gaps and tags in turn, to the end of the source or to what it leaves open.
- `Tag.IsCut`: a tag is cut out of the source where its span says, from a `<` through a `>`.
- `TagReader.layout_items`: a source is laid out as its items say, and its tags are apart and in
  order.
-/

namespace TagLint

/-! ### What is passed over -/

/-- What is passed over at one go, in front of the text behind it: an escape, a comment up to its
first closer, or a character at which neither a comment nor a tag opens. -/
inductive Passed : List Char → List Char → Prop
  | escape (c : Char) (behind : List Char) : Passed ['\\', c] behind
  | lastEscape : Passed ['\\'] []
  | comment {kind : CommentKind} {body : List Char} (behind : List Char) :
    ¬ kind.closer <:+: body → Passed (kind.opener ++ (body ++ kind.closer)) behind
  | plain {c : Char} {behind : List Char} : c ≠ '\\' →
    (∀ kind : CommentKind, ¬ kind.opener <+: c :: behind) →
    Piece.opensTag (c :: behind) = false → Passed [c] behind

/-- A stretch that is passed over, in front of the text behind it. -/
inductive Gap : List Char → List Char → Prop
  | nil (behind : List Char) : Gap [] behind
  | cons {piece gap behind : List Char} :
    Passed piece (gap ++ behind) → Gap gap behind → Gap (piece ++ gap) behind

/-- What a text at an offset of the source consists of, and the items that it has. -/
inductive Layout (lines : Lines) : Nat → List Char → List Item → Prop
  /-- No item is left. -/
  | finished {offset : Nat} {gap : List Char} : Gap gap [] → Layout lines offset gap []
  /-- The next item is a tag. -/
  | tag {offset : Nat} {gap text behind : List Char} {found : Tag} {items : List Item} :
    Gap gap (text ++ behind) → Piece.opensTag (text ++ behind) = true →
    tagLength (text ++ behind) = .ok text.length → found.text = String.ofList text →
    found.name = String.ofList (Tag.nameOf text) →
    found.span = lines.span (offset + Text.byteSize gap)
      (offset + Text.byteSize gap + Text.byteSize text) →
    Layout lines found.span.stop behind items →
    Layout lines offset (gap ++ (text ++ behind)) (.ok found :: items)
  /-- A comment is left open. The fault is put on its opener. -/
  | openComment {offset : Nat} {gap body : List Char} {kind : CommentKind} {fault : Fault} :
    Gap gap (kind.opener ++ body) → ¬ kind.closer <:+: body →
    fault.message = (Unclosed.comment kind).message →
    fault.offset = offset + Text.byteSize gap →
    Layout lines offset (gap ++ (kind.opener ++ body)) [.error fault]
  /-- A tag is left open. The fault is put on the innermost thing that is open in it. -/
  | openTag {offset : Nat} {gap rest : List Char} {nest : Nesting} {fault : Fault} :
    Gap gap rest → Piece.opensTag rest = true → tagLength rest = .error nest →
    fault.message = (Unclosed.ofNesting (String.ofList (Tag.nameOf rest))
      (lines.locate (offset + Text.byteSize gap)) nest).message →
    fault.offset = offset + Text.byteSize gap + Text.byteSize (rest.take nest.opened) →
    Layout lines offset (gap ++ rest) [.error fault]

variable {lines : Lines} {offset : Nat} {text : List Char} {items : List Item}

/-- What is passed over in front of a text belongs to the first gap. -/
theorem Layout.prepend {piece : List Char} (hpiece : Passed piece text)
    (h : Layout lines (offset + Text.byteSize piece) text items) :
    Layout lines offset (piece ++ text) items := by
  cases h with
  | finished hgap =>
    refine .finished (.cons ?_ hgap)
    rw [List.append_nil]
    exact hpiece
  | tag hgap hopens hlength htext hname hspan hbehind =>
    rw [← List.append_assoc]
    rw [Nat.add_assoc offset, ← Text.byteSize_append] at hspan
    exact .tag (.cons hpiece hgap) hopens hlength htext hname hspan hbehind
  | openComment hgap hbody hmessage hoffset =>
    rw [← List.append_assoc]
    rw [Nat.add_assoc, ← Text.byteSize_append] at hoffset
    exact .openComment (.cons hpiece hgap) hbody hmessage hoffset
  | openTag hgap hopens hlength hmessage hoffset =>
    rw [← List.append_assoc]
    rw [Nat.add_assoc offset, ← Text.byteSize_append] at hmessage hoffset
    exact .openTag (.cons hpiece hgap) hopens hlength hmessage hoffset

/-! ### The pieces of a reader -/

/-- The opener and the body of a comment, and its closer if it has one. -/
theorem CommentKind.exists_of_length? {kind : CommentKind} (hopener : kind.opener <+: text) :
    match kind.length? text with
    | some length => ∃ body behind, text = kind.opener ++ (body ++ kind.closer) ++ behind ∧
        ¬ kind.closer <:+: body ∧ length = (kind.opener ++ (body ++ kind.closer)).length
    | none => ∃ body, text = kind.opener ++ body ∧ ¬ kind.closer <:+: body := by
  have hne : kind.closer ≠ [] := by cases kind <;> exact List.cons_ne_nil _ _
  obtain ⟨rest, rfl⟩ := hopener
  rw [length?, List.drop_left]
  rcases hthrough : Text.through? kind.closer rest with _ | n
  · exact ⟨rest, rfl, (Text.through?_eq_none_iff hne).1 hthrough⟩
  · obtain ⟨body, behind, rfl, hbody, rfl⟩ := Text.exists_of_through? hne hthrough
    refine ⟨body, behind, ?_, hbody, ?_⟩
    · simp only [List.append_assoc]
    · simp only [List.length_append]

/-- What is neither a tag nor left open is passed over. -/
theorem passed_of_front {c : Char} {rest : List Char} {n : Nat}
    (hlength : (Piece.front c rest).length? = some n)
    (htag : ∀ length, Piece.front c rest ≠ .tag length) :
    Passed ((c :: rest).take n) ((c :: rest).drop n) := by
  rcases Piece.front_cases c rest with ⟨rfl, hfront⟩ | ⟨kind, hopener, hfront⟩ |
    ⟨-, -, hfront⟩ | ⟨hslash, hopening, hopens, hfront⟩
  · rw [hfront] at hlength
    cases hlength
    cases rest with
    | nil => exact .lastEscape
    | cons d rest => exact .escape d rest
  · have hcomment := CommentKind.exists_of_length? hopener
    rw [hfront, Piece.ofComment] at hlength
    rcases hkind : kind.length? (c :: rest) with _ | length
    · rw [hkind] at hlength
      cases hlength
    · rw [hkind] at hlength hcomment
      cases hlength
      obtain ⟨body, behind, htext, hbody, rfl⟩ := hcomment
      rw [htext, List.take_left, List.drop_left]
      exact .comment behind hbody
  · rw [hfront, Piece.ofTag] at hlength
    rcases hend : tagLength (c :: rest) with nest | length
    · rw [hend] at hlength
      cases hlength
    · refine absurd ?_ (htag length)
      rw [hfront]
      exact Piece.ofTag_eq_tag.2 hend
  · rw [hfront] at hlength
    cases hlength
    exact .plain hslash hopening hopens

/-- Where something is left open, the fault is the only item. -/
theorem layout_of_length?_eq_none {c : Char} {rest : List Char} {cause : Fault}
    (hcause : (⟨lines, offset, c :: rest⟩ : TagReader).faultOf? (Piece.front c rest) =
      some cause) : Layout lines offset (c :: rest) [.error cause] := by
  rcases Piece.front_cases c rest with ⟨-, hfront⟩ | ⟨kind, hopener, hfront⟩ |
    ⟨-, hopens, hfront⟩ | ⟨-, -, -, hfront⟩
  · rw [hfront] at hcause
    cases hcause
  · have hcomment := CommentKind.exists_of_length? hopener
    rw [hfront, Piece.ofComment] at hcause
    rcases hkind : kind.length? (c :: rest) with _ | length
    · rw [hkind] at hcause hcomment
      obtain ⟨body, htext, hbody⟩ := hcomment
      cases hcause
      rw [htext]
      exact .openComment (.nil _) hbody rfl rfl
    · rw [hkind] at hcause
      cases hcause
  · rw [hfront, Piece.ofTag] at hcause
    rcases hend : tagLength (c :: rest) with nest | length
    · rw [hend] at hcause
      cases hcause
      exact .openTag (.nil _) hopens hend rfl rfl
    · rw [hend] at hcause
      cases hcause
  · rw [hfront] at hcause
    cases hcause

/-- A text is laid out as the items of its reader say. -/
theorem layout_items_of_rest (lines : Lines) (offset : Nat) (text : List Char) :
    Layout lines offset text (⟨lines, offset, text⟩ : TagReader).items := by
  induction hn : text.length using Nat.strongRecOn generalizing offset text with
  | ind n ih =>
    subst hn
    rcases text with _ | ⟨c, rest⟩
    · have hitems : (⟨lines, offset, []⟩ : TagReader).items = [] := TagReader.items_nil rfl
      rw [hitems]
      exact .finished (.nil [])
    rcases hlength : (Piece.front c rest).length? with _ | n
    · obtain ⟨cause, hcause, hitems⟩ := TagReader.items_of_length?_eq_none
        (r := ⟨lines, offset, c :: rest⟩) rfl hlength
      rw [hitems]
      exact layout_of_length?_eq_none hcause
    · have hlt := TagReader.length_advance_lt (r := ⟨lines, offset, c :: rest⟩) rfl hlength
      have hmore := ih _ hlt (offset + Text.byteSize ((c :: rest).take n)) _ rfl
      have hitems := TagReader.items_of_length? (r := ⟨lines, offset, c :: rest⟩) rfl hlength
      have hsplit : (c :: rest).take n ++ (c :: rest).drop n = c :: rest :=
        List.take_append_drop n _
      rw [hitems]
      rcases hfound : (⟨lines, offset, c :: rest⟩ : TagReader).tagOf? (Piece.front c rest) with
        _ | found
      · -- the piece is passed over, so it belongs to the gap
        have hpassed := passed_of_front hlength fun length hfront => by
          rw [hfront] at hfound
          cases hfound
        have hlayout := hmore.prepend hpassed
        rw [hsplit] at hlayout
        exact hlayout
      · -- the piece is a tag, with no gap before it
        obtain ⟨length, hfront, rfl⟩ := TagReader.tagOf?_eq_some_iff.1 hfound
        rw [hfront] at hlength
        cases hlength
        obtain ⟨hopens, hend⟩ := Piece.front_eq_tag hfront
        have htake : ((c :: rest).take n).length = n :=
          List.length_take_of_le (Nesting.tagLength_le hend)
        rw [← hsplit] at hopens hend
        have hlayout : Layout lines offset
            ([] ++ ((c :: rest).take n ++ (c :: rest).drop n))
            (.ok ((⟨lines, offset, c :: rest⟩ : TagReader).tagOfLength n) ::
              (⟨lines, offset + Text.byteSize ((c :: rest).take n),
                (c :: rest).drop n⟩ : TagReader).items) :=
          .tag (.nil _) hopens (hend.trans (congrArg _ htake.symm)) rfl rfl rfl hmore
        rw [List.nil_append, hsplit] at hlayout
        exact hlayout

/-! ### The tags of a layout -/

/-- A tag has the text that stands in the source between the two ends of its span. It begins with
`<` and a letter or a slash, and ends with `>`. -/
structure Tag.IsCut (source : List Char) (tag : Tag) : Prop where
  lt : tag.span.start < tag.span.stop
  slice : Text.slice tag.span.start tag.span.stop source = tag.text.toList
  delimited : ∃ c body, tag.text.toList = '<' :: c :: (body ++ ['>']) ∧
    (c.isAlpha = true ∨ c = '/')

/-- The delimiters of a text that opens a tag and ends where the tag ends. -/
theorem delimited_of_tagLength {behind : List Char}
    (hopens : Piece.opensTag (text ++ behind) = true)
    (hlength : tagLength (text ++ behind) = .ok text.length) :
    ∃ c body, text = '<' :: c :: (body ++ ['>']) ∧ (c.isAlpha = true ∨ c = '/') := by
  obtain ⟨i, hpos, hi, hclose⟩ := Nesting.getElem?_of_tagLength hlength
  rw [List.getElem?_append_left (by omega)] at hclose
  rcases text with _ | ⟨c, _ | ⟨d, rest⟩⟩
  · cases hi
  · simp only [List.length_cons, List.length_nil] at hi
    omega
  · rw [List.cons_append, List.cons_append, Piece.opensTag_cons_cons] at hopens
    obtain ⟨rfl, hd⟩ : c = '<' ∧ (d.isAlpha = true ∨ d = '/') := by simpa using hopens
    -- the last character is behind the first two, for these are no `>`
    rcases List.eq_nil_or_concat rest with rfl | ⟨body, last, rfl⟩
    · simp only [List.length_cons, List.length_nil] at hi
      obtain rfl : i = 1 := by omega
      cases hclose
      rcases hd with hd | hd <;> cases hd
    · rw [List.concat_eq_append] at hi hclose ⊢
      simp only [List.length_cons, List.length_append, List.length_nil] at hi
      obtain rfl : i = body.length + 2 := by omega
      rw [List.getElem?_cons_succ, List.getElem?_cons_succ,
        List.getElem?_append_right (Nat.le_refl _), Nat.sub_self, List.getElem?_cons_zero] at hclose
      cases hclose
      exact ⟨d, body, rfl, hd⟩

/-- The tags among some items. -/
def tagsOf (items : List Item) : List Tag :=
  items.filterMap Except.toOption

theorem tagsOf_cons_ok (tag : Tag) (items : List Item) :
    tagsOf (.ok tag :: items) = tag :: tagsOf items := rfl

theorem tagsOf_map_ok (tags : List Tag) (fault? : Option Fault) :
    tagsOf (tags.map .ok ++ (fault?.map .error).toList) = tags := by
  induction tags with
  | nil => cases fault? <;> rfl
  | cons tag tags ih => rw [List.map_cons, List.cons_append, tagsOf_cons_ok, ih]

/-- The tags of a layout are cut out of the source, behind the offset. -/
theorem Layout.isCut (h : Layout lines offset text items) {before : List Char}
    (hoffset : offset = Text.byteSize before) :
    ∀ tag ∈ tagsOf items, offset ≤ tag.span.start ∧ tag.IsCut (before ++ text) := by
  induction h generalizing before with
  | finished => exact nofun
  | openComment => exact nofun
  | openTag => exact nofun
  | @tag offset gap text behind found items hgap hopens hlength htext hname hspan _ ih =>
    obtain ⟨c, body, hbody, hc⟩ := delimited_of_tagLength hopens hlength
    have hsize := Text.length_le_byteSize text
    rw [hbody, List.length_cons, ← hbody] at hsize
    have hstart : found.span.start = Text.byteSize (before ++ gap) := by
      rw [hspan, Text.byteSize_append, ← hoffset]
      rfl
    have hstop : found.span.stop = Text.byteSize (before ++ gap) + Text.byteSize text := by
      rw [hspan, Text.byteSize_append, ← hoffset]
      rfl
    have hsource : before ++ (gap ++ (text ++ behind)) = (before ++ gap ++ text) ++ behind := by
      simp only [List.append_assoc]
    intro tag htag
    rw [tagsOf_cons_ok] at htag
    rcases List.mem_cons.1 htag with rfl | htag
    · refine ⟨?_, ?_, ?_, c, body, ?_, hc⟩
      · rw [hspan]
        exact Nat.le_add_right ..
      · omega
      · rw [hstart, hstop, ← List.append_assoc before, Text.slice_byteSize, htext,
          String.toList_ofList]
      · rw [htext, String.toList_ofList, hbody]
    · have hbehind : found.span.stop = Text.byteSize (before ++ gap ++ text) := by
        rw [hstop, Text.byteSize_append (before ++ gap)]
      have hmore := ih hbehind tag htag
      rw [← hsource] at hmore
      refine ⟨?_, hmore.2⟩
      rw [hstop, Text.byteSize_append, ← hoffset] at hmore
      omega

/-- The tags of a layout are apart and in order. -/
theorem Layout.pairwise (h : Layout lines offset text items) {before : List Char}
    (hoffset : offset = Text.byteSize before) :
    (tagsOf items).Pairwise fun first second => first.span.stop ≤ second.span.start := by
  induction h generalizing before with
  | finished => exact .nil
  | openComment => exact .nil
  | openTag => exact .nil
  | @tag offset gap text behind found items hgap hopens hlength htext hname hspan hmore ih =>
    have hstop : found.span.stop = Text.byteSize (before ++ gap ++ text) := by
      rw [hspan, Text.byteSize_append, Text.byteSize_append, ← hoffset]
      rfl
    rw [tagsOf_cons_ok]
    exact .cons (fun tag htag => (hmore.isCut hstop tag htag).1) (ih hstop)

/-- **Nothing is missed and nothing is made up.** A source consists of its tags, of the gaps
between them, and of what a fault leaves open. Its tags are cut out of it, apart and in order. -/
theorem TagReader.layout_items (source : String) :
    Layout (Lines.ofString source) 0 source.toList (ofString source).items ∧
    ((tagsOf (ofString source).items).Pairwise
      fun first second => first.span.stop ≤ second.span.start) ∧
    ∀ tag ∈ tagsOf (ofString source).items, tag.IsCut source.toList := by
  have hlayout := layout_items_of_rest (Lines.ofString source) 0 source.toList
  have hstart : 0 = Text.byteSize [] := rfl
  exact ⟨hlayout, hlayout.pairwise hstart, fun tag htag => (hlayout.isCut hstart tag htag).2⟩

end TagLint
