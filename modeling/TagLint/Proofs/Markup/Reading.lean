import TagLint.Proofs.Location.Lines
import TagLint.Proofs.Markup.Cut
import TagLint.Proofs.Markup.TagReader

/-!
# Reading piece by piece

A reader goes on from one piece to the next, until nothing is left or until the text leaves
something open.

- `TagReader.Reads`: the tags that are read on the way from one place to another.
- `TagReader.Reads.items_eq`: they are the first of the items.
- `TagReader.exists_reads`, `TagReader.exists_reads_of_items`, `TagReader.exists_reads_behind`: the
  way to the end, the way to a tag that is found, and the way to behind it.
- `TagReader.Reads.cut`: nothing behind the place that is come to has a say in the way there.
-/

namespace TagLint

namespace TagReader

/-- The tag of a piece that stands at the place of a reader; other pieces are no tags. -/
def tagOf? (r : TagReader) : Piece → Option Tag
  | .tag length => some (r.tagOfLength length)
  | _ => none

theorem tagOf?_eq_some_iff {r : TagReader} {piece : Piece} {found : Tag} :
    r.tagOf? piece = some found ↔ ∃ length, piece = .tag length ∧ r.tagOfLength length = found := by
  cases piece <;> simp [tagOf?]

/-- On the way from one place to another these tags are read. -/
inductive Reads : TagReader → List Tag → TagReader → Prop
  | refl (r : TagReader) : Reads r [] r
  | piece {r s : TagReader} {c : Char} {rest : List Char} {n : Nat} {tags : List Tag} :
    r.rest = c :: rest → (Piece.front c rest).length? = some n → Reads (r.advance n) tags s →
    Reads r ((r.tagOf? (Piece.front c rest)).toList ++ tags) s

variable {r s : TagReader} {tags : List Tag} {c : Char} {rest : List Char} {n : Nat}

/-! ### The items on the way -/

/-- Of a closed piece the next item is its tag, if it is one. -/
theorem items_of_length? (h : r.rest = c :: rest)
    (hlength : (Piece.front c rest).length? = some n) :
    r.items = (r.tagOf? (Piece.front c rest)).toList.map .ok ++ (r.advance n).items := by
  rcases hfront : Piece.front c rest with _ | _ | length | length | kind | nest
  · rw [hfront] at hlength
    cases hlength
    exact items_escape h hfront
  · rw [hfront] at hlength
    cases hlength
    exact items_plain h hfront
  · rw [hfront] at hlength
    cases hlength
    exact items_comment h hfront
  · rw [hfront] at hlength
    cases hlength
    exact items_tag h hfront
  · rw [hfront] at hlength
    cases hlength
  · rw [hfront] at hlength
    cases hlength

/-- What the text leaves open at the place of the reader. -/
def faultOf? (r : TagReader) : Piece → Option Fault
  | .openComment kind => some (r.faultAt (.comment kind) 0)
  | .openTag nest => some (r.faultAt (r.unclosedTag nest) nest.opened)
  | _ => none

/-- A piece that is not closed is a fault, and the last item. -/
theorem items_of_length?_eq_none (h : r.rest = c :: rest)
    (hlength : (Piece.front c rest).length? = none) :
    ∃ cause, r.faultOf? (Piece.front c rest) = some cause ∧ r.items = [.error cause] := by
  rcases hfront : Piece.front c rest with _ | _ | length | length | kind | nest
  · rw [hfront] at hlength
    cases hlength
  · rw [hfront] at hlength
    cases hlength
  · rw [hfront] at hlength
    cases hlength
  · rw [hfront] at hlength
    cases hlength
  · exact ⟨_, rfl, items_fault (by rw [landmark?_cons h, hfront])⟩
  · exact ⟨_, rfl, items_fault (by rw [landmark?_cons h, hfront])⟩

/-- **The tags that are read on the way are the first of the items.** -/
theorem Reads.items_eq (h : Reads r tags s) : r.items = tags.map .ok ++ s.items := by
  induction h with
  | refl => rfl
  | piece hrest hlength _ ih =>
    rw [items_of_length? hrest hlength, ih, List.map_append, List.append_assoc]

/-- Behind a closed piece less text is left. -/
theorem length_advance_lt (h : r.rest = c :: rest)
    (hlength : (Piece.front c rest).length? = some n) :
    (r.advance n).rest.length < r.rest.length := by
  have hpos := Piece.length_pos hlength
  rw [advance, h, List.length_drop, List.length_cons]
  omega

/-- The way to the end: either nothing is left there, or something that is not closed. -/
theorem exists_reads (r : TagReader) : ∃ tags s, Reads r tags s ∧
    (s.rest = [] ∨ ∃ c rest, s.rest = c :: rest ∧ (Piece.front c rest).length? = none) := by
  induction hn : r.rest.length using Nat.strongRecOn generalizing r with
  | ind n ih =>
    subst hn
    rcases hrest : r.rest with _ | ⟨c, rest⟩
    · exact ⟨[], r, .refl r, .inl hrest⟩
    rcases hlength : (Piece.front c rest).length? with _ | n
    · exact ⟨[], r, .refl r, .inr ⟨c, rest, hrest, hlength⟩⟩
    · have hlt := length_advance_lt hrest hlength
      obtain ⟨tags, s, hreads, hend⟩ := ih _ hlt (r.advance n) rfl
      exact ⟨_, s, .piece hrest hlength hreads, hend⟩

/-- All that is found are tags, and then a fault if there is one. -/
theorem exists_items_eq (r : TagReader) : ∃ (tags : List Tag) (fault? : Option Fault),
    r.items = tags.map .ok ++ (fault?.map .error).toList := by
  obtain ⟨tags, s, hreads, hrest | ⟨c, rest, hrest, hlength⟩⟩ := exists_reads r
  · refine ⟨tags, none, ?_⟩
    rw [hreads.items_eq, items_nil hrest]
    rfl
  · obtain ⟨cause, -, hitems⟩ := items_of_length?_eq_none hrest hlength
    refine ⟨tags, some cause, ?_⟩
    rw [hreads.items_eq, hitems]
    rfl

/-- The way to a tag that is found: all that is found before it are tags, and behind it the
reading goes on to what is found after it. -/
theorem exists_reads_of_items {before after : List Item} {tag : Tag}
    (h : r.items = before ++ .ok tag :: after) :
    ∃ tags s c rest length, before = tags.map .ok ∧ Reads r tags s ∧ s.rest = c :: rest ∧
      Piece.front c rest = .tag length ∧ tag = s.tagOfLength length ∧
      after = (s.advance length).items := by
  induction hn : r.rest.length using Nat.strongRecOn generalizing r before with
  | ind n ih =>
    subst hn
    rcases hrest : r.rest with _ | ⟨c, rest⟩
    · rw [items_nil hrest] at h
      cases before <;> cases h
    rcases hlength : (Piece.front c rest).length? with _ | n
    · obtain ⟨cause, -, hitems⟩ := items_of_length?_eq_none hrest hlength
      rw [hitems] at h
      rcases before with _ | ⟨_, _ | ⟨_, _⟩⟩ <;> cases h
    · have hlt := length_advance_lt hrest hlength
      have hitems := items_of_length? hrest hlength
      rw [h] at hitems
      rcases hfound : r.tagOf? (Piece.front c rest) with _ | found
      · -- the piece is no tag, so the tag is found further on
        rw [hfound] at hitems
        obtain ⟨tags, s, d, more, length, hbefore, hreads, hs⟩ := ih _ hlt hitems.symm rfl
        have hway := Reads.piece hrest hlength hreads
        rw [hfound] at hway
        exact ⟨tags, s, d, more, length, hbefore, hway, hs⟩
      · rw [hfound] at hitems
        rcases before with _ | ⟨item, before⟩
        · -- the piece is the tag
          obtain ⟨htag, hafter⟩ := List.cons.inj hitems
          obtain ⟨length, hfront, rfl⟩ := tagOf?_eq_some_iff.1 hfound
          cases htag
          rw [hfront] at hlength
          cases hlength
          exact ⟨[], r, c, rest, n, rfl, .refl r, hrest, hfront, rfl, hafter⟩
        · obtain ⟨rfl, hmore⟩ := List.cons.inj hitems
          obtain ⟨tags, s, d, more, length, hbefore, hreads, hs⟩ := ih _ hlt hmore.symm rfl
          have hway := Reads.piece hrest hlength hreads
          rw [hfound] at hway
          exact ⟨found :: tags, s, d, more, length, by rw [hbefore, List.map_cons], hway, hs⟩

theorem Reads.trans {t : TagReader} {more : List Tag} (h : Reads r tags s)
    (hmore : Reads s more t) : Reads r (tags ++ more) t := by
  induction h with
  | refl => exact hmore
  | piece hrest hlength _ ih =>
    rw [List.append_assoc]
    exact .piece hrest hlength (ih hmore)

/-- The way to behind a tag that is found. -/
theorem exists_reads_behind {before after : List Item} {tag : Tag}
    (h : r.items = before ++ .ok tag :: after) :
    ∃ tags s, before = tags.map .ok ∧ Reads r (tags ++ [tag]) s ∧ s.offset = tag.span.stop ∧
      after = s.items := by
  obtain ⟨tags, s, c, rest, length, hbefore, hreads, hrest, hfront, rfl, hafter⟩ :=
    exists_reads_of_items h
  have hlast : Reads s ((s.tagOf? (Piece.front c rest)).toList ++ []) (s.advance length) :=
    .piece hrest (by rw [hfront]; rfl) (.refl _)
  rw [hfront] at hlast
  exact ⟨tags, s.advance length, hbefore, hreads.trans hlast, rfl, hafter⟩

/-! ### The text of a tag -/

/-- A tag that is found is a piece of the source, and stands at the front of a text by itself. -/
theorem exists_text_of_mem_items {source : String} {tag : Tag}
    (h : .ok tag ∈ (ofString source).items) :
    ∃ front c rest behind, source.toList = front ++ (c :: rest ++ behind) ∧
      Piece.front c rest = .tag (c :: rest).length ∧
      tag = ⟨String.ofList (c :: rest), String.ofList (Tag.nameOf (c :: rest)),
        ⟨Text.byteSize front, Text.byteSize front + Text.byteSize (c :: rest),
          Location.first.behind front⟩⟩ := by
  obtain ⟨skipped, length, c, rest, hdrop, hfront, htag⟩ := exists_of_mem_items h
  obtain ⟨i, -, rfl, hclose⟩ := Nesting.getElem?_of_tagLength (Piece.front_eq_tag hfront).2
  have hin := (List.getElem?_eq_some_iff.1 hclose).1
  have hcut : Piece.front c (rest.take i) = .tag (i + 1) := by
    rw [← hfront]
    exact Piece.front_take (by rw [hfront]; rfl) (Nat.min_le_left ..)
  have hlength : (c :: rest.take i).length = i + 1 := by
    rw [← List.take_succ_cons, List.length_take_of_le hin]
  have hsource : source.toList = source.toList.take skipped ++
      (c :: rest.take i ++ (c :: rest).drop (i + 1)) := by
    rw [← List.take_succ_cons, List.take_append_drop, ← hdrop]
    exact (List.take_append_drop skipped source.toList).symm
  refine ⟨source.toList.take skipped, c, rest.take i, (c :: rest).drop (i + 1), hsource,
    by rw [hcut, hlength], ?_⟩
  have hlocate : (Lines.ofString source).locate (Text.byteSize (source.toList.take skipped)) =
      Location.first.behind (source.toList.take skipped) := by
    rw [Lines.ofString]
    exact (congrArg (fun text => (Lines.ofText text).locate _) hsource).trans
      (Lines.locate_ofText _ _)
  have hrest : ((ofString source).advance skipped).rest = c :: rest := hdrop
  have hoffset : ((ofString source).advance skipped).offset =
      Text.byteSize (source.toList.take skipped) := Nat.zero_add _
  rw [htag, tagOfLength, hrest, hoffset, List.take_succ_cons, Lines.span]
  exact congrArg (fun place => Tag.mk _ _ ⟨_, _, place⟩) hlocate

/-! ### The text on the way -/

/-- On the way the reader passes over the first part of the text. -/
theorem Reads.exists_append (h : Reads r tags s) : ∃ front, r.rest = front ++ s.rest ∧
    s.offset = r.offset + Text.byteSize front ∧ s.lines = r.lines := by
  induction h with
  | refl r => exact ⟨[], rfl, rfl, rfl⟩
  | @piece r s c rest n tags _ _ _ ih =>
    obtain ⟨front, htext, hoffset, hlines⟩ := ih
    refine ⟨r.rest.take n ++ front, ?_, ?_, hlines⟩
    · rw [List.append_assoc, ← htext, advance, List.take_append_drop]
    · rw [hoffset, advance, Text.byteSize_append, Nat.add_assoc]

/-- The reader of the first characters only. -/
def cut (r : TagReader) (k : Nat) : TagReader :=
  { r with rest := r.rest.take k }

/-- A cut behind the first characters leaves these as they are. -/
theorem take_take {text : List Char} {k : Nat} (h : min n text.length ≤ k) :
    (text.take k).take n = text.take n := by
  by_cases hn : n ≤ k
  · rw [List.take_take, Nat.min_eq_left hn]
  · have hk : text.take k = text := List.take_of_length_le (by omega)
    rw [hk]

theorem cut_advance {k : Nat} (h : min n r.rest.length ≤ k) :
    (r.cut k).advance n = (r.advance n).cut (k - n) := by
  rw [cut, cut, advance, advance]
  simp only [take_take h, List.drop_take]

/-- A tag in front of the cut is the same tag. -/
theorem cut_tagOf? {piece : Piece} {k : Nat} (hlength : piece.length? = some n)
    (h : min n r.rest.length ≤ k) : (r.cut k).tagOf? piece = r.tagOf? piece := by
  rcases piece with _ | _ | length | length | kind | nest
  · rfl
  · rfl
  · rfl
  · cases hlength
    rw [tagOf?, tagOf?, tagOfLength, tagOfLength, cut]
    simp only [take_take h]
  · rfl
  · rfl

/-- **What is read on the way depends on the text up to there only.** -/
theorem Reads.cut (h : Reads r tags s) (j : Nat) :
    Reads (r.cut (r.rest.length - s.rest.length + j)) tags (s.cut j) := by
  induction h with
  | refl r =>
    rw [Nat.sub_self, Nat.zero_add]
    exact .refl _
  | @piece r s c rest n tags hrest hlength hreads ih =>
    obtain ⟨front, htext, -, -⟩ := hreads.exists_append
    have hlen := congrArg List.length htext
    rw [advance, List.length_drop, List.length_append] at hlen
    have hadvance : (r.advance n).rest.length = r.rest.length - n := List.length_drop
    have hsize : r.rest.length = rest.length + 1 := by rw [hrest, List.length_cons]
    obtain ⟨m, hm⟩ : ∃ m, r.rest.length - s.rest.length + j = m + 1 := by
      have hpos := Piece.length_pos hlength
      exact ⟨r.rest.length - s.rest.length + j - 1, by omega⟩
    have hcut : (r.cut (m + 1)).rest = c :: rest.take m := by
      rw [TagReader.cut, hrest, List.take_succ_cons]
    have hfront : Piece.front c (rest.take m) = Piece.front c rest :=
      Piece.front_take hlength (by omega)
    have hbehind : ((r.advance n).cut (m + 1 - n)) =
        (r.advance n).cut ((r.advance n).rest.length - s.rest.length + j) := by
      by_cases hn : n ≤ r.rest.length
      · congr 1
        omega
      · -- nothing is left to be cut
        have hnil : (r.advance n).rest = [] := List.drop_of_length_le (by omega)
        rw [TagReader.cut, TagReader.cut, hnil, List.take_nil, List.take_nil]
    rw [← hbehind, ← cut_advance (by omega)] at ih
    have hway := Reads.piece hcut (by rw [hfront]; exact hlength) ih
    rw [hfront, cut_tagOf? hlength (by omega)] at hway
    rw [hm]
    exact hway

end TagReader

end TagLint
