import TagLint.Markup.TagReader
import TagLint.Proofs.Markup.Piece
import TagLint.Proofs.Tag.Nesting
import TagLint.Proofs.Text.Bytes

/-!
# The tags that are found

What stands at the place of a reader decides what it finds next. Here is one equation of
`TagReader.items` for each kind of piece, and what they say together:

- `TagReader.items_plain_run`, `TagReader.items_tag_append`: what is read of a text that begins with
  plain characters or with a tag.
- `TagReader.exists_of_mem_items`: a tag that is found ends, and stands at some place of the text.
- `Tag.readFrom`: the text of the source from the tag's `<` on, which is what the tag was read
  from.
-/

namespace TagLint

namespace TagReader

variable {r : TagReader} {c : Char} {rest : List Char} {lines : Lines} {offset : Nat}

theorem advance_advance (r : TagReader) (m n : Nat) :
    (r.advance m).advance n = r.advance (m + n) := by
  simp only [advance, List.drop_drop, List.take_add, Text.byteSize_append, Nat.add_assoc]

/-! ### One equation for each piece -/

theorem landmarks_go_of_none {before : List Landmark} (h : r.landmark? = none) :
    landmarks.go before r = before.reverse := by
  rw [landmarks.go.eq_def]
  split
  · rfl
  · next heq => cases h.symm.trans heq

theorem landmarks_go_of_some {before : List Landmark} {landmark : Landmark} {behind : TagReader}
    (h : r.landmark? = some (landmark, behind)) :
    landmarks.go before r = landmarks.go (landmark :: before) behind := by
  rw [landmarks.go.eq_def]
  split
  · next heq => cases h.symm.trans heq
  · next heq => cases h.symm.trans heq; rfl

/-- The landmarks before are put in front of the answer. -/
theorem landmarks_go_append (base before : List Landmark) (r : TagReader) :
    landmarks.go (before ++ base) r = base.reverse ++ landmarks.go before r := by
  fun_induction landmarks.go before r with
  | case1 before r h => rw [landmarks_go_of_none h, List.reverse_append]
  | case2 before r landmark behind h hlt ih => rw [landmarks_go_of_some h, ← ih, List.cons_append]

theorem landmarks_of_some {landmark : Landmark} {behind : TagReader}
    (h : r.landmark? = some (landmark, behind)) :
    r.landmarks = landmark :: behind.landmarks := by
  rw [landmarks, landmarks_go_of_some h]
  exact landmarks_go_append [landmark] [] behind

theorem landmarks_of_none (h : r.landmark? = none) : r.landmarks = [] := by
  rw [landmarks, landmarks_go_of_none h, List.reverse_nil]

theorem landmarks_congr {r' : TagReader} (h : r.landmark? = r'.landmark?) :
    r.landmarks = r'.landmarks := by
  rcases hnext : r'.landmark? with _ | ⟨landmark, behind⟩
  · rw [landmarks_of_none hnext, landmarks_of_none (h.trans hnext)]
  · rw [landmarks_of_some hnext, landmarks_of_some (h.trans hnext)]

theorem items_of_landmark?_none (h : r.landmark? = none) : r.items = [] := by
  rw [items, landmarks_of_none h, List.filterMap_nil]

/-- The item of the next landmark comes first, if it has one. -/
theorem items_of_landmark?_some {landmark : Landmark} {behind : TagReader}
    (h : r.landmark? = some (landmark, behind)) :
    r.items = landmark.item?.toList ++ behind.items := by
  rw [items, landmarks_of_some h, List.filterMap_cons, items]
  cases landmark.item? <;> rfl

theorem landmark?_nil (h : r.rest = []) : r.landmark? = none := by
  rw [landmark?.eq_def]
  split
  · rfl
  · next heq => cases h.symm.trans heq

theorem items_nil (h : r.rest = []) : r.items = [] :=
  items_of_landmark?_none (landmark?_nil h)

/-- The next landmark, by the piece that stands at the place. -/
theorem landmark?_cons (h : r.rest = c :: rest) :
    r.landmark? = match Piece.front c rest with
      | .escape => (r.advance 2).landmark?
      | .plain => (r.advance 1).landmark?
      | .comment length =>
        some (.comment r.offset (r.advance length).offset, r.advance length)
      | .tag length => some (.tag (r.tagOfLength length), r.advance length)
      | .openComment kind => some (.fault (r.faultAt (.comment kind) 0), r.finish)
      | .openTag nest => some (.fault (r.faultAt (r.unclosedTag nest) nest.opened), r.finish) := by
  rw [landmark?.eq_def]
  split
  · next heq => cases h.symm.trans heq
  · next heq =>
    obtain ⟨rfl, rfl⟩ := List.cons.inj (h.symm.trans heq)
    rfl

/-- A backslash and the character after it are passed over. -/
theorem items_escape (h : r.rest = c :: rest) (hfront : Piece.front c rest = .escape) :
    r.items = (r.advance 2).items := by
  have hnext : r.landmark? = (r.advance 2).landmark? := by rw [landmark?_cons h, hfront]
  rw [items, landmarks_congr hnext, items]

/-- A character outside tags is passed over. -/
theorem items_plain (h : r.rest = c :: rest) (hfront : Piece.front c rest = .plain) :
    r.items = (r.advance 1).items := by
  have hnext : r.landmark? = (r.advance 1).landmark? := by rw [landmark?_cons h, hfront]
  rw [items, landmarks_congr hnext, items]

/-- A closed comment is passed over. -/
theorem items_comment {length : Nat} (h : r.rest = c :: rest)
    (hfront : Piece.front c rest = .comment length) : r.items = (r.advance length).items := by
  have hnext : r.landmark? =
      some (.comment r.offset (r.advance length).offset, r.advance length) := by
    rw [landmark?_cons h, hfront]
  exact items_of_landmark?_some hnext

/-- A tag that ends is an item. -/
theorem items_tag {length : Nat} (h : r.rest = c :: rest)
    (hfront : Piece.front c rest = .tag length) :
    r.items = .ok (r.tagOfLength length) :: (r.advance length).items := by
  have hnext : r.landmark? = some (.tag (r.tagOfLength length), r.advance length) := by
    rw [landmark?_cons h, hfront]
  exact items_of_landmark?_some hnext

/-- A fault is the last item. -/
theorem items_fault {cause : Fault} (h : r.landmark? = some (.fault cause, r.finish)) :
    r.items = [.error cause] := by
  have hfinish : r.finish.items = [] := items_nil rfl
  rw [items_of_landmark?_some h, hfinish]
  rfl

/-! ### Texts that are put together -/

theorem advance_append (lines : Lines) (offset : Nat) (front behind : List Char) :
    (⟨lines, offset, front ++ behind⟩ : TagReader).advance front.length =
      ⟨lines, offset + Text.byteSize front, behind⟩ := by
  rw [advance, List.take_left, List.drop_left]

/-- Characters that open nothing are passed over. -/
theorem items_plain_run {run : List Char} (h : ∀ c ∈ run, c ∉ ['<', '{', '\\'])
    (behind : List Char) :
    (⟨lines, offset, run ++ behind⟩ : TagReader).items =
      (⟨lines, offset + Text.byteSize run, behind⟩ : TagReader).items := by
  induction run generalizing offset with
  | nil => rfl
  | cons c run ih =>
    obtain ⟨hc, hrun⟩ := List.forall_mem_cons.1 h
    have hadvance := advance_append lines offset [c] (run ++ behind)
    calc
      (⟨lines, offset, c :: run ++ behind⟩ : TagReader).items
        = ((⟨lines, offset, [c] ++ (run ++ behind)⟩ : TagReader).advance 1).items :=
          items_plain rfl (Piece.front_of_plain hc _)
      _ = (⟨lines, offset + Text.byteSize [c], run ++ behind⟩ : TagReader).items :=
          congrArg items hadvance
      _ = (⟨lines, offset + Text.byteSize [c] + Text.byteSize run, behind⟩ : TagReader).items :=
          ih hrun
      _ = (⟨lines, offset + Text.byteSize (c :: run), behind⟩ : TagReader).items := by
          rw [Nat.add_assoc, ← Text.byteSize_append, List.singleton_append]

/-- A tag at the front of a text is the next item. -/
theorem items_tag_append {d : Char} {text rest behind name : List Char}
    (hd : d.isAlpha = true ∨ d = '/') (htext : text = '<' :: d :: rest)
    (hlength : tagLength (text ++ behind) = .ok text.length) (hname : Tag.nameOf text = name) :
    (⟨lines, offset, text ++ behind⟩ : TagReader).items =
      .ok ⟨String.ofList text, String.ofList name,
          lines.span offset (offset + Text.byteSize text)⟩ ::
        (⟨lines, offset + Text.byteSize text, behind⟩ : TagReader).items := by
  have hfront : Piece.front '<' (d :: (rest ++ behind)) = .tag text.length := by
    subst htext
    exact Piece.front_of_tag hd hlength
  have hrest : (⟨lines, offset, text ++ behind⟩ : TagReader).rest =
      '<' :: d :: (rest ++ behind) := by
    subst htext
    rfl
  rw [items_tag hrest hfront, advance_append, tagOfLength, List.take_left, hname]

/-! ### A tag that is found -/

/-- A tag that is found ends, and stands at a place of the text where one opens. -/
theorem exists_of_mem_items {tag : Tag} (h : .ok tag ∈ r.items) :
    ∃ skipped length c rest, r.rest.drop skipped = c :: rest ∧
      Piece.front c rest = .tag length ∧ tag = (r.advance skipped).tagOfLength length := by
  induction hn : r.rest.length using Nat.strongRecOn generalizing r with
  | ind n ih =>
    subst hn
    rcases htext : r.rest with _ | ⟨c, rest⟩
    · rw [items_nil htext] at h
      cases h
    -- the reader further on finds the tag
    have hfurther (count : Nat) (hpos : 0 < count) (hmem : .ok tag ∈ (r.advance count).items) :
        ∃ skipped length c rest, r.rest.drop skipped = c :: rest ∧
          Piece.front c rest = .tag length ∧ tag = (r.advance skipped).tagOfLength length := by
      have hlt : (r.advance count).rest.length < r.rest.length := by
        simp only [advance, htext, List.length_drop, List.length_cons]
        omega
      obtain ⟨skipped, length, c, rest, hdrop, hfront, htag⟩ := ih _ hlt hmem rfl
      rw [advance_advance] at htag
      refine ⟨count + skipped, length, c, rest, ?_, hfront, htag⟩
      rw [← hdrop, advance, List.drop_drop]
    rw [← htext]
    rcases hfront : Piece.front c rest with _ | _ | length | length | kind | nest
    · rw [items_escape htext hfront] at h
      exact hfurther 2 Nat.two_pos h
    · rw [items_plain htext hfront] at h
      exact hfurther 1 Nat.one_pos h
    · rw [items_comment htext hfront] at h
      exact hfurther length (Piece.length_pos_of_comment hfront) h
    · rw [items_tag htext hfront] at h
      rcases List.mem_cons.1 h with htag | h
      · cases htag
        exact ⟨0, length, c, rest, htext, hfront, rfl⟩
      · exact hfurther length (Piece.length_pos_of_tag hfront) h
    · have hnext : r.landmark? = some (.fault (r.faultAt (.comment kind) 0), r.finish) := by
        rw [landmark?_cons htext, hfront]
      rw [items_fault hnext, List.mem_singleton] at h
      cases h
    · have hnext : r.landmark? =
          some (.fault (r.faultAt (r.unclosedTag nest) nest.opened), r.finish) := by
        rw [landmark?_cons htext, hfront]
      rw [items_fault hnext, List.mem_singleton] at h
      cases h

end TagReader

namespace Tag

/-- The text that a tag was read from: the source from the tag's `<` on. -/
def readFrom (source : String) (tag : Tag) : List Char :=
  Text.dropBytes tag.span.start source.toList

/-- A tag that is found is the front of the text that it was read from. -/
theorem readFrom_of_mem_items {source : String} {tag : Tag}
    (h : .ok tag ∈ (TagReader.ofString source).items) :
    ∃ behind, tag.readFrom source = tag.text.toList ++ behind ∧
      Piece.opensTag (tag.readFrom source) = true ∧
      tagLength (tag.readFrom source) = .ok tag.text.toList.length := by
  obtain ⟨skipped, length, c, rest, hdrop, hfront, rfl⟩ := TagReader.exists_of_mem_items h
  obtain ⟨hopens, hlength⟩ := Piece.front_eq_tag hfront
  have hfrom : readFrom source (((TagReader.ofString source).advance skipped).tagOfLength length) =
      c :: rest := by
    show Text.dropBytes (0 + Text.byteSize (source.toList.take skipped)) source.toList = c :: rest
    rw [Nat.zero_add, Text.dropBytes_byteSize_take]
    exact hdrop
  have htext : (((TagReader.ofString source).advance skipped).tagOfLength length).text.toList =
      (c :: rest).take length := by
    rw [← hdrop]
    exact String.toList_ofList
  rw [hfrom, htext, List.length_take_of_le (Nesting.tagLength_le hlength)]
  exact ⟨(c :: rest).drop length, (List.take_append_drop ..).symm, hopens, hlength⟩

end Tag

end TagLint
