import TagLint.Proofs.Markup.Layout

/-!
# The course of a source

A layout says which items a source has. Its course says also which comments stand between them, and
where: all that a reader stops at, in the order of the source.

- `Course`: pieces of a source in turn, and the landmarks among them.
- `course_iff`: a source has one course, with the landmarks that a reader finds.
- `Landmark.place?`, `Course.inOrder`: comments and tags are apart and in order.
-/

namespace TagLint

/-- What a text at an offset of the source consists of, and the landmarks among it. -/
inductive Course (lines : Lines) : Nat → List Char → List Landmark → Prop
  | finished (offset : Nat) : Course lines offset [] []
  /-- An escape or a character that opens nothing is passed over. -/
  | skip {offset : Nat} {piece behind : List Char} {marks : List Landmark} :
    Passed piece behind → (∀ kind : CommentKind, ¬ kind.opener <+: piece ++ behind) →
    Course lines (offset + Text.byteSize piece) behind marks →
    Course lines offset (piece ++ behind) marks
  /-- A comment goes from its opener through the first closer. -/
  | comment {offset stop : Nat} {kind : CommentKind} {body behind : List Char}
    {marks : List Landmark} : ¬ kind.closer <:+: body →
    stop = offset + Text.byteSize (kind.opener ++ (body ++ kind.closer)) →
    Course lines stop behind marks →
    Course lines offset (kind.opener ++ (body ++ kind.closer) ++ behind)
      (.comment offset stop :: marks)
  /-- A tag goes from its `<` through its `>`. -/
  | tag {offset stop : Nat} {text behind : List Char} {marks : List Landmark} :
    Piece.opensTag (text ++ behind) = true → tagLength (text ++ behind) = .ok text.length →
    stop = offset + Text.byteSize text → Course lines stop behind marks →
    Course lines offset (text ++ behind)
      (.tag ⟨String.ofList text, String.ofList (Tag.nameOf text), lines.span offset stop⟩ :: marks)
  /-- A comment that is left open is the last landmark. -/
  | openComment {offset : Nat} {kind : CommentKind} {body : List Char} :
    ¬ kind.closer <:+: body →
    Course lines offset (kind.opener ++ body)
      [.fault ⟨(Unclosed.comment kind).message, offset, lines.locate offset⟩]
  /-- So is a tag that is left open. What is open in it innermost is to blame. -/
  | openTag {offset blamed : Nat} {rest : List Char} {nest : Nesting} :
    Piece.opensTag rest = true → tagLength rest = .error nest →
    blamed = offset + Text.byteSize (rest.take nest.opened) →
    Course lines offset rest
      [.fault ⟨(Unclosed.ofNesting (String.ofList (Tag.nameOf rest)) (lines.locate offset)
        nest).message, blamed, lines.locate blamed⟩]

/-- Where a tag opens, no opener of a comment stands. -/
theorem Piece.not_opener_of_opensTag {text : List Char} (h : opensTag text = true)
    (kind : CommentKind) : ¬ kind.opener <+: text := by
  rintro ⟨rest, rfl⟩
  cases kind with
  | markup => cases h
  | script => cases h

namespace TagReader

variable {r : TagReader} {lines : Lines} {offset : Nat} {text : List Char} {c : Char}
  {rest : List Char} {marks : List Landmark}

theorem landmarks_nil (h : r.rest = []) : r.landmarks = [] :=
  landmarks_of_none (landmark?_nil h)

/-- Behind a fault there is no landmark. -/
theorem landmarks_fault {cause : Fault} (h : r.landmark? = some (.fault cause, r.finish)) :
    r.landmarks = [.fault cause] := by
  rw [landmarks_of_some h, landmarks_nil rfl]

/-- What is passed over has no landmark. -/
theorem landmarks_passed {piece behind : List Char} (hpassed : Passed piece behind)
    (hopener : ∀ kind : CommentKind, ¬ kind.opener <+: piece ++ behind) :
    (⟨lines, offset, piece ++ behind⟩ : TagReader).landmarks =
      (⟨lines, offset + Text.byteSize piece, behind⟩ : TagReader).landmarks := by
  refine landmarks_congr ?_
  rw [← advance_append]
  cases hpassed with
  | escape c behind =>
    rw [@landmark?_cons _ '\\' (c :: behind) rfl]
    rfl
  | lastEscape =>
    rw [@landmark?_cons _ '\\' [] rfl]
    rfl
  | @comment kind body _ _ =>
    rw [List.append_assoc] at hopener
    exact absurd (List.prefix_append ..) (hopener kind)
  | @plain c _ hslash hnone hopens =>
    rw [@landmark?_cons _ c behind rfl, Piece.front_of_not_opens hslash hnone hopens]
    rfl

theorem landmarks_comment {kind : CommentKind} {body : List Char} (h : ¬ kind.closer <:+: body)
    (behind : List Char) :
    (⟨lines, offset, kind.opener ++ (body ++ kind.closer) ++ behind⟩ : TagReader).landmarks =
      .comment offset (offset + Text.byteSize (kind.opener ++ (body ++ kind.closer))) ::
        (⟨lines, offset + Text.byteSize (kind.opener ++ (body ++ kind.closer)), behind⟩ :
          TagReader).landmarks := by
  obtain ⟨c, rest, hcons⟩ : ∃ c rest,
      c :: rest = kind.opener ++ (body ++ kind.closer) ++ behind := by
    cases kind <;> exact ⟨_, _, rfl⟩
  have htext : c :: rest = kind.opener ++ (body ++ (kind.closer ++ behind)) := by
    rw [hcons, List.append_assoc, List.append_assoc]
  have hnext := landmark?_cons
    (r := ⟨lines, offset, kind.opener ++ (body ++ kind.closer) ++ behind⟩) hcons.symm
  rw [Piece.front_of_comment h behind htext] at hnext
  rw [landmarks_of_some hnext, advance_append]

theorem landmarks_tag {front behind : List Char} (hopens : Piece.opensTag (front ++ behind) = true)
    (hlength : tagLength (front ++ behind) = .ok front.length) :
    (⟨lines, offset, front ++ behind⟩ : TagReader).landmarks =
      .tag ⟨String.ofList front, String.ofList (Tag.nameOf front),
        lines.span offset (offset + Text.byteSize front)⟩ ::
        (⟨lines, offset + Text.byteSize front, behind⟩ : TagReader).landmarks := by
  obtain ⟨rest, hcons⟩ := Piece.exists_cons_of_opensTag hopens
  have hfront : Piece.front '<' rest = .tag front.length := by
    rw [hcons] at hopens hlength
    rw [Piece.front_of_opensTag (Piece.not_opener_of_opensTag hopens) hopens]
    exact Piece.ofTag_eq_tag.2 hlength
  have hnext := landmark?_cons (r := ⟨lines, offset, front ++ behind⟩) hcons
  rw [hfront] at hnext
  rw [landmarks_of_some hnext, advance_append, tagOfLength, List.take_left]

theorem landmarks_openComment {kind : CommentKind} {body : List Char}
    (h : ¬ kind.closer <:+: body) :
    (⟨lines, offset, kind.opener ++ body⟩ : TagReader).landmarks =
      [.fault ⟨(Unclosed.comment kind).message, offset, lines.locate offset⟩] := by
  obtain ⟨c, rest, hcons⟩ : ∃ c rest, c :: rest = kind.opener ++ body := by
    cases kind <;> exact ⟨_, _, rfl⟩
  have hlength : kind.length? (c :: rest) = none := by
    have hne : kind.closer ≠ [] := by cases kind <;> exact List.cons_ne_nil _ _
    rw [CommentKind.length?, hcons, List.drop_left, (Text.through?_eq_none_iff hne).2 h,
      Option.map_none]
  have hnext := landmark?_cons (r := ⟨lines, offset, kind.opener ++ body⟩) hcons.symm
  rw [Piece.front_of_opener (hcons ▸ List.prefix_append ..), Piece.ofComment, hlength] at hnext
  exact landmarks_fault hnext

theorem landmarks_openTag {nest : Nesting} (hopens : Piece.opensTag text = true)
    (hlength : tagLength text = .error nest) :
    (⟨lines, offset, text⟩ : TagReader).landmarks =
      [.fault ((⟨lines, offset, text⟩ : TagReader).faultAt
        ((⟨lines, offset, text⟩ : TagReader).unclosedTag nest) nest.opened)] := by
  obtain ⟨rest, rfl⟩ := Piece.exists_cons_of_opensTag hopens
  have hnext := landmark?_cons (r := ⟨lines, offset, '<' :: rest⟩) rfl
  rw [Piece.front_of_opensTag (Piece.not_opener_of_opensTag hopens) hopens, Piece.ofTag,
    hlength] at hnext
  exact landmarks_fault hnext

end TagReader

/-! ### The course of a reader -/

variable {lines : Lines} {offset : Nat} {text : List Char} {marks : List Landmark}

/-- The landmarks of a course are those that a reader finds. -/
theorem Course.eq_landmarks (h : Course lines offset text marks) :
    marks = (⟨lines, offset, text⟩ : TagReader).landmarks := by
  induction h with
  | finished offset => exact (TagReader.landmarks_nil rfl).symm
  | skip hpassed hopener _ ih => rw [TagReader.landmarks_passed hpassed hopener, ih]
  | comment hbody hstop _ ih =>
    subst hstop
    rw [TagReader.landmarks_comment hbody, ih]
  | tag hopens hlength hstop _ ih =>
    subst hstop
    rw [TagReader.landmarks_tag hopens hlength, ih]
  | openComment hbody => rw [TagReader.landmarks_openComment hbody]
  | openTag hopens hlength hblamed =>
    subst hblamed
    rw [TagReader.landmarks_openTag hopens hlength]
    rfl

/-- Every text has a course. -/
theorem exists_course (lines : Lines) (offset : Nat) (text : List Char) :
    ∃ marks, Course lines offset text marks := by
  induction hn : text.length using Nat.strongRecOn generalizing offset text with
  | ind n ih =>
    subst hn
    rcases text with _ | ⟨c, rest⟩
    · exact ⟨[], .finished offset⟩
    -- behind a piece that has characters the text goes on in its course
    have hmore {piece behind : List Char} (hne : piece ≠ [])
        (htext : c :: rest = piece ++ behind) (stop : Nat) :
        ∃ marks, Course lines stop behind marks := by
      refine ih behind.length ?_ stop behind rfl
      have hpos := List.length_pos_iff.2 hne
      rw [htext, List.length_append]
      omega
    rcases Piece.front_cases c rest with ⟨rfl, hfront⟩ | ⟨kind, hopener, hfront⟩ |
      ⟨hnone, hopens, hfront⟩ | ⟨hslash, hnone, hopens, hfront⟩
    · have hnone (kind : CommentKind) (behind : List Char) : ¬ kind.opener <+: '\\' :: behind := by
        rintro ⟨more, hmore⟩
        cases kind <;> cases hmore
      cases rest with
      | nil => exact ⟨[], .skip .lastEscape (hnone · _) (.finished _)⟩
      | cons d rest =>
        obtain ⟨marks, hmarks⟩ :=
          hmore (List.cons_ne_nil '\\' [d]) rfl (offset + Text.byteSize ['\\', d])
        exact ⟨marks, .skip (.escape d rest) (hnone · _) hmarks⟩
    · have hcomment := CommentKind.exists_of_length? hopener
      rcases hlength : kind.length? (c :: rest) with _ | length
      · rw [hlength] at hcomment
        obtain ⟨body, htext, hbody⟩ := hcomment
        rw [htext]
        exact ⟨_, .openComment hbody⟩
      · rw [hlength] at hcomment
        obtain ⟨body, behind, htext, hbody, -⟩ := hcomment
        have hne : kind.opener ++ (body ++ kind.closer) ≠ [] := by
          cases kind <;> exact List.cons_ne_nil _ _
        obtain ⟨marks, hmarks⟩ := hmore hne htext
          (offset + Text.byteSize (kind.opener ++ (body ++ kind.closer)))
        rw [htext]
        exact ⟨_, .comment hbody rfl hmarks⟩
    · rcases hlength : tagLength (c :: rest) with nest | length
      · exact ⟨_, .openTag hopens hlength rfl⟩
      · obtain ⟨front, behind, htext, rfl⟩ : ∃ front behind, c :: rest = front ++ behind ∧
            length = front.length :=
          ⟨_, _, (List.take_append_drop length (c :: rest)).symm,
            (List.length_take_of_le (Nesting.tagLength_le hlength)).symm⟩
        have hne : front ≠ [] := List.length_pos_iff.1 (tagLength_pos hlength)
        obtain ⟨marks, hmarks⟩ := hmore hne htext (offset + Text.byteSize front)
        rw [htext] at hopens hlength ⊢
        exact ⟨_, .tag hopens hlength rfl hmarks⟩
    · obtain ⟨marks, hmarks⟩ := hmore (List.cons_ne_nil c []) rfl (offset + Text.byteSize [c])
      exact ⟨marks, .skip (.plain hslash hnone hopens) hnone hmarks⟩

/-- **A text has one course, which is that of its reader.** -/
theorem course_iff : Course lines offset text marks ↔
    marks = (⟨lines, offset, text⟩ : TagReader).landmarks := by
  constructor
  · exact Course.eq_landmarks
  · rintro rfl
    obtain ⟨marks, hcourse⟩ := exists_course lines offset text
    rwa [← hcourse.eq_landmarks]

/-! ### The order of a course -/

/-- Where a comment or a tag begins and ends. -/
def Landmark.place? : Landmark → Option (Nat × Nat)
  | comment start stop => some (start, stop)
  | tag found => some (found.span.start, found.span.stop)
  | fault _ => none

/-- Places behind an offset, each of which ends before the next one begins. -/
structure InOrder (offset : Nat) (places : List (Nat × Nat)) : Prop where
  behind : ∀ place ∈ places, offset ≤ place.1 ∧ place.1 < place.2
  apart : places.Pairwise fun first second => first.2 ≤ second.1

theorem InOrder.mono {stop : Nat} {places : List (Nat × Nat)} (h : InOrder stop places)
    (hle : offset ≤ stop) : InOrder offset places :=
  ⟨fun place hplace => ⟨Nat.le_trans hle (h.behind place hplace).1, (h.behind place hplace).2⟩,
    h.apart⟩

theorem InOrder.cons {stop : Nat} {places : List (Nat × Nat)} (h : InOrder stop places)
    (hlt : offset < stop) : InOrder offset ((offset, stop) :: places) := by
  constructor
  case behind =>
    intro place hplace
    rcases List.mem_cons.1 hplace with rfl | hplace
    · exact ⟨Nat.le_refl offset, hlt⟩
    · exact (h.mono (Nat.le_of_lt hlt)).behind place hplace
  case apart => exact .cons (fun place hplace => (h.behind place hplace).1) h.apart

/-- The comments and tags of a course are behind its offset, apart and in order. -/
theorem Course.inOrder (h : Course lines offset text marks) :
    InOrder offset (marks.filterMap Landmark.place?) := by
  have hlt {piece : List Char} (hne : piece ≠ []) (offset : Nat) :
      offset < offset + Text.byteSize piece :=
    Nat.lt_add_of_pos_right (Text.byteSize_pos hne)
  induction h with
  | finished => exact ⟨nofun, .nil⟩
  | skip _ _ _ ih => exact ih.mono (Nat.le_add_right ..)
  | @comment offset stop kind body behind marks _ hstop _ ih =>
    subst hstop
    exact ih.cons (hlt (by cases kind <;> exact List.cons_ne_nil _ _) offset)
  | tag hopens hlength hstop _ ih =>
    subst hstop
    exact ih.cons (hlt (List.length_pos_iff.1 (tagLength_pos hlength)) _)
  | openComment => exact ⟨nofun, .nil⟩
  | openTag => exact ⟨nofun, .nil⟩

end TagLint
