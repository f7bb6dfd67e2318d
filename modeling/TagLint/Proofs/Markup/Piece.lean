import TagLint.Markup.Piece
import TagLint.Proofs.Text.Extent

/-!
# What stands at the front of a text

`Piece.front` asks its questions in a fixed order. Here is what its answer says about the text
(`Piece.front_cases`), and what it answers to a text that begins with a plain character, a closed
comment or a tag that ends.
-/

namespace TagLint

namespace CommentKind

/-- A text opens with at most one kind of comment. -/
theorem opening?_eq_some_iff {text : List Char} {kind : CommentKind} :
    opening? text = some kind ↔ kind.opener <+: text := by
  rw [opening?]
  simp only [List.isPrefixOf_iff_prefix]
  by_cases hmarkup : markup.opener <+: text
  · rw [if_pos hmarkup]
    cases kind with
    | markup => exact iff_of_true rfl hmarkup
    | script =>
      refine iff_of_false nofun fun hscript => ?_
      -- the one opener begins with `<`, the other with `{`
      obtain ⟨_, rfl⟩ := hmarkup
      cases (List.cons_prefix_cons.1 hscript).1
  · rw [if_neg hmarkup]
    cases kind with
    | markup => exact iff_of_false (by split <;> exact nofun) hmarkup
    | script =>
      by_cases hscript : script.opener <+: text
      · rw [if_pos hscript]
        exact iff_of_true rfl hscript
      · rw [if_neg hscript]
        exact iff_of_false nofun hscript

theorem opening?_eq_none_iff {text : List Char} :
    opening? text = none ↔ ∀ kind : CommentKind, ¬ kind.opener <+: text := by
  rw [Option.eq_none_iff_forall_ne_some]
  simp only [ne_eq, opening?_eq_some_iff]

end CommentKind

namespace Piece

/-- Two characters decide whether a tag opens. -/
theorem opensTag_cons_cons (c d : Char) (rest : List Char) :
    opensTag (c :: d :: rest) = (decide (c = '<') && (d.isAlpha || decide (d = '/'))) := by
  by_cases hc : c = '<'
  · subst hc
    rfl
  · unfold opensTag
    split
    · next heq => exact absurd (List.cons.inj heq).1 hc
    · simp [hc]

theorem exists_cons_of_opensTag {text : List Char} (h : opensTag text = true) :
    ∃ rest, text = '<' :: rest := by
  unfold opensTag at h
  split at h
  · exact ⟨_, rfl⟩
  · cases h

/-! ### The questions in their order -/

/-- Which question decides, and what its answer is. -/
theorem front_cases (c : Char) (rest : List Char) :
    (c = '\\' ∧ front c rest = .escape) ∨
    (∃ kind : CommentKind, kind.opener <+: c :: rest ∧
      front c rest = ofComment kind (c :: rest)) ∨
    ((∀ kind : CommentKind, ¬ kind.opener <+: c :: rest) ∧ opensTag (c :: rest) = true ∧
      front c rest = ofTag (c :: rest)) ∨
    (c ≠ '\\' ∧ (∀ kind : CommentKind, ¬ kind.opener <+: c :: rest) ∧
      opensTag (c :: rest) = false ∧ front c rest = .plain) := by
  by_cases hslash : c = '\\'
  · exact .inl ⟨hslash, by rw [front, if_pos hslash]⟩
  rw [front, if_neg hslash]
  rcases hopening : CommentKind.opening? (c :: rest) with _ | kind
  · have hnone := CommentKind.opening?_eq_none_iff.1 hopening
    by_cases hopens : opensTag (c :: rest) = true
    · exact .inr (.inr (.inl ⟨hnone, hopens, if_pos hopens⟩))
    · exact .inr (.inr (.inr ⟨hslash, hnone, by simpa using hopens, if_neg hopens⟩))
  · exact .inr (.inl ⟨kind, CommentKind.opening?_eq_some_iff.1 hopening, rfl⟩)

theorem front_of_opener {kind : CommentKind} {c : Char} {rest : List Char}
    (h : kind.opener <+: c :: rest) : front c rest = ofComment kind (c :: rest) := by
  have hslash : c ≠ '\\' := by
    rintro rfl
    cases kind with
    | markup => cases (List.cons_prefix_cons.1 h).1
    | script => cases (List.cons_prefix_cons.1 h).1
  rw [front, if_neg hslash, CommentKind.opening?_eq_some_iff.2 h]

theorem front_of_opensTag {c : Char} {rest : List Char}
    (hopening : ∀ kind : CommentKind, ¬ kind.opener <+: c :: rest)
    (hopens : opensTag (c :: rest) = true) : front c rest = ofTag (c :: rest) := by
  have hslash : c ≠ '\\' := by
    rintro rfl
    cases hopens
  rw [front, if_neg hslash, CommentKind.opening?_eq_none_iff.2 hopening]
  exact if_pos hopens

theorem front_of_not_opens {c : Char} {rest : List Char} (hslash : c ≠ '\\')
    (hopening : ∀ kind : CommentKind, ¬ kind.opener <+: c :: rest)
    (hopens : opensTag (c :: rest) = false) : front c rest = .plain := by
  rw [front, if_neg hslash, CommentKind.opening?_eq_none_iff.2 hopening]
  exact if_neg (by rw [hopens]; exact Bool.false_ne_true)

/-- Only a backslash begins an escape. -/
theorem eq_slash_of_front {c : Char} {rest : List Char} (h : front c rest = .escape) :
    c = '\\' := by
  rcases front_cases c rest with ⟨hslash, -⟩ | ⟨kind, -, hfront⟩ | ⟨-, -, hfront⟩ |
    ⟨-, -, -, hfront⟩
  · exact hslash
  · rw [h, ofComment] at hfront
    split at hfront <;> cases hfront
  · rw [h, ofTag] at hfront
    split at hfront <;> cases hfront
  · cases h.symm.trans hfront

/-! ### What stands in front -/

theorem front_eq_tag {c : Char} {rest : List Char} {length : Nat}
    (h : front c rest = .tag length) :
    opensTag (c :: rest) = true ∧ tagLength (c :: rest) = .ok length := by
  unfold front at h
  split at h
  · cases h
  · split at h
    · unfold ofComment at h
      split at h <;> cases h
    · split at h
      · next hopens => exact ⟨hopens, ofTag_eq_tag.1 h⟩
      · cases h

theorem front_of_plain {c : Char} (h : c ∉ ['<', '{', '\\']) (rest : List Char) :
    front c rest = .plain := by
  simp only [List.mem_cons, List.not_mem_nil, or_false, not_or] at h
  obtain ⟨htag, hbrace, hslash⟩ := h
  have hopening : CommentKind.opening? (c :: rest) = none := by
    simp [CommentKind.opening?, CommentKind.opener, Ne.symm htag, Ne.symm hbrace]
  have hopens : opensTag (c :: rest) = false := by
    unfold opensTag
    split
    · next heq => exact absurd (List.cons.inj heq).1 htag
    · rfl
  rw [front, if_neg hslash, hopening]
  simp [hopens]

/-- A comment is read up to its closer. -/
theorem front_of_comment {kind : CommentKind} {body : List Char} (h : ¬ kind.closer <:+: body)
    (behind : List Char) {c : Char} {rest : List Char}
    (htext : c :: rest = kind.opener ++ (body ++ (kind.closer ++ behind))) :
    front c rest = .comment (kind.opener ++ (body ++ kind.closer)).length := by
  have hlength : kind.length? (c :: rest) =
      some (kind.opener ++ (body ++ kind.closer)).length := by
    have hclose : Text.through? kind.closer (body ++ (kind.closer ++ behind)) =
        some (body.length + kind.closer.length) := by
      cases kind with
      | markup => exact Text.through?_append_closer (by decide) (by decide) h behind
      | script => exact Text.through?_append_closer (by decide) (by decide) h behind
    rw [CommentKind.length?, htext, List.drop_left, hclose, Option.map_some, List.length_append,
      List.length_append]
  -- the opener is known character by character, so the questions answer themselves
  have hfront : front c rest = ofComment kind (c :: rest) := by
    cases kind with
    | markup => cases htext; rfl
    | script => cases htext; rfl
  rw [hfront, ofComment_eq_comment, hlength]

/-- A tag is read up to its end. -/
theorem front_of_tag {d : Char} {rest : List Char} {length : Nat}
    (hd : d.isAlpha = true ∨ d = '/') (h : tagLength ('<' :: d :: rest) = .ok length) :
    front '<' (d :: rest) = .tag length := by
  -- no comment opens here, for that would take a `!`
  have hbang : d ≠ '!' := by
    rintro rfl
    rcases hd with hd | hd <;> cases hd
  have hopening : CommentKind.opening? ('<' :: d :: rest) = none := by
    simp [CommentKind.opening?, CommentKind.opener, Ne.symm hbang]
  have hopens : opensTag ('<' :: d :: rest) = true := by
    simpa [opensTag] using hd
  rw [front, if_neg (by decide), hopening]
  simp only [hopens, if_true]
  exact ofTag_eq_tag.2 h

end Piece

end TagLint
