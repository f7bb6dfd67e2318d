import TagLint.Proofs.Markup.Piece
import TagLint.Proofs.Tag.Nesting

/-!
# What a cut does to a piece

A reader looks ahead through the whole text for the end of what stands in front. A cut behind that
end leaves the answer as it is: `tagLength_take` for tags, `CommentKind.length?_take` for comments,
`Piece.front_take` for whatever may stand in front.
-/

namespace TagLint

/-! ### Tags -/

namespace Nesting

/-- What a step reads is all that has a say in it. -/
theorem step_take {nest next : Nesting} {place tail k : Nat} {c : Char} {rest : List Char}
    (h : nest.step place c rest = .read next tail) (hk : tail ≤ k) :
    nest.step place c (rest.take k) = .read next tail := by
  cases nest with
  | tag => exact h
  | quoted quote opened => exact h
  | braced opened outer =>
    rcases step_braced_cases h with ⟨rfl, -, -⟩ | ⟨rfl, -, -⟩ | ⟨hopen, hclose, rfl, rfl⟩
    · exact h
    · exact h
    · rw [step, if_neg hopen, if_neg hclose, Script.atomTail_take hk]

/-- A cut at or behind the end of a tag leaves the end where it is. -/
theorem finish_take {nest : Nesting} {place stop k : Nat} {text : List Char}
    (h : nest.finish place text = .ok stop) (hk : stop ≤ place + k) :
    nest.finish place (text.take k) = .ok stop := by
  fun_induction finish nest place text generalizing k with
  | case1 => cases h
  | case2 nest place c rest hstep =>
    cases h
    obtain ⟨m, rfl⟩ : ∃ m, k = m + 1 := ⟨k - 1, by omega⟩
    rw [List.take_succ_cons, finish, step_eq_finish_iff.2 (step_eq_finish_iff.1 hstep)]
  | case3 nest place c rest next tail hstep ih =>
    have hlt := lt_of_finish h
    obtain ⟨m, rfl⟩ : ∃ m, k = m + 1 := ⟨k - 1, by omega⟩
    have hcut : nest.step place c (rest.take m) = .read next tail := step_take hstep (by omega)
    rw [List.take_succ_cons, finish, hcut]
    show next.finish (place + 1 + tail) ((rest.take m).drop tail) = .ok stop
    rw [List.drop_take]
    exact ih h (by omega)

end Nesting

theorem tagLength_take {text : List Char} {length k : Nat} (h : tagLength text = .ok length)
    (hk : length ≤ k) : tagLength (text.take k) = .ok length := by
  have hpos := tagLength_pos h
  rw [tagLength, List.drop_take]
  exact Nesting.finish_take h (by omega)

/-! ### Comments -/

/-- The length of a comment, and that it is closed, are those of the comment in the cut text if
the cut is at or behind its end. -/
theorem CommentKind.length?_take {kind : CommentKind} {text : List Char} {length k : Nat} :
    kind.length? (text.take k) = some length ↔ kind.length? text = some length ∧ length ≤ k := by
  have hne : kind.closer ≠ [] := by cases kind <;> exact List.cons_ne_nil _ _
  have hcloser : 0 < kind.closer.length := List.length_pos_iff.2 hne
  rw [length?, length?, List.drop_take, Option.map_eq_some_iff, Option.map_eq_some_iff]
  constructor
  · rintro ⟨n, hn, rfl⟩
    obtain ⟨hwhole, hle⟩ := (Text.through?_take hne).1 hn
    obtain ⟨i, hi, -⟩ := (Text.through?_eq_some_iff hne).1 hwhole
    exact ⟨⟨n, hwhole, rfl⟩, by omega⟩
  · rintro ⟨⟨n, hn, rfl⟩, hle⟩
    exact ⟨n, (Text.through?_take hne).2 ⟨hn, by omega⟩, rfl⟩

/-- A closed comment is longer than its opener. -/
theorem CommentKind.opener_lt_length? {kind : CommentKind} {text : List Char} {length : Nat}
    (h : kind.length? text = some length) : kind.opener.length < length := by
  obtain ⟨n, hn, rfl⟩ := Option.map_eq_some_iff.1 h
  have hne : kind.closer ≠ [] := by cases kind <;> exact List.cons_ne_nil _ _
  obtain ⟨i, rfl, -⟩ := (Text.through?_eq_some_iff hne).1 hn
  have := List.length_pos_iff.2 hne
  omega

/-! ### Pieces -/

namespace Piece

/-- The characters of a piece that is closed. -/
def length? : Piece → Option Nat
  | escape => some 2
  | plain => some 1
  | comment length => some length
  | tag length => some length
  | openComment _ => none
  | openTag _ => none

theorem length_pos {c : Char} {rest : List Char} {n : Nat} (h : (front c rest).length? = some n) :
    0 < n := by
  rcases hfront : front c rest with _ | _ | length | length | kind | nest
  · rw [hfront] at h
    cases h
    exact Nat.two_pos
  · rw [hfront] at h
    cases h
    exact Nat.one_pos
  · rw [hfront] at h
    cases h
    exact length_pos_of_comment hfront
  · rw [hfront] at h
    cases h
    exact length_pos_of_tag hfront
  · rw [hfront] at h
    cases h
  · rw [hfront] at h
    cases h

/-- No cut opens a tag. -/
theorem opensTag_take_of_false {text : List Char} (h : opensTag text = false) (k : Nat) :
    opensTag (text.take k) = false := by
  rcases text with _ | ⟨c, _ | ⟨d, rest⟩⟩
  · rw [List.take_nil]
    exact h
  · cases k with
    | zero => rfl
    | succ k =>
      rw [List.take_succ_cons, List.take_nil]
      exact h
  · rcases k with _ | _ | k
    · rfl
    · rw [List.take_succ_cons, List.take_zero]
      unfold opensTag
      split
      · next heq => cases heq
      · rfl
    · rw [List.take_succ_cons, List.take_succ_cons, opensTag_cons_cons]
      rwa [opensTag_cons_cons] at h

theorem opensTag_take_of_true {text : List Char} {k : Nat} (h : opensTag text = true)
    (hk : 2 ≤ k) : opensTag (text.take k) = true := by
  obtain ⟨m, rfl⟩ := Nat.exists_eq_add_of_le' hk
  rcases text with _ | ⟨c, _ | ⟨d, rest⟩⟩
  · exact h
  · exact h
  · rw [List.take_succ_cons, List.take_succ_cons, opensTag_cons_cons]
    rwa [opensTag_cons_cons] at h

/-- **What stands in front is decided by its own characters.** A cut at or behind the end of a
closed piece leaves the piece as it is; so does one in an escape. -/
theorem front_take {c : Char} {rest : List Char} {n k : Nat}
    (h : (front c rest).length? = some n) (hk : min n (rest.length + 1) ≤ k + 1) :
    front c (rest.take k) = front c rest := by
  have htext : c :: rest.take k = (c :: rest).take (k + 1) := List.take_succ_cons.symm
  rcases front_cases c rest with ⟨rfl, -⟩ | ⟨kind, hopener, hfront⟩ | ⟨hopening, hopens, hfront⟩ |
    ⟨hslash, hopening, hopens, hfront⟩
  · rfl
  · -- a closed comment has its opener in front of the cut
    rcases hlength : kind.length? (c :: rest) with _ | length
    · rw [hfront, ofComment, hlength] at h
      cases h
    · rw [hfront, ofComment_eq_comment.2 hlength] at h
      obtain rfl : length = n := Option.some.inj h
      have hopenerLength := CommentKind.opener_lt_length? hlength
      have hcut : kind.length? (c :: rest.take k) = some length := by
        by_cases hlong : length ≤ k + 1
        · rw [htext]
          exact CommentKind.length?_take.2 ⟨hlength, hlong⟩
        · rw [List.take_of_length_le (by omega)]
          exact hlength
      have hkept : kind.opener <+: c :: rest.take k := by
        by_cases hlong : length ≤ k + 1
        · rw [htext]
          exact List.prefix_take_iff.2 ⟨hopener, by omega⟩
        · rw [List.take_of_length_le (by omega)]
          exact hopener
      rw [front_of_opener hkept, hfront, ofComment_eq_comment.2 hcut,
        ofComment_eq_comment.2 hlength]
  · rcases hlength : tagLength (c :: rest) with nest | length
    · rw [hfront, ofTag, hlength] at h
      cases h
    · rw [hfront, ofTag_eq_tag.2 hlength] at h
      obtain rfl : length = n := Option.some.inj h
      obtain ⟨i, hi, rfl, hclose⟩ := Nesting.getElem?_of_tagLength hlength
      have hin := (List.getElem?_eq_some_iff.1 hclose).1
      rw [List.length_cons] at hin
      have hcutOpening : ∀ kind : CommentKind, ¬ kind.opener <+: c :: rest.take k := by
        intro kind hopener
        rw [htext] at hopener
        exact hopening kind (hopener.trans (List.take_prefix _ _))
      have hcutOpens : opensTag (c :: rest.take k) = true := by
        rw [htext]
        exact opensTag_take_of_true hopens (by omega)
      have hcut : tagLength (c :: rest.take k) = .ok (i + 1) := by
        rw [htext]
        exact tagLength_take hlength (by omega)
      rw [front_of_opensTag hcutOpening hcutOpens, hfront, ofTag_eq_tag.2 hcut,
        ofTag_eq_tag.2 hlength]
  · rw [hfront]
    refine front_of_not_opens hslash (fun kind hopener => ?_) ?_
    · rw [htext] at hopener
      exact hopening kind (hopener.trans (List.take_prefix _ _))
    · rw [htext]
      exact opensTag_take_of_false hopens _

end Piece

end TagLint
