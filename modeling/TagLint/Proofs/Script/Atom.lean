import TagLint.Proofs.Text.Extent
import TagLint.Script.Atom

/-!
# The extent of an atom

A literal reaches to the first quote of its kind that no backslash takes along, and what is
between the two quotes is a text of escape pairs and ordinary characters
(`literalTail?_eq_some_iff`). Where an atom ends is decided by what stands before its end: a cut
at or behind the end leaves the atom as it is (`atomTail_take`).
-/

namespace TagLint.Script

/-! ### Literals -/

/-- A character that stands for itself in a literal. A newline does so in a template only. -/
def IsLiteralChar (quote c : Char) : Prop :=
  c ≠ quote ∧ (c = '\n' → quote = templateQuote)

/-- The three quotes are neither a backslash nor a newline. -/
theorem ne_of_isQuote {quote : Char} (h : isQuote quote = true) : quote ≠ '\\' ∧ quote ≠ '\n' := by
  simp only [isQuote, Bool.or_eq_true, decide_eq_true_eq] at h
  rcases h with (rfl | rfl) | rfl <;> decide

theorem literalTail?_go_pair (quote c : Char) (taken : Nat) (rest : List Char) :
    literalTail?.go quote taken ('\\' :: c :: rest) = literalTail?.go quote (taken + 2) rest := by
  rw [literalTail?.go.eq_def]
  rfl

theorem literalTail?_go_single {c : Char} (hc : c ≠ '\\') (quote : Char) (taken : Nat)
    (rest : List Char) :
    literalTail?.go quote taken (c :: rest) =
      if c = '\n' && quote != templateQuote then none
      else if c = quote then some (taken + 1)
      else literalTail?.go quote (taken + 1) rest := by
  rw [literalTail?.go.eq_def]
  simp only [if_neg hc]

theorem literalTail?_go_of_escaped {quote : Char} (hq : isQuote quote = true) {body : List Char}
    (h : Text.Escaped (IsLiteralChar quote) body) (behind : List Char) (taken : Nat) :
    literalTail?.go quote taken (body ++ quote :: behind) = some (taken + body.length + 1) := by
  obtain ⟨hslash, hnewline⟩ := ne_of_isQuote hq
  induction h generalizing taken with
  | nil =>
    rw [List.nil_append, literalTail?_go_single hslash]
    simp [hnewline]
  | pair c _ ih =>
    rw [List.cons_append, List.cons_append, literalTail?_go_pair, ih, List.length_cons,
      List.length_cons]
    congr 1
    omega
  | @single c rest hc hplain _ ih =>
    have hline : (decide (c = '\n') && quote != templateQuote) = false := by
      by_cases hn : c = '\n'
      · simp [hplain.2 hn]
      · simp [hn]
    rw [List.cons_append, literalTail?_go_single hc, if_neg (by simp [hline]),
      if_neg hplain.1, ih, List.length_cons]
    congr 1
    omega

theorem exists_of_literalTail?_go {quote : Char} {taken n : Nat} {text : List Char}
    (h : literalTail?.go quote taken text = some n) :
    ∃ body behind, text = body ++ quote :: behind ∧
      Text.Escaped (IsLiteralChar quote) body ∧ n = taken + body.length + 1 := by
  fun_induction literalTail?.go quote taken text with
  | case1 => cases h
  | case2 => cases h
  | case3 taken c rest ih =>
    obtain ⟨body, behind, rfl, hbody, rfl⟩ := ih h
    refine ⟨'\\' :: c :: body, behind, rfl, .pair c hbody, ?_⟩
    simp only [List.length_cons]
    omega
  | case4 => cases h
  | case5 taken rest hslash hline =>
    cases h
    exact ⟨[], rest, rfl, .nil, rfl⟩
  | case6 taken c rest hslash hline hquote ih =>
    obtain ⟨body, behind, rfl, hbody, rfl⟩ := ih h
    refine ⟨c :: body, behind, rfl, .single hslash ⟨hquote, fun hn => ?_⟩ hbody, ?_⟩
    · simpa [hn] using hline
    · simp only [List.length_cons]
      omega

/-- A literal is closed exactly if escape pairs and characters that stand for themselves lead to
a quote of its kind. -/
theorem literalTail?_eq_some_iff {quote : Char} (hq : isQuote quote = true) {text : List Char}
    {n : Nat} :
    literalTail? quote text = some n ↔
      ∃ body behind, text = body ++ quote :: behind ∧
        Text.Escaped (IsLiteralChar quote) body ∧ n = body.length + 1 := by
  constructor
  · intro h
    simpa using exists_of_literalTail?_go h
  · rintro ⟨body, behind, rfl, hbody, rfl⟩
    rw [literalTail?, literalTail?_go_of_escaped hq hbody, Nat.zero_add]

/-- A cut leaves a literal closed if it is at or behind the closing quote, and closes none. -/
theorem literalTail?_take {quote : Char} (hq : isQuote quote = true) {text : List Char}
    {k n : Nat} :
    literalTail? quote (text.take k) = some n ↔ literalTail? quote text = some n ∧ n ≤ k := by
  rw [literalTail?_eq_some_iff hq, literalTail?_eq_some_iff hq]
  -- the body in front of the quote is the same on both sides
  constructor
  · rintro ⟨body, behind, htext, hbody, rfl⟩
    refine ⟨⟨body, behind ++ text.drop k, ?_, hbody, rfl⟩, ?_⟩
    · calc
        text = text.take k ++ text.drop k := (List.take_append_drop k text).symm
        _ = body ++ quote :: (behind ++ text.drop k) := by
          rw [htext, List.append_assoc, List.cons_append]
    · have hlen := congrArg List.length htext
      simp only [List.length_take, List.length_append, List.length_cons] at hlen
      omega
  · rintro ⟨⟨body, behind, rfl, hbody, rfl⟩, hk⟩
    refine ⟨body, behind.take (k - body.length - 1), ?_, hbody, rfl⟩
    rw [List.take_append, List.take_of_length_le (by omega)]
    congr 1
    obtain ⟨m, hm⟩ : ∃ m, k - body.length = m + 1 := ⟨k - body.length - 1, by omega⟩
    rw [hm, List.take_succ_cons, Nat.add_sub_cancel]

/-! ### Comments -/

/-- Behind the slash of a comment stands another one, or an asterisk. -/
theorem commentTail?_of_head? {text : List Char} (hline : text.head? ≠ some '/')
    (hblock : text.head? ≠ some '*') : commentTail? text = none := by
  unfold commentTail?
  split
  · exact absurd rfl hline
  · exact absurd rfl hblock
  · rfl

theorem commentTail?_of_ne {c : Char} (hline : c ≠ '/') (hblock : c ≠ '*') (rest : List Char) :
    commentTail? (c :: rest) = none :=
  commentTail?_of_head? (by simpa using hline) (by simpa using hblock)

theorem commentTail?_le {text : List Char} {n : Nat} (h : commentTail? text = some n) :
    n ≤ text.length := by
  unfold commentTail? at h
  split at h
  · next rest =>
    cases h
    have : rest.takeWhile (· != '\n') <+: rest := List.takeWhile_prefix _
    have := this.length_le
    rw [List.length_cons]
    omega
  · next rest =>
    obtain ⟨m, hm, rfl⟩ := Option.map_eq_some_iff.1 h
    obtain ⟨i, rfl, hi, -⟩ := (Text.through?_eq_some_iff (by simp)).1 hm
    have := hi.length_le
    simp only [List.length_drop, List.length_cons, List.length_nil] at this ⊢
    omega
  · cases h

/-- A cut at or behind the end of a comment leaves it as it is. That holds of a line comment too,
which the cut then ends in the newline's place. -/
theorem commentTail?_take {text : List Char} {k n : Nat} (h : commentTail? text = some n)
    (hk : n ≤ k) : commentTail? (text.take k) = some n := by
  unfold commentTail? at h
  split at h
  · next rest =>
    cases h
    obtain ⟨m, rfl⟩ : ∃ m, k = m + 1 := ⟨k - 1, by omega⟩
    have hle : (rest.takeWhile (· != '\n')).length ≤ m := by omega
    rw [List.take_succ_cons, commentTail?, Text.takeWhile_take hle]
  · next rest =>
    obtain ⟨m, hm, rfl⟩ := Option.map_eq_some_iff.1 h
    obtain ⟨j, rfl⟩ : ∃ j, k = j + 1 := ⟨k - 1, by omega⟩
    have hcut := (Text.through?_take (by simp) (k := j)).2 ⟨hm, by omega⟩
    rw [List.take_succ_cons, commentTail?, hcut, Option.map_some]
  · cases h

/-- No cut closes a comment that the whole text leaves open. -/
theorem commentTail?_take_eq_none {text : List Char} (h : commentTail? text = none) (k : Nat) :
    commentTail? (text.take k) = none := by
  unfold commentTail? at h
  split at h
  · cases h
  · next rest =>
    rw [Option.map_eq_none_iff] at h
    cases k with
    | zero => rfl
    | succ k =>
      rw [List.take_succ_cons, commentTail?, Option.map_eq_none_iff]
      rcases hcut : Text.through? ['*', '/'] (rest.take k) with _ | n
      · rfl
      · rw [((Text.through?_take (by simp)).1 hcut).1] at h
        cases h
  · next hline hblock =>
    cases k with
    | zero => rfl
    | succ k =>
      cases text with
      | nil => rfl
      | cons c rest =>
        rw [List.take_succ_cons]
        refine commentTail?_of_ne ?_ ?_ _
        · rintro rfl
          exact hline rest rfl
        · rintro rfl
          exact hblock rest rfl

/-! ### Atoms -/

/-- An atom is within the text. -/
theorem atomTail_le (c : Char) (rest : List Char) : atomTail c rest ≤ rest.length := by
  unfold atomTail
  split
  · rcases h : commentTail? rest with _ | n
    · exact Nat.zero_le _
    · exact commentTail?_le h
  · split
    · next hq =>
      rcases h : literalTail? c rest with _ | n
      · exact Nat.zero_le _
      · obtain ⟨body, behind, rfl, -, rfl⟩ := (literalTail?_eq_some_iff hq).1 h
        simp only [Option.getD_some, List.length_append, List.length_cons]
        omega
    · exact Nat.zero_le _

/-- Where an atom ends does not depend on what stands behind its end. -/
theorem atomTail_take {c : Char} {rest : List Char} {k : Nat} (h : atomTail c rest ≤ k) :
    atomTail c (rest.take k) = atomTail c rest := by
  unfold atomTail at h ⊢
  by_cases hc : c = '/'
  · rw [if_pos hc] at h
    rw [if_pos hc, if_pos hc]
    rcases hcomment : commentTail? rest with _ | n
    · rw [commentTail?_take_eq_none hcomment]
    · rw [hcomment] at h
      rw [commentTail?_take hcomment h]
  · rw [if_neg hc] at h
    rw [if_neg hc, if_neg hc]
    by_cases hq : isQuote c = true
    · rw [if_pos hq] at h
      rw [if_pos hq, if_pos hq]
      rcases hliteral : literalTail? c rest with _ | n
      · rcases hcut : literalTail? c (rest.take k) with _ | n
        · rfl
        · rw [((literalTail?_take hq).1 hcut).1] at hliteral
          cases hliteral
      · rw [hliteral] at h
        rw [(literalTail?_take hq).2 ⟨hliteral, h⟩]
    · rw [if_neg hq, if_neg hq]

end TagLint.Script
