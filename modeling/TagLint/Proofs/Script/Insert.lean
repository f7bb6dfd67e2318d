import TagLint.Proofs.Script.Braced
import TagLint.Text.Class

/-!
# A foreign character behind a script

The readers of scripts look ahead: whether a quote or a slash opens an atom depends on what closes
it, however far behind. Here a character that belongs to nothing in a tag is put in front of a name
that stands somewhere behind a braced expression, and it is shown that nothing is decided otherwise.

- `IsForeign`: such a character. It may be a backslash, a star or a closing brace.
- `Text.Escaped.erase`: without the character, the text is one of escape pairs still. So the
  character closes no literal (`literalTail?_insert_eq_none`), and it closes no comment either
  (`commentTail?_insert_eq_none`).
- `bracedTail_insert`: a braced expression that ends in front of the name ends where it did.
-/

namespace TagLint

/-! ### Foreign characters -/

/-- A character that neither begins nor ends anything in a tag, and belongs to no name. -/
structure IsForeign (c : Char) : Prop where
  not_space : Text.isSpace c = false
  not_name : Text.isNameChar c = false
  not_quote : Script.isQuote c = false
  ne_close : c ≠ '>'
  ne_brace : c ≠ '{'
  ne_equals : c ≠ '='
  ne_slash : c ≠ '/'

/-- The characters of names open and close nothing in a script. -/
structure IsWordChar (d : Char) : Prop where
  not_quote : Script.isQuote d = false
  ne_backslash : d ≠ '\\'
  ne_newline : d ≠ '\n'
  ne_slash : d ≠ '/'
  ne_open : d ≠ '{'
  ne_close : d ≠ '}'

theorem isWordChar_of_isNameChar {d : Char} (h : Text.isNameChar d = true) : IsWordChar d := by
  constructor
  case not_quote =>
    rw [Bool.eq_false_iff]
    intro hquote
    simp only [Script.isQuote, Bool.or_eq_true, decide_eq_true_eq] at hquote
    rcases hquote with (rfl | rfl) | rfl <;> cases h
  all_goals
    rintro rfl
    cases h

theorem IsForeign.ne_quote {c quote : Char} (h : IsForeign c)
    (hquote : Script.isQuote quote = true) : c ≠ quote := by
  rintro rfl
  cases h.not_quote.symm.trans hquote

/-- Escape pairs and single characters remain such a text when a character in it, which may be a
backslash or be taken along by one, is taken away in front of a single one. -/
theorem Text.Escaped.erase {plain : Char → Prop} {front more : List Char} {c d : Char}
    (hd : d ≠ '\\') (hplain : plain d) (h : Escaped plain (front ++ c :: d :: more)) :
    Escaped plain (front ++ d :: more) := by
  generalize htext : front ++ c :: d :: more = text at h
  induction h generalizing front with
  | nil => cases (List.append_eq_nil_iff.1 htext).2
  | pair x hrest ih =>
    match front with
    | [] =>
      cases htext
      exact .single hd hplain hrest
    | [_] =>
      cases htext
      cases hrest with
      | pair => exact absurd rfl hd
      | single _ _ hmore => exact .pair d hmore
    | _ :: _ :: front =>
      cases htext
      exact .pair x (ih rfl)
  | single hx hxplain hrest ih =>
    match front with
    | [] =>
      cases htext
      exact hrest
    | _ :: front =>
      cases htext
      exact .single hx hxplain (ih rfl)

namespace Script

variable {c d quote opener : Char} {front rest : List Char}

/-! ### Literals -/

/-- A foreign character closes no literal. -/
theorem literalTail?_insert_eq_none (hc : IsForeign c) (hd : IsWordChar d)
    (hq : isQuote quote = true) (h : literalTail? quote (front ++ d :: rest) = none) :
    literalTail? quote (front ++ c :: d :: rest) = none := by
  have hplain : IsLiteralChar quote d := by
    refine ⟨?_, fun hline => absurd hline hd.ne_newline⟩
    rintro rfl
    cases hd.not_quote.symm.trans hq
  rw [Option.eq_none_iff_forall_ne_some] at h ⊢
  intro n hn
  obtain ⟨body, behind, htext, hbody, -⟩ := (literalTail?_eq_some_iff hq).1 hn
  -- the same quote would close the literal without the character
  have hclosed : ∃ body behind, front ++ d :: rest = body ++ quote :: behind ∧
      Text.Escaped (IsLiteralChar quote) body := by
    rcases List.append_eq_append_iff.1 htext with ⟨more, rfl, hmore⟩ | ⟨more, rfl, hmore⟩
    · rcases List.cons_eq_append_iff.1 hmore with ⟨-, heq⟩ | ⟨more, rfl, hrest⟩
      · exact absurd (List.cons.inj heq).1.symm (hc.ne_quote hq)
      rcases List.cons_eq_append_iff.1 hrest with ⟨-, heq⟩ | ⟨more, rfl, rfl⟩
      · exact absurd (List.cons.inj heq).1.symm hplain.1
      · refine ⟨front ++ d :: more, behind, ?_, hbody.erase hd.ne_backslash hplain⟩
        rw [List.append_assoc, List.cons_append]
    · rcases List.cons_eq_append_iff.1 hmore with ⟨-, heq⟩ | ⟨more, rfl, -⟩
      · exact absurd (List.cons.inj heq).1 (hc.ne_quote hq)
      · refine ⟨body, more ++ d :: rest, ?_, hbody⟩
        rw [List.append_assoc, List.cons_append]
  obtain ⟨body, behind, hbody⟩ := hclosed
  exact h _ ((literalTail?_eq_some_iff hq).2 ⟨body, behind, hbody.1, hbody.2, rfl⟩)

/-- A literal that ends in front of a place ends there whatever stands at the place. -/
theorem literalTail?_append (hq : isQuote quote = true) {n : Nat} (hn : n ≤ front.length)
    (h : literalTail? quote (front ++ rest) = some n) (behind : List Char) :
    literalTail? quote (front ++ behind) = some n := by
  have hfront := (literalTail?_take hq).2 ⟨h, hn⟩
  have hcut : literalTail? quote ((front ++ behind).take front.length) = some n := by
    rw [List.take_left] at hfront ⊢
    exact hfront
  exact ((literalTail?_take hq).1 hcut).1

/-! ### Comments -/

/-- Neither of two characters ends a closer of two, so without the first the closer is still in the
text. -/
theorem infix_of_insert {a b : Char} (hc : c ≠ b) (hd : d ≠ b)
    (h : [a, b] <:+: front ++ c :: d :: rest) : [a, b] <:+: front ++ d :: rest := by
  induction front with
  | nil =>
    rcases List.infix_cons_iff.1 h with hprefix | hinfix
    · obtain ⟨behind, htext⟩ := hprefix
      cases htext
      exact absurd rfl hd
    · exact hinfix
  | cons x front ih =>
    rcases List.infix_cons_iff.1 h with hprefix | hinfix
    · refine List.infix_cons_iff.2 (.inl ?_)
      obtain ⟨behind, htext⟩ := hprefix
      cases front with
      | nil =>
        cases htext
        exact absurd rfl hc
      | cons y front =>
        cases htext
        exact ⟨front ++ d :: rest, rfl⟩
    · exact List.infix_cons_iff.2 (.inr (ih hinfix))

/-- A foreign character closes no comment. -/
theorem commentTail?_insert_eq_none (hc : IsForeign c) (hd : IsWordChar d) (hne : front ≠ [])
    (h : commentTail? (front ++ d :: rest) = none) :
    commentTail? (front ++ c :: d :: rest) = none := by
  obtain ⟨x, front, rfl⟩ := List.exists_cons_of_ne_nil hne
  by_cases hline : x = '/'
  · subst hline
    cases h
  by_cases hblock : x = '*'
  · subst hblock
    rw [List.cons_append, commentTail?, Option.map_eq_none_iff,
      Text.through?_eq_none_iff (by simp)] at h ⊢
    exact fun hinfix => h (infix_of_insert hc.ne_slash hd.ne_slash hinfix)
  · exact commentTail?_of_ne hline hblock _

/-- A comment that ends in front of a character other than a newline ends there whatever stands in
the place of the character. -/
theorem commentTail?_append (hd : d ≠ '\n') {n : Nat} (hn : n ≤ front.length)
    (h : commentTail? (front ++ d :: rest) = some n) (behind : List Char) :
    commentTail? (front ++ behind) = some n := by
  unfold commentTail? at h
  split at h
  · next more heq =>
    obtain rfl := Option.some.inj h
    rcases List.append_eq_cons_iff.1 heq with ⟨rfl, -⟩ | ⟨front, rfl, rfl⟩
    · rw [List.length_nil] at hn
      omega
    -- the newline stands in front of the character
    have hshort : (front.takeWhile (· != '\n')).length ≠ front.length := by
      intro hwhole
      rw [List.takeWhile_append, if_pos hwhole, List.takeWhile_cons_of_pos (by simpa using hd),
        List.length_append, List.length_cons, List.length_cons] at hn
      omega
    rw [List.cons_append, commentTail?, List.takeWhile_append, if_neg hshort,
      List.takeWhile_append, if_neg hshort]
  · next more heq =>
    obtain ⟨m, hm, rfl⟩ := Option.map_eq_some_iff.1 h
    rcases List.append_eq_cons_iff.1 heq with ⟨rfl, -⟩ | ⟨front, rfl, rfl⟩
    · rw [List.length_nil] at hn
      omega
    rw [List.length_cons] at hn
    have hne : ['*', '/'] ≠ [] := List.cons_ne_nil _ _
    have hfront := (Text.through?_take hne (k := front.length)).2 ⟨hm, by omega⟩
    have hcut : Text.through? ['*', '/'] ((front ++ behind).take front.length) = some m := by
      rw [List.take_left] at hfront ⊢
      exact hfront
    rw [List.cons_append, commentTail?, ((Text.through?_take hne).1 hcut).1, Option.map_some]
  · cases h

/-! ### Atoms -/

/-- An atom that ends in front of a character of a name ends where it did. -/
theorem atomTail_insert (hc : IsForeign c) (hd : IsWordChar d) (hne : front ≠ [])
    (h : atomTail opener (front ++ d :: rest) ≤ front.length) :
    atomTail opener (front ++ c :: d :: rest) = atomTail opener (front ++ d :: rest) := by
  unfold atomTail at h ⊢
  by_cases hslash : opener = '/'
  · rw [if_pos hslash] at h ⊢
    rw [if_pos hslash]
    rcases hcomment : commentTail? (front ++ d :: rest) with _ | n
    · rw [commentTail?_insert_eq_none hc hd hne hcomment]
    · rw [hcomment] at h
      rw [commentTail?_append hd.ne_newline h hcomment, Option.getD_some]
  · rw [if_neg hslash] at h ⊢
    rw [if_neg hslash]
    by_cases hq : isQuote opener = true
    · rw [if_pos hq] at h ⊢
      rw [if_pos hq]
      rcases hliteral : literalTail? opener (front ++ d :: rest) with _ | n
      · rw [literalTail?_insert_eq_none hc hd hq hliteral]
      · rw [hliteral] at h
        rw [literalTail?_append hq h hliteral, Option.getD_some]
    · rw [if_neg hq, if_neg hq]

/-! ### Braced expressions -/

/-- No braced expression ends in front of a character of a name that it comes to. -/
theorem lt_bracedTail_go (hd : IsWordChar d) (outer taken : Nat) :
    taken < bracedTail.go outer taken (d :: rest) := by
  rw [bracedTail_go_atom hd.ne_open hd.ne_close]
  have := le_bracedTail_go outer (taken + 1 + atomTail d rest) (rest.drop (atomTail d rest))
  omega

/-- A braced expression that ends in front of a character of a name ends where it did. -/
theorem bracedTail_go_insert (hc : IsForeign c) (hd : IsWordChar d) {outer taken : Nat}
    (h : bracedTail.go outer taken (front ++ d :: rest) ≤ taken + front.length) :
    bracedTail.go outer taken (front ++ c :: d :: rest) =
      bracedTail.go outer taken (front ++ d :: rest) := by
  induction hn : front.length using Nat.strongRecOn generalizing outer taken front with
  | ind n ih =>
    subst hn
    rcases front with _ | ⟨x, front⟩
    · exact absurd h (Nat.not_le.2 (lt_bracedTail_go hd outer taken))
    rw [List.length_cons] at h ih
    by_cases hopen : x = '{'
    · subst hopen
      rw [List.cons_append, bracedTail_go_open] at h
      rw [List.cons_append, List.cons_append, bracedTail_go_open, bracedTail_go_open]
      exact ih front.length (Nat.lt_succ_self _) (by omega) rfl
    by_cases hclose : x = '}'
    · subst hclose
      rw [List.cons_append, List.cons_append]
      rcases outer with _ | outer
      · rw [bracedTail_go_close_zero, bracedTail_go_close_zero]
      · rw [List.cons_append, bracedTail_go_close_succ] at h
        rw [bracedTail_go_close_succ, bracedTail_go_close_succ]
        exact ih front.length (Nat.lt_succ_self _) (by omega) rfl
    · rw [List.cons_append, bracedTail_go_atom hopen hclose] at h
      rw [List.cons_append, List.cons_append, bracedTail_go_atom hopen hclose,
        bracedTail_go_atom hopen hclose]
      -- the atom ends in front of the character, and so does what is behind the atom
      have hle := le_bracedTail_go outer (taken + 1 + atomTail x (front ++ d :: rest))
        ((front ++ d :: rest).drop (atomTail x (front ++ d :: rest)))
      have htail : atomTail x (front ++ d :: rest) ≤ front.length := by omega
      have hdrop (behind : List Char) : (front ++ behind).drop (atomTail x (front ++ d :: rest)) =
          front.drop (atomTail x (front ++ d :: rest)) ++ behind :=
        List.drop_append_of_le_length htail
      have hne : front ≠ [] := by
        rintro rfl
        rw [Nat.le_zero.1 htail] at h
        exact absurd h (Nat.not_le.2 (lt_bracedTail_go hd outer (taken + 1)))
      rw [hdrop] at h
      rw [atomTail_insert hc hd hne htail, hdrop, hdrop]
      refine ih _ ?_ ?_ rfl
      · rw [List.length_drop]
        omega
      · rw [List.length_drop]
        omega

theorem bracedTail_insert (hc : IsForeign c) (hd : IsWordChar d)
    (h : bracedTail (front ++ d :: rest) ≤ front.length) :
    bracedTail (front ++ c :: d :: rest) = bracedTail (front ++ d :: rest) :=
  bracedTail_go_insert hc hd (by rwa [Nat.zero_add])

end Script

end TagLint
