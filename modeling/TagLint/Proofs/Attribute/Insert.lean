import TagLint.Proofs.Attribute.Offsets
import TagLint.Proofs.Script.Insert
import TagLint.Proofs.Tag.Parts

/-!
# A foreign character in front of an attribute

A character that is out of place is put in front of the name of an attribute. The segments before
the attribute reach as far as before, although their readers look at what is behind them, and so
the character is a segment of its own.

- `Segment.Fits.insert`: a segment in front of the attribute, or further in front.
- `Segment.fits_stray`: the character itself.
- `Segment.Row.insert`: segments in a row, with the character in between.
- `Segment.exists_declaration_of_occurrencesAt`: an attribute that occurs is that of a segment.
-/

namespace TagLint

variable {c d : Char} {rest : List Char}

/-! ### What a run or a search comes to -/

/-- A run that cannot go on still cannot when a character is put in that does not belong to it. -/
theorem Text.Ends.insert {p : Char → Bool} {more : List Char} (hc : p c = false)
    (h : Ends p (more ++ d :: rest)) : Ends p (more ++ c :: d :: rest) := by
  cases more with
  | nil => exact ends_cons hc
  | cons x more => exact ends_cons (h x rfl)

/-- In front of a character that would go on with a run something else ends the run. -/
theorem Text.Ends.of_ne {p : Char → Bool} {more behind : List Char} (hd : p d = true)
    (h : Ends p (more ++ d :: rest)) : Ends p (more ++ behind) := by
  cases more with
  | nil => cases hd.symm.trans (h d rfl)
  | cons x more => exact ends_cons (h x rfl)

/-- What is found behind white space stands in front of a character that is neither white space nor
what is found. -/
theorem Text.exists_of_blanks {more behind blanks : List Char} {x : Char}
    (hc : isSpace c = false) (hne : c ≠ x) (hblanks : ∀ e ∈ blanks, isSpace e = true)
    (h : more ++ c :: behind = blanks ++ x :: rest) : ∃ between, more = blanks ++ x :: between := by
  rcases List.append_eq_append_iff.1 h with ⟨between, rfl, hbetween⟩ | ⟨between, rfl, hbetween⟩
  · rcases List.cons_eq_append_iff.1 hbetween with ⟨-, heq⟩ | ⟨inner, rfl, -⟩
    · exact absurd (List.cons.inj heq).1.symm hne
    · cases hc.symm.trans (hblanks c (List.mem_append_right _ List.mem_cons_self))
  · rcases List.cons_eq_append_iff.1 hbetween with ⟨-, heq⟩ | ⟨inner, rfl, -⟩
    · exact absurd (List.cons.inj heq).1 hne
    · exact ⟨inner, rfl⟩

/-! ### Segments -/

namespace Attribute

theorem isBare_of_isNameChar (h : Text.isNameChar d = true) : isBare d = true := by
  have hclose := (Segment.ne_of_isNameChar h).1
  rw [isBare, Text.not_isSpace_of_isNameChar h]
  simpa using hclose

variable {more : List Char}

/-- A value in front of the name of an attribute remains one. -/
theorem IsValue.insert (hc : IsForeign c) (hd : Text.isNameChar d = true) {value : List Char}
    (h : IsValue value (more ++ d :: rest)) : IsValue value (more ++ c :: d :: rest) := by
  cases h with
  | @quoted quote inner _ hquote hlength =>
    have hq : quote ≠ '\\' := by
      rcases hquote with rfl | rfl <;> decide
    exact .quoted hquote (quotedTail_append hq (by simp) hlength _)
  | @braced inner _ hlength =>
    refine .braced ?_
    rw [← List.append_assoc] at hlength ⊢
    rw [Script.bracedTail_insert hc (isWordChar_of_isNameChar hd), hlength]
    rw [hlength, List.length_append]
    exact Nat.le_add_right ..
  | bare hrun hends hhead => exact .bare hrun (hends.of_ne (isBare_of_isNameChar hd)) hhead

/-- What assigns a value in front of the name of an attribute remains so. -/
theorem IsAssignment.insert (hc : IsForeign c) (hd : Text.isNameChar d = true)
    {assignment : List Char} (h : IsAssignment assignment (more ++ d :: rest)) :
    IsAssignment assignment (more ++ c :: d :: rest) := by
  cases h with
  | nothing hnothing =>
    refine .nothing fun blanks behind hblanks htext => ?_
    obtain ⟨between, rfl⟩ := Text.exists_of_blanks hc.not_space hc.ne_equals hblanks htext
    refine hnothing blanks (between ++ d :: rest) hblanks ?_
    rw [List.append_assoc, List.cons_append]
  | @value before after value _ hbefore hafter hends hvalue =>
    rw [← List.append_assoc] at hends
    have hends := hends.insert hc.not_space
    rw [List.append_assoc] at hends
    exact .value hbefore hafter hends (hvalue.insert hc hd)

end Attribute

namespace Segment

variable {more : List Char}

/-- A character that is put in front of a name makes no tail of what was none. -/
theorem IsTail.of_insert {found : Char} (hc : IsForeign c)
    (h : IsTail (found :: (more ++ c :: d :: rest))) : IsTail (found :: (more ++ d :: rest)) := by
  generalize htext : found :: (more ++ c :: d :: rest) = text at h
  cases h with
  | nothing => cases htext
  | close =>
    cases htext
    exact .close _
  | slash hblanks =>
    cases htext
    cases hc.not_space.symm.trans (hblanks c (List.mem_append_right _ List.mem_cons_self))
  | slashClose behind hblanks =>
    obtain ⟨rfl, hrest⟩ := List.cons.inj htext
    obtain ⟨between, rfl⟩ := Text.exists_of_blanks hc.not_space hc.ne_close hblanks hrest
    rw [List.append_assoc, List.cons_append]
    exact .slashClose _ hblanks

/-- **A segment somewhere in front of an attribute reaches as far with a foreign character right in
front of the attribute.** -/
theorem Fits.insert (hc : IsForeign c) (hd : Text.isNameChar d = true) {segment : Segment}
    (h : segment.Fits (more ++ d :: rest)) : segment.Fits (more ++ c :: d :: rest) := by
  cases h with
  | blank hne hrun hends => exact .blank hne hrun (hends.insert hc.not_space)
  | @spread inner _ hlength =>
    refine .spread ?_
    rw [← List.append_assoc] at hlength ⊢
    rw [Script.bracedTail_insert hc (isWordChar_of_isNameChar hd), hlength]
    rw [hlength, List.length_append]
    exact Nat.le_add_right ..
  | declaration hne hname hends hassignment =>
    rw [← List.append_assoc] at hends
    have hends := hends.insert hc.not_name
    rw [List.append_assoc] at hends
    exact .declaration hne hname hends (hassignment.insert hc hd)
  | stray hspace hname hbrace htail =>
    exact .stray hspace hname hbrace (mt (IsTail.of_insert hc) htail)

/-- A foreign character is a segment by itself, whatever is behind it. -/
theorem fits_stray (hc : IsForeign c) (behind : List Char) : (stray c).Fits behind := by
  refine .stray hc.not_space hc.not_name hc.ne_brace fun htail => ?_
  rcases isTail_cons_iff.1 htail with hclose | ⟨hslash, -⟩
  · exact hc.ne_close hclose
  · exact hc.ne_slash hslash

theorem Row.tail_cons {segment : Segment} {segments : List Segment} {tail : List Char}
    (h : Row (segment :: segments) tail) :
    segment.Fits (segments.flatMap text ++ tail) ∧ Row segments tail := by
  cases h with
  | cons hfits hrow => exact ⟨hfits, hrow⟩

/-- A declaration that stands in a row begins with its name. -/
theorem Row.exists_name {before after : List Segment} {name assignment tail : List Char}
    (h : Row (before ++ declaration name assignment :: after) tail) :
    ∃ d more, name = d :: more ∧ Text.isNameChar d = true := by
  induction before with
  | nil =>
    cases h.tail_cons.1 with
    | declaration hne hname =>
      obtain ⟨d, more, rfl⟩ := List.exists_cons_of_ne_nil hne
      exact ⟨d, more, rfl, hname d List.mem_cons_self⟩
  | cons segment before ih => exact ih h.tail_cons.2

/-- **Segments in a row remain so when a foreign character is put in front of an attribute.** -/
theorem Row.insert (hc : IsForeign c) {before after : List Segment}
    {name assignment tail : List Char}
    (h : Row (before ++ declaration name assignment :: after) tail) :
    Row (before ++ stray c :: declaration name assignment :: after) tail := by
  induction before with
  | nil => exact .cons (fits_stray hc _) h
  | cons segment before ih =>
    rw [List.cons_append] at h ⊢
    obtain ⟨hfits, hrow⟩ := h.tail_cons
    refine .cons ?_ (ih hrow)
    -- what is behind the segment goes on with others, and then with the name
    obtain ⟨d, more, rfl, hd⟩ := hrow.exists_name
    rw [List.flatMap_append, List.append_assoc] at hfits ⊢
    exact hfits.insert hc hd

/-! ### What occurs with segments in a row -/

theorem occurrencesAt_append (offset : Nat) (before after : List Segment) :
    occurrencesAt offset (before ++ after) = occurrencesAt offset before ++
      occurrencesAt (offset + Text.byteSize (before.flatMap text)) after := by
  induction before generalizing offset with
  | nil => rfl
  | cons segment before ih =>
    rw [List.cons_append, occurrencesAt_cons, occurrencesAt_cons, ih, List.flatMap_cons,
      Text.byteSize_append, Nat.add_assoc, List.append_assoc]

/-- Segments further on have the same occurrences, further on. -/
theorem occurrencesAt_add (offset bytes : Nat) (segments : List Segment) :
    occurrencesAt (offset + bytes) segments =
      (occurrencesAt offset segments).map (Occurrence.mapOffset (· + bytes)) := by
  induction segments generalizing offset with
  | nil => rfl
  | cons segment segments ih =>
    rw [occurrencesAt_cons, occurrencesAt_cons, List.map_append, ← ih, Nat.add_right_comm,
      occurrence?_mapOffset (· + bytes), Option.toList_map]

/-- An attribute that occurs is declared by a segment, and what occurs before and after it occurs
with the segments before and after that. -/
theorem exists_declaration_of_occurrencesAt {offset : Nat} {segments : List Segment}
    {earlier later : List Occurrence} {found : Attribute}
    (h : occurrencesAt offset segments = earlier ++ .declared found :: later) :
    ∃ before name assignment after, segments = before ++ declaration name assignment :: after ∧
      earlier = occurrencesAt offset before ∧
      found.offset = offset + Text.byteSize (before.flatMap text) ∧
      .declared found :: later =
        occurrencesAt found.offset (declaration name assignment :: after) := by
  induction segments generalizing offset earlier with
  | nil =>
    cases earlier <;> cases h
  | cons segment segments ih =>
    rw [occurrencesAt_cons] at h
    -- the attribute may occur with one of the other segments
    have hfurther {others : List Occurrence}
        (hothers : occurrencesAt (offset + Text.byteSize segment.text) segments =
          others ++ .declared found :: later)
        (hearlier : earlier = (segment.occurrence? offset).toList ++ others) :
        ∃ before name assignment after,
          segment :: segments = before ++ declaration name assignment :: after ∧
          earlier = occurrencesAt offset before ∧
          found.offset = offset + Text.byteSize (before.flatMap text) ∧
          .declared found :: later =
            occurrencesAt found.offset (declaration name assignment :: after) := by
      obtain ⟨before, name, assignment, after, rfl, rfl, hoffset, hlater⟩ := ih hothers
      refine ⟨segment :: before, name, assignment, after, rfl, ?_, ?_, hlater⟩
      · rw [hearlier, occurrencesAt_cons]
      · rw [hoffset, List.flatMap_cons, Text.byteSize_append, Nat.add_assoc]
    rcases hoccurs : segment.occurrence? offset with _ | first
    · rw [hoccurs] at h
      exact hfurther h (by rw [hoccurs]; rfl)
    rw [hoccurs, Option.toList_some, List.singleton_append] at h
    rcases earlier with _ | ⟨next, others⟩
    · obtain ⟨rfl, hlater⟩ := List.cons.inj h
      cases segment with
      | blank => cases hoccurs
      | spread => cases hoccurs
      | stray => cases hoccurs
      | declaration name assignment =>
        cases hoccurs
        exact ⟨[], name, assignment, segments, rfl, rfl, rfl, by rw [← hlater, occurrencesAt]; rfl⟩
    · obtain ⟨rfl, hothers⟩ := List.cons.inj h
      exact hfurther hothers (by rw [hoccurs]; rfl)

end Segment

end TagLint
