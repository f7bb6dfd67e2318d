import TagLint.Proofs.Attribute.AttributeReader
import TagLint.Proofs.Attribute.Segment
import TagLint.Proofs.Attribute.Value
import TagLint.Proofs.Text.Extent

/-!
# How far a segment reaches

Which segment stands at the front of a text is said by `Segment.front?` with functions that look
for its end. Here it is said by rules, which take a segment and the text behind it: every kind of
segment has a rule of its own, and it reaches as far as it can.

- `Attribute.IsValue`, `Attribute.IsAssignment`: a value, and what assigns one.
- `Segment.Fits`: a segment, in front of what is behind it.
- `Segment.IsTail`: the tail of a tag, where there is no segment.
- `Segment.front?_eq_some_iff`, `Segment.front?_cons_eq_none_iff`: the reader goes by these rules.
- `AttributeReader.occurrences_of_fits`: so what occurs in a text is found by them.
-/

namespace TagLint

namespace Attribute

/-- A value in front of the text behind it: quoted or braced, to where it is closed or to the end,
or else a run without white space and `>`, which may be empty. -/
inductive IsValue : List Char → List Char → Prop
  | quoted {quote : Char} {inner behind : List Char} : quote = '"' ∨ quote = '\'' →
    quotedTail quote (inner ++ behind) = inner.length → IsValue (quote :: inner) behind
  | braced {inner behind : List Char} :
    Script.bracedTail (inner ++ behind) = inner.length → IsValue ('{' :: inner) behind
  | bare {run behind : List Char} : (∀ c ∈ run, isBare c = true) → Text.Ends isBare behind →
    (∀ c ∈ run.head?, c ≠ '"' ∧ c ≠ '\'' ∧ c ≠ '{') → IsValue run behind

/-- What assigns a value to an attribute, in front of the text behind it. It is nothing unless a
`=` follows, white space aside. -/
inductive IsAssignment : List Char → List Char → Prop
  | nothing {behind : List Char} :
    (∀ blanks rest, (∀ c ∈ blanks, Text.isSpace c = true) → behind ≠ blanks ++ '=' :: rest) →
    IsAssignment [] behind
  | value {before after value behind : List Char} : (∀ c ∈ before, Text.isSpace c = true) →
    (∀ c ∈ after, Text.isSpace c = true) → Text.Ends Text.isSpace (value ++ behind) →
    IsValue value behind → IsAssignment (before ++ '=' :: (after ++ value)) behind

/-! ### Values -/

theorem valueLength_of_bare {text : List Char}
    (h : ∀ c ∈ text.head?, c ≠ '"' ∧ c ≠ '\'' ∧ c ≠ '{') :
    valueLength text = (text.takeWhile isBare).length := by
  cases text with
  | nil => rfl
  | cons c rest =>
    obtain ⟨hdouble, hsingle, hbrace⟩ := h c rfl
    rw [valueLength, if_neg (by simp [hdouble, hsingle]), if_neg hbrace]

theorem valueLength_quoted {quote : Char} (hquote : quote = '"' ∨ quote = '\'')
    (rest : List Char) : valueLength (quote :: rest) = 1 + quotedTail quote rest := by
  rw [valueLength, if_pos (by simpa using hquote)]

theorem valueLength_braced (rest : List Char) :
    valueLength ('{' :: rest) = 1 + Script.bracedTail rest :=
  rfl

/-- A value ends in the text. -/
theorem valueLength_le (text : List Char) : valueLength text ≤ text.length := by
  cases text with
  | nil => exact Nat.le_refl _
  | cons c rest =>
    by_cases hquote : c = '"' ∨ c = '\''
    · have hle := quotedTail_le c rest
      rw [valueLength_quoted hquote, List.length_cons]
      omega
    by_cases hbrace : c = '{'
    · subst hbrace
      have hle := Script.bracedTail_le rest
      rw [valueLength_braced, List.length_cons]
      omega
    · obtain ⟨hdouble, hsingle⟩ := not_or.1 hquote
      rw [valueLength_of_bare (by rintro _ ⟨⟩; exact ⟨hdouble, hsingle, hbrace⟩)]
      exact (List.takeWhile_prefix _).length_le

theorem IsValue.valueLength_eq {value behind : List Char} (h : IsValue value behind) :
    valueLength (value ++ behind) = value.length := by
  cases h with
  | quoted hquote hlength =>
    rw [List.cons_append, valueLength_quoted hquote, hlength, List.length_cons, Nat.add_comm]
  | braced hlength =>
    rw [List.cons_append, valueLength_braced, hlength, List.length_cons, Nat.add_comm]
  | bare hrun hends hhead =>
    rw [valueLength_of_bare, Text.takeWhile_append hrun hends]
    -- behind an empty run no quote or brace can stand, for it would belong to the run
    intro c hc
    cases value with
    | cons d rest => exact hhead c hc
    | nil =>
      have hbare := hends c hc
      refine ⟨?_, ?_, ?_⟩
      · rintro rfl
        cases hbare
      · rintro rfl
        cases hbare
      · rintro rfl
        cases hbare

/-- The first characters of a text, as many as its value has, are a value. -/
theorem isValue_take (text : List Char) :
    IsValue (text.take (valueLength text)) (text.drop (valueLength text)) := by
  have hbare (h : ∀ c ∈ text.head?, c ≠ '"' ∧ c ≠ '\'' ∧ c ≠ '{') :
      IsValue (text.take (valueLength text)) (text.drop (valueLength text)) := by
    rw [valueLength_of_bare h, Text.take_length_takeWhile, Text.drop_length_takeWhile]
    refine .bare (fun c hc => List.mem_takeWhile_imp hc) (Text.ends_dropWhile _ _) ?_
    intro c hc
    refine h c ?_
    obtain ⟨rest, hrest⟩ := List.takeWhile_prefix isBare (l := text)
    rw [← hrest, List.head?_append, hc]
    rfl
  cases text with
  | nil => exact hbare nofun
  | cons c rest =>
    by_cases hquote : c = '"' ∨ c = '\''
    · rw [valueLength_quoted hquote, Nat.add_comm, List.take_succ_cons, List.drop_succ_cons]
      refine .quoted hquote ?_
      rw [List.take_append_drop, List.length_take_of_le (quotedTail_le c rest)]
    by_cases hbrace : c = '{'
    · subst hbrace
      rw [valueLength_braced, Nat.add_comm, List.take_succ_cons, List.drop_succ_cons]
      refine .braced ?_
      rw [List.take_append_drop, List.length_take_of_le (Script.bracedTail_le rest)]
    · refine hbare ?_
      rintro _ ⟨⟩
      obtain ⟨hdouble, hsingle⟩ := not_or.1 hquote
      exact ⟨hdouble, hsingle, hbrace⟩

/-! ### Assignments -/

theorem IsAssignment.assignmentLength_eq {assignment behind : List Char}
    (h : IsAssignment assignment behind) :
    assignmentLength (assignment ++ behind) = assignment.length := by
  cases h with
  | nothing hnothing =>
    refine assignmentLength_eq_zero fun hhead => ?_
    obtain ⟨rest, hrest⟩ := List.head?_eq_some_iff.1 hhead
    refine hnothing (behind.takeWhile Text.isSpace) rest (fun c hc => List.mem_takeWhile_imp hc) ?_
    rw [← hrest]
    exact List.takeWhile_append_dropWhile.symm
  | @value before after value _ hbefore hafter hends hvalue =>
    have htext : before ++ '=' :: (after ++ value) ++ behind =
        before ++ '=' :: (after ++ (value ++ behind)) := by
      rw [List.append_assoc, List.cons_append, List.append_assoc]
    have hequals : Text.Ends Text.isSpace ('=' :: (after ++ (value ++ behind))) :=
      Text.ends_cons rfl
    rw [htext, assignmentLength_of_dropWhile (Text.dropWhile_append hbefore hequals),
      Text.takeWhile_append hbefore hequals, Text.takeWhile_append hafter hends,
      Text.dropWhile_append hafter hends, hvalue.valueLength_eq]
    simp only [List.length_append, List.length_cons]
    omega

/-- The first characters of a text, as many as its assignment has, are an assignment. -/
theorem isAssignment_take (text : List Char) :
    IsAssignment (text.take (assignmentLength text)) (text.drop (assignmentLength text)) := by
  have hsplit : text.takeWhile Text.isSpace ++ text.dropWhile Text.isSpace = text :=
    List.takeWhile_append_dropWhile
  by_cases hhead : (text.dropWhile Text.isSpace).head? = some '='
  · obtain ⟨rest, hrest⟩ := List.head?_eq_some_iff.1 hhead
    have hmore : rest.takeWhile Text.isSpace ++ rest.dropWhile Text.isSpace = rest :=
      List.takeWhile_append_dropWhile
    have hvalue := isValue_take (rest.dropWhile Text.isSpace)
    generalize hlength : valueLength (rest.dropWhile Text.isSpace) = n at hvalue
    -- the text up to behind its value, and what is behind that
    have htext : text.takeWhile Text.isSpace ++ '=' :: (rest.takeWhile Text.isSpace ++
        (rest.dropWhile Text.isSpace).take n) ++ (rest.dropWhile Text.isSpace).drop n = text := by
      rw [List.append_assoc, List.cons_append, List.append_assoc, List.take_append_drop, hmore,
        ← hrest, hsplit]
    have hle := valueLength_le (rest.dropWhile Text.isSpace)
    have hfront : (text.takeWhile Text.isSpace ++ '=' :: (rest.takeWhile Text.isSpace ++
        (rest.dropWhile Text.isSpace).take n)).length = assignmentLength text := by
      rw [assignmentLength_of_dropWhile hrest, hlength, List.length_append, List.length_cons,
        List.length_append, List.length_take_of_le (by omega)]
      omega
    have htake := congrArg (List.take (assignmentLength text)) htext
    have hdrop := congrArg (List.drop (assignmentLength text)) htext
    rw [← hfront, List.take_left, hfront] at htake
    rw [← hfront, List.drop_left, hfront] at hdrop
    rw [← htake, ← hdrop]
    refine .value (fun c hc => List.mem_takeWhile_imp hc) (fun c hc => List.mem_takeWhile_imp hc)
      ?_ hvalue
    rw [List.take_append_drop]
    exact Text.ends_dropWhile _ _
  · rw [assignmentLength_eq_zero hhead, List.take_zero, List.drop_zero]
    refine .nothing fun blanks rest hblanks htext => hhead ?_
    rw [htext, Text.dropWhile_append hblanks (Text.ends_cons rfl)]
    rfl

/-- An assignment ends in the text. -/
theorem assignmentLength_le (text : List Char) : assignmentLength text ≤ text.length := by
  have hlength := (isAssignment_take text).assignmentLength_eq
  rw [List.take_append_drop, List.length_take] at hlength
  omega

end Attribute

namespace Segment

/-- The tail of a tag: nothing, or a text that begins with the `>`, or with a slash that nothing but
white space parts from the `>` or from the end. -/
inductive IsTail : List Char → Prop
  | nothing : IsTail []
  | close (rest : List Char) : IsTail ('>' :: rest)
  | slash {blanks : List Char} : (∀ c ∈ blanks, Text.isSpace c = true) → IsTail ('/' :: blanks)
  | slashClose {blanks : List Char} (rest : List Char) :
    (∀ c ∈ blanks, Text.isSpace c = true) → IsTail ('/' :: (blanks ++ '>' :: rest))

/-- A segment in front of the text behind it: white space and names as long as they can be, a
spread to where its brace is closed or to the end, and a character that begins nothing else. -/
inductive Fits : Segment → List Char → Prop
  | blank {run behind : List Char} : run ≠ [] → (∀ c ∈ run, Text.isSpace c = true) →
    Text.Ends Text.isSpace behind → Fits (blank run) behind
  | spread {inner behind : List Char} :
    Script.bracedTail (inner ++ behind) = inner.length → Fits (spread ('{' :: inner)) behind
  | declaration {name assignment behind : List Char} : name ≠ [] →
    (∀ c ∈ name, Text.isNameChar c = true) →
    Text.Ends Text.isNameChar (assignment ++ behind) →
    Attribute.IsAssignment assignment behind → Fits (declaration name assignment) behind
  | stray {found : Char} {behind : List Char} : Text.isSpace found = false →
    Text.isNameChar found = false → found ≠ '{' → ¬ IsTail (found :: behind) →
    Fits (stray found) behind

/-! ### The tail -/

theorem endsTag_iff {rest : List Char} : endsTag rest = true ↔ IsTail ('/' :: rest) := by
  have hsplit : rest.takeWhile Text.isSpace ++ rest.dropWhile Text.isSpace = rest :=
    List.takeWhile_append_dropWhile
  have hblanks : ∀ c ∈ rest.takeWhile Text.isSpace, Text.isSpace c = true :=
    fun c hc => List.mem_takeWhile_imp hc
  constructor
  · intro h
    rw [endsTag.eq_def] at h
    split at h
    · next hend =>
      rw [hend, List.append_nil] at hsplit
      rw [← hsplit]
      exact .slash hblanks
    · next c more hend =>
      rw [hend, of_decide_eq_true h] at hsplit
      rw [← hsplit]
      exact .slashClose more hblanks
  · intro h
    generalize htext : '/' :: rest = text at h
    cases h with
    | nothing => cases htext
    | close => cases htext
    | slash hspace =>
      cases htext
      rw [endsTag, List.dropWhile_eq_nil_iff.2 fun c hc => by simpa using hspace c hc]
    | slashClose more hspace =>
      cases htext
      rw [endsTag, Text.dropWhile_append hspace (Text.ends_cons rfl)]
      rfl

theorem isTail_cons_iff {c : Char} {rest : List Char} :
    IsTail (c :: rest) ↔ c = '>' ∨ c = '/' ∧ endsTag rest = true := by
  constructor
  · intro h
    cases h with
    | close => exact .inl rfl
    | slash hblanks => exact .inr ⟨rfl, endsTag_iff.2 (.slash hblanks)⟩
    | slashClose more hblanks => exact .inr ⟨rfl, endsTag_iff.2 (.slashClose more hblanks)⟩
  · rintro (rfl | ⟨rfl, hends⟩)
    · exact .close rest
    · exact endsTag_iff.1 hends

/-- There is no segment exactly where the tail of the tag begins. -/
theorem front?_cons_eq_none_iff {c : Char} {rest : List Char} :
    front? c rest = none ↔ IsTail (c :: rest) :=
  front?_eq_none_iff.trans isTail_cons_iff.symm

/-! ### The rule of a segment -/

theorem Fits.text_ne_nil {segment : Segment} {behind : List Char} (h : segment.Fits behind) :
    segment.text ≠ [] := by
  cases h with
  | blank hne => exact hne
  | spread => exact List.cons_ne_nil _ _
  | declaration hne => exact List.append_ne_nil_of_left_ne_nil hne _
  | stray => exact List.cons_ne_nil _ _

/-- Names have nothing that begins another segment or the tail. -/
theorem ne_of_isNameChar {c : Char} (h : Text.isNameChar c = true) :
    c ≠ '>' ∧ c ≠ '/' ∧ c ≠ '{' := by
  refine ⟨?_, ?_, ?_⟩
  · rintro rfl
    cases h
  · rintro rfl
    cases h
  · rintro rfl
    cases h

/-- The segment that is found fits. -/
theorem fits_of_front? {c : Char} {rest : List Char} {segment : Segment}
    (h : front? c rest = some segment) :
    segment.Fits ((c :: rest).drop segment.text.length) := by
  have htail : ¬ IsTail (c :: rest) := by
    intro htail
    rw [front?_cons_eq_none_iff.2 htail] at h
    cases h
  rcases front?_cases h with ⟨hspace, rfl⟩ | ⟨rfl, rfl⟩ | ⟨hname, rfl⟩ | ⟨-, hname, rfl⟩
  · rw [text, List.length_cons, List.drop_succ_cons, Text.drop_length_takeWhile]
    refine .blank (List.cons_ne_nil _ _) ?_ (Text.ends_dropWhile _ _)
    exact List.forall_mem_cons.2 ⟨hspace, fun d hd => List.mem_takeWhile_imp hd⟩
  · have hlength := List.length_take_of_le (Script.bracedTail_le rest)
    rw [text, List.length_cons, List.drop_succ_cons, hlength]
    refine .spread ?_
    rw [List.take_append_drop, hlength]
  · have hassignment := Attribute.isAssignment_take (rest.dropWhile Text.isNameChar)
    have hlength := List.length_take_of_le
      (Attribute.assignmentLength_le (rest.dropWhile Text.isNameChar))
    rw [ofName, text, List.length_append, List.length_cons, Nat.add_right_comm,
      List.drop_succ_cons, ← List.drop_drop, Text.drop_length_takeWhile, hlength]
    refine .declaration (List.cons_ne_nil _ _) ?_ ?_ hassignment
    · exact List.forall_mem_cons.2 ⟨hname, fun d hd => List.mem_takeWhile_imp hd⟩
    · rw [List.take_append_drop]
      exact Text.ends_dropWhile _ _
  · have hspace := isSpace_of_front?_stray h
    refine .stray hspace hname ?_ htail
    -- a brace would open a spread
    rintro rfl
    cases h

/-- A segment that fits is found. -/
theorem Fits.front? {segment : Segment} {behind rest : List Char} {c : Char}
    (h : segment.Fits behind) (htext : c :: rest = segment.text ++ behind) :
    front? c rest = some segment := by
  cases h with
  | @blank run _ hne hrun hends =>
    obtain ⟨d, more, rfl⟩ := List.exists_cons_of_ne_nil hne
    obtain ⟨rfl, hrest⟩ := List.cons.inj htext
    obtain ⟨hspace, hmore⟩ := List.forall_mem_cons.1 hrun
    have hblanks : rest.takeWhile Text.isSpace = more := by
      rw [hrest]
      exact Text.takeWhile_append hmore hends
    rw [Segment.front?, if_pos hspace, hblanks]
  | @spread inner _ hlength =>
    obtain ⟨rfl, hrest⟩ := List.cons.inj htext
    have hinner : rest.take (Script.bracedTail rest) = inner := by
      rw [hrest]
      show (inner ++ behind).take (Script.bracedTail (inner ++ behind)) = inner
      rw [hlength, List.take_left]
    show some (Segment.spread ('{' :: rest.take (Script.bracedTail rest))) = _
    rw [hinner]
  | @declaration name assignment _ hne hname hends hassignment =>
    obtain ⟨d, more, rfl⟩ := List.exists_cons_of_ne_nil hne
    obtain ⟨hd, hmore⟩ := List.forall_mem_cons.1 hname
    obtain ⟨hclose, hslash, hbrace⟩ := ne_of_isNameChar hd
    rw [text, List.append_assoc] at htext
    obtain ⟨rfl, hrest⟩ := List.cons.inj htext
    have hname : rest.takeWhile Text.isNameChar = more := by
      rw [hrest]
      exact Text.takeWhile_append hmore hends
    have hbehind : rest.dropWhile Text.isNameChar = assignment ++ behind := by
      rw [hrest]
      exact Text.dropWhile_append hmore hends
    rw [Segment.front?, if_neg (by simp [Text.not_isSpace_of_isNameChar hd]), if_neg hclose,
      if_neg (by simp [hslash]), if_neg hbrace, if_pos hd, ofName, hname, hbehind,
      hassignment.assignmentLength_eq, List.take_left]
  | @stray found _ hspace hname hbrace htail =>
    obtain ⟨rfl, rfl⟩ := List.cons.inj htext
    obtain ⟨hclose, hends⟩ := not_or.1 (mt isTail_cons_iff.2 htail)
    rw [Segment.front?, if_neg (by simp [hspace]), if_neg hclose, if_neg (by simpa using hends),
      if_neg hbrace, if_neg (by simp [hname])]

/-- **The reader finds the one segment that fits.** -/
theorem front?_eq_some_iff {c : Char} {rest : List Char} {segment : Segment} :
    front? c rest = some segment ↔
      ∃ behind, c :: rest = segment.text ++ behind ∧ segment.Fits behind := by
  constructor
  · intro h
    refine ⟨(c :: rest).drop segment.text.length, ?_, fits_of_front? h⟩
    obtain ⟨behind, htext⟩ := text_prefix h
    rw [← htext, List.drop_left]
  · rintro ⟨behind, htext, hfits⟩
    exact hfits.front? htext

/-- A segment that fits is the one at the front of its text. -/
theorem Fits.exists_front? {segment : Segment} {behind : List Char} (h : segment.Fits behind) :
    ∃ c rest, c :: rest = segment.text ++ behind ∧ Segment.front? c rest = some segment := by
  obtain ⟨c, rest, hcons⟩ := List.exists_cons_of_ne_nil h.text_ne_nil
  have htext : c :: (rest ++ behind) = segment.text ++ behind := by rw [hcons, List.cons_append]
  exact ⟨c, rest ++ behind, htext, h.front? htext⟩

/-- A text is a tail, or a segment fits at its front. -/
theorem isTail_or_fits (text : List Char) : IsTail text ∨
    ∃ (segment : Segment) (behind : List Char), text = segment.text ++ behind ∧
      segment.Fits behind := by
  cases text with
  | nil => exact .inl .nothing
  | cons c rest =>
    rcases hfront : front? c rest with _ | segment
    · exact .inl (front?_cons_eq_none_iff.1 hfront)
    · exact .inr ⟨segment, front?_eq_some_iff.1 hfront⟩

end Segment

/-! ### Reading by the rules -/

namespace AttributeReader

/-- What occurs with a segment that fits comes first, and the rest is read behind it. -/
theorem occurrences_of_fits {segment : Segment} {behind : List Char} (h : segment.Fits behind)
    (offset : Nat) : (⟨offset, segment.text ++ behind⟩ : AttributeReader).occurrences =
      (segment.occurrence? offset).toList ++
        (⟨offset + Text.byteSize segment.text, behind⟩ : AttributeReader).occurrences := by
  obtain ⟨c, rest, htext, hfront⟩ := h.exists_front?
  have hdrop : (c :: rest).drop segment.text.length = behind := by rw [htext, List.drop_left]
  rw [← htext]
  refine occurrences_of_some (segment?_eq_some_iff.2 ⟨c, rest, rfl, hfront, ?_⟩)
  rw [advance, hdrop]

/-- Nothing occurs in a tail. -/
theorem occurrences_of_isTail {text : List Char} (h : Segment.IsTail text) (offset : Nat) :
    (⟨offset, text⟩ : AttributeReader).occurrences = [] := by
  refine occurrences_of_none ?_
  cases text with
  | nil => rfl
  | cons c rest => exact Option.map_eq_none_iff.2 (Segment.front?_cons_eq_none_iff.2 h)

end AttributeReader

end TagLint
