import TagLint.Proofs.Markup.Agreement

/-!
# Self-closing tags

Whether a tag is self-closing is read off the end of its text: a slash stands there, with blanks at
most between it and the `>`. The reader of attributes has a word in it too. It stops at the slash
of a self-closing tag, and reads past a slash that belongs to a value.

- `Tag.TrailingSlash`: the slash at the end of a tag. There is at most one
  (`Tag.TrailingSlash.unique`), and a tag that has it counts as self-closing
  (`Tag.isSelfClosing_iff`).
- `Tag.ClosesAlike`: the two agree on a tag. They do not for every slash
  (`Tag.not_closesAlike_of_opener_and_value`), but exactly for one that is neither the slash of a
  closing tag nor part of a value, and has only white space behind it (`Tag.closesAlike_iff`). That is
  so where the reading of attributes comes to the end of the tag. What is so wherever it stops is
  `Tag.closesAlike_iff_trailingSlash`.
-/

namespace TagLint.Tag

open Text (isSpace isBlank)

variable {source : String} {tag : Tag}

/-- White space is blank. -/
theorem isBlank_of_isSpace {c : Char} (h : isSpace c = true) : isBlank c = true := by
  simp only [isSpace, Bool.or_eq_true, decide_eq_true_eq] at h
  rcases h with (((rfl | rfl) | rfl) | rfl) | rfl <;> decide

/-! ### The slash at the end -/

/-- At a place of a tag stands a slash, and only blanks stand between it and the `>` at the end of
the tag. -/
structure TrailingSlash (tag : Tag) (place : Nat) (blanks : List Char) : Prop where
  text_eq : tag.text.toList.drop place = '/' :: (blanks ++ ['>'])
  blank : ∀ c ∈ blanks, isBlank c = true

/-- A tag has at most one such slash: the last one. -/
theorem TrailingSlash.unique {first second : Nat} {blanks spaces : List Char}
    (hfirst : tag.TrailingSlash first blanks) (hsecond : tag.TrailingSlash second spaces) :
    first = second ∧ blanks = spaces := by
  -- the blanks of either begin behind its slash, so no other slash is among them
  have hle {first second : Nat} {blanks spaces : List Char}
      (hfirst : tag.TrailingSlash first blanks) (hsecond : tag.TrailingSlash second spaces) :
      second ≤ first := by
    refine Nat.le_of_not_lt fun hlt => ?_
    obtain ⟨more, rfl⟩ := Nat.exists_eq_add_of_lt hlt
    have hslash : (blanks ++ ['>'])[more]? = some '/' := by
      rw [← List.getElem?_cons_succ (a := '/'), ← hfirst.text_eq, List.getElem?_drop,
        ← Nat.add_assoc, ← Nat.add_zero (first + more + 1), ← List.getElem?_drop, hsecond.text_eq,
        List.getElem?_cons_zero]
    rcases List.mem_append.1 (List.mem_of_getElem? hslash) with hmem | hmem
    · cases hfirst.blank _ hmem
    · cases List.mem_singleton.1 hmem
  have heq : first = second := Nat.le_antisymm (hle hsecond hfirst) (hle hfirst hsecond)
  subst heq
  have htext := hfirst.text_eq.symm.trans hsecond.text_eq
  exact ⟨rfl, List.append_cancel_right (List.cons.inj htext).2⟩

/-- **A tag counts as self-closing exactly if it has a slash at its end.** -/
theorem isSelfClosing_iff (tag : Tag) :
    tag.isSelfClosing = true ↔ ∃ place blanks, tag.TrailingSlash place blanks := by
  rw [isSelfClosing]
  constructor
  · intro h
    split at h
    · next body hreverse =>
      have htext : tag.text.toList = body.reverse ++ ['>'] := by
        rw [← List.reverse_reverse tag.text.toList, hreverse, List.reverse_cons]
      rcases hbody : body.dropWhile isBlank with _ | ⟨c, front⟩
      · rw [hbody] at h
        cases h
      · rw [hbody, List.head?_cons, beq_iff_eq, Option.some.injEq] at h
        subst h
        have hsplit : body.takeWhile isBlank ++ body.dropWhile isBlank = body :=
          List.takeWhile_append_dropWhile
        rw [hbody] at hsplit
        refine ⟨front.reverse.length, (body.takeWhile isBlank).reverse, ?_, ?_⟩
        · have hbehind : body.reverse =
              front.reverse ++ '/' :: (body.takeWhile isBlank).reverse := by
            rw [← congrArg List.reverse hsplit, List.reverse_append, List.reverse_cons,
              List.append_assoc, List.singleton_append]
          rw [htext, hbehind, List.append_assoc, List.cons_append, List.drop_left]
        · intro c hc
          exact List.mem_takeWhile_imp (List.mem_reverse.1 hc)
    · cases h
  · rintro ⟨place, blanks, htext, hblanks⟩
    have hreverse : tag.text.toList.reverse =
        '>' :: (blanks.reverse ++ '/' :: (tag.text.toList.take place).reverse) := by
      have hsplit := List.take_append_drop place tag.text.toList
      rw [htext] at hsplit
      rw [← congrArg List.reverse hsplit]
      simp only [List.reverse_append, List.reverse_cons, List.reverse_nil, List.nil_append,
        List.cons_append, List.append_assoc]
    have hspaces : ∀ c ∈ blanks.reverse, isBlank c = true :=
      fun c hc => hblanks c (List.mem_reverse.1 hc)
    rw [hreverse]
    show ((blanks.reverse ++ _).dropWhile isBlank).head? == some '/'
    rw [List.dropWhile_append_of_pos hspaces, List.dropWhile_cons_of_neg (by decide),
      List.head?_cons]
    rfl

/-! ### The reader of attributes at the end -/

/-- The reading of attributes stops at a slash. -/
def StopsAtSlash (tag : Tag) : Prop :=
  ∃ rest, (AttributeReader.ofTag tag).exhaust.rest = '/' :: rest

/-- The end of a tag and the reader of its attributes agree on whether it is self-closing. No
closing tag is. -/
def ClosesAlike (tag : Tag) : Prop :=
  tag.isSelfClosing = true ↔ tag.isClosing = false ∧ tag.StopsAtSlash

/-- A reading that stops at a slash and at the end of the tag stops at the tag's last slash, which
has only white space behind it. -/
theorem StopsAtSlash.trailingSlash (h : tag.StopsAtSlash) (hstop : tag.StopsAtEnd) :
    ∃ spaces, (∀ c ∈ spaces, isSpace c = true) ∧ tag.TrailingSlash tag.attributeStop spaces := by
  obtain ⟨rest, hrest⟩ := h
  have htail := (stands_exhaust tag).rest
  rcases hstop with hclose | ⟨spaces, hspaces, hslash⟩
  · rw [hrest] at hclose
    cases hclose
  · exact ⟨spaces, hspaces, htail.symm.trans hslash, fun c hc => isBlank_of_isSpace (hspaces c hc)⟩

/-- In front of the attributes of a tag with a `<` there is a slash only if the tag is closing. -/
theorem attributeStart_le_of_slash {rest : List Char} (htext : tag.text.toList = '<' :: rest)
    (hclosing : tag.isClosing = false) {place : Nat}
    (hplace : tag.text.toList[place]? = some '/') : tag.attributeStart ≤ place := by
  have hafter : afterName tag.text.toList = rest.dropWhile Text.isTagNameChar := by
    rw [afterName, afterOpener, htext, Text.dropOptional, if_pos rfl]
    rcases rest with _ | ⟨d, rest⟩
    · rfl
    · have hd : d ≠ '/' := by
        rintro rfl
        rw [isClosing, htext] at hclosing
        cases hclosing
      rw [Text.dropOptional, if_neg hd]
  have hsplit : rest.takeWhile Text.isTagNameChar ++ rest.dropWhile Text.isTagNameChar = rest :=
    List.takeWhile_append_dropWhile
  have hlength := congrArg List.length hsplit
  rw [List.length_append] at hlength
  refine Nat.le_of_not_lt fun hlt => ?_
  rw [attributeStart, hafter, htext, List.length_cons] at hlt
  rw [htext] at hplace
  -- the characters in front of the attributes are the `<` and those of the name
  rcases place with _ | place
  · cases hplace
  · rw [List.getElem?_cons_succ, ← hsplit, List.getElem?_append_left (by omega)] at hplace
    cases List.mem_takeWhile_imp (List.mem_of_getElem? hplace)

/-- The reading of attributes stops at a slash behind the name that has only white space behind it
up to the `>`, unless it reads past the slash or stops before. -/
theorem not_lt_attributeStop {place : Nat} {spaces : List Char}
    (htext : tag.text.toList.drop place = '/' :: (spaces ++ ['>']))
    (hspaces : ∀ c ∈ spaces, isSpace c = true) (hstart : tag.attributeStart ≤ place)
    (hskips : ¬ tag.Skips place) : ¬ place < tag.attributeStop := by
  intro hlt
  obtain ⟨first, segment, hsegment, hle, hcover⟩ := exists_hasSegment hstart hlt
  obtain ⟨i, rfl⟩ := Nat.exists_eq_add_of_le hle
  have hi : i < segment.text.length := by omega
  have hslash : segment.text[i]? = some '/' := by
    rw [hsegment.getElem? hi, ← Nat.add_zero (first + i), ← List.getElem?_drop, htext,
      List.getElem?_cons_zero]
  obtain ⟨r, behind, hreach, hstands, hread⟩ := hsegment
  obtain ⟨c, rest, hrest, hfront, -⟩ := AttributeReader.segment?_eq_some_iff.1 hread
  rcases Segment.getElem?_text_cases hfront hslash with
    hhides | hspace | ⟨hname, -⟩ | ⟨-, -, rfl, rfl⟩
  · exact hskips ⟨first, segment, i, ⟨r, behind, hreach, hstands, hread⟩, hhides, rfl⟩
  · cases hspace
  · cases hname
  · -- a stray slash would have more than white space in front of the `>`
    rw [Nat.add_zero, ← hstands.rest, hrest, List.cons.injEq] at htext
    have hends : Segment.endsTag rest = true := by
      rw [htext.2, Segment.endsTag, List.dropWhile_append_of_pos hspaces]
      rfl
    cases hfront.symm.trans (Segment.front?_eq_none_iff.2 (.inr ⟨rfl, hends⟩))

/-- What it takes to agree at the place where the reading of attributes stops, whether the tag ends
there or not. At a slash it takes a slash at the end of the tag, unless the tag is closing. At a `>` it
takes that the tag has no slash at its end. -/
theorem closesAlike_iff_trailingSlash (tag : Tag) :
    (tag.StopsAtSlash → (tag.ClosesAlike ↔
      ((∃ place blanks, tag.TrailingSlash place blanks) ↔ tag.isClosing = false))) ∧
    (¬ tag.StopsAtSlash → (tag.ClosesAlike ↔
      ∀ place blanks, ¬ tag.TrailingSlash place blanks)) := by
  rw [ClosesAlike, isSelfClosing_iff]
  constructor
  · intro hstops
    rw [and_iff_left hstops]
  · intro hstops
    have hnot : ¬(tag.isClosing = false ∧ tag.StopsAtSlash) := fun h => hstops h.2
    simp only [iff_false_right hnot, not_exists]

/-- A slash in the opener of a tag, and one that ends a value without quotes, make a tag
self-closing by its end, but the reader of attributes stops behind them. -/
theorem not_closesAlike_of_opener_and_value :
    .ok ⟨"</>", "", ⟨0, 3, ⟨1, 1⟩⟩⟩ ∈ (TagReader.ofString "</><a href=/home/>").items ∧
      ¬ ClosesAlike ⟨"</>", "", ⟨0, 3, ⟨1, 1⟩⟩⟩ ∧
      .ok ⟨"<a href=/home/>", "a", ⟨3, 18, ⟨1, 4⟩⟩⟩ ∈
        (TagReader.ofString "</><a href=/home/>").items ∧
      ¬ ClosesAlike ⟨"<a href=/home/>", "a", ⟨3, 18, ⟨1, 4⟩⟩⟩ := by
  refine ⟨by decide +kernel, ?_, by decide +kernel, ?_⟩
  · intro h
    have hopen := (h.1 (by decide +kernel)).1
    cases hopen
  · intro h
    have hrest : (AttributeReader.ofTag
        ⟨"<a href=/home/>", "a", ⟨3, 18, ⟨1, 4⟩⟩⟩).exhaust.rest = ['>'] := by decide +kernel
    obtain ⟨-, rest, hslash⟩ := h.1 (by decide +kernel)
    rw [hrest] at hslash
    cases hslash

/-- **Both agree on a tag exactly if the slash at its end, if it has one, is not the slash of a
closing tag, has nothing but white space behind it and is not read past as part of a value**,
provided that the reading of attributes comes to the end of the tag. This says nothing of a tag in which
it stops before, such as `<p [a]="x>y" />`, where it stops at the first `>`. For such a tag see
`closesAlike_iff_trailingSlash`. -/
theorem closesAlike_iff (htag : .ok tag ∈ (TagReader.ofString source).items)
    (hstop : tag.StopsAtEnd) :
    tag.ClosesAlike ↔ ∀ place blanks, tag.TrailingSlash place blanks →
      tag.isClosing = false ∧ (∀ c ∈ blanks, isSpace c = true) ∧ ¬ tag.Skips place := by
  constructor
  · intro halike place blanks hslash
    obtain ⟨hclosing, hstops⟩ := halike.1 ((isSelfClosing_iff tag).2 ⟨place, blanks, hslash⟩)
    obtain ⟨spaces, hspaces, htrailing⟩ := hstops.trailingSlash hstop
    obtain ⟨rfl, rfl⟩ := hslash.unique htrailing
    exact ⟨hclosing, hspaces, fun hskips => Nat.lt_irrefl _ hskips.lt_stop⟩
  · intro h
    constructor
    case mp =>
      intro hself
      obtain ⟨place, blanks, hslash⟩ := (isSelfClosing_iff tag).1 hself
      obtain ⟨hclosing, hspaces, hskips⟩ := h place blanks hslash
      refine ⟨hclosing, ?_⟩
      rcases hstop with hclose | ⟨spaces, -, hrest⟩
      · -- the reading would stop behind the slash
        obtain ⟨rest, hopens⟩ := exists_text_eq_of_mem_items htag
        have hplace : tag.text.toList[place]? = some '/' := by
          rw [← Nat.add_zero place, ← List.getElem?_drop, hslash.text_eq, List.getElem?_cons_zero]
        have hnot := not_lt_attributeStop hslash.text_eq hspaces
          (attributeStart_le_of_slash hopens hclosing hplace) hskips
        have hlength := congrArg List.length hslash.text_eq
        rw [List.length_drop, List.length_cons, List.length_append, List.length_singleton]
          at hlength
        rw [attributeStop, hclose, List.length_singleton] at hnot
        omega
      · exact ⟨_, hrest⟩
    case mpr =>
      rintro ⟨-, hstops⟩
      obtain ⟨spaces, -, htrailing⟩ := hstops.trailingSlash hstop
      exact (isSelfClosing_iff tag).2 ⟨_, spaces, htrailing⟩

/-- Behind a value in quotes the slash is a segment of its own, and both agree on the tag. -/
theorem closesAlike_of_quoted_value :
    .ok ⟨"<a b=\"/\" / >", "a", ⟨0, 12, ⟨1, 1⟩⟩⟩ ∈ (TagReader.ofString "<a b=\"/\" / >").items ∧
      StopsAtEnd ⟨"<a b=\"/\" / >", "a", ⟨0, 12, ⟨1, 1⟩⟩⟩ ∧
      ∀ place blanks, TrailingSlash ⟨"<a b=\"/\" / >", "a", ⟨0, 12, ⟨1, 1⟩⟩⟩ place blanks →
        ¬ Skips ⟨"<a b=\"/\" / >", "a", ⟨0, 12, ⟨1, 1⟩⟩⟩ place := by
  have htag : .ok ⟨"<a b=\"/\" / >", "a", ⟨0, 12, ⟨1, 1⟩⟩⟩ ∈
      (TagReader.ofString "<a b=\"/\" / >").items := by decide +kernel
  have hrest : (AttributeReader.ofTag ⟨"<a b=\"/\" / >", "a", ⟨0, 12, ⟨1, 1⟩⟩⟩).exhaust.rest =
      '/' :: ([' '] ++ ['>']) := by decide +kernel
  have hstop : StopsAtEnd ⟨"<a b=\"/\" / >", "a", ⟨0, 12, ⟨1, 1⟩⟩⟩ :=
    .inr ⟨[' '], List.forall_mem_singleton.2 rfl, hrest⟩
  have hself : isSelfClosing ⟨"<a b=\"/\" / >", "a", ⟨0, 12, ⟨1, 1⟩⟩⟩ = true := by decide +kernel
  have hclosing : isClosing ⟨"<a b=\"/\" / >", "a", ⟨0, 12, ⟨1, 1⟩⟩⟩ = false := by decide +kernel
  have halike := (closesAlike_iff htag hstop).1 ⟨fun _ => ⟨hclosing, _, hrest⟩, fun _ => hself⟩
  exact ⟨htag, hstop, fun place blanks hslash => (halike place blanks hslash).2.2⟩

end TagLint.Tag
