import TagLint.Proofs.Bytes.Attributes
import TagLint.Proofs.Tag.LineEnds

/-!
# Tags, read byte by byte

- `scanTag`: where a tag ends, read over bytes and indices with a stack of what is open.
- `insideTag_step_cases`: what one iteration of the loop does to the stack and the index.
- `stackOf`: the stack at a place. It is never empty, and the tag itself stays at its bottom.
- `makes_of_step`: the loop makes the steps of the reading over characters.
- `At.runInside_eq`, `At.scanTag`: the reading does not fail, and ends where `tagLength` ends.
- `tagName_eq`: a tag has the name that its bytes have.
-/

namespace TagLint.Bytes

open Text (byteSize isTagNameChar)

/-! ### Over bytes -/

/-- What may be open inside a tag. -/
inductive Open where
  /-- The tag. -/
  | tag
  /-- A quoted value. -/
  | quote (quote : Char)
  /-- A braced expression. -/
  | brace
  deriving DecidableEq, Repr

/-- What is open, the innermost first, and where it was opened. -/
abbrev Stack := List (Open × Nat)

/-- Goes to the end of a tag. Answers with the index behind it, or with what is open at the end of
the bytes. -/
def insideTag (bytes : List UInt8) : Loop Stack (Except (Open × Nat) Nat) where
  step stack i c :=
    match stack with
    | [] => .error .noneOpen
    | (.tag, _) :: _ => .ok <|
      if c = '>' then .stop (.ok (i + 1))
      else if c = '\\' then .go stack (i + 2)
      else if c = '"' ∨ c = '\'' then .go ((.quote c, i) :: stack) (i + 1)
      else if c = '{' then .go ((.brace, i) :: stack) (i + 1)
      else .go stack (i + 1)
    | (.quote quote, _) :: outer => .ok <|
      if c = '\\' then .go stack (i + 2)
      else if c = quote then .go outer (i + 1)
      else .go stack (i + 1)
    | (.brace, _) :: outer =>
      if c = '{' then .ok (.go ((.brace, i) :: stack) (i + 1))
      else if c = '}' then .ok (.go outer (i + 1))
      else do
        match ← skipAtom bytes i c with
        | some behind => return .go stack behind
        | none => return .go stack (i + 1)
  finish stack _ :=
    match stack with
    | [] => .error .noneOpen
    | innermost :: _ => .ok (.error innermost)

/-- The index behind the tag whose `<` is at an index, or what the bytes leave open of it. -/
def scanTag (bytes : List UInt8) (start : Nat) : Checked (Except (Open × Nat) Nat) := do
  (insideTag bytes).run bytes [(.tag, start)] (← add start 1)

/-- The name of the tag at the front of a text. -/
def tagName (text : List Char) : Checked (List Char) :=
  let rest := Tag.afterOpener text
  slice rest 0 ((view (utf8 rest)).takeWhile isTagNameChar).length

/-! ### Iterations -/

/-- What an iteration that goes on does to the stack: it keeps it, puts the opener that it reads on
top, or takes off what the character closes. -/
inductive Change (i : Nat) (c : Char) : Stack → Stack → Prop
  | keeps (stack : Stack) : Change i c stack stack
  | opensQuote {opened : Nat} {outer : Stack} : c = '"' ∨ c = '\'' →
    Change i c ((.tag, opened) :: outer) ((.quote c, i) :: (.tag, opened) :: outer)
  | opensBrace {innermost : Open × Nat} {outer : Stack} : c = '{' →
    innermost.1 = .tag ∨ innermost.1 = .brace →
    Change i c (innermost :: outer) ((.brace, i) :: innermost :: outer)
  | closes {innermost : Open × Nat} {outer : Stack} :
    innermost.1 = .quote c ∨ innermost.1 = .brace ∧ c = '}' →
    Change i c (innermost :: outer) outer

/-- An iteration answers where a `>` stands and the tag is innermost, or it goes on behind a byte,
two bytes or an atom. -/
theorem insideTag_step_cases {bytes : List UInt8} {i : Nat} {c : Char} {stack : Stack}
    {move : Move Stack (Except (Open × Nat) Nat)}
    (h : (insideTag bytes).step stack i c = .ok move) :
    (∃ opened outer, stack = (.tag, opened) :: outer ∧ c = '>' ∧ move = .stop (.ok (i + 1))) ∨
    ∃ next j, move = .go next j ∧ Change i c stack next ∧
      (j = i + 1 ∨ j = i + 2 ∨ skipAtom bytes i c = .ok (some j)) := by
  match stack with
  | [] => cases h
  | (.tag, opened) :: outer =>
    have hmove : (insideTag bytes).step ((.tag, opened) :: outer) i c = .ok (
      if c = '>' then .stop (.ok (i + 1))
      else if c = '\\' then .go ((.tag, opened) :: outer) (i + 2)
      else if c = '"' ∨ c = '\'' then .go ((.quote c, i) :: (.tag, opened) :: outer) (i + 1)
      else if c = '{' then .go ((.brace, i) :: (.tag, opened) :: outer) (i + 1)
      else .go ((.tag, opened) :: outer) (i + 1)) := rfl
    cases hmove.symm.trans h
    split
    case isTrue hclose => exact .inl ⟨opened, outer, rfl, hclose, rfl⟩
    split
    case isTrue => exact .inr ⟨_, _, rfl, .keeps _, .inr (.inl rfl)⟩
    split
    case isTrue hquote => exact .inr ⟨_, _, rfl, .opensQuote hquote, .inl rfl⟩
    split
    case isTrue hbrace => exact .inr ⟨_, _, rfl, .opensBrace hbrace (.inl rfl), .inl rfl⟩
    case isFalse => exact .inr ⟨_, _, rfl, .keeps _, .inl rfl⟩
  | (.quote quote, opened) :: outer =>
    have hmove : (insideTag bytes).step ((.quote quote, opened) :: outer) i c = .ok (
      if c = '\\' then .go ((.quote quote, opened) :: outer) (i + 2)
      else if c = quote then .go outer (i + 1)
      else .go ((.quote quote, opened) :: outer) (i + 1)) := rfl
    cases hmove.symm.trans h
    right
    split
    case isTrue => exact ⟨_, _, rfl, .keeps _, .inr (.inl rfl)⟩
    split
    case isTrue hquote => exact ⟨_, _, rfl, .closes (.inl (by rw [hquote])), .inl rfl⟩
    case isFalse => exact ⟨_, _, rfl, .keeps _, .inl rfl⟩
  | (.brace, opened) :: outer =>
    right
    by_cases hopen : c = '{'
    · subst hopen
      cases h
      exact ⟨_, _, rfl, .opensBrace rfl (.inr rfl), .inl rfl⟩
    by_cases hclose : c = '}'
    · subst hclose
      cases h
      exact ⟨_, _, rfl, .closes (.inr ⟨rfl, rfl⟩), .inl rfl⟩
    · simp only [insideTag, if_neg hopen, if_neg hclose] at h
      match hskip : skipAtom bytes i c with
      | .error failure => rw [hskip] at h; cases h
      | .ok none => rw [hskip] at h; cases h; exact ⟨_, _, rfl, .keeps _, .inl rfl⟩
      | .ok (some behind) =>
        rw [hskip] at h
        cases h
        exact ⟨_, _, rfl, .keeps _, .inr (.inr rfl)⟩

/-! ### Stacks -/

/-- What is open innermost. -/
def openOf : Nesting → Open
  | .tag => .tag
  | .quoted quote _ => .quote quote
  | .braced _ _ => .brace

variable (index : Nat → Nat)

/-- The stack at a place inside a tag whose places have these indices. -/
def stackOf : Nesting → Stack
  | .tag => [(.tag, index 0)]
  | .quoted quote opened => [(.quote quote, index opened), (.tag, index 0)]
  | .braced opened outer =>
    (.brace, index opened) :: (outer.map fun place => (Open.brace, index place)) ++
      [(.tag, index 0)]

theorem stackOf_ofOuter (outer : List Nat) : stackOf index (.ofOuter outer) =
    (outer.map fun place => (Open.brace, index place)) ++ [(.tag, index 0)] := by
  cases outer <;> rfl

/-- The innermost thing that is open is on top of the stack. -/
theorem exists_stackOf_eq (nest : Nesting) :
    ∃ outer, stackOf index nest = (openOf nest, index nest.opened) :: outer := by
  cases nest with
  | tag => exact ⟨_, rfl⟩
  | quoted quote opened => exact ⟨_, rfl⟩
  | braced opened outer => exact ⟨_, rfl⟩

/-! ### Steps -/

variable {text rest : List Char} {i start place tail : Nat} {c : Char} {nest next : Nesting}
  {index : Nat → Nat} {bytes : List UInt8}

/-- Characters that mean nothing are passed over. -/
theorem insideTag_passes (h : nest.IsProper) : (insideTag bytes).Passes (stackOf index nest) := by
  intro i c hc
  have hne {a : Char} (ha : a.toNat < 128) : c ≠ a := ne_of_le_toNat hc ha
  cases nest with
  | tag =>
    have hquotes : ¬(c = '"' ∨ c = '\'') := by
      rintro (heq | heq)
      · exact hne (by decide) heq
      · exact hne (by decide) heq
    show Except.ok (if c = '>' then _ else if c = '\\' then _ else if c = '"' ∨ c = '\'' then _
      else if c = '{' then _ else _) = _
    rw [if_neg (hne (by decide)), if_neg (hne (by decide)), if_neg hquotes,
      if_neg (hne (by decide))]
  | quoted quote opened =>
    have hquote : quote.toNat < 128 := by
      rcases h with rfl | rfl <;> decide
    show Except.ok (if c = '\\' then _ else if c = quote then _ else _) = _
    rw [if_neg (hne (by decide)), if_neg (hne hquote)]
  | braced opened outer =>
    show (if c = '{' then _ else if c = '}' then _ else _) = _
    rw [if_neg (hne (by decide)), if_neg (hne (by decide)), skipAtom_of_le bytes i hc]
    rfl

/-- What stands on a stack does not depend on the index where the bytes end. -/
theorem insideTag_finish (nest : Nesting) (i : Nat) : (insideTag bytes).finish (stackOf index nest) i =
    .ok (.error (openOf nest, index nest.opened)) := by
  obtain ⟨outer, houter⟩ := exists_stackOf_eq index nest
  rw [houter]
  rfl

/-- How the loop makes a step over characters, which reads `c` with `tail` more and has `next` open
then: it goes on behind a byte, behind a backslash and a byte, or behind an atom. -/
inductive Makes (bytes : List UInt8) (index : Nat → Nat) (nest : Nesting) (i : Nat) (c : Char)
    (rest : List Char) : Nesting → Nat → Prop
  | single {next : Nesting} : c.toNat < 128 ∨ next = nest →
    (insideTag bytes).step (stackOf index nest) i c = .ok (.go (stackOf index next) (i + 1)) →
    Makes bytes index nest i c rest next 0
  | escape : c = '\\' →
    (insideTag bytes).step (stackOf index nest) i c = .ok (.go (stackOf index nest) (i + 2)) →
    Makes bytes index nest i c rest nest 1
  | atom : (insideTag bytes).step (stackOf index nest) i c = (skipAtom bytes i c >>= fun behind =>
      .ok (.go (stackOf index nest) (behind.getD (i + 1)))) →
    Makes bytes index nest i c rest nest (Script.atomTail c rest)

theorem makes_tag (hindex : index place = i)
    (hstep : Nesting.tag.step place c rest = .read next tail) :
    Makes bytes index .tag i c rest next tail := by
  rw [Nesting.step] at hstep
  by_cases hclose : c = '>'
  · rw [if_pos hclose] at hstep
    cases hstep
  rw [if_neg hclose] at hstep
  by_cases hslash : c = '\\'
  · rw [if_pos hslash] at hstep
    cases hstep
    exact .escape hslash (by simp [insideTag, stackOf, hslash])
  rw [if_neg hslash] at hstep
  by_cases hquote : c = '"' ∨ c = '\''
  · rw [if_pos (by simpa using hquote)] at hstep
    cases hstep
    have hc : c.toNat < 128 := by rcases hquote with rfl | rfl <;> decide
    exact .single (.inl hc) (by simp [insideTag, stackOf, hclose, hslash, hquote, hindex])
  rw [if_neg (by simpa using hquote)] at hstep
  by_cases hbrace : c = '{'
  · rw [if_pos hbrace] at hstep
    cases hstep
    have hc : c.toNat < 128 := by subst hbrace; decide
    exact .single (.inl hc) (by simp [insideTag, stackOf, hbrace, hindex])
  · rw [if_neg hbrace] at hstep
    cases hstep
    exact .single (.inr rfl) (by simp [insideTag, stackOf, hclose, hslash, hquote, hbrace])

theorem makes_quoted {quote : Char} {opened : Nat} (hproper : (Nesting.quoted quote opened).IsProper)
    (hstep : (Nesting.quoted quote opened).step place c rest = .read next tail) :
    Makes bytes index (.quoted quote opened) i c rest next tail := by
  rcases Nesting.step_quoted_cases hstep with
    ⟨hslash, rfl, rfl⟩ | ⟨hslash, rfl, rfl, rfl⟩ | ⟨hslash, hquote, rfl, rfl⟩
  · exact .escape hslash (by simp [insideTag, stackOf, hslash])
  · have hc : c.toNat < 128 := by rcases hproper with rfl | rfl <;> decide
    exact .single (.inl hc) (by simp [insideTag, stackOf, hslash])
  · exact .single (.inr rfl) (by simp [insideTag, stackOf, hslash, hquote])

theorem makes_braced {opened : Nat} {outer : List Nat} (hindex : index place = i)
    (hstep : (Nesting.braced opened outer).step place c rest = .read next tail) :
    Makes bytes index (.braced opened outer) i c rest next tail := by
  rcases Nesting.step_braced_cases hstep with
    ⟨rfl, rfl, rfl⟩ | ⟨rfl, rfl, rfl⟩ | ⟨hopen, hclose, rfl, rfl⟩
  · exact .single (.inl (by decide)) (by simp [insideTag, stackOf, hindex])
  · refine .single (.inl (by decide)) ?_
    rw [stackOf_ofOuter]
    rfl
  · -- an atom is passed over whole
    refine .atom ?_
    show (if c = '{' then _ else if c = '}' then _ else _) = _
    rw [if_neg hopen, if_neg hclose]
    congr 1
    funext behind
    cases behind <;> rfl

/-- The loop makes every step over characters. -/
theorem makes_of_step (hproper : nest.IsProper) (hindex : index place = i)
    (hstep : nest.step place c rest = .read next tail) :
    Makes bytes index nest i c rest next tail := by
  cases nest with
  | tag => exact makes_tag hindex hstep
  | quoted quote opened => exact makes_quoted hproper hstep
  | braced opened outer => exact makes_braced hindex hstep

/-- The reading of a tag from an index on, where `nest` is open. -/
abbrev runInside (text : List Char) (index : Nat → Nat) (nest : Nesting) (i : Nat) :
    Checked (Except (Open × Nat) Nat) :=
  (insideTag (utf8 text)).run (utf8 text) (stackOf index nest) i

namespace At

/-- A step over bytes is a step over characters. -/
theorem runInside_step (h : At text i (c :: rest)) (hproper : nest.IsProper)
    (hindex : index place = i) (hstep : nest.step place c rest = .read next tail) :
    runInside text index nest i = runInside text index next (ahead i (c :: rest) (1 + tail)) := by
  have hpasses : (insideTag (utf8 text)).Passes (stackOf index nest) := insideTag_passes hproper
  have hmakes : Makes (utf8 text) index nest i c rest next tail := makes_of_step hproper hindex hstep
  cases hmakes with
  | single hnext hloop =>
    rw [ahead_succ, ahead_zero]
    rcases hnext with hc | rfl
    · rw [utf8Size_of_lt hc]
      exact h.run_next hc hloop
    · exact h.run_over hpasses hloop
  | escape hc hloop =>
    subst hc
    refine h.run_escape hpasses hloop fun i j => ?_
    rw [insideTag_finish, insideTag_finish]
  | atom hloop => exact h.run_atom hpasses hloop

/-! ### Ends -/

/-- The index of the end of a tag that starts at an index, or what is open. -/
def endAt (start : Nat) (whole : List Char) : Except Nesting Nat → Except (Open × Nat) Nat
  | .ok stop => .ok (ahead start whole stop)
  | .error nest => .error (openOf nest, ahead start whole nest.opened)

/-- The reading of a tag ends where it ends over characters. -/
theorem runInside_eq {whole : List Char} (h : At text start whole) (hproper : nest.IsProper)
    (hrest : whole.drop place = rest) :
    runInside text (ahead start whole) nest (ahead start whole place) =
      .ok (endAt start whole (nest.finish place rest)) := by
  fun_induction Nesting.finish nest place rest with
  | case1 nest place =>
    have hend := h.drop place
    rw [hrest] at hend
    rw [runInside, hend.run_end, insideTag_finish]
    rfl
  | case2 nest place c rest hstep =>
    obtain ⟨rfl, rfl⟩ := Nesting.step_eq_finish_iff.1 hstep
    have hplace := h.drop place
    rw [hrest] at hplace
    have hstop : ahead start whole place + 1 = ahead start whole (place + 1) := by
      rw [← ahead_ahead, hrest, ahead_succ]
      rfl
    rw [endAt, ← hstop]
    exact Loop.run_stop (hplace.peek (by decide)) rfl
  | case3 nest place c rest next tail hstep ih =>
    have hplace := h.drop place
    rw [hrest] at hplace
    have hbehind : whole.drop (place + 1 + tail) = rest.drop tail := by
      rw [Nat.add_assoc, ← List.drop_drop, hrest, Nat.add_comm 1, List.drop_succ_cons]
    rw [hplace.runInside_step hproper rfl hstep, ← hrest, ahead_ahead, ← Nat.add_assoc]
    exact ih (Nesting.isProper_of_step hproper hstep) hbehind

/-- The tag at a place is read to its end. -/
theorem scanTag (h : At text i ('<' :: rest)) :
    Bytes.scanTag (utf8 text) i = .ok (endAt i ('<' :: rest) (tagLength ('<' :: rest))) := by
  rw [Bytes.scanTag, h.add_one, ok_bind]
  have hproper : Nesting.tag.IsProper := trivial
  have hrest : ('<' :: rest).drop 1 = rest := rfl
  exact h.runInside_eq hproper hrest

end At

/-! ### Names -/

/-- A tag has the name that its bytes have. -/
theorem tagName_eq (h : byteSize text ≤ maxTextSize) : tagName text = .ok (Tag.nameOf text) := by
  obtain ⟨opener, hopener⟩ := Tag.exists_append_dropOptional '<' text
  obtain ⟨slash, hslash⟩ := Tag.exists_append_dropOptional '/' (Text.dropOptional '<' text)
  have hsize : byteSize (Tag.afterOpener text) ≤ maxTextSize := by
    rw [← hopener, ← hslash, Text.byteSize_append, Text.byteSize_append] at h
    rw [Tag.afterOpener]
    omega
  obtain ⟨name, hname⟩ : ∃ name, (Tag.afterOpener text).takeWhile isTagNameChar = name := ⟨_, rfl⟩
  have htake : (Tag.afterOpener text).take name.length = name := by
    rw [← hname, Text.take_length_takeWhile]
  have hslice := (At.start hsize).slice name.length
  rw [ahead, htake, Nat.zero_add] at hslice
  rw [tagName, length_takeWhile_view uniform_isTagNameChar, hname, hslice, Tag.nameOf, hname]

end TagLint.Bytes
