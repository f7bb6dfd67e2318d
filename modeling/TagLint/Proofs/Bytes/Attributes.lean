import TagLint.Proofs.Attribute.AttributeReader
import TagLint.Proofs.Attribute.Segment
import TagLint.Proofs.Attribute.Value
import TagLint.Proofs.Bytes.Script

/-!
# Attributes, read byte by byte

- `occurrencesOf`: what occurs among the attributes of a tag, read over bytes and indices. The tag
  may have any text.
- `At.skipValue`, `At.exists_segmentAt`: what a value and a segment take at a place.
- `occurrencesOf_eq`: the reading does not fail, and finds what `Tag.occurrences` finds. White space
  behind a name is passed over before it is known whether `=` follows. So the reader of bytes may be
  further on than the reader of segments, but nothing occurs in between.
-/

namespace TagLint.Bytes

open Text (byteSize isSpace isNameChar isTagNameChar)
open Attribute (isBare quotedTail valueLength assignmentLength)

/-! ### Over bytes -/

/-- The index behind a character, if it stands at an index. -/
def skipOptional (bytes : List UInt8) (c : Char) (i : Nat) : Checked Nat :=
  if peek bytes i = some c then add i 1 else .ok i

/-- The index behind the white space at an index. -/
def skipSpace (bytes : List UInt8) (i : Nat) : Checked Nat :=
  (skipWhile isSpace).run bytes () i

/-- The index behind the name of a tag. -/
def skipTagName (bytes : List UInt8) : Checked Nat := do
  let name ← skipOptional bytes '/' (← skipOptional bytes '<' 0)
  (skipWhile isTagNameChar).run bytes () name

/-- Goes to the end of a quoted value. -/
def quoted (quote : Char) (size : Nat) : Loop Unit Nat where
  step _ i c := .ok <|
    if c = '\\' then .go () (i + 2)
    else if c = quote then .stop (i + 1)
    else .go () (i + 1)
  finish _ _ := .ok size

/-- The index behind the quoted value whose quote is at an index. -/
def skipQuoted (bytes : List UInt8) (start : Nat) : Checked Nat := do
  let quote ← byteAt bytes start
  (quoted quote bytes.length).run bytes () (← add start 1)

/-- The index behind the value at an index. -/
def skipValue (bytes : List UInt8) (i : Nat) : Checked Nat :=
  match peek bytes i with
  | some c =>
    if c = '"' ∨ c = '\'' then skipQuoted bytes i
    else if c = '{' then skipBraced bytes i
    else (skipWhile isBare).run bytes () i
  | none => .ok i

/-- The index behind the assignment at an index, or behind the white space if there is none. -/
def skipAssignment (bytes : List UInt8) (start : Nat) : Checked Nat := do
  let i ← skipSpace bytes start
  if peek bytes i = some '=' then skipValue bytes (← skipSpace bytes (← add i 1)) else return i

/-- Whether the slash at an index belongs to the end of the tag. -/
def endsTagAt (bytes : List UInt8) (i : Nat) : Checked Bool := do
  let behind ← sliceFrom bytes (← add i 1)
  return (behind.find? (!isSpace ·)).all (· = '>')

section Tag

variable (base : Nat) (text : List Char)

/-- The attribute whose name is at an index. -/
def declarationAt (i : Nat) : Checked (Occurrence × Option Nat) := do
  let stop ← (skipWhile isNameChar).run (utf8 text) () i
  let name ← slice text i stop
  let offset ← add base i
  let behind ← skipAssignment (utf8 text) stop
  return (.declared ⟨String.ofList name, offset⟩, some behind)

/-- The character out of place at an index. -/
def strayAt (i : Nat) : Checked (Occurrence × Option Nat) := do
  let offset ← add base i
  let rest ← suffix text i
  let found ← rest.head?.elim (.error .noCharacter) .ok
  let behind ← add i found.utf8Size
  return (.stray found offset, some behind)

/-- What is done with the segment at an index, where the byte `c` stands, which is not white
space. -/
def segmentAt (i : Nat) (c : Char) : Checked (Move Unit (Found Occurrence)) :=
  if c = '>' then .ok (.stop none)
  else if c = '/' then do
    if ← endsTagAt (utf8 text) i then return .stop none
    else return .stop (some (← strayAt base text i))
  else if c = '{' then do return .go () (← skipBraced (utf8 text) i)
  else if isNameChar c then do return .stop (some (← declarationAt base text i))
  else do return .stop (some (← strayAt base text i))

/-- Goes to the next occurrence. -/
def occurrence : Loop Unit (Found Occurrence) where
  step _ start _ := do
    let i ← skipSpace (utf8 text) start
    match peek (utf8 text) i with
    | some c => segmentAt base text i c
    | none => return .stop none
  finish _ _ := .ok none

end Tag

/-- What occurs among the attributes of a tag. -/
def occurrencesOf (tag : Tag) : Checked (List Occurrence) := do
  let bytes := utf8 tag.text.toList
  drain ((occurrence tag.span.start tag.text.toList).run bytes ()) bytes.length
    (← skipTagName bytes)

/-! ### Classes -/

variable {text rest : List Char} {i : Nat} {c d quote : Char}

/-- The characters of names are ASCII. -/
theorem toNat_lt_of_isTagNameChar (h : isTagNameChar c = true) : c.toNat < 128 := by
  have hlt {last : UInt32} (hle : c.val ≤ last) (hlast : last.toNat < 128) : c.toNat < 128 :=
    Nat.lt_of_le_of_lt (UInt32.le_iff_toNat_le.1 hle) hlast
  rw [isTagNameChar, isNameChar, Char.isAlphanum] at h
  simp only [Bool.or_eq_true, decide_eq_true_eq] at h
  rcases h with ((((halpha | hdigit) | rfl) | rfl) | rfl) | rfl
  · rcases Bool.or_eq_true_iff.1 halpha with hupper | hlower
    · exact hlt (of_decide_eq_true hupper).2 (by decide)
    · exact hlt (of_decide_eq_true (Bool.and_eq_true_iff.1 hlower).2) (by decide)
  · exact hlt (of_decide_eq_true (Bool.and_eq_true_iff.1 hdigit).2) (by decide)
  all_goals decide

theorem isTagNameChar_of_le (hc : 128 ≤ c.toNat) : isTagNameChar c = false := by
  rw [Bool.eq_false_iff]
  intro h
  have := toNat_lt_of_isTagNameChar h
  omega

theorem isNameChar_of_le (hc : 128 ≤ c.toNat) : isNameChar c = false := by
  have h := isTagNameChar_of_le hc
  rw [isTagNameChar, Bool.or_eq_false_iff] at h
  exact h.1

theorem isSpace_of_le (hc : 128 ≤ c.toNat) : isSpace c = false := by
  have hne {a : Char} (ha : a.toNat < 128) : c ≠ a := ne_of_le_toNat hc ha
  simp [isSpace, hne]

theorem uniform_isTagNameChar : Uniform isTagNameChar :=
  ⟨false, fun _ => isTagNameChar_of_le⟩

theorem uniform_isNameChar : Uniform isNameChar :=
  ⟨false, fun _ => isNameChar_of_le⟩

theorem uniform_isSpace : Uniform isSpace :=
  ⟨false, fun _ => isSpace_of_le⟩

theorem uniform_isBare : Uniform isBare := by
  refine ⟨true, fun c hc => ?_⟩
  rw [isBare, isSpace_of_le hc, bne_iff_ne.2 (ne_of_le_toNat hc (by decide))]
  rfl

/-! ### Values -/

/-- White space at a place is skipped whole. -/
theorem At.skipSpace (h : At text i rest) :
    Bytes.skipSpace (utf8 text) i = .ok (ahead i rest (rest.takeWhile isSpace).length) :=
  h.run_skipWhile uniform_isSpace

theorem quoted_passes (hq : quote = '"' ∨ quote = '\'') (size : Nat) :
    (quoted quote size).Passes () := by
  intro i c hc
  have hquote : c ≠ quote := by
    rcases hq with rfl | rfl
    · exact ne_of_le_toNat hc (by decide)
    · exact ne_of_le_toNat hc (by decide)
  show Except.ok (if c = '\\' then _ else if c = quote then _ else _) = _
  rw [if_neg (ne_of_le_toNat hc (by decide)), if_neg hquote]

/-- A quoted value is read to its end. -/
theorem At.run_quoted (h : At text i rest) (hq : quote = '"' ∨ quote = '\'') :
    (quoted quote (utf8 text).length).run (utf8 text) () i =
      .ok (ahead i rest (quotedTail quote rest)) := by
  have hne : quote ≠ '\\' ∧ quote.toNat < 128 := by
    rcases hq with rfl | rfl <;> decide
  have hpasses := quoted_passes hq (utf8 text).length
  have hend {i : Nat} (h : At text i []) : (utf8 text).length = i := by
    rw [length_utf8, ← h.add_byteSize]
    rfl
  induction hn : rest.length using Nat.strongRecOn generalizing i rest with
  | ind n ih =>
    subst hn
    cases rest with
    | nil =>
      rw [h.run_end, quotedTail, Attribute.quotedTail_go_nil]
      exact congrArg Except.ok (hend h)
    | cons c rest =>
      by_cases hslash : c = '\\'
      · subst hslash
        rw [h.run_escape hpasses rfl (fun _ _ => rfl)]
        cases rest with
        | nil =>
          rw [(h.drop 2).run_end, quotedTail, Attribute.quotedTail_go_last]
          exact congrArg Except.ok (hend (h.drop 2))
        | cons d rest =>
          rw [Attribute.quotedTail_pair, ← ahead_ahead,
            ih rest.length (by simp only [List.length_cons]; omega) (h.drop 2) rfl]
          rfl
      by_cases hquote : c = quote
      · subst hquote
        have hstop : (quoted c (utf8 text).length).step () i c = .ok (.stop (i + 1)) := by
          show Except.ok (if c = '\\' then _ else if c = c then _ else _) = _
          rw [if_neg hslash, if_pos rfl]
        rw [Loop.run_stop (h.peek hne.2) hstop, Attribute.quotedTail_quote hslash, ahead_succ,
          utf8Size_of_lt hne.2]
        rfl
      · have hstep : (quoted quote (utf8 text).length).step () i c = .ok (.go () (i + 1)) := by
          show Except.ok (if c = '\\' then _ else if c = quote then _ else _) = _
          rw [if_neg hslash, if_neg hquote]
        rw [h.run_over hpasses hstep, Attribute.quotedTail_single hslash hquote,
          ih rest.length (Nat.lt_succ_self _) h.next rfl, Nat.add_comm 1, ahead_succ]

/-- A value at a place is skipped whole. -/
theorem At.skipValue (h : At text i rest) :
    Bytes.skipValue (utf8 text) i = .ok (ahead i rest (valueLength rest)) := by
  cases rest with
  | nil =>
    rw [Bytes.skipValue, h.peek_nil]
    rfl
  | cons c rest =>
    obtain ⟨d, hpeek, hd⟩ := h.exists_byte
    have hquotes : d = '"' ∨ d = '\'' ↔ c = '"' ∨ c = '\'' :=
      or_congr (hd.eq_iff (by decide)) (hd.eq_iff (by decide))
    have hbraces : d = '{' ↔ c = '{' := hd.eq_iff (by decide)
    rw [Bytes.skipValue, hpeek]
    simp only [hquotes, hbraces]
    rw [valueLength]
    simp only [Bool.or_eq_true, decide_eq_true_eq]
    by_cases hquote : c = '"' ∨ c = '\''
    · have hc : c.toNat < 128 := by
        rcases hquote with rfl | rfl <;> decide
      rw [if_pos hquote, if_pos hquote, skipQuoted, h.byteAt hc, ok_bind,
        h.add_one, ok_bind, (h.next_of_lt hc).run_quoted hquote, Nat.add_comm 1,
        ahead_succ, utf8Size_of_lt hc]
    rw [if_neg hquote, if_neg hquote]
    by_cases hbrace : c = '{'
    · subst hbrace
      rw [if_pos rfl, if_pos rfl, h.skipBraced, Nat.add_comm 1, ahead_succ]
      rfl
    · rw [if_neg hbrace, if_neg hbrace, h.run_skipWhile uniform_isBare]

/-- An assignment at a place is skipped whole. Where there is none, white space is. -/
theorem At.exists_skipAssignment (h : At text i rest) :
    ∃ n, Bytes.skipAssignment (utf8 text) i = .ok (ahead i rest n) ∧
      (n = assignmentLength rest ∨
        assignmentLength rest = 0 ∧ n = (rest.takeWhile isSpace).length) := by
  have hbehind := h.drop (rest.takeWhile isSpace).length
  have hdrop := Text.drop_length_takeWhile isSpace rest
  rw [hdrop] at hbehind
  rw [Bytes.skipAssignment, h.skipSpace, ok_bind]
  by_cases hassign : (rest.dropWhile isSpace).head? = some '='
  · obtain ⟨more, hmore⟩ := List.head?_eq_some_iff.1 hassign
    rw [hmore] at hbehind hdrop
    have hvalue := (hbehind.next_of_lt (by decide)).drop (more.takeWhile isSpace).length
    rw [Text.drop_length_takeWhile] at hvalue
    have hsign : ahead i rest ((rest.takeWhile isSpace).length + 1) =
        ahead i rest (rest.takeWhile isSpace).length + 1 := by
      rw [← ahead_ahead, hdrop, ahead_succ]
      rfl
    have hrest : rest.drop ((rest.takeWhile isSpace).length + 1) = more := by
      rw [← List.drop_drop, hdrop]
      rfl
    refine ⟨assignmentLength rest, ?_, .inl rfl⟩
    rw [if_pos (hbehind.peek (by decide)), hbehind.add_one, ok_bind,
      (hbehind.next_of_lt (by decide)).skipSpace, ok_bind, hvalue.skipValue,
      Attribute.assignmentLength_of_dropWhile hmore, ← ahead_ahead, ← List.drop_drop,
      ← ahead_ahead i rest (_ + 1), hsign, hrest, Text.drop_length_takeWhile]
  · refine ⟨(rest.takeWhile isSpace).length, ?_, .inr ⟨?_, rfl⟩⟩
    · rw [if_neg ((hbehind.peek_eq_iff (by decide)).not.2 hassign)]
      rfl
    · exact Attribute.assignmentLength_eq_zero hassign

/-! ### Segments -/

/-- Whether a slash ends a tag is seen from the bytes behind it. -/
theorem endsTag_eq (text : List Char) :
    ((view (utf8 text)).find? (!isSpace ·)).all (· = '>') = Segment.endsTag text := by
  induction text with
  | nil => rfl
  | cons c text ih =>
    rw [Segment.endsTag, List.dropWhile_cons]
    by_cases hspace : isSpace c = true
    · have hc : c.toNat < 128 := by
        by_contra hc
        rw [isSpace_of_le (Nat.not_lt.1 hc)] at hspace
        cases hspace
      rw [view_utf8_of_lt hc, List.find?_cons, hspace, if_pos rfl]
      exact ih
    · obtain ⟨d, wide, hview, hd, -⟩ := exists_view_cons c text
      rw [hview, List.find?_cons, hd.uniform uniform_isSpace, if_neg hspace,
        Bool.eq_false_iff.2 hspace]
      exact decide_eq_decide.2 (hd.eq_iff (by decide))

theorem At.endsTagAt (h : At text i ('/' :: rest)) :
    Bytes.endsTagAt (utf8 text) i = .ok (Segment.endsTag rest) := by
  have hnext : At text (i + 1) rest := h.next_of_lt (by decide)
  rw [Bytes.endsTagAt, h.add_one, ok_bind, hnext.sliceFrom, ok_bind, endsTag_eq]
  rfl

/-- The name of a tag is skipped, with what stands in front of it. -/
theorem At.skipOptional (h : At text i rest) (hc : c.toNat < 128) :
    ∃ j, Bytes.skipOptional (utf8 text) c i = .ok j ∧ At text j (Text.dropOptional c rest) := by
  rw [Bytes.skipOptional]
  cases rest with
  | nil =>
    refine ⟨i, if_neg ?_, h⟩
    rw [h.peek_eq_iff hc]
    exact Option.some_ne_none c ∘ Eq.symm
  | cons a rest =>
    simp only [h.peek_eq_iff hc, List.head?_cons, Option.some.injEq]
    rw [Text.dropOptional]
    by_cases heq : a = c
    · subst heq
      rw [if_pos rfl, if_pos rfl, h.add_one]
      exact ⟨i + 1, rfl, h.next_of_lt hc⟩
    · rw [if_neg heq, if_neg heq]
      exact ⟨i, rfl, h⟩

theorem exists_skipTagName (h : byteSize text ≤ maxTextSize) :
    ∃ i, skipTagName (utf8 text) = .ok i ∧ At text i (Tag.afterName text) := by
  obtain ⟨i, hi, hslash⟩ := (At.start h).skipOptional (c := '<') (by decide)
  obtain ⟨j, hj, hname⟩ := hslash.skipOptional (c := '/') (by decide)
  have hafter := hname.drop ((Tag.afterOpener text).takeWhile isTagNameChar).length
  rw [Tag.afterOpener, Text.drop_length_takeWhile] at hafter
  refine ⟨_, ?_, hafter⟩
  rw [skipTagName, hi, ok_bind, hj, ok_bind, hname.run_skipWhile uniform_isTagNameChar]

variable {base : Nat}

/-- What occurs from a place of a tag on, whose text stands at `base`. -/
def occurrencesAt (base i : Nat) (rest : List Char) : List Occurrence :=
  (⟨base + i, rest⟩ : AttributeReader).occurrences

/-- Nothing occurs where no segment stands. -/
theorem occurrencesAt_nil (base i : Nat) : occurrencesAt base i [] = [] :=
  AttributeReader.occurrences_of_none rfl

theorem occurrencesAt_of_none (hfront : Segment.front? c rest = none) :
    occurrencesAt base i (c :: rest) = [] := by
  refine AttributeReader.occurrences_of_none ?_
  show (Segment.front? c rest).map _ = none
  rw [hfront]
  rfl

/-- What occurs with the segment at a place comes before what occurs behind it. -/
theorem occurrencesAt_of_front? {segment : Segment} (hfront : Segment.front? c rest = some segment) :
    occurrencesAt base i (c :: rest) = (segment.occurrence? (base + i)).toList ++
      occurrencesAt base (ahead i (c :: rest) segment.text.length)
        ((c :: rest).drop segment.text.length) := by
  have hsegment : (⟨base + i, c :: rest⟩ : AttributeReader).segment? =
      some (segment, (⟨base + i, c :: rest⟩ : AttributeReader).advance segment) :=
    AttributeReader.segment?_eq_some_iff.2 ⟨c, rest, rfl, hfront, rfl⟩
  have hoffset : base + i + byteSize segment.text =
      base + ahead i (c :: rest) segment.text.length := by
    rw [ahead, ← List.prefix_iff_eq_take.1 (Segment.text_prefix hfront), Nat.add_assoc]
  rw [occurrencesAt, AttributeReader.occurrences_of_some hsegment, AttributeReader.advance,
    hoffset]
  rfl

/-- Nothing occurs in white space. -/
theorem occurrencesAt_space (base i : Nat) (rest : List Char) :
    occurrencesAt base i rest = occurrencesAt base (ahead i rest (rest.takeWhile isSpace).length)
      (rest.dropWhile isSpace) := by
  cases rest with
  | nil => rfl
  | cons c rest =>
    by_cases hspace : isSpace c = true
    · have hfront : Segment.front? c rest = some (.blank (c :: rest.takeWhile isSpace)) := by
        rw [Segment.front?, if_pos hspace]
      have htext : (Segment.blank (c :: rest.takeWhile isSpace)).text =
          (c :: rest).takeWhile isSpace := (List.takeWhile_cons_of_pos hspace).symm
      rw [occurrencesAt_of_front? hfront, htext, Text.drop_length_takeWhile]
      rfl
    · rw [List.takeWhile_cons_of_neg hspace, List.dropWhile_cons_of_neg hspace]
      rfl

/-- The index of a place of a tag is in range where the tag stands. -/
theorem At.add_base (h : At text i rest) (hbase : base + byteSize text ≤ maxSize) :
    add base i = .ok (base + i) := by
  have := h.add_byteSize
  exact Bytes.add_eq_ok (by omega)

/-- An attribute at a place is found, with what assigns its value. -/
theorem At.exists_declarationAt (h : At text i (c :: rest)) (hbase : base + byteSize text ≤ maxSize)
    (hname : isNameChar c = true) (hfront : Segment.front? c rest = some (.ofName c rest)) :
    ∃ answer, Bytes.declarationAt base text i = .ok answer ∧
      Finds text (occurrencesAt base) i (c :: rest) (some answer) := by
  -- the name, and what stands behind it
  obtain ⟨name, hword⟩ : ∃ name, c :: rest.takeWhile isNameChar = name := ⟨_, rfl⟩
  obtain ⟨more, hmore⟩ : ∃ more, rest.dropWhile isNameChar = more := ⟨_, rfl⟩
  have hrun : (c :: rest).takeWhile isNameChar = name := by
    rw [List.takeWhile_cons_of_pos hname, hword]
  have htake : (c :: rest).take name.length = name := by
    rw [← hrun, Text.take_length_takeWhile]
  have hdrop : (c :: rest).drop name.length = more := by
    rw [← hrun, Text.drop_length_takeWhile, List.dropWhile_cons_of_pos hname, hmore]
  have hbehind := h.drop name.length
  rw [hdrop] at hbehind
  obtain ⟨n, hskip, hn⟩ := hbehind.exists_skipAssignment
  refine ⟨(.declared ⟨String.ofList name, base + i⟩,
    some (ahead (ahead i (c :: rest) name.length) more n)), ?_, ?_, more.drop n, hbehind.drop n, ?_⟩
  · rw [Bytes.declarationAt, h.run_skipWhile uniform_isNameChar, hrun, ok_bind, h.slice, ok_bind,
      htake, h.add_base hbase, ok_bind, hskip]
    rfl
  · have hlt : i < ahead i (c :: rest) name.length := lt_ahead i c rest (hword ▸ Nat.succ_pos _)
    exact Nat.lt_of_lt_of_le hlt (le_ahead ..)
  · have hlength : (Segment.ofName c rest).text.length =
        name.length + (more.take (assignmentLength more)).length := by
      rw [← hword, ← hmore, ← List.length_append]
      rfl
    have hoccurs : ((Segment.ofName c rest).occurrence? (base + i)).toList =
        [.declared ⟨String.ofList name, base + i⟩] := by
      rw [← hword]
      rfl
    rw [occurrencesAt_of_front? hfront, hoccurs, hlength, ← ahead_ahead, ← List.drop_drop, hdrop,
      ahead_length_take, drop_length_take]
    -- white space that is passed over without `=` holds nothing
    rcases hn with rfl | ⟨hnone, rfl⟩
    · rfl
    · rw [hnone, ahead_zero, List.drop_zero, occurrencesAt_space, Text.drop_length_takeWhile]
      rfl

/-- A character out of place is found. -/
theorem At.exists_strayAt (h : At text i (c :: rest)) (hbase : base + byteSize text ≤ maxSize)
    (hfront : Segment.front? c rest = some (.stray c)) :
    ∃ answer, Bytes.strayAt base text i = .ok answer ∧
      Finds text (occurrencesAt base) i (c :: rest) (some answer) := by
  have hsize : c.utf8Size ≤ maxTextSize := Nat.le_trans c.utf8Size_le_four (by decide)
  refine ⟨(.stray c (base + i), some (i + c.utf8Size)), ?_, ?_, rest, h.next, ?_⟩
  · rw [Bytes.strayAt, h.add_base hbase, ok_bind, h.suffix, ok_bind, List.head?_cons,
      Option.elim_some, ok_bind, h.add_eq_ok hsize]
    rfl
  · exact Nat.lt_add_of_pos_right c.utf8Size_pos
  · rw [occurrencesAt_of_front? hfront]
    rfl

/-- What a move of the reader finds at a place. -/
def Continues (base : Nat) (text : List Char) (i : Nat) (rest : List Char) :
    Move Unit (Found Occurrence) → Prop
  | .stop answer => Finds text (occurrencesAt base) i rest answer
  | .go () j => i < j ∧ ∃ behind, At text j behind ∧
    occurrencesAt base i rest = occurrencesAt base j behind

/-- The segment at a place is read as it stands. -/
theorem At.exists_segmentAt (h : At text i (c :: rest)) (hbase : base + byteSize text ≤ maxSize)
    (hspace : isSpace c = false) :
    ∃ move, Bytes.segmentAt base text i c = .ok move ∧
      Continues base text i (c :: rest) move := by
  have hfront : Segment.front? c rest = if c = '>' then none
      else if c = '/' && Segment.endsTag rest then none
      else if c = '{' then some (.spread (c :: rest.take (Script.bracedTail rest)))
      else if isNameChar c then some (.ofName c rest) else some (.stray c) := by
    rw [Segment.front?, if_neg (Bool.eq_false_iff.1 hspace)]
  rw [Bytes.segmentAt]
  by_cases hclose : c = '>'
  · rw [if_pos hclose] at hfront ⊢
    exact ⟨_, rfl, occurrencesAt_of_none hfront⟩
  rw [if_neg hclose] at hfront ⊢
  by_cases hslash : c = '/'
  · subst hslash
    rw [if_pos rfl, h.endsTagAt, ok_bind]
    cases hends : Segment.endsTag rest with
    | true =>
      rw [hends] at hfront
      exact ⟨_, rfl, occurrencesAt_of_none hfront⟩
    | false =>
      rw [hends] at hfront
      obtain ⟨answer, hanswer, hfinds⟩ := h.exists_strayAt hbase hfront
      refine ⟨.stop (some answer), ?_, hfinds⟩
      rw [if_neg Bool.false_ne_true, hanswer]
      rfl
  rw [decide_eq_false hslash, Bool.false_and, if_neg Bool.false_ne_true] at hfront
  rw [if_neg hslash]
  by_cases hbrace : c = '{'
  · subst hbrace
    rw [if_pos rfl] at hfront ⊢
    have hbehind := (h.next_of_lt (by decide)).drop (Script.bracedTail rest)
    refine ⟨.go () (ahead (i + 1) rest (Script.bracedTail rest)), ?_, le_ahead (i + 1) .., _,
      hbehind, ?_⟩
    · rw [h.skipBraced]
      rfl
    · rw [occurrencesAt_of_front? hfront, Segment.text, List.length_cons, ahead_succ,
        List.drop_succ_cons, ahead_length_take, drop_length_take]
      rfl
  rw [if_neg hbrace] at hfront ⊢
  by_cases hname : isNameChar c = true
  · rw [if_pos hname] at hfront ⊢
    obtain ⟨answer, hanswer, hfinds⟩ := h.exists_declarationAt hbase hname hfront
    refine ⟨.stop (some answer), ?_, hfinds⟩
    rw [hanswer]
    rfl
  · rw [if_neg hname] at hfront ⊢
    obtain ⟨answer, hanswer, hfinds⟩ := h.exists_strayAt hbase hfront
    refine ⟨.stop (some answer), ?_, hfinds⟩
    rw [hanswer]
    rfl

theorem segmentAt_congr (hd : StandsFor d c) (base : Nat) (text : List Char) (i : Nat) :
    segmentAt base text i d = segmentAt base text i c := by
  simp only [segmentAt, hd.eq_iff (show '>'.toNat < 128 by decide),
    hd.eq_iff (show '/'.toNat < 128 by decide), hd.eq_iff (show '\x7b'.toNat < 128 by decide),
    hd.uniform uniform_isNameChar]

/-! ### Occurrences -/

/-- The next occurrence is found at every place, or in front of another one. -/
theorem At.proceeds_occurrence (h : At text i rest) (hbase : base + byteSize text ≤ maxSize) :
    Proceeds text (occurrencesAt base) ((occurrence base text).run (utf8 text) ()) i rest := by
  cases rest with
  | nil => exact .inl ⟨none, h.run_end (), occurrencesAt_nil base i⟩
  | cons c rest =>
    obtain ⟨d, hpeek, -⟩ := h.exists_byte
    -- behind the white space stands a segment, or the end
    have hskip := h.skipSpace
    have hsame := occurrencesAt_space base i (c :: rest)
    have hle := le_ahead i (c :: rest) ((c :: rest).takeWhile isSpace).length
    have hbehind := h.drop ((c :: rest).takeWhile isSpace).length
    have hends := Text.ends_dropWhile isSpace (c :: rest)
    rw [Text.drop_length_takeWhile] at hbehind
    generalize ahead i (c :: rest) ((c :: rest).takeWhile isSpace).length = j at *
    generalize (c :: rest).dropWhile isSpace = behind at *
    have hstep : (occurrence base text).step () i d = (match Bytes.peek (utf8 text) j with
        | some c => segmentAt base text j c
        | none => return .stop none) := by
      show (Bytes.skipSpace (utf8 text) i >>= _) = _
      rw [hskip, ok_bind]
    cases behind with
    | nil =>
      rw [hbehind.peek_nil] at hstep
      exact .inl ⟨none, Loop.run_stop hpeek hstep, hsame.trans (occurrencesAt_nil base j)⟩
    | cons a more =>
      obtain ⟨b, hpeekBehind, hb⟩ := hbehind.exists_byte
      obtain ⟨move, hmove, hcontinues⟩ := hbehind.exists_segmentAt hbase (hends a rfl)
      rw [hpeekBehind] at hstep
      have hstep := hstep.trans ((segmentAt_congr hb base text j).trans hmove)
      cases move with
      | stop answer =>
        exact .inl ⟨answer, Loop.run_stop hpeek hstep, hcontinues.of_eq hle hsame⟩
      | go state k =>
        obtain ⟨hlt, next, hnext, hoccurs⟩ := hcontinues
        have hik := Nat.lt_of_le_of_lt hle hlt
        refine .inr ⟨k, next, hik, hnext, ?_, hsame.trans hoccurs⟩
        exact Loop.run_go hpeek hstep hik hnext.le_maxSize

/-- **The attributes of every tag are read**, whatever its text is, if it ends in range. -/
theorem occurrencesOf_eq {tag : Tag} (htext : byteSize tag.text.toList ≤ maxTextSize)
    (hbase : tag.span.start + byteSize tag.text.toList ≤ maxSize) :
    occurrencesOf tag = .ok tag.occurrences := by
  obtain ⟨i, hskip, hname⟩ := exists_skipTagName htext
  have hsize := hname.add_byteSize
  have hall : occurrencesAt tag.span.start i (Tag.afterName tag.text.toList) = tag.occurrences := by
    rw [occurrencesAt, Tag.occurrences, AttributeReader.ofTag, AttributeReader.ofText]
    congr 2
    omega
  show (skipTagName (utf8 tag.text.toList) >>= _) = _
  rw [hskip, ok_bind, hname.drain fun h => h.exists_found fun h => h.proceeds_occurrence hbase, hall]

end TagLint.Bytes
