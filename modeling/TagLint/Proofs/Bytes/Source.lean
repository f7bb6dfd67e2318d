import TagLint.Proofs.Bytes.Lines
import TagLint.Proofs.Bytes.Tags
import TagLint.Proofs.Markup.Piece
import TagLint.Proofs.Markup.TagReader

/-!
# Sources, read byte by byte

- `itemsOf`: the tags of a source and the fault that ends the reading, read over bytes and indices.
- `At.proceeds_nextItem`: what is read at a place is the piece that stands there.
- `itemsOf_eq`: the reading does not fail, and finds what `TagReader.items` finds. A backslash takes
  one byte along, so the index may come to stand inside a character. No slice is taken before the
  next character begins.
-/

namespace TagLint.Bytes

open Text (byteSize)

/-! ### Over bytes -/

/-- Whether some characters stand at an index. -/
def startsWith (bytes : List UInt8) (needle : List Char) (i : Nat) : Checked Bool := do
  return needle.isPrefixOf (← sliceFrom bytes i)

/-- The kind of comment that the byte `c` opens at an index. -/
def openingAt (bytes : List UInt8) (i : Nat) (c : Char) : Checked (Option CommentKind) :=
  if c = '<' then do
    return if ← startsWith bytes CommentKind.markup.opener i then some .markup else none
  else if c = '{' then do
    return if ← startsWith bytes CommentKind.script.opener i then some .script else none
  else .ok none

/-- Whether the byte `c` opens a tag at an index. -/
def opensTagAt (bytes : List UInt8) (i : Nat) (c : Char) : Checked Bool :=
  if c = '<' then do
    return (peek bytes (← add i 1)).any fun d => d.isAlpha || d = '/'
  else .ok false

section Source

variable (source : List Char) (starts : List Nat)

/-- The index behind the comment that opens at an index, if it is closed. -/
def commentStop (kind : CommentKind) (start : Nat) : Checked (Option Nat) := do
  let body ← add start kind.opener.length
  let rest ← suffix source body
  match find kind.closer (view (utf8 rest)) with
  | some place => return some (← add (← add body place) kind.closer.length)
  | none => return none

/-- The region between two indices. -/
def spanAt (start stop : Nat) : Checked Span := do
  return ⟨start, stop, ← position source starts start⟩

/-- The tag between two indices. -/
def tagAt (start stop : Nat) : Checked Tag := do
  let text ← slice source start stop
  let name ← tagName text
  let span ← spanAt source starts start stop
  return ⟨String.ofList text, String.ofList name, span⟩

/-- What is left open of the tag that starts at an index. -/
def unclosedAt (start : Nat) (innermost : Open) : Checked Unclosed := do
  let place ← position source starts start
  match innermost with
  | .tag => return .tag (String.ofList (← tagName (← suffix source start)))
  | .quote quote => return .quoted quote place
  | .brace => return .braced place

/-- The fault of something left open that opens at an index. -/
def faultAt (unclosed : Unclosed) (opened : Nat) : Checked Fault := do
  return ⟨unclosed.message, opened, ← position source starts opened⟩

/-- The tag that starts at an index, or its fault. -/
def tagItem (start : Nat) : Checked (Item × Option Nat) := do
  match ← scanTag (utf8 source) start with
  | .ok stop => return (.ok (← tagAt source starts start stop), some stop)
  | .error (innermost, opened) =>
    let unclosed ← unclosedAt source starts start innermost
    return (.error (← faultAt source starts unclosed opened), none)

/-- What is done with the comment that starts at an index. -/
def skipMarkupComment (kind : CommentKind) (start : Nat) : Checked (Move Unit (Found Item)) := do
  match ← commentStop source kind start with
  | some stop => return .go () stop
  | none => return .stop (some (.error (← faultAt source starts (.comment kind) start), none))

/-- Goes to the next item. -/
def nextItem : Loop Unit (Found Item) where
  step _ i c :=
    if c = '\\' then .ok (.go () (i + 2))
    else do
      match ← openingAt (utf8 source) i c with
      | some kind => skipMarkupComment source starts kind i
      | none =>
        if ← opensTagAt (utf8 source) i c then return .stop (some (← tagItem source starts i))
        else return .go () (i + 1)
  finish _ _ := .ok none

/-- The tags of a source, and the fault that ends the reading, if there is one. -/
def itemsOf : Checked (List Item) :=
  drain ((nextItem source starts).run (utf8 source) ()) (utf8 source).length 0

end Source

/-! ### Openers -/

variable {text rest : List Char} {i : Nat} {c d : Char}

theorem toNat_lt_of_mem_opener {kind : CommentKind} : ∀ c ∈ kind.opener, c.toNat < 128 := by
  cases kind with
  | markup => exact forall_lt_of_all rfl
  | script => exact forall_lt_of_all rfl

theorem toNat_lt_of_mem_closer {kind : CommentKind} : ∀ c ∈ kind.closer, c.toNat < 128 := by
  cases kind with
  | markup => exact forall_lt_of_all rfl
  | script => exact forall_lt_of_all rfl

theorem closer_ne_nil (kind : CommentKind) : kind.closer ≠ [] := by
  cases kind <;> exact List.cons_ne_nil _ _

/-- ASCII characters stand at a place if their bytes stand at its index. -/
theorem At.startsWith (h : At text i rest) {needle : List Char}
    (hneedle : ∀ c ∈ needle, c.toNat < 128) :
    Bytes.startsWith (utf8 text) needle i = .ok (needle.isPrefixOf rest) := by
  have hiff : needle.isPrefixOf (view (utf8 rest)) = needle.isPrefixOf rest := by
    rw [Bool.eq_iff_iff, List.isPrefixOf_iff_prefix, List.isPrefixOf_iff_prefix]
    exact prefix_view_iff hneedle rest
  rw [Bytes.startsWith, h.sliceFrom, ok_bind, hiff]
  rfl

/-- The comment that opens at a place is seen from the bytes there. -/
theorem At.openingAt (h : At text i (c :: rest)) :
    Bytes.openingAt (utf8 text) i c = .ok (CommentKind.opening? (c :: rest)) := by
  rw [Bytes.openingAt]
  by_cases hmarkup : c = '<'
  · subst hmarkup
    rw [if_pos rfl, h.startsWith toNat_lt_of_mem_opener]
    rfl
  rw [if_neg hmarkup]
  by_cases hscript : c = '{'
  · subst hscript
    rw [if_pos rfl, h.startsWith toNat_lt_of_mem_opener]
    rfl
  · have hnone : CommentKind.opening? (c :: rest) = none := by
      rw [CommentKind.opening?_eq_none_iff]
      intro kind hopener
      cases kind with
      | markup => exact hmarkup (List.cons_prefix_cons.1 hopener).1.symm
      | script => exact hscript (List.cons_prefix_cons.1 hopener).1.symm
    rw [if_neg hscript, hnone]

/-- A character outside ASCII behind `<` opens no tag. -/
theorem uniform_opensTag : Uniform fun d => d.isAlpha || decide (d = '/') := by
  refine ⟨false, fun c hc => ?_⟩
  have halpha := isNameChar_of_le hc
  simp only [Text.isNameChar, Char.isAlphanum, Bool.or_eq_false_iff] at halpha
  show (c.isAlpha || decide (c = '/')) = false
  rw [halpha.1.1.1.1, decide_eq_false (ne_of_le_toNat hc (by decide))]
  rfl

/-- Whether a tag opens at a place is seen from the bytes there. -/
theorem At.opensTagAt (h : At text i (c :: rest)) :
    Bytes.opensTagAt (utf8 text) i c = .ok (Piece.opensTag (c :: rest)) := by
  rw [Bytes.opensTagAt]
  by_cases hc : c = '<'
  · subst hc
    have hnext : At text (i + 1) rest := h.next_of_lt (by decide)
    rw [if_pos rfl, h.add_one, ok_bind]
    cases rest with
    | nil =>
      rw [hnext.peek_nil]
      rfl
    | cons a rest =>
      obtain ⟨d, hpeek, hd⟩ := hnext.exists_byte
      rw [hpeek, Option.any_some, hd.uniform uniform_opensTag]
      rfl
  · rw [if_neg hc]
    cases rest with
    | nil =>
      have hnone : Piece.opensTag [c] = false := by
        unfold Piece.opensTag
        split
        · next heq => cases heq
        · rfl
      rw [hnone]
    | cons a rest => rw [Piece.opensTag_cons_cons, decide_eq_false hc, Bool.false_and]

theorem nextItem_congr (hd : StandsFor d c) (source : List Char) (starts : List Nat) (i : Nat) :
    (nextItem source starts).step () i d = (nextItem source starts).step () i c := by
  simp only [nextItem, openingAt, opensTagAt, hd.eq_iff (show '\\'.toNat < 128 by decide),
    hd.eq_iff (show '<'.toNat < 128 by decide), hd.eq_iff (show '\x7b'.toNat < 128 by decide)]

/-! ### Comments, tags and faults -/

section Parts

variable (h : At text i rest)

include h

/-- A comment at a place is skipped whole, if it is closed. -/
theorem At.commentStop {kind : CommentKind} (hopener : kind.opener <+: rest) :
    Bytes.commentStop text kind i = .ok ((kind.length? rest).map (ahead i rest)) := by
  have hbody := h.drop kind.opener.length
  have hplace : ahead i rest kind.opener.length = i + kind.opener.length := by
    rw [ahead, ← List.prefix_iff_eq_take.1 hopener, byteSize_of_ascii toNat_lt_of_mem_opener]
  have hsmall : kind.opener.length ≤ maxTextSize := by
    cases kind <;> decide
  rw [Bytes.commentStop, h.add_eq_ok hsmall, ok_bind, ← hplace, hbody.suffix, ok_bind,
    CommentKind.length?]
  cases hthrough : Text.through? kind.closer (rest.drop kind.opener.length) with
  | none =>
    rw [find_view_eq_none (closer_ne_nil kind) toNat_lt_of_mem_closer hthrough]
    rfl
  | some n =>
    obtain ⟨place, hfind, hend⟩ :=
      exists_find_view (closer_ne_nil kind) toNat_lt_of_mem_closer hthrough
    have hsum : ahead i rest kind.opener.length + place + kind.closer.length =
        ahead i rest (kind.opener.length + n) := by
      rw [← ahead_ahead, Nat.add_assoc, hend]
      rfl
    have hstop := (h.drop (kind.opener.length + n)).le_maxSize
    rw [← hsum] at hstop
    simp only [hfind]
    rw [Bytes.add_eq_ok (by omega), ok_bind, Bytes.add_eq_ok hstop, ok_bind, hsum]
    rfl

/-- A region of a source is located. -/
theorem At.spanAt (start stop : Nat) : Bytes.spanAt text (startsOf text) start stop =
    .ok ((Lines.ofText text).span start stop) := by
  rw [Bytes.spanAt, position_eq h.size, ok_bind]
  rfl

/-- A tag at a place is cut out. -/
theorem At.tagAt (length : Nat) : Bytes.tagAt text (startsOf text) i (ahead i rest length) =
    .ok ((⟨Lines.ofText text, i, rest⟩ : TagReader).tagOfLength length) := by
  have hsize := h.ahead_le length
  rw [ahead] at hsize
  rw [Bytes.tagAt, h.slice, ok_bind, tagName_eq (by omega), ok_bind, h.spanAt, ok_bind]
  rfl

/-- A fault at a place is located. -/
theorem At.faultAt (unclosed : Unclosed) (count : Nat) :
    Bytes.faultAt text (startsOf text) unclosed (ahead i rest count) =
      .ok ((⟨Lines.ofText text, i, rest⟩ : TagReader).faultAt unclosed count) := by
  rw [Bytes.faultAt, position_eq h.size, ok_bind]
  rfl

/-- What is left open of the tag at a place is named. -/
theorem At.unclosedAt (nest : Nesting) : Bytes.unclosedAt text (startsOf text) i (openOf nest) =
    .ok ((⟨Lines.ofText text, i, rest⟩ : TagReader).unclosedTag nest) := by
  have hsize := h.add_byteSize
  have hmax := h.size
  rw [Bytes.unclosedAt, position_eq h.size, ok_bind]
  cases nest with
  | tag =>
    show (Bytes.suffix text i >>= fun rest => tagName rest >>= _) = _
    rw [h.suffix, ok_bind, tagName_eq (by omega)]
    rfl
  | quoted quote opened => rfl
  | braced opened outer => rfl

end Parts

/-- What is read of the tag that opens at a place. -/
theorem At.tagItem (h : At text i ('<' :: rest)) :
    Bytes.tagItem text (startsOf text) i = .ok (match tagLength ('<' :: rest) with
      | .ok length =>
        (.ok ((⟨Lines.ofText text, i, '<' :: rest⟩ : TagReader).tagOfLength length),
          some (ahead i ('<' :: rest) length))
      | .error nest =>
        let reader : TagReader := ⟨Lines.ofText text, i, '<' :: rest⟩
        (.error (reader.faultAt (reader.unclosedTag nest) nest.opened), none)) := by
  rw [Bytes.tagItem, h.scanTag, ok_bind]
  cases tagLength ('<' :: rest) with
  | ok length =>
    show (Bytes.tagAt text (startsOf text) i (ahead i ('<' :: rest) length) >>= _) = _
    rw [h.tagAt]
    rfl
  | error nest =>
    show (Bytes.unclosedAt text (startsOf text) i (openOf nest) >>= fun unclosed =>
      Bytes.faultAt text (startsOf text) unclosed (ahead i ('<' :: rest) nest.opened) >>= _) = _
    rw [h.unclosedAt, ok_bind, h.faultAt]
    rfl

/-- What is done with the comment that opens at a place. -/
theorem At.skipMarkupComment {kind : CommentKind} (h : At text i rest)
    (hopener : kind.opener <+: rest) :
    Bytes.skipMarkupComment text (startsOf text) kind i = .ok (match kind.length? rest with
      | some length => .go () (ahead i rest length)
      | none => .stop (some (.error
        ((⟨Lines.ofText text, i, rest⟩ : TagReader).faultAt (.comment kind) 0), none))) := by
  rw [Bytes.skipMarkupComment, h.commentStop hopener, ok_bind]
  cases kind.length? rest with
  | some length => rfl
  | none =>
    show (Bytes.faultAt text (startsOf text) (.comment kind) (ahead i rest 0) >>= _) = _
    rw [h.faultAt]
    rfl

/-! ### Items -/

/-- The items from a place of a source on. -/
def itemsAt (source : List Char) (i : Nat) (rest : List Char) : List Item :=
  (⟨Lines.ofText source, i, rest⟩ : TagReader).items

/-- What is done at a place where no backslash stands. -/
theorem At.nextItem_step (h : At text i (c :: rest)) (hslash : c ≠ '\\') :
    (nextItem text (startsOf text)).step () i c = match CommentKind.opening? (c :: rest) with
      | some kind => Bytes.skipMarkupComment text (startsOf text) kind i
      | none =>
        if Piece.opensTag (c :: rest) then do
          return .stop (some (← Bytes.tagItem text (startsOf text) i))
        else .ok (.go () (i + 1)) := by
  show (if c = '\\' then _ else Bytes.openingAt (utf8 text) i c >>= _) = _
  rw [if_neg hslash, h.openingAt, ok_bind]
  cases CommentKind.opening? (c :: rest) with
  | some kind => rfl
  | none =>
    show (Bytes.opensTagAt (utf8 text) i c >>= _) = _
    rw [h.opensTagAt, ok_bind]
    rfl

theorem nextItem_passes (source : List Char) (starts : List Nat) :
    (nextItem source starts).Passes () := by
  intro i c hc
  have hne {a : Char} (ha : a.toNat < 128) : c ≠ a := ne_of_le_toNat hc ha
  show (if c = '\\' then _ else openingAt (utf8 source) i c >>= _) = _
  rw [if_neg (hne (by decide)), openingAt, if_neg (hne (by decide)), if_neg (hne (by decide)),
    ok_bind]
  show (opensTagAt (utf8 source) i c >>= _) = _
  rw [opensTagAt, if_neg (hne (by decide))]
  rfl

section Pieces

variable (h : At text i (c :: rest)) (hslash : c ≠ '\\')

include h hslash

/-- A comment at a place is passed over, or left open. -/
theorem At.proceeds_comment {kind : CommentKind} (hopener : kind.opener <+: c :: rest) :
    Proceeds text (itemsAt text) ((nextItem text (startsOf text)).run (utf8 text) ()) i
      (c :: rest) := by
  obtain ⟨d, hpeek, hd⟩ := h.exists_byte
  have hstep := (nextItem_congr hd text (startsOf text) i).trans (h.nextItem_step hslash)
  rw [CommentKind.opening?_eq_some_iff.2 hopener] at hstep
  have hstep := hstep.trans (h.skipMarkupComment hopener)
  have hfront := Piece.front_of_opener hopener
  rw [Piece.ofComment] at hfront
  cases hlength : kind.length? (c :: rest) with
  | some length =>
    rw [hlength] at hstep hfront
    have hbehind := h.drop length
    have hlt := lt_ahead i c rest (CommentKind.length?_pos hlength)
    refine .inr ⟨_, _, hlt, hbehind, ?_, TagReader.items_comment rfl hfront⟩
    exact Loop.run_go hpeek hstep hlt hbehind.le_maxSize
  | none =>
    rw [hlength] at hstep hfront
    refine .inl ⟨_, Loop.run_stop hpeek hstep, TagReader.items_fault ?_⟩
    rw [TagReader.landmark?_cons rfl, hfront]

/-- A tag at a place is found, or left open. -/
theorem At.proceeds_tag (hopening : CommentKind.opening? (c :: rest) = none)
    (hopens : Piece.opensTag (c :: rest) = true) :
    Proceeds text (itemsAt text) ((nextItem text (startsOf text)).run (utf8 text) ()) i
      (c :: rest) := by
  have hfront := Piece.front_of_opensTag (CommentKind.opening?_eq_none_iff.1 hopening) hopens
  have hstep := h.nextItem_step hslash
  rw [hopening] at hstep
  simp only [hopens, if_true] at hstep
  obtain rfl : c = '<' := by
    unfold Piece.opensTag at hopens
    split at hopens
    · next heq => exact (List.cons.inj heq).1
    · cases hopens
  rw [h.tagItem, ok_bind] at hstep
  have hrun := Loop.run_stop (h.peek (by decide)) hstep
  rw [Piece.ofTag] at hfront
  refine .inl ⟨_, hrun, ?_⟩
  cases hlength : tagLength ('<' :: rest) with
  | ok length =>
    rw [hlength] at hfront
    exact ⟨lt_ahead i '<' rest (tagLength_pos hlength), _, h.drop length,
      TagReader.items_tag rfl hfront⟩
  | error nest =>
    rw [hlength] at hfront
    refine TagReader.items_fault ?_
    rw [TagReader.landmark?_cons rfl, hfront]

/-- Any other character at a place is passed over. -/
theorem At.proceeds_plain (hopening : CommentKind.opening? (c :: rest) = none)
    (hopens : Piece.opensTag (c :: rest) = false) :
    Proceeds text (itemsAt text) ((nextItem text (startsOf text)).run (utf8 text) ()) i
      (c :: rest) := by
  have hfront := Piece.front_of_not_opens hslash (CommentKind.opening?_eq_none_iff.1 hopening) hopens
  have hstep := h.nextItem_step hslash
  rw [hopening] at hstep
  simp only [hopens, Bool.false_eq_true, if_false] at hstep
  refine .inr ⟨_, _, Nat.lt_add_of_pos_right c.utf8Size_pos, h.next, ?_,
    TagReader.items_plain rfl hfront⟩
  exact h.run_over (nextItem_passes text (startsOf text)) hstep

end Pieces

/-- The piece at a place is read as it stands. -/
theorem At.proceeds_nextItem (h : At text i rest) :
    Proceeds text (itemsAt text) ((nextItem text (startsOf text)).run (utf8 text) ()) i rest := by
  cases rest with
  | nil => exact .inl ⟨none, h.run_end (), TagReader.items_nil rfl⟩
  | cons c rest =>
    by_cases hslash : c = '\\'
    · subst hslash
      have hfront : Piece.front '\\' rest = .escape := rfl
      refine .inr ⟨_, _, lt_ahead i '\\' rest (n := 2) (by decide), h.drop 2, ?_,
        TagReader.items_escape rfl hfront⟩
      exact h.run_escape (nextItem_passes text (startsOf text)) rfl fun _ _ => rfl
    cases hopening : CommentKind.opening? (c :: rest) with
    | some kind => exact h.proceeds_comment hslash (CommentKind.opening?_eq_some_iff.1 hopening)
    | none =>
      cases hopens : Piece.opensTag (c :: rest) with
      | true => exact h.proceeds_tag hslash hopening hopens
      | false => exact h.proceeds_plain hslash hopening hopens

/-- **The tags of every source are read.** -/
theorem itemsOf_eq (h : byteSize text ≤ maxTextSize) :
    itemsOf text (startsOf text) = .ok (TagReader.ofText text).items := by
  rw [itemsOf, (At.start h).drain fun h => h.exists_found fun h => h.proceeds_nextItem]
  rfl

end TagLint.Bytes
