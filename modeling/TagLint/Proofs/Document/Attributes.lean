import TagLint.Proofs.Attribute.Extent
import TagLint.Proofs.Document.Basic

/-!
# The attributes of a document are found

The reader of attributes takes an opening tag apart into the entries that it was put together
from. The one exception changes nothing: an unquoted value takes along a slash that follows it
directly (`Value.swallowed`).
-/

namespace TagLint

namespace AttributeReader

/-! ### White space, spreads and the end -/

/-- White space is passed over. -/
theorem occurrences_blanks {blanks behind : List Char}
    (hblanks : ∀ c ∈ blanks, Text.isSpace c = true) (hends : Text.Ends Text.isSpace behind)
    (offset : Nat) :
    (⟨offset, blanks ++ behind⟩ : AttributeReader).occurrences =
      (⟨offset + Text.byteSize blanks, behind⟩ : AttributeReader).occurrences := by
  by_cases hne : blanks = []
  · subst hne
    rfl
  · have hfits : (Segment.blank blanks).Fits behind := .blank hne hblanks hends
    exact occurrences_of_fits hfits offset

/-- A spread is passed over. -/
theorem occurrences_spread {inner : List Char} (h : Script.Items inner) (offset : Nat)
    (behind : List Char) :
    (⟨offset, '{' :: (inner ++ ['}']) ++ behind⟩ : AttributeReader).occurrences =
      (⟨offset + Text.byteSize ('{' :: (inner ++ ['}'])), behind⟩ :
        AttributeReader).occurrences := by
  have htail : Script.bracedTail (inner ++ ['}'] ++ behind) = (inner ++ ['}']).length := by
    rw [List.append_assoc, List.length_append, List.length_singleton]
    exact Script.bracedTail_of_items h behind
  have hfits : (Segment.spread ('{' :: (inner ++ ['}']))).Fits behind := .spread htail
  exact occurrences_of_fits hfits offset

theorem occurrences_close (offset : Nat) (behind : List Char) :
    (⟨offset, '>' :: behind⟩ : AttributeReader).occurrences = [] :=
  occurrences_of_isTail (.close behind) offset

end AttributeReader

namespace Document

open AttributeReader

/-! ### One entry -/

/-- A name and what assigns its value are one segment. -/
theorem occurrences_name (name : AttributeName) {after : List Char}
    (hends : Text.Ends Text.isNameChar after) (offset : Nat) :
    (⟨offset, name.text ++ after⟩ : AttributeReader).occurrences =
      .declared ⟨String.ofList name.text, offset⟩ ::
        (⟨offset + Text.byteSize name.text +
            Text.byteSize (after.take (Attribute.assignmentLength after)),
          after.drop (Attribute.assignmentLength after)⟩ : AttributeReader).occurrences := by
  have hsplit := List.take_append_drop (Attribute.assignmentLength after) after
  have hends : Text.Ends Text.isNameChar (after.take (Attribute.assignmentLength after) ++
      after.drop (Attribute.assignmentLength after)) := by rwa [hsplit]
  have hfits : (Segment.declaration name.text
      (after.take (Attribute.assignmentLength after))).Fits
        (after.drop (Attribute.assignmentLength after)) :=
    .declaration name.ne_nil name.isNameChar hends (Attribute.isAssignment_take after)
  have hoccurs := occurrences_of_fits hfits offset
  rw [Segment.text, List.append_assoc, hsplit, Text.byteSize_append, ← Nat.add_assoc] at hoccurs
  exact hoccurs

/-- What a value takes along of the text behind it: an unquoted one goes on as far as it can. -/
def Value.swallowed : Value → List Char → List Char
  | quoted _ _ _ _, _ => []
  | bare _ _ _, behind => behind.takeWhile Attribute.isBare
  | braced _ _, _ => []

theorem Value.valueLength_text (value : Value) (behind : List Char) :
    Attribute.valueLength (value.text ++ behind) =
      (value.text ++ value.swallowed behind).length := by
  cases value with
  | quoted quote body hquote hbody =>
    have hslash : quote ≠ '\\' := by
      rcases hquote with rfl | rfl <;> decide
    have hif : (decide (quote = '"') || decide (quote = '\'')) = true := by
      rcases hquote with rfl | rfl <;> rfl
    rw [text, List.cons_append, Attribute.valueLength, if_pos hif, List.append_assoc,
      List.singleton_append, Attribute.quotedTail_of_escaped hslash hbody, swallowed,
      List.append_nil, List.length_cons, List.length_append, List.length_singleton, Nat.add_comm]
  | bare text hne hchars =>
    cases text with
    | nil => exact absurd rfl hne
    | cons c rest =>
      have hbare : ∀ d ∈ c :: rest, Attribute.isBare d = true := by
        intro d hd
        obtain ⟨hspace, hout⟩ := hchars d hd
        simp only [List.mem_cons, not_or] at hout
        simp [Attribute.isBare, hspace, hout.1]
      obtain ⟨-, hout⟩ := hchars c List.mem_cons_self
      simp only [List.mem_cons, not_or] at hout
      rw [Value.text, swallowed, List.cons_append, Attribute.valueLength, if_neg (by simp [hout]),
        if_neg (by simp [hout]), ← List.cons_append, List.takeWhile_append_of_pos hbare]
  | braced inner hinner =>
    rw [text, List.cons_append, Attribute.valueLength, if_neg (by decide), if_pos rfl,
      List.append_assoc, List.singleton_append, Script.bracedTail_of_items hinner, swallowed,
      List.append_nil, List.length_cons, List.length_append, List.length_singleton, Nat.add_comm]

/-- What may follow an entry: neither does its name go on there, nor is there an assignment. -/
structure Follows (behind : List Char) : Prop where
  endsName : Text.Ends Text.isNameChar behind
  noAssignment : (behind.dropWhile Text.isSpace).head? ≠ some '='

theorem Value.ends_isSpace (value : Value) (behind : List Char) :
    Text.Ends Text.isSpace (value.text ++ behind) := by
  cases value with
  | quoted quote body hquote hbody =>
    rcases hquote with rfl | rfl <;> exact Text.ends_cons rfl
  | bare text hne hchars =>
    cases text with
    | nil => exact absurd rfl hne
    | cons c rest =>
      exact Text.ends_cons (hchars c List.mem_cons_self).1
  | braced inner hinner =>
    exact Text.ends_cons rfl

theorem assignmentLength_text (before behind : Blanks) (value : Value) (after : List Char) :
    Attribute.assignmentLength
        (before.text ++ '=' :: (behind.text ++ value.text) ++ after) =
      (before.text ++ '=' :: (behind.text ++ value.text) ++ value.swallowed after).length := by
  have hassign : Text.Ends Text.isSpace ('=' :: (behind.text ++ (value.text ++ after))) :=
    Text.ends_cons rfl
  have hvalue := value.ends_isSpace after
  simp only [List.append_assoc, List.cons_append]
  rw [Attribute.assignmentLength, Text.dropWhile_append before.isSpace hassign,
    Text.takeWhile_append before.isSpace hassign]
  simp only [Text.takeWhile_append behind.isSpace hvalue,
    Text.dropWhile_append behind.isSpace hvalue, value.valueLength_text, List.length_append,
    List.length_cons]
  omega

/-- What an entry takes along of the text behind it. -/
def Entry.swallowed : Entry → List Char → List Char
  | flag _, _ => []
  | assigned _ _ _ value, behind => value.swallowed behind
  | spread _ _, _ => []

theorem Value.swallowed_prefix (value : Value) (behind : List Char) :
    value.swallowed behind <+: behind := by
  cases value with
  | quoted => exact List.nil_prefix
  | bare => exact List.takeWhile_prefix _
  | braced => exact List.nil_prefix

/-- **An entry is read as what it is**: the attribute that it declares comes first. -/
theorem occurrences_entry (entry : Entry) {behind : List Char} (h : Follows behind)
    (offset : Nat) :
    (⟨offset, entry.text ++ behind⟩ : AttributeReader).occurrences =
      (entry.attribute? offset).toList.map .declared ++
        (⟨offset + Text.byteSize entry.text + Text.byteSize (entry.swallowed behind),
          behind.drop (entry.swallowed behind).length⟩ : AttributeReader).occurrences := by
  cases entry with
  | flag name =>
    rw [Entry.text, occurrences_name name h.endsName,
      Attribute.assignmentLength_eq_zero h.noAssignment]
    rfl
  | assigned name before blanks value =>
    -- the name ends at the white space or at the `=`
    have hends : Text.Ends Text.isNameChar
        (before.text ++ '=' :: (blanks.text ++ value.text) ++ behind) := by
      rw [List.append_assoc]
      refine Text.Ends.append (fun c hc => ?_) ?_
      · exact Text.not_isNameChar_of_isSpace (before.isSpace c hc)
      · exact Text.ends_cons rfl
    obtain ⟨more, hmore⟩ := value.swallowed_prefix behind
    have hdrop := congrArg (List.drop (value.swallowed behind).length) hmore
    rw [List.drop_left] at hdrop
    have htext : before.text ++ '=' :: (blanks.text ++ value.text) ++ behind =
        before.text ++ '=' :: (blanks.text ++ value.text) ++ value.swallowed behind ++ more := by
      rw [List.append_assoc _ (value.swallowed behind), hmore]
    rw [Entry.text, List.append_assoc, occurrences_name name hends, assignmentLength_text, htext,
      List.take_left, List.drop_left, Entry.swallowed, ← hdrop, Text.byteSize_append,
      Text.byteSize_append name.text]
    simp only [Nat.add_assoc]
    rfl
  | spread inner hinner => exact occurrences_spread hinner offset behind

/-! ### The end of a tag -/

theorem isBare_of_isSpace {c : Char} (h : Text.isSpace c = true) : Attribute.isBare c = false := by
  simp [Attribute.isBare, h]

/-- White space and the `>` behind it hold nothing. -/
theorem occurrences_blanks_close (blanks : Blanks) (offset : Nat) :
    (⟨offset, blanks.text ++ ['>']⟩ : AttributeReader).occurrences = [] := by
  have hends : Text.Ends Text.isSpace ['>'] := Text.ends_cons rfl
  rw [occurrences_blanks blanks.isSpace hends, occurrences_close]

/-- The slash of a self-closing tag and what follows it hold nothing. -/
theorem occurrences_slash (blanks : Blanks) (offset : Nat) :
    (⟨offset, '/' :: (blanks.text ++ ['>'])⟩ : AttributeReader).occurrences = [] :=
  occurrences_of_isTail (.slashClose [] blanks.isSpace) offset

theorem OpeningTag.occurrences_tail (tag : OpeningTag) (offset : Nat) :
    (⟨offset, tag.tail⟩ : AttributeReader).occurrences = [] := by
  obtain ⟨name, entries, before, slash, behind⟩ := tag
  -- without a slash the white space on both sides of it is one run
  cases slash with
  | true =>
    have hends : Text.Ends Text.isSpace ('/' :: (behind.text ++ ['>'])) := Text.ends_cons rfl
    exact (occurrences_blanks before.isSpace hends offset).trans (occurrences_slash behind _)
  | false =>
    let blanks : Blanks := ⟨before.text ++ behind.text, fun c hc =>
      (List.mem_append.1 hc).elim (before.isSpace c) (behind.isSpace c)⟩
    have h := occurrences_blanks_close blanks offset
    rwa [List.append_assoc] at h

/-- An unquoted value that takes along the slash leaves nothing but white space and the `>`. -/
theorem OpeningTag.occurrences_tail_dropWhile (tag : OpeningTag) (offset : Nat) :
    (⟨offset, tag.tail.dropWhile Attribute.isBare⟩ : AttributeReader).occurrences = [] := by
  have hclose : Text.Ends Attribute.isBare (tag.behind.text ++ ['>']) := by
    refine Text.Ends.append (fun c hc => isBare_of_isSpace (tag.behind.isSpace c hc)) ?_
    exact Text.ends_cons rfl
  -- the value stops at white space, so only a slash right behind it is in danger
  rcases hbefore : tag.before.text with _ | ⟨c, rest⟩
  · have hdrop : tag.tail.dropWhile Attribute.isBare = tag.behind.text ++ ['>'] := by
      rw [tail, hbefore, List.nil_append]
      split
      · exact (List.dropWhile_cons_of_pos rfl).trans (Text.dropWhile_of_ends hclose)
      · exact Text.dropWhile_of_ends hclose
    rw [hdrop]
    exact occurrences_blanks_close tag.behind offset
  · have hspace : Text.isSpace c = true :=
      tag.before.isSpace c (by rw [hbefore]; exact List.mem_cons_self)
    have hends : Text.Ends Attribute.isBare tag.tail := by
      rw [tail, hbefore]
      exact Text.ends_cons (isBare_of_isSpace hspace)
    rw [Text.dropWhile_of_ends hends]
    exact tag.occurrences_tail offset

/-! ### All entries -/

/-- An entry begins with the white space in front of it. -/
theorem SpacedEntry.ends_text {p : Char → Bool}
    (hspace : ∀ c, Text.isSpace c = true → p c = false) (spaced : SpacedEntry)
    (behind : List Char) : Text.Ends p (spaced.text ++ behind) := by
  obtain ⟨⟨blanks, hblanks⟩, hne, entry⟩ := spaced
  cases blanks with
  | nil => exact absurd rfl hne
  | cons c rest =>
    exact Text.ends_cons (hspace c (hblanks c List.mem_cons_self))

/-- What follows the name of a tag or an entry begins with white space, a slash or `>`. -/
theorem OpeningTag.ends_entries {p : Char → Bool}
    (hspace : ∀ c, Text.isSpace c = true → p c = false) (hslash : p '/' = false)
    (hclose : p '>' = false) (tag : OpeningTag) (entries : List SpacedEntry) :
    Text.Ends p (entries.flatMap SpacedEntry.text ++ tag.tail) := by
  cases entries with
  | nil =>
    rw [List.flatMap_nil, List.nil_append, tail]
    refine Text.Ends.append (fun c hc => hspace c (tag.before.isSpace c hc)) ?_
    split
    · exact Text.ends_cons hslash
    · rw [List.nil_append]
      refine Text.Ends.append (fun c hc => hspace c (tag.behind.isSpace c hc)) ?_
      exact Text.ends_cons hclose
  | cons spaced rest =>
    rw [List.flatMap_cons, List.append_assoc]
    exact spaced.ends_text hspace _

theorem Entry.head?_text (entry : Entry) (behind : List Char) {c : Char}
    (h : c ∈ (entry.text ++ behind).head?) : c = '{' ∨ Text.isNameChar c = true := by
  have hname (name : AttributeName) (behind : List Char) (h : c ∈ (name.text ++ behind).head?) :
      Text.isNameChar c = true := by
    obtain ⟨text, hne, hchars⟩ := name
    cases text with
    | nil => exact absurd rfl hne
    | cons d rest =>
      cases h
      exact hchars c List.mem_cons_self
  cases entry with
  | flag name => exact .inr (hname name behind h)
  | assigned name before blanks value =>
    rw [text, List.append_assoc] at h
    exact .inr (hname name _ h)
  | spread inner hinner =>
    cases h
    exact .inl rfl

theorem Entry.ends_isSpace (entry : Entry) (behind : List Char) :
    Text.Ends Text.isSpace (entry.text ++ behind) := by
  intro c hc
  rcases entry.head?_text behind hc with rfl | hname
  · rfl
  · exact Text.not_isSpace_of_isNameChar hname

/-- The end of a tag has no `=`. -/
theorem OpeningTag.ne_of_mem_tail {tag : OpeningTag} {c : Char} (h : c ∈ tag.tail) : c ≠ '=' := by
  have hspace (blanks : Blanks) (hc : c ∈ blanks.text) : c ≠ '=' := by
    rintro rfl
    cases blanks.isSpace _ hc
  rcases List.mem_append.1 h with h | h
  · exact hspace tag.before h
  rcases List.mem_append.1 h with h | h
  · split at h
    · rw [List.mem_singleton.1 h]
      decide
    · cases h
  rcases List.mem_append.1 h with h | h
  · exact hspace tag.behind h
  · rw [List.mem_singleton.1 h]
    decide

/-- The entries that are left and the end of the tag may follow an entry. -/
theorem OpeningTag.follows (tag : OpeningTag) (entries : List SpacedEntry) :
    Follows (entries.flatMap SpacedEntry.text ++ tag.tail) := by
  refine ⟨ends_entries (fun _ => Text.not_isNameChar_of_isSpace) rfl rfl tag entries, ?_⟩
  intro hassign
  cases entries with
  | nil =>
    have hmem := (List.dropWhile_suffix Text.isSpace).mem (List.mem_of_head? hassign)
    exact ne_of_mem_tail hmem rfl
  | cons spaced rest =>
    have hspace := spaced.entry.ends_isSpace (rest.flatMap SpacedEntry.text ++ tag.tail)
    rw [List.flatMap_cons, SpacedEntry.text, List.append_assoc, List.append_assoc,
      Text.dropWhile_append spaced.before.isSpace hspace] at hassign
    rcases spaced.entry.head?_text _ hassign with h | h <;> cases h

theorem Entry.swallowed_cases (entry : Entry) (behind : List Char) :
    entry.swallowed behind = [] ∨ entry.swallowed behind = behind.takeWhile Attribute.isBare := by
  cases entry with
  | flag => exact .inl rfl
  | assigned name before blanks value =>
    cases value with
    | quoted => exact .inl rfl
    | bare => exact .inr rfl
    | braced => exact .inl rfl
  | spread => exact .inl rfl

/-- **The attributes of the entries are found in order**, and nothing else. -/
theorem OpeningTag.occurrences_entries (tag : OpeningTag) (entries : List SpacedEntry)
    (offset : Nat) :
    (⟨offset, entries.flatMap SpacedEntry.text ++ tag.tail⟩ : AttributeReader).occurrences =
      (entryAttributes offset entries).map .declared := by
  induction entries generalizing offset with
  | nil => exact tag.occurrences_tail offset
  | cons spaced rest ih =>
    have hspace := spaced.entry.ends_isSpace (rest.flatMap SpacedEntry.text ++ tag.tail)
    rw [List.flatMap_cons, SpacedEntry.text, List.append_assoc, List.append_assoc,
      occurrences_blanks spaced.before.isSpace hspace,
      occurrences_entry spaced.entry (tag.follows rest), entryAttributes, List.map_append]
    congr 1
    rcases spaced.entry.swallowed_cases (rest.flatMap SpacedEntry.text ++ tag.tail) with h | h
    · rw [h, Text.byteSize_nil, Nat.add_zero, List.length_nil, List.drop_zero, ih,
        SpacedEntry.text, Text.byteSize_append, Nat.add_assoc]
    · cases rest with
      | nil =>
        -- the slash of the tag may be gone
        have hcut : tag.tail.takeWhile Attribute.isBare ++ tag.tail.dropWhile Attribute.isBare =
            tag.tail := List.takeWhile_append_dropWhile
        have hdrop := congrArg (List.drop (tag.tail.takeWhile Attribute.isBare).length) hcut
        rw [List.drop_left] at hdrop
        rw [h, List.flatMap_nil, List.nil_append, ← hdrop]
        exact tag.occurrences_tail_dropWhile _
      | cons next rest =>
        -- white space stands in front of the next entry
        have hends : Text.Ends Attribute.isBare
            ((next :: rest).flatMap SpacedEntry.text ++ tag.tail) := by
          rw [List.flatMap_cons, List.append_assoc]
          exact next.ends_text (fun _ => isBare_of_isSpace) _
        rw [h, Text.takeWhile_of_ends hends, Text.byteSize_nil, Nat.add_zero, List.length_nil,
          List.drop_zero, ih, SpacedEntry.text, Text.byteSize_append, Nat.add_assoc]

end Document

end TagLint
