import TagLint.Proofs.Document.Basic
import TagLint.Proofs.Markup.TagReader

/-!
# The tags of a document end where they should

`Passes` says that the reading of a tag gets past a text and is at tag level again, whatever
follows. Every piece of a tag has that property, and so the whole tag is found
(`OpeningTag.tagLength_text`, `tagLength_closing`).
-/

namespace TagLint

namespace Nesting

/-- The reading of a tag gets past a text, from tag level to tag level. -/
def Passes (text : List Char) : Prop :=
  ∀ place behind stop, Nesting.tag.finish place (text ++ behind) = .ok stop ↔
    Nesting.tag.finish (place + text.length) behind = .ok stop

theorem passes_nil : Passes [] :=
  fun _ _ _ => Iff.rfl

theorem Passes.append {first second : List Char} (hfirst : Passes first) (hsecond : Passes second) :
    Passes (first ++ second) := by
  intro place behind stop
  rw [List.append_assoc, hfirst, hsecond, List.length_append, Nat.add_assoc]

theorem passes_cons {c : Char} {rest : List Char} (hc : isPlain c = true) (hrest : Passes rest) :
    Passes (c :: rest) := by
  intro place behind stop
  rw [List.cons_append, finish, step_tag_of_isPlain hc, List.length_cons]
  show Nesting.tag.finish (place + 1) (rest ++ behind) = .ok stop ↔ _
  rw [hrest, Nat.add_assoc, Nat.add_comm 1]

theorem passes_of_isPlain {run : List Char} (h : ∀ c ∈ run, isPlain c = true) : Passes run := by
  induction run with
  | nil => exact passes_nil
  | cons c run ih =>
    obtain ⟨hc, hrun⟩ := List.forall_mem_cons.1 h
    exact passes_cons hc (ih hrun)

theorem passes_quoted {quote : Char} (hquote : quote = '\'' ∨ quote = '"') {body : List Char}
    (hbody : Text.Escaped (· ≠ quote) body) : Passes (quote :: (body ++ [quote])) := by
  intro place behind stop
  have hstep : Nesting.tag.step place quote (body ++ [quote] ++ behind) =
      .read (.quoted quote place) 0 := by
    rcases hquote with rfl | rfl <;> rfl
  have hslash : quote ≠ '\\' := by
    rcases hquote with rfl | rfl <;> decide
  rw [List.cons_append, finish, hstep]
  show (Nesting.quoted quote place).finish (place + 1) (body ++ [quote] ++ behind) = .ok stop ↔ _
  have htail : (Nesting.quoted quote place).valueTail (body ++ [quote] ++ behind) =
      (body ++ [quote]).length := by
    rw [List.append_assoc, List.length_append, List.length_singleton]
    exact Attribute.quotedTail_of_escaped hslash hbody behind
  rw [finish_ok_iff_valueTail, htail, List.drop_left, List.length_cons, Nat.add_assoc,
    Nat.add_comm 1]

theorem passes_braced {inner : List Char} (h : Script.Items inner) :
    Passes ('{' :: (inner ++ ['}'])) := by
  intro place behind stop
  rw [List.cons_append, finish]
  show (Nesting.braced place []).finish (place + 1) (inner ++ ['}'] ++ behind) = .ok stop ↔ _
  have htail : (Nesting.braced place []).valueTail (inner ++ ['}'] ++ behind) =
      (inner ++ ['}']).length := by
    rw [List.append_assoc, List.length_append, List.length_singleton]
    exact Script.bracedTail_of_items h behind
  rw [finish_ok_iff_valueTail, htail, List.drop_left, List.length_cons, Nat.add_assoc,
    Nat.add_comm 1]

/-- The first `>` that is not passed ends the tag. -/
theorem tagLength_of_passes {inner : List Char} (h : Passes inner) (c : Char)
    (behind : List Char) :
    tagLength (c :: (inner ++ ['>']) ++ behind) = .ok (c :: (inner ++ ['>'])).length := by
  rw [List.cons_append, tagLength, List.drop_succ_cons, List.drop_zero, List.append_assoc, h,
    List.singleton_append, finish]
  show Except.ok (1 + inner.length + 1) = _
  rw [List.length_cons, List.length_append, List.length_singleton, Nat.add_comm 1]

theorem isPlain_of_isBareChar {c : Char} (h : Document.IsBareChar c) : isPlain c = true := by
  simp only [isPlain, Bool.and_eq_true, bne_iff_ne]
  have hout := h.2
  refine ⟨⟨⟨⟨?_, ?_⟩, ?_⟩, ?_⟩, ?_⟩ <;> rintro rfl <;> simp at hout

end Nesting

namespace Document

open Nesting

theorem TagName.isTagNameChar_text (name : TagName) :
    ∀ c ∈ name.text, Text.isTagNameChar c = true := by
  refine List.forall_mem_cons.2 ⟨?_, name.isTagNameChar⟩
  simp [Text.isTagNameChar, Text.isNameChar, Char.isAlphanum, name.isAlpha]

theorem Blanks.passes (blanks : Blanks) : Passes blanks.text :=
  passes_of_isPlain fun c hc => isPlain_of_isSpace (blanks.isSpace c hc)

theorem TagName.passes (name : TagName) : Passes name.text :=
  passes_of_isPlain fun c hc => isPlain_of_isTagNameChar (name.isTagNameChar_text c hc)

theorem AttributeName.passes (name : AttributeName) : Passes name.text :=
  passes_of_isPlain fun c hc => isPlain_of_isNameChar (name.isNameChar c hc)

theorem Value.passes (value : Value) : Passes value.text := by
  cases value with
  | quoted quote body hquote hbody => exact passes_quoted hquote hbody
  | bare text hne hchars => exact passes_of_isPlain fun c hc => isPlain_of_isBareChar (hchars c hc)
  | braced inner hinner => exact passes_braced hinner

theorem Entry.passes (entry : Entry) : Passes entry.text := by
  cases entry with
  | flag name => exact name.passes
  | assigned name before behind value =>
    have hassign : Passes ('=' :: (behind.text ++ value.text)) :=
      passes_cons rfl (behind.passes.append value.passes)
    exact name.passes.append (before.passes.append hassign)
  | spread inner hinner => exact passes_braced hinner

theorem passes_entries (entries : List SpacedEntry) :
    Passes (entries.flatMap SpacedEntry.text) := by
  induction entries with
  | nil => exact passes_nil
  | cons spaced rest ih => exact (spaced.before.passes.append spaced.entry.passes).append ih

/-- An opening tag ends with its own `>`. -/
theorem OpeningTag.tagLength_text (tag : OpeningTag) (behind : List Char) :
    tagLength (tag.text ++ behind) = .ok tag.text.length := by
  have hslash : Passes (if tag.slash then ['/'] else []) := by
    split
    · exact passes_cons rfl passes_nil
    · exact passes_nil
  have hinner : Passes (tag.name.text ++ (tag.entries.flatMap SpacedEntry.text ++
      (tag.before.text ++ ((if tag.slash then ['/'] else []) ++ tag.behind.text)))) :=
    tag.name.passes.append ((passes_entries tag.entries).append
      (tag.before.passes.append (hslash.append tag.behind.passes)))
  have htext : tag.text = '<' :: (tag.name.text ++ (tag.entries.flatMap SpacedEntry.text ++
      (tag.before.text ++ ((if tag.slash then ['/'] else []) ++ tag.behind.text))) ++ ['>']) := by
    simp only [text, tail, List.append_assoc]
  rw [htext]
  exact tagLength_of_passes hinner '<' behind

/-- A closing tag ends with its own `>`. -/
theorem tagLength_closing (name : TagName) (blanks : Blanks) (behind : List Char) :
    tagLength ('<' :: '/' :: (name.text ++ (blanks.text ++ ['>'])) ++ behind) =
      .ok ('<' :: '/' :: (name.text ++ (blanks.text ++ ['>']))).length := by
  have hinner : Passes ('/' :: (name.text ++ blanks.text)) :=
    passes_cons rfl (name.passes.append blanks.passes)
  have htext : '<' :: '/' :: (name.text ++ (blanks.text ++ ['>'])) =
      '<' :: ('/' :: (name.text ++ blanks.text) ++ ['>']) := by
    rw [List.cons_append, List.append_assoc]
  rw [htext]
  exact tagLength_of_passes hinner '<' behind

end Document

end TagLint
