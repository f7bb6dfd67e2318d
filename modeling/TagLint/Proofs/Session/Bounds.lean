import TagLint.Proofs.Bytes.Advance
import TagLint.Proofs.Markup.Layout
import TagLint.Proofs.Session.Yields
import TagLint.Proofs.Tag.Segments

/-!
# Reading stops

- `Yields.length_le`: a reader that takes its place further with all that it yields does not yield
  more than there is in front of the place.
- `Layout.length_tagsOf_le`: a tag takes three bytes of a source, and more.
- `ReadingStops`: how many tags and attributes are read, and that no loop stands still on the way
  (`reading_stops`).
-/

namespace TagLint

/-! ### Bounds -/

/-- What is yielded takes the place of a reader further, so there is a bound. -/
theorem Yields.length_le {σ α : Type} {next? : σ → Option (α × σ)} (left : σ → Nat)
    (hlt : ∀ r found behind, next? r = some (found, behind) → left behind < left r) {r : σ}
    {all : List α} (h : Yields next? r all) : all.length ≤ left r := by
  induction h with
  | stop => exact Nat.zero_le _
  | read hnext _ ih => exact Nat.lt_of_le_of_lt ih (hlt _ _ _ hnext)

/-- The shortest tags are `<a>` and `</>`. -/
theorem Layout.length_tagsOf_le {lines : Lines} {offset : Nat} {text : List Char}
    {items : List Item} (h : Layout lines offset text items) :
    3 * (tagsOf items).length ≤ Text.byteSize text := by
  induction h with
  | finished => exact Nat.zero_le _
  | openComment => exact Nat.zero_le _
  | openTag => exact Nat.zero_le _
  | @tag offset gap text behind found items _ hopens hlength _ _ _ _ ih =>
    obtain ⟨c, body, hbody, -⟩ := delimited_of_tagLength hopens hlength
    have hthree : 3 ≤ text.length := by
      rw [hbody, List.length_cons, List.length_cons, List.length_append, List.length_singleton]
      omega
    have hsize := Text.length_le_byteSize text
    rw [tagsOf_cons_ok, List.length_cons, Text.byteSize_append, Text.byteSize_append]
    omega

theorem AttributeReader.length_ofTag_le (tag : Tag) :
    (ofTag tag).rest.length ≤ tag.text.length := by
  obtain ⟨front, hfront⟩ := Tag.exists_append_afterName tag.text.toList
  have hlength := congrArg List.length hfront
  rw [List.length_append, String.length_toList] at hlength
  show (Tag.afterName tag.text.toList).length ≤ _
  omega

/-! ### The readers -/

open Bytes in
/-- Both readers come to their end, and no loop of theirs stands still. -/
structure ReadingStops : Prop where
  /-- Of a source there are no more tags than a third of its bytes, and then a fault at most. -/
  tags : ∀ source : String, ∃ (found : List Tag) (fault? : Option Fault),
    Yields TagReader.next? (.ofString source) (found.map .ok ++ (fault?.map .error).toList) ∧
      found.length ≤ source.utf8ByteSize / 3
  /-- Of a tag there are no more occurrences than characters. -/
  occurrences : ∀ tag : Tag, ∃ found : List Occurrence,
    Yields AttributeReader.next? (.ofTag tag) found ∧ found.length ≤ tag.text.length
  /-- To the next tag. -/
  nextItem : ∀ source starts, (nextItem source starts).Advances (utf8 source)
  /-- To the end of a tag. -/
  insideTag : ∀ bytes, (insideTag bytes).Advances bytes
  /-- To the next attribute. -/
  occurrence : ∀ base text, (occurrence base text).Advances (utf8 text)
  /-- To the end of a braced expression. -/
  braced : ∀ bytes, (braced bytes).Advances bytes
  /-- To the end of a quoted value. -/
  quoted : ∀ quote size bytes, (quoted quote size).Advances bytes
  /-- To the end of a literal. -/
  literal : ∀ quote bytes, (literal quote).Advances bytes

/-- **Every reading comes to its end within a bound, and every iteration on the way goes ahead.** -/
theorem reading_stops : ReadingStops := by
  constructor
  case tags =>
    intro source
    obtain ⟨found, fault?, hitems⟩ := TagReader.exists_items_eq (.ofString source)
    have hyields := TagReader.yields_items (.ofString source)
    have hlayout : Layout (Lines.ofString source) 0 source.toList (TagReader.ofString source).items :=
      layout_items_of_rest (Lines.ofString source) 0 source.toList
    have hle := hlayout.length_tagsOf_le
    rw [hitems, tagsOf_map_ok, ← Text.utf8ByteSize_ofList, String.ofList_toList] at hle
    rw [hitems] at hyields
    exact ⟨found, fault?, hyields, (Nat.le_div_iff_mul_le (by decide)).2 (by omega)⟩
  case occurrences =>
    intro tag
    have hyields := AttributeReader.yields_occurrences (.ofTag tag)
    refine ⟨_, hyields, Nat.le_trans ?_ (AttributeReader.length_ofTag_le tag)⟩
    exact hyields.length_le (fun r => r.rest.length) fun r found behind =>
      AttributeReader.next?_length_lt
  case nextItem =>
    intro source starts
    exact (Bytes.allLead_nextItem source starts).advances _
  case insideTag =>
    intro bytes
    exact (Bytes.allLead_insideTag bytes).advances _
  case occurrence =>
    intro base text
    exact (Bytes.allLead_occurrence base text).advances _
  case braced =>
    intro bytes
    exact (Bytes.allLead_braced bytes).advances _
  case quoted =>
    intro quote size bytes
    exact (Bytes.allLead_quoted quote size).advances _
  case literal =>
    intro quote bytes
    exact (Bytes.allLead_literal quote).advances _

end TagLint
