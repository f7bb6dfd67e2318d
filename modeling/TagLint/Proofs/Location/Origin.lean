import TagLint.Lint.Finding
import TagLint.Proofs.Location.Lines

/-!
# Pieces of a source

A piece that is cut out of a source can be read by itself. Its places are then counted from the
cut, and to be places of the source they have to be based on where the cut is.

- `Origin`: where a piece is cut out.
- `Location.rebase`: a location in the piece as one in the source. The first line of the piece
  goes on with the line of the cut, so only there the columns are added.
- `Span.rebase`, `Tag.rebase`, `Finding.rebase`, `Warning.rebase`: what was found in a piece, as it
  stands in the source.
- `Lines.IsPiece`: the locations of the source are those of the piece, based on the cut. That is so
  of whatever is cut out (`Lines.isPiece_ofText`).
-/

namespace TagLint

/-- A place at which a piece is cut out of a source. -/
structure Origin where
  /-- The offset of the place. -/
  offset : Nat
  /-- The location of the place. -/
  location : Location
  deriving DecidableEq, Repr

/-- The place behind the first part of a source. -/
def Origin.behind (front : List Char) : Origin :=
  ⟨Text.byteSize front, Location.first.behind front⟩

/-! ### Based on the place of a cut -/

/-- A location in a piece, as a location in the source out of which the piece is cut at `origin`. -/
def Location.rebase (origin place : Location) : Location :=
  if place.line = 1 then ⟨origin.line, origin.column + (place.column - 1)⟩
  else ⟨origin.line + (place.line - 1), place.column⟩

/-- A region of a piece, as a region of the source. -/
def Span.rebase (origin : Origin) (span : Span) : Span :=
  ⟨origin.offset + span.start, origin.offset + span.stop, origin.location.rebase span.location⟩

/-- A tag of a piece, as a tag of the source. -/
def Tag.rebase (origin : Origin) (tag : Tag) : Tag :=
  { tag with span := tag.span.rebase origin }

/-- A finding in a piece, as a finding in the source. -/
def Finding.rebase (origin : Origin) (finding : Finding) : Finding :=
  ⟨finding.tag.rebase origin, finding.name, finding.first.rebase origin,
    finding.duplicate.rebase origin⟩

/-- A warning about a piece, as a warning about the source. -/
def Warning.rebase (origin : Origin) (warning : Warning) : Warning :=
  { warning with span := warning.span.rebase origin }

/-! ### The same place, counted twice -/

/-- Counting on in the piece is counting on in the source. -/
theorem Location.rebase_next (origin : Location) {place : Location} (c : Char)
    (hline : 1 ≤ place.line) (hcolumn : 1 ≤ place.column) :
    origin.rebase (place.next c) = (origin.rebase place).next c := by
  by_cases hc : c = '\n'
  · rw [next, if_pos hc, next, if_pos hc, rebase, if_neg (by simp only; omega), rebase]
    split
    · simp only [Location.mk.injEq, and_true]
      omega
    · simp only [Location.mk.injEq, and_true]
      omega
  · rw [next, if_neg hc, next, if_neg hc, rebase, rebase]
    split
    · simp only [Location.mk.injEq, true_and]
      omega
    · rfl

theorem Location.one_le_next {place : Location} (c : Char) (hline : 1 ≤ place.line) :
    1 ≤ (place.next c).line ∧ 1 ≤ (place.next c).column := by
  rw [next]
  split
  · exact ⟨Nat.le_add_left .., Nat.le_refl 1⟩
  · exact ⟨hline, Nat.le_add_left ..⟩

/-- Behind a text of the piece one is as far behind the cut. -/
theorem Location.rebase_behind (origin : Location) {place : Location} (text : List Char)
    (hline : 1 ≤ place.line) (hcolumn : 1 ≤ place.column) :
    origin.rebase (place.behind text) = (origin.rebase place).behind text := by
  induction text generalizing place with
  | nil => rfl
  | cons c rest ih =>
    obtain ⟨hline', hcolumn'⟩ := one_le_next c hline
    rw [behind_cons, behind_cons, ih hline' hcolumn', rebase_next origin c hline hcolumn]

theorem Location.rebase_first (origin : Location) : origin.rebase first = origin := rfl

theorem Location.rebase_first_behind (origin : Location) (text : List Char) :
    origin.rebase (first.behind text) = origin.behind text := by
  rw [rebase_behind origin text (Nat.le_refl 1) (Nat.le_refl 1), rebase_first]

/-- The places of a piece have the locations in the source that they have in the piece, based on
the cut. -/
def Lines.IsPiece (inner outer : Lines) (origin : Origin) (text : List Char) : Prop :=
  ∀ before, before <+: text → outer.locate (origin.offset + Text.byteSize before) =
    origin.location.rebase (inner.locate (Text.byteSize before))

/-- A region that begins at a place of the piece is the region of the source that begins there. -/
theorem Lines.span_rebase {inner outer : Lines} {origin : Origin} {text before : List Char}
    (h : inner.IsPiece outer origin text) (hbefore : before <+: text) (stop : Nat) :
    outer.span (origin.offset + Text.byteSize before) (origin.offset + stop) =
      (inner.span (Text.byteSize before) stop).rebase origin := by
  rw [span, span, h before hbefore]
  rfl

/-- **What stands between two parts of a source is a piece of it.** -/
theorem Lines.isPiece_ofText (front text rest : List Char) :
    IsPiece (ofText text) (ofText (front ++ (text ++ rest))) (.behind front) text := by
  rintro before ⟨more, rfl⟩
  rw [locate_ofText before more, Location.rebase_first_behind, Origin.behind,
    ← Location.behind_append, ← Text.byteSize_append, List.append_assoc, ← List.append_assoc front,
    locate_ofText (front ++ before)]

/-- A place of a source, as the place of a cut. -/
def Lines.origin (lines : Lines) (offset : Nat) : Origin :=
  ⟨offset, lines.locate offset⟩

theorem Lines.origin_ofText (front rest : List Char) :
    (ofText (front ++ rest)).origin (Text.byteSize front) = .behind front := by
  rw [origin, locate_ofText, Origin.behind]

end TagLint
