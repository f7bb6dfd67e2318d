import TagLint.Proofs.Bytes.Lines
import TagLint.Proofs.Location.Origin
import TagLint.Proofs.Location.Spans

/-!
# Looking up keeps the order

`Lines.locate` answers for every number, also for one past the end or inside a character. Here is
what it answers in terms of the bytes of the source, and why no two places of a source have the
same line and column.

- `Location.Before`: the order in which places are read. A place comes before all that stand behind
  it (`Location.before_behind`).
- `Text.IsBoundary`: an offset between two characters. Of two boundaries the first has the second
  one behind it (`Text.IsBoundary.exists_between`).
- `Bytes.countP_startsBehind`: lines start up to an offset where newline bytes stand before it.
- `Lines.Exact`: what is looked up is exact, and keeps the order (`Lines.exact_ofString`).
-/

namespace TagLint

open Text

/-! ### The order of reading -/

namespace Location

/-- A place is read before another one: on an earlier line, or in an earlier column of the same
line. -/
def Before (place other : Location) : Prop :=
  place.line < other.line ∨ place.line = other.line ∧ place.column < other.column

variable {place other third : Location}

theorem Before.trans (h : place.Before other) (hother : other.Before third) :
    place.Before third := by
  unfold Before at *
  omega

theorem Before.ne (h : place.Before other) : place ≠ other := by
  rintro rfl
  unfold Before at h
  omega

theorem before_next (place : Location) (c : Char) : place.Before (place.next c) := by
  rw [next]
  split
  · exact .inl (Nat.lt_succ_self _)
  · exact .inr ⟨rfl, Nat.lt_succ_self _⟩

/-- A place comes before every place behind it. -/
theorem before_behind (place : Location) {text : List Char} (h : text ≠ []) :
    place.Before (place.behind text) := by
  induction text generalizing place with
  | nil => exact absurd rfl h
  | cons c rest ih =>
    have hnext := before_next place c
    rw [behind_cons]
    by_cases hrest : rest = []
    · rw [hrest]
      exact hnext
    · exact hnext.trans (ih _ hrest)

end Location

/-! ### Boundaries -/

/-- An offset between two characters of a text, or at an end of it. -/
def Text.IsBoundary (text : List Char) (offset : Nat) : Prop :=
  ∃ before behind, text = before ++ behind ∧ offset = byteSize before

/-- Between two boundaries there are the characters that stand before the second one only. -/
theorem Text.IsBoundary.exists_between {text : List Char} {start stop : Nat}
    (hstart : IsBoundary text start) (hstop : IsBoundary text stop) (hle : start ≤ stop) :
    ∃ before between behind, text = before ++ (between ++ behind) ∧ start = byteSize before ∧
      stop = byteSize (before ++ between) := by
  obtain ⟨before, rest, rfl, rfl⟩ := hstart
  obtain ⟨front, behind, htext, rfl⟩ := hstop
  rcases List.append_eq_append_iff.1 htext with ⟨between, rfl, rfl⟩ | ⟨between, rfl, rfl⟩
  · exact ⟨before, between, behind, rfl, rfl, rfl⟩
  · -- the second boundary is not in front of the first, so nothing is between them
    have hnone : between = [] := by
      rw [byteSize_append] at hle
      have hlength := length_le_byteSize between
      exact List.length_eq_zero_iff.1 (by omega)
    subst hnone
    refine ⟨front, [], rest, ?_, ?_, ?_⟩
    · rw [List.append_nil, List.nil_append]
    · rw [List.append_nil]
    · rw [List.append_nil]

/-! ### Newline bytes -/

namespace Bytes

/-- The newlines among some bytes. -/
def newlines (bytes : List UInt8) : Nat :=
  bytes.count 10

/-- Only a newline has the byte of a newline. -/
theorem notMem_utf8EncodeChar {c : Char} (h : c ≠ '\n') : 10 ∉ String.utf8EncodeChar c := by
  intro hmem
  by_cases hc : c.toNat < 128
  · have hview : Char.ofUInt8 10 ∈ view (utf8 [c]) := by
      refine List.mem_map_of_mem ?_
      rw [utf8_cons]
      exact List.mem_append_left _ hmem
    rw [view_utf8_of_lt hc] at hview
    exact h (List.mem_singleton.1 hview).symm
  · exact absurd (le_toNat_of_mem_utf8EncodeChar (Nat.not_lt.1 hc) hmem) (by decide)

/-- The bytes of another character have no newline, however many are taken. -/
theorem newlines_take_cons {c : Char} (h : c ≠ '\n') (bytes : Nat) (text : List Char) :
    newlines ((utf8 (c :: text)).take bytes) =
      newlines ((utf8 text).take (bytes - c.utf8Size)) := by
  have hnone : ((String.utf8EncodeChar c).take bytes).count 10 = 0 :=
    List.count_eq_zero_of_not_mem fun hmem => notMem_utf8EncodeChar h (List.mem_of_mem_take hmem)
  rw [newlines, utf8_cons, List.take_append, List.count_append, hnone, Nat.zero_add,
    String.length_utf8EncodeChar]
  rfl

theorem newlines_take_newline (bytes : Nat) (text : List Char) :
    newlines ((utf8 ('\n' :: text)).take (bytes + 1)) =
      newlines ((utf8 text).take bytes) + 1 := by
  show List.count 10 (10 :: (utf8 text).take bytes) = _
  rw [List.count_cons_self, newlines]

theorem newlines_utf8 (text : List Char) : newlines (utf8 text) = text.count '\n' := by
  induction text with
  | nil => rfl
  | cons c text ih =>
    have htake := List.take_of_length_le (Nat.le_refl (utf8 text).length)
    by_cases hc : c = '\n'
    · subst hc
      rw [List.count_cons_self, ← ih]
      exact List.count_cons_self
    · rw [List.count_cons_of_ne hc, ← ih, newlines, utf8_cons, List.count_append,
        List.count_eq_zero_of_not_mem (notMem_utf8EncodeChar hc), Nat.zero_add]
      rfl

/-- Of the lines that start behind the newlines of a text, those start at most some bytes behind
the text's offset whose newline is among so many bytes of the text. -/
theorem countP_startsBehind (offset bytes : Nat) (text : List Char) :
    ((Lines.startsBehind offset text).map LineStart.offset).countP (· ≤ offset + bytes) =
      newlines ((utf8 text).take bytes) := by
  induction text generalizing offset bytes with
  | nil => rw [Lines.startsBehind, utf8, List.flatMap_nil, List.take_nil]; rfl
  | cons c rest ih =>
    -- no line behind the character starts inside it
    have hinside (hless : bytes < c.utf8Size) :
        ((Lines.startsBehind (offset + c.utf8Size) rest).map LineStart.offset).countP
          (· ≤ offset + bytes) = 0 := by
      rw [List.countP_eq_zero]
      intro next hnext
      obtain ⟨start, hstart, rfl⟩ := List.mem_map.1 hnext
      have := (Lines.offset_of_mem_startsBehind hstart).1
      simpa using by omega
    rw [Lines.startsBehind]
    by_cases hc : c = '\n'
    · subst hc
      rw [if_pos rfl, List.map_cons, List.countP_cons]
      cases bytes with
      | zero =>
        have hpos := Char.utf8Size_pos '\n'
        have hnot : ¬ offset + '\n'.utf8Size ≤ offset + 0 := by omega
        rw [hinside hpos, if_neg (by rwa [decide_eq_true_eq])]
        rfl
      | succ bytes =>
        have hoffset : offset + (bytes + 1) = offset + '\n'.utf8Size + bytes := by
          show offset + (bytes + 1) = offset + 1 + bytes
          omega
        rw [hoffset, ih, if_pos (decide_eq_true (Nat.le_add_right ..)), newlines_take_newline]
    · rw [if_neg hc, newlines_take_cons hc]
      rcases Nat.lt_or_ge bytes c.utf8Size with hless | hge
      · rw [hinside hless, Nat.sub_eq_zero_of_le (Nat.le_of_lt hless)]
        rfl
      · obtain ⟨more, rfl⟩ := Nat.exists_eq_add_of_le hge
        rw [← Nat.add_assoc, ih, Nat.add_sub_cancel_left]

/-- The line of an offset is counted from the newlines among the bytes before it. -/
theorem lineAt_eq_newlines (text : List Char) (offset : Nat) :
    (Lines.ofText text).lineAt offset = newlines ((utf8 text).take offset) := by
  have hcount := countP_startsBehind 0 offset text
  rw [Nat.zero_add] at hcount
  rw [lineAt_eq, startsOf, Lines.toList_starts_ofText, List.map_cons, List.countP_cons,
    if_pos (decide_eq_true (Nat.zero_le offset)), hcount, Nat.add_sub_cancel]

end Bytes

/-! ### Looking up -/

namespace Lines

/-- An offset past the end counts as the end. -/
theorem locate_min (lines : Lines) (offset : Nat) :
    lines.locate (min offset lines.size) = lines.locate offset := by
  simp only [locate, Nat.min_assoc, Nat.min_self]

theorem line_locate (text : List Char) (offset : Nat) :
    ((ofText text).locate offset).line = 1 + Bytes.newlines ((Bytes.utf8 text).take offset) := by
  have htake : (Bytes.utf8 text).take (min offset (ofText text).size) =
      (Bytes.utf8 text).take offset := by
    rw [List.take_eq_take_iff, Bytes.length_utf8]
    show min (min offset (byteSize text)) (byteSize text) = _
    rw [Nat.min_assoc, Nat.min_self]
  show (ofText text).lineAt (min offset (ofText text).size) + 1 = _
  rw [Bytes.lineAt_eq_newlines, htake, Nat.add_comm]

theorem count_ofText (text : List Char) : (ofText text).count = 1 + text.count '\n' := by
  rw [count, ← Array.length_toList, toList_starts_ofText, List.length_cons, length_startsBehind,
    Nat.add_comm]

/-- The map from offsets to lines and columns that the lines of a source give is exact, and keeps
the order of places. -/
structure Exact (lines : Lines) (source : String) : Prop where
  /-- An offset past the end counts as the end. -/
  clamp : ∀ offset, lines.locate offset = lines.locate (min offset source.utf8ByteSize)
  /-- The line is counted from the newline bytes before the offset, also inside a character. -/
  line : ∀ offset, (lines.locate offset).line =
    1 + Bytes.newlines (source.toUTF8.data.toList.take (min offset source.utf8ByteSize))
  /-- The line is one of the source's lines. -/
  line_range : ∀ offset, 1 ≤ (lines.locate offset).line ∧ (lines.locate offset).line ≤ lines.count
  /-- There is one line more than newline bytes. -/
  count : lines.count = 1 + Bytes.newlines source.toUTF8.data.toList
  /-- Between two characters the column is counted from the characters behind the last newline. -/
  column : ∀ offset before behind, source.toList = before ++ behind →
    min offset source.utf8ByteSize = byteSize before →
      (lines.locate offset).column = 1 + (lastLine before).length
  /-- The earlier of two boundaries has the earlier location. -/
  ordered : ∀ start stop, IsBoundary source.toList start → IsBoundary source.toList stop →
    start < stop → (lines.locate start).Before (lines.locate stop)
  /-- No two boundaries have the same location. -/
  injective : ∀ start stop, IsBoundary source.toList start → IsBoundary source.toList stop →
    lines.locate start = lines.locate stop → start = stop
  /-- A boundary behind another one has the location that it has in what stands behind the first,
  based on the first. -/
  based : ∀ start offset, IsBoundary source.toList start →
    IsBoundary source.toList (start + offset) → lines.locate (start + offset) =
      (lines.locate start).rebase ((ofText (dropBytes start source.toList)).locate offset)

/-- An earlier boundary has an earlier location. -/
theorem before_locate {text : List Char} {start stop : Nat} (hstart : IsBoundary text start)
    (hstop : IsBoundary text stop) (hlt : start < stop) :
    ((ofText text).locate start).Before ((ofText text).locate stop) := by
  obtain ⟨before, between, behind, rfl, rfl, rfl⟩ :=
    hstart.exists_between hstop (Nat.le_of_lt hlt)
  have hbetween : between ≠ [] := by
    rintro rfl
    rw [List.append_nil] at hlt
    exact Nat.lt_irrefl _ hlt
  rw [locate_ofText before, ← List.append_assoc, locate_ofText (before ++ between),
    Location.behind_append]
  exact Location.before_behind _ hbetween

/-- **Looking up is exact and keeps the order.** Whatever the source and the offset, the line is one
more than the newline bytes before the offset. Between characters the column is one more than the
characters behind the last newline. So places have the order of their locations, and the locations
in a suffix are those in the source, counted from its start. -/
theorem exact_ofString (source : String) : (ofString source).Exact source := by
  have hbytes : source.toUTF8.data.toList = Bytes.utf8 source.toList := by
    rw [← Bytes.toUTF8_ofList, String.ofList_toList]
  have hsize : source.utf8ByteSize = (ofString source).size := by
    have := utf8ByteSize_ofList source.toList
    rwa [String.ofList_toList] at this
  have hline (offset : Nat) : ((ofString source).locate offset).line =
      1 + Bytes.newlines (source.toUTF8.data.toList.take (min offset source.utf8ByteSize)) := by
    rw [hbytes, hsize, ← locate_min]
    exact line_locate _ _
  have hcount : (ofString source).count = 1 + Bytes.newlines source.toUTF8.data.toList := by
    rw [hbytes, Bytes.newlines_utf8]
    exact count_ofText _
  constructor
  case clamp =>
    intro offset
    rw [hsize, locate_min]
  case line => exact hline
  case line_range =>
    intro offset
    rw [hline, hcount]
    have hle := (List.take_sublist (min offset source.utf8ByteSize)
      source.toUTF8.data.toList).count_le 10
    exact ⟨Nat.le_add_right .., Nat.add_le_add_left hle 1⟩
  case count => exact hcount
  case column =>
    intro offset before behind hsource hoffset
    rw [hsize] at hoffset
    rw [← locate_min, hoffset, ofString, hsource, locate_ofText, Location.first_behind]
  case ordered =>
    intro start stop hstart hstop hlt
    exact before_locate hstart hstop hlt
  case injective =>
    intro start stop hstart hstop heq
    rcases Nat.lt_trichotomy start stop with hlt | rfl | hlt
    · exact absurd heq (before_locate hstart hstop hlt).ne
    · rfl
    · exact absurd heq.symm (before_locate hstop hstart hlt).ne
  case based =>
    intro start offset hstart hstop
    obtain ⟨before, between, behind, hsource, rfl, hoffset⟩ :=
      hstart.exists_between hstop (Nat.le_add_right ..)
    have hbetween : offset = byteSize between := by
      rw [byteSize_append] at hoffset
      omega
    rw [hbetween, ← byteSize_append, ofString, hsource, dropBytes_byteSize, locate_ofText before,
      locate_ofText between, Location.rebase_first_behind, ← Location.behind_append,
      ← List.append_assoc, locate_ofText (before ++ between)]

end Lines

end TagLint
