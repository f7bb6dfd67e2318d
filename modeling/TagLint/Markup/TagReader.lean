import TagLint.Location.Lines
import TagLint.Markup.Fault
import TagLint.Markup.Piece
import TagLint.Tag.Basic

/-!
# Reading the tags of a source

A `TagReader` is a place in a source, together with the source's lines. From there it goes on to
the next landmark: a comment, a tag, or the fault that ends the reading.

- `TagReader.landmark?`: the next landmark, and the reader behind it.
- `TagReader.next?`: the next tag or fault, and the reader behind it; comments are passed over.
- `TagReader.landmarks`, `TagReader.items`: all that are left.

Every landmark takes the place further (`landmark?_length_lt`), so a reader comes to its end.
Behind a fault no text is left, and so nothing follows it.
-/

namespace TagLint

/-- What a reader of tags stops at. -/
inductive Landmark where
  /-- A closed comment outside tags, from its opener to past its closer. -/
  | comment (start stop : Nat)
  /-- A tag. -/
  | tag (found : Tag)
  /-- Something left open, which ends the reading. -/
  | fault (cause : Fault)
  deriving DecidableEq, Repr

/-- A tag of a source, or the fault that ends the reading. -/
abbrev Item := Except Fault Tag

/-- The item of a landmark; a comment has none. -/
def Landmark.item? : Landmark → Option Item
  | comment _ _ => none
  | tag found => some (.ok found)
  | fault cause => some (.error cause)

/-- A place in a source, from which its tags are read. -/
structure TagReader where
  /-- The lines of the whole source. -/
  lines : Lines
  /-- The offset of the place. -/
  offset : Nat
  /-- The source from the place on. -/
  rest : List Char
  deriving DecidableEq, Repr

namespace TagReader

/-- The reader at the start of a source. -/
def ofText (text : List Char) : TagReader :=
  ⟨Lines.ofText text, 0, text⟩

/-- The reader at the start of a source string. -/
def ofString (source : String) : TagReader :=
  ofText source.toList

/-- The reader `count` characters further on. -/
def advance (r : TagReader) (count : Nat) : TagReader :=
  { r with offset := r.offset + Text.byteSize (r.rest.take count), rest := r.rest.drop count }

/-- The reader with no text left. -/
def finish (r : TagReader) : TagReader :=
  { r with rest := [] }

/-- The tag that takes the next `length` characters. -/
def tagOfLength (r : TagReader) (length : Nat) : Tag :=
  let text := r.rest.take length
  ⟨String.ofList text, String.ofList (Tag.nameOf text),
    r.lines.span r.offset (r.offset + Text.byteSize text)⟩

/-- The fault of something left open that opens `count` characters further on. -/
def faultAt (r : TagReader) (unclosed : Unclosed) (count : Nat) : Fault :=
  let offset := (r.advance count).offset
  ⟨unclosed.message, offset, r.lines.locate offset⟩

/-- What is left open of the tag that starts here. -/
def unclosedTag (r : TagReader) (nest : Nesting) : Unclosed :=
  .ofNesting (String.ofList (Tag.nameOf r.rest)) (r.lines.locate r.offset) nest

/-- The next landmark, and the reader behind it. -/
def landmark? (r : TagReader) : Option (Landmark × TagReader) :=
  match _h : r.rest with
  | [] => none
  | c :: rest =>
    match Piece.front c rest with
    | .escape => (r.advance 2).landmark?
    | .plain => (r.advance 1).landmark?
    | .comment length =>
      some (.comment r.offset (r.advance length).offset, r.advance length)
    | .tag length => some (.tag (r.tagOfLength length), r.advance length)
    | .openComment kind => some (.fault (r.faultAt (.comment kind) 0), r.finish)
    | .openTag nest => some (.fault (r.faultAt (r.unclosedTag nest) nest.opened), r.finish)
termination_by r.rest.length
decreasing_by
  all_goals
    simp only [advance, _h, List.length_drop, List.length_cons]
    omega

/-- A landmark takes the place further. -/
theorem landmark?_length_lt {r behind : TagReader} {landmark : Landmark}
    (h : r.landmark? = some (landmark, behind)) : behind.rest.length < r.rest.length := by
  fun_induction landmark? r with
  | case1 => cases h
  | case2 r c rest hrest hfront ih =>
    refine Nat.lt_of_lt_of_le (ih h) ?_
    rw [advance, List.length_drop]
    exact Nat.sub_le _ _
  | case3 r c rest hrest hfront ih =>
    refine Nat.lt_of_lt_of_le (ih h) ?_
    rw [advance, List.length_drop]
    exact Nat.sub_le _ _
  | case4 r c rest hrest length hfront =>
    cases h
    have := Piece.length_pos_of_comment hfront
    simp only [advance, List.length_drop, hrest, List.length_cons]
    omega
  | case5 r c rest hrest length hfront =>
    cases h
    have := Piece.length_pos_of_tag hfront
    simp only [advance, List.length_drop, hrest, List.length_cons]
    omega
  | case6 r c rest hrest kind hfront =>
    cases h
    rw [hrest]
    exact Nat.succ_pos _
  | case7 r c rest hrest nest hfront =>
    cases h
    rw [hrest]
    exact Nat.succ_pos _

/-- The landmarks that are left, in order. -/
def landmarks (r : TagReader) : List Landmark :=
  go [] r
where
  /-- Goes on behind the landmarks of `before`, which has the last one first. -/
  go (before : List Landmark) (r : TagReader) : List Landmark :=
    match h : r.landmark? with
    | none => before.reverse
    | some (landmark, behind) =>
      have := landmark?_length_lt h
      go (landmark :: before) behind
  termination_by r.rest.length

/-- The next tag or fault, and the reader behind it. -/
def next? (r : TagReader) : Option (Item × TagReader) :=
  match h : r.landmark? with
  | none => none
  | some (landmark, behind) =>
    have := landmark?_length_lt h
    match landmark.item? with
    | some item => some (item, behind)
    | none => behind.next?
termination_by r.rest.length

/-- The tags that are left, in order, and the fault that ends the reading, if there is one. -/
def items (r : TagReader) : List Item :=
  r.landmarks.filterMap Landmark.item?

end TagReader

end TagLint
