import TagLint.Lint.Remarks
import TagLint.Markup.TagReader

/-!
# Stepping through a source

A session reads a source step by step: tags one at a time, and the attributes of the tag that was
read last. Its place can be saved, and what was saved can be restored, any number of times.

- `Cursor`: the place of a session, which is its reader of tags, its current tag and its reader of
  attributes.
- `Cursor.step`: the answer to a step from a place, and the place after it.
- `Session.step`, `Session.run`: the same with starting again, saving and restoring.

A step moves only the part that it names: reading a tag leaves the reader of attributes where it
is.
-/

namespace TagLint

/-- The place of a session in its source. -/
structure Cursor where
  /-- Where tags are read. -/
  tags : TagReader
  /-- The tag that was read last. -/
  current? : Option Tag
  /-- Where attributes are read. -/
  attributes? : Option AttributeReader
  deriving DecidableEq, Repr

/-- The steps that a cursor takes. -/
inductive CursorStep where
  /-- Read the next tag, which becomes the current tag. -/
  | nextTag
  /-- Read all tags that are left. The current tag stays. -/
  | allTags
  /-- Begin to read the attributes of the current tag. -/
  | startAttributes
  /-- Read on to what occurs next among the attributes. -/
  | nextOccurrence
  /-- List the attributes of the current tag. -/
  | listAttributes
  /-- Report on the current tag. -/
  | remark
  /-- Locate an offset. -/
  | locate (offset : Nat)
  /-- Count the lines of the source. -/
  | countLines
  deriving DecidableEq, Repr

/-- The steps of a session. -/
inductive SessionStep where
  /-- A step of the cursor. -/
  | move (step : CursorStep)
  /-- Read tags from the start of the source again. -/
  | restart
  /-- Keep the place. -/
  | save
  /-- Go back to the place that was kept. -/
  | restore
  deriving DecidableEq, Repr

/-- The answer to a step. -/
inductive SessionAnswer where
  /-- The item that was read, or none at the end. -/
  | item (found : Option Item)
  /-- The items that were left. -/
  | items (found : List Item)
  /-- Whether the attributes of a tag are being read. -/
  | started (reading : Bool)
  /-- What occurs next, or none at the end. -/
  | occurrence (found : Option Occurrence)
  /-- The attributes of the current tag, if there is one. -/
  | attributes (found : Option (List Attribute))
  /-- The remarks on the current tag, if there is one. -/
  | remarks (found : Option Remarks)
  /-- A location. -/
  | location (place : Location)
  /-- A number of lines. -/
  | count (lines : Nat)
  /-- The step was taken. -/
  | done
  deriving Repr

namespace Cursor

/-- The place with a reader of tags and nothing else. -/
def ofReader (tags : TagReader) : Cursor :=
  ⟨tags, none, none⟩

/-- The place behind an item that was read. A fault leaves the current tag as it was. -/
def behind (cursor : Cursor) (found : Item) (tags : TagReader) : Cursor :=
  match found with
  | .ok tag => { cursor with tags, current? := some tag }
  | .error _ => { cursor with tags }

/-- Reads the next item. -/
def nextTag (cursor : Cursor) : SessionAnswer × Cursor :=
  match cursor.tags.next? with
  | some (found, tags) => (.item (some found), cursor.behind found tags)
  | none => (.item none, cursor)

/-- Reads on to what occurs next, if attributes are being read. -/
def nextOccurrence (cursor : Cursor) : SessionAnswer × Cursor :=
  match cursor.attributes?.bind AttributeReader.next? with
  | some (found, reader) => (.occurrence (some found), { cursor with attributes? := some reader })
  | none => (.occurrence none, cursor)

/-- The answer to a step, and the place after it. -/
def step (cursor : Cursor) : CursorStep → SessionAnswer × Cursor
  | .nextTag => cursor.nextTag
  | .allTags => (.items cursor.tags.items, { cursor with tags := cursor.tags.finish })
  | .startAttributes =>
    let attributes? := cursor.current?.map AttributeReader.ofTag
    (.started attributes?.isSome, { cursor with attributes? })
  | .nextOccurrence => cursor.nextOccurrence
  | .listAttributes => (.attributes (cursor.current?.map Tag.attributes), cursor)
  | .remark => (.remarks (cursor.current?.map (·.remarks cursor.tags.lines)), cursor)
  | .locate offset => (.location (cursor.tags.lines.locate offset), cursor)
  | .countLines => (.count cursor.tags.lines.count, cursor)

end Cursor

/-- A session: the start of its source, where it is, and the place that it keeps. -/
structure Session where
  /-- The reader at the start of the source. -/
  start : TagReader
  /-- Where the session is. -/
  live : Cursor
  /-- The place that was saved last. -/
  saved : Cursor
  deriving DecidableEq, Repr

namespace Session

/-- A new session keeps the start of its source. -/
def ofString (source : String) : Session :=
  let start := TagReader.ofString source
  ⟨start, .ofReader start, .ofReader start⟩

/-- The answer to a step, and the session after it. -/
def step (session : Session) : SessionStep → SessionAnswer × Session
  | .move step =>
    let (answer, live) := session.live.step step
    (answer, { session with live })
  | .restart => (.done, { session with live := { session.live with tags := session.start } })
  | .save => (.done, { session with saved := session.live })
  | .restore => (.done, { session with live := session.saved })

/-- The answers to some steps, taken one after the other. -/
def run (session : Session) : List SessionStep → List SessionAnswer
  | [] => []
  | step :: steps =>
    let (answer, after) := session.step step
    answer :: after.run steps

end Session

end TagLint
