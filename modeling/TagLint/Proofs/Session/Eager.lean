import TagLint.Proofs.Session.Yields
import TagLint.Session

/-!
# A session that has read everything

Instead of reading step by step, a session may read its whole source at once and then hand out
what it has read. Its place is an `Outlook`: the items and the occurrences that are left, as lists.
Both sessions give the same answers.

- `Outlook.step`, `EagerSession.step`, `EagerSession.run`: the steps of a session, taken on lists.
- `Session.eager`: the session with all that it would still read.
- `Session.eager_step`: a step and its counterpart on lists do the same.
- `Session.run_eq_run_eager`: so they do in a run.
-/

namespace TagLint

/-- A place at which everything is read. -/
structure Outlook where
  /-- The items that are left. -/
  items : List Item
  /-- The tag that was handed out last. -/
  current? : Option Tag
  /-- What is left of the occurrences of a tag. -/
  occurrences? : Option (List Occurrence)

namespace Outlook

/-- Hands out the next item. -/
def nextTag : Outlook → SessionAnswer × Outlook
  | ⟨[], current?, occurrences?⟩ => (.item none, ⟨[], current?, occurrences?⟩)
  | ⟨.ok tag :: items, _, occurrences?⟩ => (.item (some (.ok tag)), ⟨items, some tag, occurrences?⟩)
  | ⟨.error cause :: items, current?, occurrences?⟩ =>
    (.item (some (.error cause)), ⟨items, current?, occurrences?⟩)

/-- Hands out the next occurrence. -/
def nextOccurrence : Outlook → SessionAnswer × Outlook
  | ⟨items, current?, some (found :: more)⟩ =>
    (.occurrence (some found), ⟨items, current?, some more⟩)
  | outlook => (.occurrence none, outlook)

/-- The answer to a step in a source with these lines, and the place after it. -/
def step (lines : Lines) (outlook : Outlook) : CursorStep → SessionAnswer × Outlook
  | .nextTag => outlook.nextTag
  | .allTags => (.items outlook.items, { outlook with items := [] })
  | .startAttributes =>
    (.started outlook.current?.isSome,
      { outlook with occurrences? := outlook.current?.map Tag.occurrences })
  | .nextOccurrence => outlook.nextOccurrence
  | .listAttributes => (.attributes (outlook.current?.map Tag.attributes), outlook)
  | .remark => (.remarks (outlook.current?.map (·.remarks lines)), outlook)
  | .locate offset => (.location (lines.locate offset), outlook)
  | .countLines => (.count lines.count, outlook)

end Outlook

/-- A session that has read its source. -/
structure EagerSession where
  /-- The lines of the source. -/
  lines : Lines
  /-- The items of the source. -/
  items : List Item
  /-- Where the session is. -/
  live : Outlook
  /-- The place that was saved last. -/
  saved : Outlook

namespace EagerSession

/-- The session that reads a source at its start. -/
def ofString (source : String) : EagerSession :=
  let items := (TagReader.ofString source).items
  ⟨Lines.ofString source, items, ⟨items, none, none⟩, ⟨items, none, none⟩⟩

/-- The answer to a step, and the session after it. -/
def step (session : EagerSession) : SessionStep → SessionAnswer × EagerSession
  | .move step =>
    let (answer, live) := session.live.step session.lines step
    (answer, { session with live })
  | .restart => (.done, { session with live := { session.live with items := session.items } })
  | .save => (.done, { session with saved := session.live })
  | .restore => (.done, { session with live := session.saved })

/-- The answers to some steps, taken one after the other. -/
def run (session : EagerSession) : List SessionStep → List SessionAnswer
  | [] => []
  | step :: steps => (session.step step).1 :: (session.step step).2.run steps

end EagerSession

/-! ### Lists in place of readers -/

namespace Cursor

variable {cursor : Cursor} {lines : Lines}

/-- The cursor with all that it would still read. -/
def outlook (cursor : Cursor) : Outlook :=
  ⟨cursor.tags.items, cursor.current?, cursor.attributes?.map AttributeReader.occurrences⟩

theorem nextTag_of_none (h : cursor.tags.next? = none) :
    cursor.nextTag = (.item none, cursor) := by
  rw [nextTag, h]

theorem nextTag_of_some {found : Item} {behind : TagReader}
    (h : cursor.tags.next? = some (found, behind)) :
    cursor.nextTag = (.item (some found), cursor.behind found behind) := by
  rw [nextTag, h]

theorem outlook_nextTag (cursor : Cursor) :
    (cursor.nextTag.1, cursor.nextTag.2.outlook) = cursor.outlook.nextTag := by
  rcases hnext : cursor.tags.next? with _ | ⟨found, behind⟩
  · rw [nextTag_of_none hnext, outlook, TagReader.items_of_next?_none hnext]
    rfl
  · have hitems := TagReader.items_of_next?_some hnext
    rw [nextTag_of_some hnext]
    cases found with
    | ok tag =>
      rw [outlook, outlook, hitems]
      rfl
    | error cause =>
      rw [outlook, outlook, hitems]
      rfl

theorem outlook_nextOccurrence (cursor : Cursor) :
    (cursor.nextOccurrence.1, cursor.nextOccurrence.2.outlook) =
      cursor.outlook.nextOccurrence := by
  obtain ⟨tags, current?, attributes?⟩ := cursor
  rcases attributes? with _ | reader
  · rfl
  simp only [nextOccurrence, outlook, Option.bind_some, Option.map_some]
  rcases hnext : reader.next? with _ | ⟨found, behind⟩
  · simp only [Option.map_some, AttributeReader.occurrences_of_next?_none hnext]
    rfl
  · simp only [Option.map_some, AttributeReader.occurrences_of_next?_some hnext]
    rfl

/-- Reading a tag moves the reader of tags and the current tag, and stays in the source. -/
theorem exists_nextTag (cursor : Cursor) : ∃ tags current?,
    cursor.nextTag.2 = ⟨tags, current?, cursor.attributes?⟩ ∧ tags.lines = cursor.tags.lines := by
  rcases hnext : cursor.tags.next? with _ | ⟨found, behind⟩
  · rw [nextTag_of_none hnext]
    exact ⟨cursor.tags, cursor.current?, rfl, rfl⟩
  · have hlines := TagReader.lines_of_next? hnext
    rw [nextTag_of_some hnext]
    cases found with
    | ok tag => exact ⟨behind, some tag, rfl, hlines⟩
    | error cause => exact ⟨behind, cursor.current?, rfl, hlines⟩

/-- Reading an occurrence moves the reader of attributes. -/
theorem exists_nextOccurrence (cursor : Cursor) : ∃ attributes?,
    cursor.nextOccurrence.2 = ⟨cursor.tags, cursor.current?, attributes?⟩ := by
  rw [nextOccurrence]
  rcases cursor.attributes?.bind AttributeReader.next? with _ | ⟨found, behind⟩
  · exact ⟨cursor.attributes?, rfl⟩
  · exact ⟨some behind, rfl⟩

/-- **A step of a cursor, taken on lists.** -/
theorem outlook_step (hlines : cursor.tags.lines = lines) (step : CursorStep) :
    ((cursor.step step).1, (cursor.step step).2.outlook) = cursor.outlook.step lines step := by
  subst hlines
  cases step with
  | nextTag => exact outlook_nextTag cursor
  | allTags =>
    have hfinish : cursor.tags.finish.items = [] := TagReader.items_nil rfl
    show (SessionAnswer.items cursor.tags.items, Outlook.mk cursor.tags.finish.items _ _) = _
    rw [hfinish]
    rfl
  | startAttributes =>
    obtain ⟨tags, current?, attributes?⟩ := cursor
    cases current? <;> rfl
  | nextOccurrence => exact outlook_nextOccurrence cursor
  | listAttributes => rfl
  | remark => rfl
  | locate offset => rfl
  | countLines => rfl

/-- A step stays in the source. -/
theorem lines_step (cursor : Cursor) (step : CursorStep) :
    (cursor.step step).2.tags.lines = cursor.tags.lines := by
  cases step with
  | nextTag =>
    obtain ⟨tags, current?, hbehind, hlines⟩ := cursor.exists_nextTag
    exact (congrArg (·.tags.lines) hbehind).trans hlines
  | nextOccurrence =>
    obtain ⟨attributes?, hbehind⟩ := cursor.exists_nextOccurrence
    exact congrArg (·.tags.lines) hbehind
  | allTags => rfl
  | startAttributes => rfl
  | listAttributes => rfl
  | remark => rfl
  | locate offset => rfl
  | countLines => rfl

end Cursor

namespace Session

variable {session : Session}

/-- Both places of a session are in its source. -/
structure InSource (session : Session) : Prop where
  live : session.live.tags.lines = session.start.lines
  saved : session.saved.tags.lines = session.start.lines

theorem inSource_ofString (source : String) : (ofString source).InSource := by
  constructor
  case live => rfl
  case saved => rfl

/-- A step stays in the source. -/
theorem InSource.step (h : session.InSource) (step : SessionStep) :
    (session.step step).2.InSource := by
  cases step with
  | move step => exact ⟨(Cursor.lines_step session.live step).trans h.live, h.saved⟩
  | restart => exact ⟨rfl, h.saved⟩
  | save => exact ⟨h.live, h.live⟩
  | restore => exact ⟨h.saved, h.saved⟩

/-- The session with all that it would still read. -/
def eager (session : Session) : EagerSession :=
  ⟨session.start.lines, session.start.items, session.live.outlook, session.saved.outlook⟩

/-- **A step of a session, taken on lists.** The answers are the same, and so is what is left. -/
theorem eager_step (h : session.InSource) (step : SessionStep) :
    ((session.step step).1, (session.step step).2.eager) = session.eager.step step := by
  cases step with
  | move step =>
    have hstep := Cursor.outlook_step h.live step
    obtain ⟨hanswer, hlive⟩ := Prod.mk.inj hstep
    show ((session.live.step step).1, EagerSession.mk _ _ (session.live.step step).2.outlook _) = _
    rw [hanswer, hlive]
    rfl
  | restart => rfl
  | save => rfl
  | restore => rfl

/-- **A run gives the same answers on lists.** -/
theorem run_eq_run_eager (h : session.InSource) (steps : List SessionStep) :
    session.run steps = session.eager.run steps := by
  induction steps generalizing session with
  | nil => rfl
  | cons step steps ih =>
    obtain ⟨hanswer, hafter⟩ := Prod.mk.inj (eager_step h step)
    show (session.step step).1 :: (session.step step).2.run steps = _
    rw [ih (h.step step), hanswer, hafter]
    rfl

end Session

end TagLint
