import TagLint.Proofs.Session.Eager

/-!
# Reading lazily is reading eagerly

Whatever steps a session takes, and in whatever order, both of its places stay in front of what the
source ends with: the items that are left are the last of the source's items, and the occurrences
that are left are the last of some tag's.

- `Session.after`: the session after some steps.
- `Cursor.Follows`: what a cursor would still yield is what its source ends with.
- `SessionStep.moves`, `Session.SameAt`: the parts of a session that a step moves; the others stay.
- `Session.Invariant`: what every step preserves.
- `Session.agrees_after`: what that comes to for a run.
-/

namespace TagLint

/-! ### Places -/

namespace Outlook

variable {all : List Item} {outlook : Outlook}

/-- A place has in front of it what the items of a source end with, and what the occurrences of one
of its tags end with. -/
structure Within (all : List Item) (outlook : Outlook) : Prop where
  items : outlook.items <:+ all
  current : ∀ tag ∈ outlook.current?, .ok tag ∈ all
  occurrences : ∀ left ∈ outlook.occurrences?, ∃ tag, .ok tag ∈ all ∧ left <:+ tag.occurrences

theorem Within.nextTag (h : outlook.Within all) : (outlook.nextTag).2.Within all := by
  obtain ⟨items, current?, occurrences?⟩ := outlook
  obtain ⟨hitems, hcurrent, hoccurrences⟩ := h
  rcases items with _ | ⟨cause | tag, items⟩
  · exact ⟨hitems, hcurrent, hoccurrences⟩
  · exact ⟨(List.suffix_cons _ _).trans hitems, hcurrent, hoccurrences⟩
  · refine ⟨(List.suffix_cons _ _).trans hitems, ?_, hoccurrences⟩
    rintro _ ⟨⟩
    exact hitems.subset List.mem_cons_self

theorem Within.nextOccurrence (h : outlook.Within all) : (outlook.nextOccurrence).2.Within all := by
  obtain ⟨items, current?, occurrences?⟩ := outlook
  rcases occurrences? with _ | _ | ⟨found, more⟩
  · exact h
  · exact h
  · refine ⟨h.items, h.current, ?_⟩
    rintro _ ⟨⟩
    obtain ⟨tag, htag, hsuffix⟩ := h.occurrences _ rfl
    exact ⟨tag, htag, (List.suffix_cons _ _).trans hsuffix⟩

/-- **A step keeps a place within its source.** -/
theorem Within.step (h : outlook.Within all) (lines : Lines) (step : CursorStep) :
    (outlook.step lines step).2.Within all := by
  cases step with
  | nextTag => exact h.nextTag
  | allTags => exact ⟨List.nil_suffix, h.current, h.occurrences⟩
  | startAttributes =>
    refine ⟨h.items, h.current, ?_⟩
    intro left hleft
    obtain ⟨tag, htag, rfl⟩ := Option.map_eq_some_iff.1 hleft
    exact ⟨tag, h.current tag htag, List.suffix_rfl⟩
  | nextOccurrence => exact h.nextOccurrence
  | listAttributes => exact h
  | remark => exact h
  | locate offset => exact h
  | countLines => exact h

end Outlook

/-- A cursor follows a source: the items that it would still yield are the last of the source's
items, its current tag is one of them, and the occurrences that it would still yield are the last
of those of a tag of the source. -/
structure Cursor.Follows (source : String) (cursor : Cursor) : Prop where
  tags : ∃ left, Yields TagReader.next? cursor.tags left ∧
    left <:+ (TagReader.ofString source).items
  current : ∀ tag ∈ cursor.current?, .ok tag ∈ (TagReader.ofString source).items
  attributes : ∀ reader ∈ cursor.attributes?, ∃ tag left,
    .ok tag ∈ (TagReader.ofString source).items ∧
      Yields AttributeReader.next? reader left ∧ left <:+ tag.occurrences

theorem Outlook.Within.follows {source : String} {cursor : Cursor}
    (h : cursor.outlook.Within (TagReader.ofString source).items) : cursor.Follows source := by
  constructor
  case tags => exact ⟨cursor.tags.items, cursor.tags.yields_items, h.items⟩
  case current => exact h.current
  case attributes =>
    intro reader hreader
    have hleft : reader.occurrences ∈ cursor.outlook.occurrences? :=
      Option.map_eq_some_iff.2 ⟨reader, hreader, rfl⟩
    obtain ⟨tag, htag, hsuffix⟩ := h.occurrences _ hleft
    exact ⟨tag, reader.occurrences, htag, reader.yields_occurrences, hsuffix⟩

/-! ### The parts that a step moves -/

/-- The parts of a session that steps move. -/
inductive SessionPart where
  /-- Where tags are read. -/
  | tags
  /-- The tag that was read last. -/
  | current
  /-- Where attributes are read. -/
  | attributes
  /-- The place that was saved. -/
  | saved
  deriving DecidableEq

namespace SessionStep

/-- The parts that a step moves. -/
def moves : SessionStep → List SessionPart
  | .move .nextTag => [.tags, .current]
  | .move .allTags => [.tags]
  | .move .startAttributes => [.attributes]
  | .move .nextOccurrence => [.attributes]
  | .move .listAttributes => []
  | .move .remark => []
  | .move (.locate _) => []
  | .move .countLines => []
  | .restart => [.tags]
  | .save => [.saved]
  | .restore => [.tags, .current, .attributes]

/-- Whether a step goes back in the source. -/
def goesBack : SessionStep → Bool
  | .restart => true
  | .restore => true
  | _ => false

end SessionStep

/-- The answers that tell that no more items come: there is none, or a fault came. -/
def SessionAnswer.IsLast : SessionAnswer → Prop
  | .item none => True
  | .item (some (.error _)) => True
  | _ => False

namespace Session

variable {session : Session} {source : String}

/-- Two sessions have a part in common. -/
def SameAt (session other : Session) : SessionPart → Prop
  | .tags => session.live.tags = other.live.tags
  | .current => session.live.current? = other.live.current?
  | .attributes => session.live.attributes? = other.live.attributes?
  | .saved => session.saved = other.saved

theorem SameAt.refl (session : Session) (part : SessionPart) : session.SameAt session part := by
  cases part <;> rfl

theorem SameAt.trans {middle other : Session} {part : SessionPart}
    (h : session.SameAt middle part) (hother : middle.SameAt other part) :
    session.SameAt other part := by
  cases part with
  | tags => exact Eq.trans h hother
  | current => exact Eq.trans h hother
  | attributes => exact Eq.trans h hother
  | saved => exact Eq.trans h hother

/-- **A step leaves the parts that it does not move.** -/
theorem sameAt_step (session : Session) {step : SessionStep} {part : SessionPart}
    (h : part ∉ step.moves) : (session.step step).2.SameAt session part := by
  cases step with
  | move step =>
    cases step with
    | nextTag =>
      obtain ⟨tags, current?, hlive, -⟩ := session.live.exists_nextTag
      cases part with
      | tags => exact absurd (by decide) h
      | current => exact absurd (by decide) h
      | attributes =>
        have hsame := congrArg Cursor.attributes? hlive
        exact hsame
      | saved => rfl
    | nextOccurrence =>
      obtain ⟨attributes?, hlive⟩ := session.live.exists_nextOccurrence
      cases part with
      | tags =>
        have hsame := congrArg Cursor.tags hlive
        exact hsame
      | current =>
        have hsame := congrArg Cursor.current? hlive
        exact hsame
      | attributes => exact absurd (by decide) h
      | saved => rfl
    | allTags => cases part <;> first | rfl | exact absurd (by decide) h
    | startAttributes => cases part <;> first | rfl | exact absurd (by decide) h
    | listAttributes => exact .refl session part
    | remark => exact .refl session part
    | locate offset => exact .refl session part
    | countLines => exact .refl session part
  | restart => cases part <;> first | rfl | exact absurd (by decide) h
  | save => cases part <;> first | rfl | exact absurd (by decide) h
  | restore => cases part <;> first | rfl | exact absurd (by decide) h

/-- Without going back no items come where none are left. -/
theorem items_step (h : session.live.tags.items = []) {step : SessionStep}
    (hstep : step.goesBack = false) : (session.step step).2.live.tags.items = [] := by
  cases step with
  | move step =>
    cases step with
    | nextTag =>
      have hnone := Cursor.nextTag_of_none (TagReader.next?_of_items_nil h)
      show session.live.nextTag.2.tags.items = []
      rw [hnone, h]
    | allTags => exact TagReader.items_nil rfl
    | startAttributes => exact h
    | nextOccurrence =>
      obtain ⟨attributes?, hlive⟩ := session.live.exists_nextOccurrence
      exact (congrArg (·.tags.items) hlive).trans h
    | listAttributes => exact h
    | remark => exact h
    | locate offset => exact h
    | countLines => exact h
  | restart => cases hstep
  | save => exact h
  | restore => cases hstep

/-- The next item is the last one, or there is none: nothing is left behind it. -/
theorem items_nil_of_isLast (h : (session.step (.move .nextTag)).1.IsLast) :
    (session.step (.move .nextTag)).2.live.tags.items = [] := by
  show session.live.nextTag.2.tags.items = []
  have h : session.live.nextTag.1.IsLast := h
  rcases hnext : session.live.tags.next? with _ | ⟨found, behind⟩
  · rw [Cursor.nextTag_of_none hnext]
    exact TagReader.items_of_next?_none hnext
  · rw [Cursor.nextTag_of_some hnext] at h ⊢
    cases found with
    | ok tag => exact h.elim
    | error cause => exact TagReader.items_of_next?_error hnext

/-! ### Runs -/

/-- The session after some steps. -/
def after (session : Session) : List SessionStep → Session
  | [] => session
  | step :: steps => (session.step step).2.after steps

theorem sameAt_after (session : Session) {steps : List SessionStep} {part : SessionPart}
    (h : ∀ step ∈ steps, part ∉ step.moves) : (session.after steps).SameAt session part := by
  induction steps generalizing session with
  | nil => exact .refl session part
  | cons step steps ih =>
    obtain ⟨hstep, hsteps⟩ := List.forall_mem_cons.1 h
    exact (ih (session.step step).2 hsteps).trans (sameAt_step session hstep)

theorem items_after (h : session.live.tags.items = []) {steps : List SessionStep}
    (hsteps : ∀ step ∈ steps, step.goesBack = false) :
    (session.after steps).live.tags.items = [] := by
  induction steps generalizing session with
  | nil => exact h
  | cons step steps ih =>
    obtain ⟨hstep, hsteps⟩ := List.forall_mem_cons.1 hsteps
    exact ih (items_step h hstep) hsteps

/-- What every step of a session preserves: it starts over at the start of its source, and both of
its places are within what the source has. -/
structure Invariant (source : String) (session : Session) : Prop where
  start : session.start = TagReader.ofString source
  inSource : session.InSource
  live : session.live.outlook.Within (TagReader.ofString source).items
  saved : session.saved.outlook.Within (TagReader.ofString source).items

theorem invariant_ofString (source : String) : (ofString source).Invariant source := by
  have hstart : (Cursor.ofReader (TagReader.ofString source)).outlook.Within
      (TagReader.ofString source).items := by
    constructor
    case items => exact List.suffix_rfl
    case current => exact nofun
    case occurrences => exact nofun
  constructor
  case start => rfl
  case inSource => exact inSource_ofString source
  case live => exact hstart
  case saved => exact hstart

/-- **Every step preserves the invariant.** -/
theorem Invariant.step (h : session.Invariant source) (step : SessionStep) :
    (session.step step).2.Invariant source := by
  have hsource := h.inSource.step step
  cases step with
  | move step =>
    refine ⟨h.start, hsource, ?_, h.saved⟩
    have hstep := Cursor.outlook_step h.inSource.live step
    show (session.live.step step).2.outlook.Within _
    rw [(Prod.mk.inj hstep).2]
    exact h.live.step _ step
  | restart =>
    have hitems : session.start.items <:+ (TagReader.ofString source).items :=
      h.start ▸ List.suffix_rfl
    exact ⟨h.start, hsource, ⟨hitems, h.live.current, h.live.occurrences⟩, h.saved⟩
  | save => exact ⟨h.start, hsource, h.live, h.live⟩
  | restore => exact ⟨h.start, hsource, h.saved, h.saved⟩

/-- A whole run preserves it. -/
theorem Invariant.after (h : session.Invariant source) (steps : List SessionStep) :
    (session.after steps).Invariant source := by
  induction steps generalizing session with
  | nil => exact h
  | cons step steps ih => exact ih (h.step step)

/-- A session does with its source what one does that has read all of it: both of its places follow
the source, once the items end they are over until the session goes back, and no step moves a part
that is not its own. -/
structure Agrees (source : String) (session : Session) : Prop where
  live : session.live.Follows source
  saved : session.saved.Follows source
  ends : (session.step (.move .nextTag)).1.IsLast →
    ∀ steps, (∀ step ∈ steps, step.goesBack = false) →
      (((session.step (.move .nextTag)).2.after steps).step (.move .nextTag)).1 = .item none
  parts : ∀ steps part, (∀ step ∈ steps, part ∉ step.moves) →
    (session.after steps).SameAt session part

/-- **Reading lazily is reading eagerly.** In a run of any steps, in any order, a session gives the
answers of one that has read its source beforehand, and comes to a place that agrees with it. -/
theorem agrees_after (source : String) (steps : List SessionStep) :
    (ofString source).run steps = (EagerSession.ofString source).run steps ∧
      ((ofString source).after steps).Agrees source := by
  have hinvariant := (invariant_ofString source).after steps
  constructor
  · exact run_eq_run_eager (inSource_ofString source) steps
  constructor
  case live => exact hinvariant.live.follows
  case saved => exact hinvariant.saved.follows
  case ends =>
    intro hlast more hmore
    have hitems := items_after (items_nil_of_isLast hlast) hmore
    have hnone := Cursor.nextTag_of_none (TagReader.next?_of_items_nil hitems)
    exact congrArg Prod.fst hnone
  case parts =>
    intro more part hmore
    exact sameAt_after _ hmore

end Session

end TagLint
