import TagLint.Lint.Finding
import TagLint.Proofs.Markup.Layout
import TagLint.Proofs.Markup.Order
import TagLint.Proofs.Tag.Open

/-!
# What a fault is blamed on

A source that leaves something open has a fault, which is put on one place.

- `Tag.Unended`: a tag opens at the front of a text and does not end in it.
- `LeftOpen`: what a text leaves open that was opened at its front, and the place in it to blame.
- `Fault.BlamedOn`: where in the source that text stands, and what the fault says about it.
- `TagReader.exists_blamedOn`: every fault is blamed like this.
-/

namespace TagLint

open Text

/-- A tag opens at the front of a text, and the reading of it comes to no `>` at tag level. -/
def Tag.Unended (text : List Char) : Prop :=
  Piece.opensTag text = true ∧ ∀ place, Nesting.Reaches text .tag place → text[place]? ≠ some '>'

/-- A text leaves open what opens at its front, and the blame is put on one of its places. The text
is at `outer` in the source. -/
inductive LeftOpen (outer : Location) : List Char → Unclosed → Nat → Prop
  /-- A comment has no closer. -/
  | comment {kind : CommentKind} {body : List Char} : ¬ kind.closer <:+: body →
    LeftOpen outer (kind.opener ++ body) (.comment kind) 0
  /-- A tag has no end, and everything that is opened in it is closed. -/
  | tag {text : List Char} : Tag.Unended text →
    (∀ first, Nesting.Opens text first → Nesting.ClosedAt text first) →
    LeftOpen outer text (.tag (String.ofList (Tag.nameOf text))) 0
  /-- Of the things in a tag that are not closed a quote is innermost. From behind it the reader of
  attributes comes to the end of the text. -/
  | quoted {text behind : List Char} {quote : Char} {opened : Nat} : Tag.Unended text →
    Nesting.Innermost text opened → text.drop opened = quote :: behind →
    (quote = '"' ∨ quote = '\'') → ¬ Attribute.IsQuoteClosed quote behind →
    Attribute.quotedTail quote behind = behind.length →
    LeftOpen outer text (.quoted quote outer) opened
  /-- Of the things in a tag that are not closed a brace is innermost. From behind it the reader of
  attributes comes to the end of the text. -/
  | braced {text behind : List Char} {opened : Nat} : Tag.Unended text →
    Nesting.Innermost text opened → text.drop opened = '{' :: behind →
    ¬ Script.IsClosed 0 behind → Script.bracedTail behind = behind.length →
    LeftOpen outer text (.braced outer) opened

/-- The blame is put on a character of the text. -/
theorem LeftOpen.exists_cons {outer : Location} {text : List Char} {unclosed : Unclosed}
    {place : Nat} (h : LeftOpen outer text unclosed place) :
    ∃ c behind, text.drop place = c :: behind := by
  cases h with
  | @comment kind body => cases kind <;> exact ⟨_, _, rfl⟩
  | tag hunended =>
    obtain ⟨rest, rfl⟩ := Piece.exists_cons_of_opensTag hunended.1
    exact ⟨'<', rest, rfl⟩
  | quoted _ _ htext => exact ⟨_, _, htext⟩
  | braced _ _ htext => exact ⟨_, _, htext⟩

/-- What the reading of a tag finds open is what the tag leaves open. -/
theorem leftOpen_of_tagLength {text : List Char} {nest : Nesting} (outer : Location)
    (hopens : Piece.opensTag text = true) (h : tagLength text = .error nest) :
    LeftOpen outer text (.ofNesting (String.ofList (Tag.nameOf text)) outer nest) nest.opened := by
  have hunended : Tag.Unended text :=
    ⟨hopens, fun _ hreach => Nesting.ne_close_of_tagLength h hreach⟩
  obtain ⟨hopenedIn, hclosed, hinner⟩ := Nesting.innermost_of_tagLength h
  cases nest with
  | tag => exact .tag hunended (hclosed rfl)
  | quoted quote opened =>
    have hinnermost : Nesting.Innermost text opened := hinner fun heq => by cases heq
    obtain ⟨hquote, hget⟩ := hopenedIn
    obtain ⟨hin, rfl⟩ := List.getElem?_eq_some_iff.1 hget
    have htext := List.drop_eq_getElem_cons hin
    have hslash : text[opened] ≠ '\\' := by rcases hquote with heq | heq <;> rw [heq] <;> decide
    have hbrace : text[opened] ≠ '{' := by rcases hquote with heq | heq <;> rw [heq] <;> decide
    have hopen := hinnermost.not_closedAt
    rw [Nesting.closedAt_iff htext, Nesting.IsClosed, if_neg hbrace] at hopen
    exact .quoted hunended hinnermost htext hquote hopen (Attribute.quotedTail_of_open hslash hopen)
  | braced opened outer =>
    have hinnermost : Nesting.Innermost text opened := hinner fun heq => by cases heq
    obtain ⟨hin, hbrace⟩ := List.getElem?_eq_some_iff.1 (hopenedIn opened List.mem_cons_self)
    have htext : text.drop opened = '{' :: text.drop (opened + 1) := by
      rw [List.drop_eq_getElem_cons hin, hbrace]
    have hopen := hinnermost.not_closedAt
    rw [Nesting.closedAt_iff htext, Nesting.IsClosed, if_pos rfl] at hopen
    exact .braced hunended hinnermost htext hopen (Script.bracedTail_of_open hopen)

/-- The fault of a layout stands behind its tags and behind a gap. -/
theorem Layout.exists_leftOpen {lines : Lines} {offset : Nat} {text : List Char}
    {items : List Item} {fault : Fault} (h : Layout lines offset text items)
    (hfault : .error fault ∈ items) :
    ∃ (tags : List Tag) (front gap rest : List Char) (unclosed : Unclosed) (place : Nat),
      items = tags.map .ok ++ [.error fault] ∧ text = front ++ (gap ++ rest) ∧
      offset + byteSize front = (tags.getLast?.map (·.span.stop)).getD offset ∧ Gap gap rest ∧
      LeftOpen (lines.locate (offset + byteSize (front ++ gap))) rest unclosed place ∧
      fault.message = unclosed.message ∧
      fault.offset = offset + byteSize (front ++ gap ++ rest.take place) := by
  induction h with
  | finished => cases hfault
  | @tag offset gap' text behind found items hgap' hopens hlength htext hname hspan _ ih =>
    have hmem : .error fault ∈ items := by
      rcases List.mem_cons.1 hfault with heq | hmem
      · cases heq
      · exact hmem
    obtain ⟨tags, front, gap, rest, unclosed, place, hitems, hbehind, hfront, hgap, hopen, hmessage,
      hoffset⟩ := ih hmem
    have hstop : found.span.stop = offset + byteSize gap' + byteSize text := by
      rw [hspan]
      rfl
    have hsize : offset + byteSize (gap' ++ (text ++ front)) =
        found.span.stop + byteSize front := by
      rw [byteSize_append, byteSize_append, hstop]
      omega
    refine ⟨found :: tags, gap' ++ (text ++ front), gap, rest, unclosed, place, ?_, ?_, ?_, hgap,
      ?_, hmessage, ?_⟩
    · rw [hitems, List.map_cons, List.cons_append]
    · rw [hbehind]
      simp only [List.append_assoc]
    · rw [hsize, hfront, List.getLast?_cons]
      cases tags.getLast? with
      | none => rfl
      | some last => rfl
    · rw [byteSize_append, ← Nat.add_assoc, hsize, Nat.add_assoc, ← byteSize_append]
      exact hopen
    · rw [hoffset]
      simp only [byteSize_append] at hsize ⊢
      omega
  | @openComment offset gap body kind fault' hgap hbody hmessage hoffset =>
    obtain rfl : fault = fault' := by simpa using hfault
    refine ⟨[], [], gap, kind.opener ++ body, .comment kind, 0, rfl, rfl, rfl, hgap, .comment hbody,
      hmessage, ?_⟩
    rw [hoffset, List.take_zero, List.append_nil, List.nil_append]
  | @openTag offset gap rest nest fault' hgap hopens hlength hmessage hoffset =>
    obtain rfl : fault = fault' := by simpa using hfault
    refine ⟨[], [], gap, rest, _, nest.opened, rfl, rfl, rfl, hgap,
      leftOpen_of_tagLength _ hopens hlength, hmessage, ?_⟩
    rw [hoffset, List.nil_append, byteSize_append, Nat.add_assoc]

theorem mem_tags_append {tag : Tag} {tags : List Tag} {fault? : Option Fault} :
    (.ok tag : Item) ∈ tags.map .ok ++ (fault?.map .error).toList ↔ tag ∈ tags := by
  cases fault? <;> simp

theorem mem_append_fault {fault : Fault} (tags : List Tag) (fault? : Option Fault) :
    (.error fault : Item) ∈ tags.map .ok ++ (fault?.map .error).toList ↔ fault ∈ fault? := by
  cases fault? <;> simp [eq_comm]

/-- A fault is located where it is blamed. -/
theorem TagReader.location_of_mem_items {r : TagReader} {fault : Fault}
    (h : .error fault ∈ r.items) : fault.location = r.lines.locate fault.offset := by
  obtain ⟨tags, s, hreads, hrest | ⟨c, rest, hrest, hlength⟩⟩ := exists_reads r
  · rw [hreads.items_eq, items_nil hrest] at h
    cases (mem_append_fault tags none).1 h
  · obtain ⟨cause, hcause, hitems⟩ := items_of_length?_eq_none hrest hlength
    obtain ⟨-, -, -, hlines⟩ := hreads.exists_append
    obtain ⟨count, hoffset, hlocation⟩ := exists_of_faultOf? hcause
    rw [hreads.items_eq, hitems] at h
    cases (mem_append_fault tags (some cause)).1 h
    rw [hlocation, hoffset, hlines]

/-- A fault is blamed on a place of the text `rest`. That text stands in the source behind the tags
and behind a gap. -/
structure Fault.BlamedOn (fault : Fault) (source : String) (tags : List Tag)
    (front gap rest : List Char) (unclosed : Unclosed) (place : Nat) : Prop where
  /-- The text is what the source has left. -/
  parts : source.toList = front ++ (gap ++ rest)
  /-- In front of the gap is the last tag, or nothing. -/
  front_size : byteSize front = (tags.getLast?.map (·.span.stop)).getD 0
  /-- Between the last tag and the text all is passed over. -/
  is_gap : Gap gap rest
  /-- The text leaves open what opens at its front. -/
  leftOpen : LeftOpen ((Lines.ofString source).locate (byteSize (front ++ gap))) rest unclosed place
  /-- The message says what is left open, and in which tag. -/
  message : fault.message = unclosed.message
  /-- The offset is that of the place. -/
  offset : fault.offset = byteSize (front ++ gap ++ rest.take place)
  /-- The location is that of the offset. -/
  location : fault.location = (Lines.ofString source).locate fault.offset
  /-- The offset is in the source. -/
  offset_lt : fault.offset < source.utf8ByteSize
  /-- The offset is behind the tags. -/
  stop_le : ∀ tag ∈ tags, tag.span.stop ≤ fault.offset
  /-- The warning says the same, about an empty region. -/
  warning : Warning.ofFault fault =
    ⟨.unclosed, fault.message, ⟨fault.offset, fault.offset, fault.location⟩⟩

/-- **A fault is blamed on the innermost thing that the source leaves open.** It comes last, behind
tags only. -/
theorem TagReader.exists_blamedOn {source : String} {fault : Fault}
    (h : .error fault ∈ (ofString source).items) :
    ∃ (tags : List Tag) (front gap rest : List Char) (unclosed : Unclosed) (place : Nat),
      (ofString source).items = tags.map .ok ++ [.error fault] ∧
      fault.BlamedOn source tags front gap rest unclosed place := by
  have hlayout : Layout (Lines.ofString source) 0 source.toList (ofString source).items :=
    layout_items_of_rest _ 0 _
  obtain ⟨tags, front, gap, rest, unclosed, place, hitems, hparts, hfront, hgap, hopen, hmessage,
    hoffset⟩ := hlayout.exists_leftOpen h
  rw [Nat.zero_add] at hfront hopen hoffset
  refine ⟨tags, front, gap, rest, unclosed, place, hitems, ?_⟩
  constructor
  case parts => exact hparts
  case front_size => exact hfront
  case is_gap => exact hgap
  case leftOpen => exact hopen
  case message => exact hmessage
  case offset => exact hoffset
  case location => exact location_of_mem_items h
  case offset_lt =>
    obtain ⟨c, behind, hbehind⟩ := hopen.exists_cons
    have hsize : source.utf8ByteSize = byteSize (front ++ gap ++ rest.take place) +
        byteSize (rest.drop place) := by
      rw [← byteSize_append, List.append_assoc (front ++ gap), List.take_append_drop,
        List.append_assoc, ← hparts, ← utf8ByteSize_ofList, String.ofList_toList]
    rw [hoffset, hsize, hbehind, byteSize_cons]
    have := c.utf8Size_pos
    omega
  case stop_le =>
    obtain ⟨others, fault?, hordered, -, hbehind⟩ := exists_items_ordered source
    rw [hordered] at h
    intro tag htag
    have hmem : .ok tag ∈ (ofString source).items := by
      rw [hitems]
      exact List.mem_append_left _ (List.mem_map_of_mem htag)
    rw [hordered] at hmem
    exact (hbehind fault ((mem_append_fault others fault?).1 h)).1 tag (mem_tags_append.1 hmem)
  case warning => rfl

theorem TagReader.exists_blamedOn_of_open_brace :
    let source := "<b/> <a c=\x7b\x7bd\x7d \"\x7d\""
    let fault : Fault :=
      ⟨"unterminated brace expression in tag opened at line 1, column 6", 10, ⟨1, 11⟩⟩
    .error fault ∈ (ofString source).items ∧
    ∃ (tags : List Tag) (front gap rest : List Char) (unclosed : Unclosed) (place : Nat),
      (ofString source).items = tags.map .ok ++ [.error fault] ∧
      fault.BlamedOn source tags front gap rest unclosed place := by
  intro source fault
  have h : .error fault ∈ (ofString source).items := by decide +kernel
  exact ⟨h, exists_blamedOn h⟩

end TagLint
