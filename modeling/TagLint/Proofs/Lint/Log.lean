import TagLint.Lint.Log
import TagLint.Proofs.Lint.Spans
import TagLint.Proofs.Markup.Course
import TagLint.Proofs.Session.Yields

/-!
# The log of a scan is an account of it

- `TagReader.scanLogged`: the scan once more, with the records that it makes on the way. It asks for
  one item after the other, and a reader that is asked for an item tells what it comes across.
- `TagReader.scanLogged_eq`: these are the records of the log, and the scan is the same.
- `Landmark.account`: what a log says of a landmark, where the findings are those of the whole scan.
- `Log.IsAccount`: what a log says of a source, record by record (`Log.isAccount`).
-/

namespace TagLint

/-! ### A scan that tells what it does -/

/-- The next item, and the records that are made on the way to it: the comments that are skipped
and, if it is one, the tag that is read. -/
def TagReader.nextLogged (r : TagReader) : Log × Option (Item × TagReader) :=
  match h : r.landmark? with
  | none => ([], none)
  | some (.comment start stop, behind) =>
    have := landmark?_length_lt h
    let (log, found?) := behind.nextLogged
    (.comment start stop :: log, found?)
  | some (.tag found, behind) => ([.tag found], some (.ok found, behind))
  | some (.fault cause, behind) => ([], some (.error cause, behind))
termination_by r.rest.length

/-- The remarks on what occurs in a tag, one occurrence after the other, and the records that are
made of them. `seen` holds the first attribute of every name so far. -/
def Tag.checkLogged (tag : Tag) (lines : Lines) (seen : List Attribute) :
    List Occurrence → Log × Remarks
  | [] => ([], ⟨[], []⟩)
  | .declared found :: rest =>
    match seen.find? (·.name = found.name) with
    | none => tag.checkLogged lines (found :: seen) rest
    | some first =>
      let (log, remarks) := tag.checkLogged lines seen rest
      let finding := .ofRepeat tag lines first found
      (.duplicate finding :: log, { remarks with findings := finding :: remarks.findings })
  | .stray found offset :: rest =>
    let (log, remarks) := tag.checkLogged lines seen rest
    (log, { remarks with warnings := .ofStray tag lines found offset :: remarks.warnings })

/-- The remarks on an item, and the records that are made of them. -/
def Item.checkLogged (lines : Lines) : Item → Log × Remarks
  | .ok tag => if tag.isClosing then ([], ⟨[], []⟩) else tag.checkLogged lines [] tag.occurrences
  | .error fault => ([.stopped fault], ⟨[], [.ofFault fault]⟩)

/-- A scan with one more item. -/
def Scan.add (scan : Scan) (item : Item) (remarks : Remarks) : Scan where
  findings := scan.findings ++ remarks.findings
  warnings := scan.warnings ++ remarks.warnings
  tagCount := scan.tagCount + if item.isOk then 1 else 0

variable {r behind : TagReader} {lines : Lines} {log : Log} {item : Item}

namespace TagReader

theorem next?_of_none (h : r.landmark? = none) : r.next? = none := by
  rw [next?.eq_def]
  split
  · rfl
  · next heq => cases h.symm.trans heq

theorem next?_of_some {landmark : Landmark} (h : r.landmark? = some (landmark, behind)) :
    r.next? = match landmark.item? with
      | some item => some (item, behind)
      | none => behind.next? := by
  rw [next?.eq_def]
  split
  · next heq => cases h.symm.trans heq
  · next heq => cases h.symm.trans heq; rfl

/-- What is come to is the next item. -/
theorem nextLogged_snd (r : TagReader) : r.nextLogged.2 = r.next? := by
  fun_induction nextLogged r with
  | case1 r hnone => exact (next?_of_none hnone).symm
  | case2 r start stop behind hsome hlt log found? heq ih =>
    rw [next?_of_some hsome, ← ih, heq]
    rfl
  | case3 r found behind hsome => exact (next?_of_some hsome).symm
  | case4 r cause behind hsome => exact (next?_of_some hsome).symm

/-- An item takes the place further. -/
theorem next?_length_lt (h : r.next? = some (item, behind)) :
    behind.rest.length < r.rest.length := by
  fun_induction next? r with
  | case1 => cases h
  | case2 r landmark ahead hlandmark hlt item hitem =>
    cases h
    exact hlt
  | case3 r landmark ahead hlandmark hlt hcomment ih => exact Nat.lt_trans (ih h) hlt

/-- The scan from a reader on, after some items, and the records that it makes. -/
def scanLogged (r : TagReader) (scan : Scan) : Log × Scan :=
  match h : r.nextLogged with
  | (log, none) => (log ++ [.ofScan scan], scan)
  | (log, some (item, behind)) =>
    have : behind.rest.length < r.rest.length :=
      next?_length_lt ((nextLogged_snd r).symm.trans (congrArg Prod.snd h))
    let (made, remarks) := item.checkLogged r.lines
    let (more, all) := behind.scanLogged (scan.add item remarks)
    (log ++ (made ++ more), all)
termination_by r.rest.length

end TagReader

/-! ### Remarks and their records -/

/-- The records of an item: of a tag those of its findings, of a fault that it stopped the scan. -/
def Item.records (lines : Lines) : Item → Log
  | .ok tag => (tag.remarks lines).findings.map .duplicate
  | .error fault => [.stopped fault]

/-- The remarks on some of what occurs in a tag, where `seen` holds the attributes before. -/
def Tag.remarksOn (tag : Tag) (lines : Lines) (seen : List Attribute)
    (occurrences : List Occurrence) : Remarks where
  findings := (Attribute.repeats seen (occurrences.filterMap Occurrence.declared?)).map
    fun (first, found) => .ofRepeat tag lines first found
  warnings := occurrences.filterMap (Warning.ofOccurrence? tag lines)

/-- A finding is recorded when it is made. -/
theorem Tag.checkLogged_eq (tag : Tag) (lines : Lines) (seen : List Attribute)
    (occurrences : List Occurrence) : tag.checkLogged lines seen occurrences =
      ((tag.remarksOn lines seen occurrences).findings.map .duplicate,
        tag.remarksOn lines seen occurrences) := by
  induction occurrences generalizing seen with
  | nil => rfl
  | cons found rest ih =>
    cases found with
    | stray found offset =>
      rw [checkLogged, ih]
      rfl
    | declared found =>
      rw [checkLogged, remarksOn]
      simp only [List.filterMap_cons, Occurrence.declared?, Warning.ofOccurrence?,
        Attribute.repeats]
      cases seen.find? (·.name = found.name) with
      | none => exact ih (found :: seen)
      | some first =>
        rw [ih seen]
        rfl

theorem Item.checkLogged_eq (lines : Lines) (item : Item) :
    item.checkLogged lines = (item.records lines, item.remarks lines) := by
  cases item with
  | error fault => rfl
  | ok tag =>
    rw [checkLogged, records, remarks, Tag.remarks]
    split
    · rfl
    · exact Tag.checkLogged_eq tag lines [] tag.occurrences

/-! ### The records of a scan -/

namespace TagReader

/-- The records that are left of the log of a source. -/
def records (r : TagReader) : Log :=
  r.landmarks.flatMap (LogRecord.ofLandmark r.lines)

theorem records_of_none (h : r.landmark? = none) : r.records = [] := by
  rw [records, landmarks_of_none h, List.flatMap_nil]

theorem records_of_some {landmark : Landmark} (h : r.landmark? = some (landmark, behind)) :
    r.records = LogRecord.ofLandmark r.lines landmark ++ behind.records := by
  rw [records, landmarks_of_some h, List.flatMap_cons, records, lines_of_landmark? h]

/-- Up to the next item the records are those that are made on the way, and then those of the
item. -/
theorem records_of_nextLogged (r : TagReader) :
    r.records = r.nextLogged.1 ++ match r.nextLogged.2 with
      | none => []
      | some (item, behind) => item.records r.lines ++ behind.records := by
  fun_induction nextLogged r with
  | case1 r hnone => exact records_of_none hnone
  | case2 r start stop behind hsome hlt log found? heq ih =>
    rw [heq] at ih
    rw [records_of_some hsome, ih, lines_of_landmark? hsome]
    rfl
  | case3 r found behind hsome =>
    rw [records_of_some hsome]
    rfl
  | case4 r cause behind hsome =>
    rw [records_of_some hsome]
    rfl

end TagReader

/-- A scan and what is reported behind it. -/
def Scan.join (scan behind : Scan) : Scan where
  findings := scan.findings ++ behind.findings
  warnings := scan.warnings ++ behind.warnings
  tagCount := scan.tagCount + behind.tagCount

theorem Scan.join_ofItems_cons (scan : Scan) (lines : Lines) (item : Item) (items : List Item) :
    scan.join (ofItems lines (item :: items)) =
      (scan.add item (item.remarks lines)).join (ofItems lines items) := by
  rw [join, join, add, Scan.mk.injEq]
  simp only [ofItems, List.map_cons, List.flatMap_cons, List.append_assoc, List.countP_cons,
    true_and]
  omega

/-- **A scan that tells what it does makes the records of the log, and the same scan.** -/
theorem TagReader.scanLogged_eq (r : TagReader) (scan : Scan) :
    r.scanLogged scan =
      (r.records ++ [.ofScan (scan.join (.ofItems r.lines r.items))],
        scan.join (.ofItems r.lines r.items)) := by
  fun_induction scanLogged r scan with
  | case1 r scan log h =>
    have hrecords : r.records = log := by
      rw [r.records_of_nextLogged, h, List.append_nil]
    have hitems : r.items = [] :=
      items_of_next?_none (by rw [← nextLogged_snd, h])
    have hscan : scan.join (.ofItems r.lines []) = scan := by
      simp [Scan.join, Scan.ofItems]
    rw [hrecords, hitems, hscan]
  | case2 r scan log item behind h hlt made remarks hmade more all hmore ih =>
    have hnext : r.next? = some (item, behind) := by rw [← nextLogged_snd, h]
    have hrecords : r.records = log ++ (item.records r.lines ++ behind.records) := by
      rw [r.records_of_nextLogged, h]
    obtain ⟨rfl, rfl⟩ := Prod.mk.inj ((item.checkLogged_eq r.lines).symm.trans hmade)
    obtain ⟨rfl, rfl⟩ := Prod.mk.inj (hmore.symm.trans ih)
    rw [hrecords, items_of_next?_some hnext, Scan.join_ofItems_cons, lines_of_next? hnext]
    simp only [List.append_assoc]

/-! ### Which findings belong to a tag -/

/-- The findings on a tag name the tag. -/
theorem Tag.tag_of_mem_findings {tag : Tag} {finding : Finding}
    (h : finding ∈ (tag.remarks lines).findings) : finding.tag = tag := by
  rw [remarks] at h
  split at h
  · cases h
  · obtain ⟨repeated, -, rfl⟩ := List.mem_map.1 h
    rfl

/-- Of the findings on different tags those that name a tag are the findings on it. -/
theorem Tag.filter_findings {tags : List Tag} (hnodup : tags.Nodup) {tag : Tag} (h : tag ∈ tags) :
    (tags.flatMap fun other => (other.remarks lines).findings).filter (·.tag = tag) =
      (tag.remarks lines).findings := by
  have hother {other : Tag} (hne : other ≠ tag) :
      (other.remarks lines).findings.filter (·.tag = tag) = [] := by
    rw [List.filter_eq_nil_iff]
    intro finding hfinding
    rw [tag_of_mem_findings hfinding]
    simpa using hne
  induction tags with
  | nil => cases h
  | cons first rest ih =>
    obtain ⟨hfirst, hrest⟩ := List.nodup_cons.1 hnodup
    rw [List.flatMap_cons, List.filter_append]
    rcases List.mem_cons.1 h with rfl | h
    · have hself : (tag.remarks lines).findings.filter (·.tag = tag) =
          (tag.remarks lines).findings := by
        rw [List.filter_eq_self]
        intro finding hfinding
        simpa using tag_of_mem_findings hfinding
      have hnone : (rest.flatMap fun other => (other.remarks lines).findings).filter
          (·.tag = tag) = [] := by
        rw [List.filter_flatMap, List.flatMap_eq_nil_iff]
        intro other hmem
        exact hother fun heq => hfirst (heq ▸ hmem)
      rw [hself, hnone, List.append_nil]
    · have hne : first ≠ tag := by
        rintro rfl
        exact hfirst h
      rw [hother hne, List.nil_append, ih hrest h]

/-- The tags of a source are different, for each ends before the next one begins. -/
theorem TagReader.nodup_tags (source : String) : (tagsOf (ofString source).items).Nodup := by
  have hlayout : Layout (Lines.ofString source) 0 source.toList (ofString source).items :=
    layout_items_of_rest (Lines.ofString source) 0 source.toList
  have hstart : 0 = Text.byteSize [] := rfl
  refine (hlayout.pairwise hstart).imp_of_mem fun hfirst _ hle heq => ?_
  have hlt := (hlayout.isCut hstart _ hfirst).2.lt
  rw [← heq] at hle
  omega

/-! ### What a log says -/

/-- What a log says of a landmark, where these are the findings of the whole scan. -/
def Landmark.account (findings : List Finding) : Landmark → Log
  | comment start stop => [.comment start stop]
  | tag found => .tag found :: (findings.filter (·.tag = found)).map .duplicate
  | fault cause => [.stopped cause]

/-- What a log says of an item. -/
def Item.account (findings : List Finding) : Item → Log
  | .ok tag => .tag tag :: (findings.filter (·.tag = tag)).map .duplicate
  | .error fault => [.stopped fault]

namespace LogRecord

/-- Whether a record says that a comment was skipped. -/
def isComment : LogRecord → Bool
  | comment .. => true
  | _ => false

/-- Where the comment or the tag of a record begins and ends. -/
def place? : LogRecord → Option (Nat × Nat)
  | comment start stop => some (start, stop)
  | tag found => some (found.span.start, found.span.stop)
  | _ => none

end LogRecord

section Account

variable (findings : List Finding)

/-- Without the comments the account of landmarks is that of the items among them. -/
theorem filter_account (marks : List Landmark) :
    (marks.flatMap (Landmark.account findings)).filter (!·.isComment) =
      (marks.filterMap Landmark.item?).flatMap (Item.account findings) := by
  induction marks with
  | nil => rfl
  | cons mark marks ih =>
    rw [List.flatMap_cons, List.filter_append, ih]
    cases mark with
    | comment start stop => rfl
    | fault cause => rfl
    | tag found =>
      have hkept : (Landmark.account findings (.tag found)).filter (!·.isComment) =
          Item.account findings (.ok found) := by
        rw [Landmark.account, Item.account, List.filter_eq_self]
        intro entry hentry
        rcases List.mem_cons.1 hentry with rfl | hentry
        · rfl
        · obtain ⟨finding, -, rfl⟩ := List.mem_map.1 hentry
          rfl
      rw [hkept, List.filterMap_cons, Landmark.item?, List.flatMap_cons]

/-- The places of an account are those of the landmarks. -/
theorem filterMap_place?_account (marks : List Landmark) :
    (marks.flatMap (Landmark.account findings)).filterMap LogRecord.place? =
      marks.filterMap Landmark.place? := by
  induction marks with
  | nil => rfl
  | cons mark marks ih =>
    rw [List.flatMap_cons, List.filterMap_append, ih]
    cases mark with
    | comment start stop => rfl
    | fault cause => rfl
    | tag found =>
      have hplaces : (Landmark.account findings (.tag found)).filterMap LogRecord.place? =
          [(found.span.start, found.span.stop)] := by
        simp [Landmark.account, LogRecord.place?]
      rw [hplaces]
      rfl

end Account

/-- The records of a source are the account of its landmarks. -/
theorem TagReader.records_ofString (source : String) :
    (ofString source).records =
      (ofString source).landmarks.flatMap (Landmark.account (Scan.ofString source).findings) := by
  obtain ⟨tags, fault?, hitems⟩ := exists_items_eq (ofString source)
  have hfindings : (Scan.ofString source).findings =
      tags.flatMap fun tag => (tag.remarks (Lines.ofString source)).findings := by
    have hfound := @Scan.findings_ofItems (Lines.ofString source) tags fault?
    rw [← hitems] at hfound
    exact hfound
  have hnodup := nodup_tags source
  rw [hitems, tagsOf_map_ok] at hnodup
  refine List.flatMap_congr fun mark hmark => ?_
  cases mark with
  | comment start stop => rfl
  | fault cause => rfl
  | tag found =>
    have hfound : found ∈ tags := by
      have hitem : .ok found ∈ (ofString source).items :=
        List.mem_filterMap.2 ⟨.tag found, hmark, rfl⟩
      rw [← tagsOf_map_ok tags fault?, ← hitems]
      exact List.mem_filterMap.2 ⟨.ok found, hitem, rfl⟩
    rw [Landmark.account, hfindings, Tag.filter_findings hnodup hfound]
    rfl

/-- The log of a source is the account of its landmarks, and then the counts. -/
theorem Log.ofString_eq (source : String) : ofString source =
    (TagReader.ofString source).landmarks.flatMap
      (Landmark.account (Scan.ofString source).findings) ++ [.ofScan (Scan.ofString source)] := by
  rw [← TagReader.records_ofString]
  rfl

/-- What the log of a source says. -/
structure Log.IsAccount (source : String) : Prop where
  /-- The landmarks of the source in their order, each with its records, and then the counts. -/
  records : ∃ marks, (∀ other, Course (Lines.ofString source) 0 source.toList other ↔ other = marks) ∧
    marks.filterMap Landmark.item? = (TagReader.ofString source).items ∧
    ofString source = marks.flatMap (Landmark.account (Scan.ofString source).findings) ++
      [.summary (Scan.ofString source).tagCount (Scan.ofString source).findings.length
        (Scan.ofString source).warnings.length]
  /-- Without the comments, these are the tags, each with its findings, and then the fault. -/
  items : ∃ (tags : List Tag) (fault? : Option Fault),
    (TagReader.ofString source).items = tags.map .ok ++ (fault?.map .error).toList ∧
    (ofString source).filter (!·.isComment) =
      (tags.flatMap fun tag => .tag tag ::
        ((Scan.ofString source).findings.filter (·.tag = tag)).map .duplicate) ++
      ((fault?.map .stopped).toList ++
        [.summary (Scan.ofString source).tagCount (Scan.ofString source).findings.length
          (Scan.ofString source).warnings.length])
  /-- Every comment stands between the tags before and behind it. -/
  order : ((ofString source).filterMap LogRecord.place?).Pairwise
    fun first second => first.2 ≤ second.1
  /-- The records are made in this order, though the source is read only as far as asked for. -/
  made : (TagReader.ofString source).scanLogged ⟨[], [], 0⟩ =
    (ofString source, Scan.ofString source)
  /-- The log with all details is the whole log, and with less detail its other records. -/
  trace : (ofString source).keep .trace = ofString source
  debug : (ofString source).keep .debug = (ofString source).filter (·.level ≠ .trace)
  /-- The record of a tag has its name and its place in words. -/
  tagText : ∀ tag : Tag, (LogRecord.tag tag).message =
    "tag `" ++ tag.name ++ "` at " ++ toString tag.span.location.line ++ ":" ++
      toString tag.span.location.column ++ " (" ++ toString tag.span.start ++ ".." ++
      toString tag.span.stop ++ ")"
  /-- The record of a fault has the words in which the fault is displayed. -/
  stoppedText : ∀ fault, (LogRecord.stopped fault).message = "stopping scan: " ++ fault.display

/-- **The log is an account of the scan.** -/
theorem Log.isAccount (source : String) : Log.IsAccount source := by
  constructor
  case records =>
    exact ⟨(TagReader.ofString source).landmarks, fun other => course_iff, rfl, ofString_eq source⟩
  case items =>
    obtain ⟨tags, fault?, hitems⟩ := TagReader.exists_items_eq (.ofString source)
    have hfault (findings : List Finding) :
        ((fault?.map .error).toList.flatMap (Item.account findings)) =
          (fault?.map .stopped).toList := by
      cases fault? <;> rfl
    have hmarks : (TagReader.ofString source).landmarks.filterMap Landmark.item? =
        tags.map .ok ++ (fault?.map .error).toList := hitems
    refine ⟨tags, fault?, hitems, ?_⟩
    rw [ofString_eq, List.filter_append, filter_account, hmarks, List.flatMap_append,
      List.flatMap_map, hfault, List.append_assoc]
    rfl
  case order =>
    have hcourse : Course (Lines.ofString source) 0 source.toList
        (TagReader.ofString source).landmarks := course_iff.2 rfl
    rw [ofString_eq, List.filterMap_append, filterMap_place?_account]
    show (_ ++ []).Pairwise _
    rw [List.append_nil]
    exact hcourse.inOrder.apart
  case made =>
    have hscan : Scan.join ⟨[], [], 0⟩ (Scan.ofString source) = Scan.ofString source := by
      rw [Scan.join, List.nil_append, List.nil_append, Nat.zero_add]
    have hmade := (TagReader.ofString source).scanLogged_eq ⟨[], [], 0⟩
    have hitems : Scan.ofItems (TagReader.ofString source).lines (TagReader.ofString source).items =
        Scan.ofString source := rfl
    rw [hitems, hscan] at hmade
    exact hmade
  case trace =>
    rw [keep, List.filter_eq_self]
    intro entry _
    cases entry <;> rfl
  case debug =>
    rw [keep]
    refine List.filter_congr fun entry _ => ?_
    cases entry <;> rfl
  case tagText => exact fun tag => rfl
  case stoppedText => exact fun fault => rfl

end TagLint
