import TagLint.Proofs.Json.Reader
import TagLint.Report.Render

/-!
# Reading a report

The report for programs holds all of a scan. A scan is read back from it field for field, so two
scans have the same report only if they are the same.

- `Span.ofJson?_toJson`, `Tag.ofJson?_toJson`, `Finding.ofJson?_toJson`, `Warning.ofJson?_toJson`:
  the parts of a scan are read from their JSON values.
- `Report.ofJson?_jsonValue`: so is the scan, and whether it has findings.
- `Report.read_json`: the report is a JSON text, and this scan is read from it.
-/

namespace TagLint

/-! ### Parts of values -/

namespace Json.Value

/-- The value of the member with this name. -/
def member? (value : Value) (name : String) : Option Value :=
  match value with
  | object members => members.lookup name
  | _ => none

/-- The number that a value is. -/
def number? : Value → Option Nat
  | number value => some value
  | _ => none

/-- The string that a value is. -/
def string? : Value → Option String
  | string value => some value
  | _ => none

/-- The items of the array that a value is. -/
def items? : Value → Option (List Value)
  | array items => some items
  | _ => none

end Json.Value

open Json (Value)

/-! ### Parts of scans -/

/-- The region that a value describes. -/
def Span.ofJson? (value : Value) : Option Span := do
  let start ← (← value.member? "start").number?
  let stop ← (← value.member? "end").number?
  let line ← (← value.member? "line").number?
  let column ← (← value.member? "column").number?
  return ⟨start, stop, ⟨line, column⟩⟩

/-- The tag that a value describes. -/
def Tag.ofJson? (value : Value) : Option Tag := do
  let text ← (← value.member? "text").string?
  let name ← (← value.member? "name").string?
  let span ← Span.ofJson? (← value.member? "span")
  return ⟨text, name, span⟩

/-- The finding that a value describes. -/
def Finding.ofJson? (value : Value) : Option Finding := do
  let tag ← Tag.ofJson? (← value.member? "tag")
  let name ← (← value.member? "name").string?
  let first ← Span.ofJson? (← value.member? "first")
  let duplicate ← Span.ofJson? (← value.member? "duplicate")
  return ⟨tag, name, first, duplicate⟩

/-- The cause with this name in reports. -/
def Warning.Cause.ofName? (name : String) : Option Cause :=
  if name = unclosed.name then some unclosed
  else if name = stray.name then some stray
  else none

/-- The warning that a value describes. -/
def Warning.ofJson? (value : Value) : Option Warning := do
  let cause ← Cause.ofName? (← (← value.member? "kind").string?)
  let message ← (← value.member? "message").string?
  let span ← Span.ofJson? (← value.member? "span")
  return ⟨cause, message, span⟩

/-- The scan that a value describes. -/
def Scan.ofJson? (value : Value) : Option Scan := do
  let findings ← (← (← value.member? "findings").items?).mapM Finding.ofJson?
  let warnings ← (← (← value.member? "warnings").items?).mapM Warning.ofJson?
  let tagCount ← (← value.member? "tags_scanned").number?
  return ⟨findings, warnings, tagCount⟩

/-! ### Reading the parts back -/

theorem Span.ofJson?_toJson (span : Span) : ofJson? span.toJson = some span :=
  rfl

theorem Tag.ofJson?_toJson (tag : Tag) : ofJson? tag.toJson = some tag :=
  rfl

theorem Finding.ofJson?_toJson (finding : Finding) : ofJson? finding.toJson = some finding :=
  rfl

theorem Warning.ofJson?_toJson (warning : Warning) : ofJson? warning.toJson = some warning := by
  obtain ⟨cause, message, span⟩ := warning
  cases cause <;> rfl

/-- What is read back item by item is read back from an array. -/
theorem mapM_map_of_inverse {α β : Type} {encode : α → β} {decode : β → Option α}
    (h : ∀ a, decode (encode a) = some a) (items : List α) :
    (items.map encode).mapM decode = some items := by
  induction items with
  | nil => rfl
  | cons item items ih => rw [List.map_cons, List.mapM_cons, h, ih]; rfl

namespace Report

/-- A scan is read back from the value of its report. -/
theorem ofJson?_jsonValue (scan : Scan) : Scan.ofJson? (jsonValue scan true) = some scan := by
  have hfindings := mapM_map_of_inverse Finding.ofJson?_toJson scan.findings
  have hwarnings := mapM_map_of_inverse Warning.ofJson?_toJson scan.warnings
  show (((scan.findings.map Finding.toJson).mapM Finding.ofJson?).bind fun findings =>
    ((scan.warnings.map Warning.toJson).mapM Warning.ofJson?).bind fun warnings =>
      some (Scan.mk findings warnings scan.tagCount)) = some scan
  rw [hfindings, hwarnings]
  rfl

/-- A report is read as its value. -/
theorem read?_json (scan : Scan) (showWarnings : Bool) :
    Json.read? (json scan showWarnings) = some (jsonValue scan showWarnings) :=
  Json.read?_render _

/-- **The report for programs loses nothing.** It is a text of one JSON value, from which the scan
and whether it has findings are read back. No other scan has this report. -/
theorem read_json (scan : Scan) : ∃ value : Value,
    (∀ other : Value, other.IsText (render .json scan true) ↔ other = value) ∧
    Json.read? (render .json scan true) = some value ∧
    Scan.ofJson? value = some scan ∧
    value.member? "has_duplicates" = some (.bool !scan.findings.isEmpty) ∧
    ∀ other : Scan, render .json other true = render .json scan true → other = scan := by
  refine ⟨jsonValue scan true, ?_, read?_json scan true, ofJson?_jsonValue scan, rfl, ?_⟩
  · intro other
    rw [← Json.read?_eq_some_iff, render, read?_json, Option.some_inj]
    exact eq_comm
  · intro other h
    have hvalue : some (jsonValue other true) = some (jsonValue scan true) := by
      rw [← read?_json other true, ← read?_json scan true]
      exact congrArg Json.read? h
    have hscan : some other = some scan := by
      rw [← ofJson?_jsonValue other, ← ofJson?_jsonValue scan, Option.some.inj hvalue]
    exact Option.some.inj hscan

end Report

end TagLint
