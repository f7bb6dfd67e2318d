import TagLint.Proofs.Report.Json
import TagLint.Proofs.Report.Text

/-!
# The two reports agree

The report for people and the report for programs are made from a scan by separate definitions.

- `OneVerdict`: what the two have in common, and what is left of them when warnings are hidden.
- `oneVerdict`: so it is with all scans.
-/

namespace TagLint.Report

open Json (Value)

/-- The reports of a scan give one verdict. The last line for people is the summary. It says that
there are no duplicates exactly if a program reads that there are none, and else how many a program
finds listed. Hiding warnings is reporting a scan that has none. -/
structure OneVerdict (scan : Scan) (showWarnings : Bool) : Prop where
  last_line : Text.lastLine (render .text scan showWarnings).toList =
    (summary scan showWarnings).toList
  read : ∃ (value : Value) (duplicates : Bool) (items : List Value),
    Json.read? (render .json scan showWarnings) = some value ∧
    value.member? "has_duplicates" = some (.bool duplicates) ∧
    value.member? "findings" = some (.array items) ∧
    ("No duplicate attributes found".toList <+: (summary scan showWarnings).toList ↔
      duplicates = false) ∧
    (duplicates = true → ("Found " ++ toString items.length ++ " duplicate ").toList <+:
      (summary scan showWarnings).toList)
  hidden : ∀ format, render format scan false =
    render format { scan with warnings := [] } showWarnings

/-- There is nothing to hide in a scan without warnings. -/
theorem render_hidden (format : Format) (scan : Scan) (showWarnings : Bool) :
    render format scan false = render format { scan with warnings := [] } showWarnings := by
  cases format with
  | text =>
    cases showWarnings with
    | false => rfl
    | true => rfl
  | json =>
    cases showWarnings with
    | false => rfl
    | true => rfl

/-- **The reports of a scan give one verdict.** -/
theorem oneVerdict (scan : Scan) (showWarnings : Bool) : OneVerdict scan showWarnings := by
  constructor
  case last_line => exact lastLine_text scan showWarnings
  case read =>
    refine ⟨jsonValue scan showWarnings, scan.hasFindings, scan.findings.map Finding.toJson,
      read?_json scan showWarnings, rfl, rfl, ?_, ?_⟩
    · rw [none_prefix_iff, Scan.hasFindings, Bool.not_eq_false', List.isEmpty_iff]
    · intro hduplicates
      have hne : scan.findings ≠ [] := by
        intro hnil
        rw [Scan.hasFindings, hnil] at hduplicates
        cases hduplicates
      rw [List.length_map]
      exact found_prefix hne showWarnings
  case hidden => exact fun format => render_hidden format scan showWarnings

end TagLint.Report
