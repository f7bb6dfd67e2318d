import TagLint.Lint.Scan

/-!
# The report for people

One block for every finding, one line for every warning that is shown, and a summary as the last
line, which no newline ends.
-/

namespace TagLint.Report

/-- The line below the text of a tag. -/
def separator : String :=
  "--------------------"

/-- A word for `count` things: singular for one, plural for any other number. -/
def plural (count : Nat) (word : String) : String :=
  if count = 1 then word else word ++ "s"

/-- A place as it stands in a report. -/
def placeText (place : Location) : String :=
  s!"{place.line}:{place.column}"

/-- The block of a finding: where the name is declared, the tag, and a separator. -/
def findingText (finding : Finding) : String :=
  "error: duplicate attribute `" ++ finding.name ++ "` at " ++ placeText finding.duplicate.location
    ++ " (first declared at " ++ placeText finding.first.location ++ ")\n"
    ++ finding.tag.text ++ "\n" ++ separator ++ "\n"

/-- The line of a warning. -/
def warningText (warning : Warning) : String :=
  "warning: " ++ warning.message ++ " at " ++ placeText warning.span.location ++ "\n"

/-- What a summary says of the findings. -/
def findingsSummary (findings : Nat) : String :=
  if findings = 0 then "No duplicate attributes found"
  else s!"Found {findings} duplicate " ++ plural findings "attribute"

/-- What a summary says of the warnings, which is nothing if there are none. -/
def warningsSummary (warnings : Nat) : String :=
  if warnings = 0 then "" else s!" ({warnings} " ++ plural warnings "warning" ++ ")"

/-- The last line of a report. -/
def summary (scan : Scan) (showWarnings : Bool) : String :=
  findingsSummary scan.findings.length
    ++ warningsSummary (if showWarnings then scan.warnings.length else 0) ++ "."

/-- The report of a scan. -/
def text (scan : Scan) (showWarnings : Bool) : String :=
  String.join (scan.findings.map findingText)
    ++ String.join (if showWarnings then scan.warnings.map warningText else [])
    ++ summary scan showWarnings

end TagLint.Report
