import TagLint.Report.Json
import TagLint.Report.Text

/-!
# The report of a scan

A scan is reported in one of two formats, with its warnings or without them.
-/

namespace TagLint.Report

/-- The formats of a report. -/
inductive Format where
  /-- Text for people. -/
  | text
  /-- JSON for programs. -/
  | json
  deriving DecidableEq, Repr

/-- The report of a scan in a format. -/
def render (format : Format) (scan : Scan) (showWarnings : Bool) : String :=
  match format with
  | .text => text scan showWarnings
  | .json => json scan showWarnings

end TagLint.Report
