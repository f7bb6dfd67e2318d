import TagLint.Json.Printer
import TagLint.Lint.Scan

/-!
# The report for programs

A scan as a JSON value, with everything that it found. Warnings that are not shown leave an empty
array.
-/

namespace TagLint

open Json (Value)

/-- A region: its offsets, and the line and column of its start. -/
def Span.toJson (span : Span) : Value :=
  .object [("start", .number span.start), ("end", .number span.stop),
    ("line", .number span.location.line), ("column", .number span.location.column)]

/-- A tag: as written, its name, and its region. -/
def Tag.toJson (tag : Tag) : Value :=
  .object [("text", .string tag.text), ("name", .string tag.name), ("span", tag.span.toJson)]

/-- A finding: its tag, the name, and the two regions. -/
def Finding.toJson (finding : Finding) : Value :=
  .object [("tag", finding.tag.toJson), ("name", .string finding.name),
    ("first", finding.first.toJson), ("duplicate", finding.duplicate.toJson)]

/-- A warning: what it is about, what is wrong, and the region. -/
def Warning.toJson (warning : Warning) : Value :=
  .object [("kind", .string warning.cause.name), ("message", .string warning.message),
    ("span", warning.span.toJson)]

namespace Report

/-- The report of a scan as a JSON value. -/
def jsonValue (scan : Scan) (showWarnings : Bool) : Value :=
  .object [("has_duplicates", .bool scan.hasFindings),
    ("tags_scanned", .number scan.tagCount),
    ("findings", .array (scan.findings.map Finding.toJson)),
    ("warnings", .array (if showWarnings then scan.warnings.map Warning.toJson else []))]

/-- The report of a scan as a JSON text. -/
def json (scan : Scan) (showWarnings : Bool) : String :=
  (jsonValue scan showWarnings).render

end Report

end TagLint
