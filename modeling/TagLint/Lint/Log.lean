import TagLint.Lint.Scan

/-!
# The log of a scan

A scan tells what it does, in the order in which it does it: a comment that it skips, a tag that
it reads and right after it the names that the tag declares again, the fault that stops it, and
at last a count of what it found. `Log.ofString` lists these records; `Log.keep` keeps those that
a level of detail admits.
-/

namespace TagLint

/-- How much of a log is kept, from least to most. -/
inductive LogLevel where
  /-- Nothing that a scan tells. -/
  | info
  /-- How a scan ended. -/
  | debug
  /-- Every step of a scan. -/
  | trace
  deriving DecidableEq, Repr

namespace LogLevel

/-- The place of a level in the order of detail. -/
def detail : LogLevel → Nat
  | info => 0
  | debug => 1
  | trace => 2

/-- The name of a level. -/
def name : LogLevel → String
  | info => "INFO"
  | debug => "DEBUG"
  | trace => "TRACE"

/-- Whether a log of a level keeps the records of another. -/
def admits (kept level : LogLevel) : Bool :=
  level.detail ≤ kept.detail

end LogLevel

/-- One record of a log. -/
inductive LogRecord where
  /-- A comment was skipped. -/
  | comment (start stop : Nat)
  /-- A tag was read. -/
  | tag (found : Tag)
  /-- The tag declares a name again. -/
  | duplicate (found : Finding)
  /-- A fault stopped the scan. -/
  | stopped (fault : Fault)
  /-- The scan ended with these counts. -/
  | summary (tags findings warnings : Nat)
  deriving DecidableEq, Repr

namespace LogRecord

/-- The level of detail that a record belongs to. -/
def level : LogRecord → LogLevel
  | comment .. | tag .. | duplicate .. => .trace
  | stopped .. | summary .. => .debug

/-- The part of the program that a record comes from. -/
def target : LogRecord → String
  | comment .. | tag .. => "dupattr::tag"
  | duplicate .. | stopped .. | summary .. => "dupattr::lint"

/-- A record in words. -/
def message : LogRecord → String
  | comment start stop => s!"skipped comment at {start}..{stop}"
  | tag found =>
    let place := found.span.location
    s!"tag `{found.name}` at {place.line}:{place.column} ({found.span.start}..{found.span.stop})"
  | duplicate found =>
    s!"duplicate `{found.name}` on `<{found.tag.name}>` at {found.duplicate.start}"
  | stopped fault => s!"stopping scan: {fault.display}"
  | summary tags findings warnings =>
    s!"scanned {tags} tags: {findings} duplicates, {warnings} warnings"

/-- The record of what a scan found. -/
def ofScan (scan : Scan) : LogRecord :=
  summary scan.tagCount scan.findings.length scan.warnings.length

/-- The records of a landmark. -/
def ofLandmark (lines : Lines) : Landmark → List LogRecord
  | .comment start stop => [comment start stop]
  | .tag found => tag found :: (found.remarks lines).findings.map duplicate
  | .fault fault => [stopped fault]

end LogRecord

/-- The records of one scan, in the order in which they are made. -/
abbrev Log := List LogRecord

namespace Log

/-- The log of the scan of a source string. -/
def ofString (source : String) : Log :=
  let reader := TagReader.ofString source
  reader.landmarks.flatMap (LogRecord.ofLandmark reader.lines)
    ++ [LogRecord.ofScan (Scan.ofString source)]

/-- The records that a level of detail admits. -/
def keep (log : Log) (kept : LogLevel) : Log :=
  log.filter fun entry => kept.admits entry.level

end Log

end TagLint
