import TagLint.Lint.Remarks
import TagLint.Markup.TagReader

/-!
# Scanning a source

A scan takes the tags of a source one by one and joins the remarks on them in order. The fault
that ends the reading is the last warning.
-/

namespace TagLint

/-- What is reported of an item: a fault is a warning of its own. -/
def Item.remarks (lines : Lines) : Item → Remarks
  | .ok tag => tag.remarks lines
  | .error fault => ⟨[], [.ofFault fault]⟩

/-- What is reported of a source, in its order. -/
structure Scan where
  /-- The names declared more than once on one tag. -/
  findings : List Finding
  /-- The faults of the source. -/
  warnings : List Warning
  /-- The number of tags. -/
  tagCount : Nat
  deriving DecidableEq, Repr

namespace Scan

/-- Whether a name is declared more than once on one tag. -/
def hasFindings (scan : Scan) : Bool :=
  !scan.findings.isEmpty

/-- Whether the source has a fault. -/
def hasWarnings (scan : Scan) : Bool :=
  !scan.warnings.isEmpty

/-- Whether there is nothing to report. -/
def isEmpty (scan : Scan) : Bool :=
  !scan.hasFindings && !scan.hasWarnings

/-- The scan of the items of a source. -/
def ofItems (lines : Lines) (items : List Item) : Scan :=
  let remarks := items.map (Item.remarks lines)
  { findings := remarks.flatMap Remarks.findings
    warnings := remarks.flatMap Remarks.warnings
    tagCount := items.countP fun item => item.isOk }

/-- The scan of a source string. -/
def ofString (source : String) : Scan :=
  let reader := TagReader.ofString source
  .ofItems reader.lines reader.items

end Scan

end TagLint
