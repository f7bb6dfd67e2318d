import TagLint.Markup.Fault
import TagLint.Tag.Basic

/-!
# Findings and warnings

A finding is a name that is declared again on one tag. A warning is a fault of the source: a
character out of place among attributes, or the fault that ended the reading.
-/

namespace TagLint

/-- A name that is declared more than once on one tag. -/
structure Finding where
  /-- The tag. -/
  tag : Tag
  /-- The name. -/
  name : String
  /-- Where the tag declares the name first. -/
  first : Span
  /-- Where the tag declares it again. -/
  duplicate : Span
  deriving DecidableEq, Repr

/-- What a warning is about. -/
inductive Warning.Cause where
  /-- Something is left open, and the reading stopped there. -/
  | unclosed
  /-- A character stands where an attribute is expected. -/
  | stray
  deriving DecidableEq, Repr

/-- The name of a cause in reports. -/
def Warning.Cause.name : Warning.Cause → String
  | unclosed => "malformed_tag"
  | stray => "malformed_attribute"

/-- A fault of the source. It is never a finding and never ends a run. -/
structure Warning where
  /-- What the warning is about. -/
  cause : Warning.Cause
  /-- What is wrong, in words. -/
  message : String
  /-- Where it is wrong. -/
  span : Span
  deriving DecidableEq, Repr

/-- The warning of the fault that ended a reading: an empty region where the blame is put. -/
def Warning.ofFault (fault : Fault) : Warning :=
  ⟨.unclosed, fault.message, ⟨fault.offset, fault.offset, fault.location⟩⟩

end TagLint
