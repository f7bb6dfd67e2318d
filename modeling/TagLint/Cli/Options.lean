import TagLint.Report.Render

/-!
# The command line

A command line names one source to scan, and may choose a format and say how warnings are treated.
`Request.ofArguments` reads it from left to right, and the first problem decides, or the first
demand for help or for the version. An option is given at most once. Behind `--` every argument
is a path.
-/

namespace TagLint.Cli

/-- How warnings are treated. -/
inductive Treatment where
  /-- They are reported and change nothing else. -/
  | shown
  /-- They are left out of the report. -/
  | hidden
  /-- They are reported, and the run fails if there are any. -/
  | denied
  deriving DecidableEq, Repr

/-- The treatment of a name. -/
def Treatment.ofName? : String → Option Treatment
  | "show" => some shown
  | "hide" => some hidden
  | "deny" => some denied
  | _ => none

/-- Whether a report has the warnings. -/
def Treatment.reports : Treatment → Bool
  | shown => true
  | hidden => false
  | denied => true

/-- The format of a name. -/
def formatOfName? : String → Option Report.Format
  | "text" => some .text
  | "json" => some .json
  | _ => none

/-- What a run scans, and how it reports. -/
structure Options where
  /-- The path of the source, or `-` for standard input. -/
  path : String
  /-- The format of the report. -/
  format : Report.Format
  /-- How warnings are treated. -/
  treatment : Treatment
  deriving DecidableEq, Repr

/-- What a command line asks for. -/
inductive Request where
  /-- It cannot be read. -/
  | misuse
  /-- The help page. -/
  | help
  /-- The version. -/
  | version
  /-- A scan. -/
  | scan (options : Options)
  deriving DecidableEq, Repr

/-! ## One argument -/

/-- An argument that begins with a minus sign, as far as its own text says what it is. -/
inductive Flag where
  /-- Help is asked for. -/
  | help
  /-- The version is asked for. -/
  | version
  /-- The format, with its value behind `=` if it has one. -/
  | format (value? : Option String)
  /-- How warnings are treated, with the value behind `=` if there is one. -/
  | warnings (value? : Option String)
  /-- Nothing that is known. -/
  | unknown
  deriving DecidableEq, Repr

namespace Flag

/-- The flag of a long name, with what follows its `=`. Help and version take no value. -/
def ofLongName (name : String) (value? : Option String) : Flag :=
  match name, value? with
  | "help", none => help
  | "version", none => version
  | "format", value? => format value?
  | "warnings", value? => warnings value?
  | _, _ => unknown

/-- The flag whose text behind `--` this is. -/
def ofLongText (text : List Char) : Flag :=
  let name := String.ofList (text.takeWhile (· != '='))
  match text.dropWhile (· != '=') with
  | [] => ofLongName name none
  | _ :: value => ofLongName name (some (String.ofList value))

/-- The flag that an argument is. The first letter of a short one decides. An argument without a
minus sign in front, and the minus sign alone, are paths. -/
def ofArgument? (argument : String) : Option Flag :=
  match argument.toList with
  | '-' :: '-' :: text => some (ofLongText text)
  | '-' :: 'h' :: _ => some help
  | '-' :: 'V' :: _ => some version
  | '-' :: _ :: _ => some unknown
  | _ => none

end Flag

/-! ## The whole line -/

/-- What was read of a command line so far. -/
structure Draft where
  /-- The path. -/
  path? : Option String
  /-- The format. -/
  format? : Option Report.Format
  /-- How warnings are treated. -/
  treatment? : Option Treatment
  deriving DecidableEq, Repr

namespace Draft

/-- The value of something that is given at most once. -/
def once {α : Type} (given : Option α) (value : α) : Except Request (Option α) :=
  if given.isSome then .error .misuse else .ok (some value)

/-- The value that a name stands for. -/
def known {α : Type} (value? : Option α) : Except Request α :=
  value?.elim (.error .misuse) .ok

/-- The draft with a path. -/
def addPath (draft : Draft) (path : String) : Except Request Draft := do
  return { draft with path? := ← once draft.path? path }

/-- The draft with the format of a name. -/
def addFormat (draft : Draft) (name : String) : Except Request Draft := do
  return { draft with format? := ← once draft.format? (← known (formatOfName? name)) }

/-- The draft with the treatment of a name. -/
def addTreatment (draft : Draft) (name : String) : Except Request Draft := do
  return { draft with treatment? := ← once draft.treatment? (← known (Treatment.ofName? name)) }

/-- Reads on. The value of an option is the text behind its `=`, or else the next argument. What
decides before the end of the line is the error. -/
def read (draft : Draft) : List String → Except Request Draft
  | [] => .ok draft
  | argument :: rest =>
    if argument = "--" then rest.foldlM addPath draft
    else
      match Flag.ofArgument? argument, rest with
      | none, rest => do (← draft.addPath argument).read rest
      | some .help, _ => .error .help
      | some .version, _ => .error .version
      | some (.format (some value)), rest => do (← draft.addFormat value).read rest
      | some (.format none), value :: rest => do (← draft.addFormat value).read rest
      | some (.warnings (some value)), rest => do (← draft.addTreatment value).read rest
      | some (.warnings none), value :: rest => do (← draft.addTreatment value).read rest
      | _, _ => .error .misuse

/-- The request of a line that was read to its end: a path is needed, and the rest has defaults. -/
def request (draft : Draft) : Request :=
  match draft.path? with
  | none => .misuse
  | some path => .scan ⟨path, draft.format?.getD .text, draft.treatment?.getD .shown⟩

end Draft

/-- What a command line asks for. -/
def Request.ofArguments (arguments : List String) : Request :=
  match (Draft.mk none none none).read arguments with
  | .ok draft => draft.request
  | .error request => request

end TagLint.Cli
