import TagLint.Cli.Options

/-!
# A run of the command

A run reads one source, scans it, and prints the report. It passes if the scan has no findings
and, where warnings are denied, no warnings. A source that cannot be read ends the run with a
message and without a report; the content of a source that can be read never does.

- `Environment`: what a run can read.
- `Options.source`: the source that a run scans.
- `Outcome`: how a run ends, and what it prints.
-/

namespace TagLint.Cli

/-- What a path leads to. -/
inductive FileEntry where
  /-- Nothing. -/
  | missing
  /-- A directory. -/
  | directory
  /-- A file and its bytes. -/
  | file (content : ByteArray)
  /-- Something that cannot be read, and why. -/
  | unreadable (reason : String)

/-- Whether a path leads to a directory. -/
def FileEntry.isDirectory : FileEntry → Bool
  | directory => true
  | _ => false

/-- What a run can read. Standard input is taken to be there and to be read to its end: unlike a file
(`FileEntry.unreadable`), it has no read that fails, and no `SourceError` is about one. -/
structure Environment where
  /-- The bytes of standard input. -/
  input : ByteArray
  /-- What a path leads to. -/
  lookUp : String → FileEntry

/-- Why a source cannot be read. -/
inductive SourceError where
  /-- Its path leads to nothing. -/
  | notFound (path : String)
  /-- What its path leads to has no bytes to read. -/
  | unreadable (path reason : String)
  /-- Its bytes are not UTF-8. -/
  | notUtf8 (name : String)
  deriving DecidableEq, Repr

/-- Why a source cannot be read, in words. -/
def SourceError.message : SourceError → String
  | notFound path => "file not found: " ++ path
  | unreadable path reason => "cannot read " ++ path ++ ": " ++ reason
  | notUtf8 name => name ++ " is not valid UTF-8"

/-- Why a directory cannot be read. -/
def directoryReason : String :=
  "Is a directory (os error 21)"

namespace Options

/-- Whether the source is standard input. -/
def readsInput (options : Options) : Bool :=
  options.path = "-"

/-- The name of the source in messages. -/
def sourceName (options : Options) : String :=
  if options.readsInput then "<stdin>" else options.path

/-- The bytes of the source. -/
def bytes (options : Options) (environment : Environment) : Except SourceError ByteArray :=
  if options.readsInput then .ok environment.input
  else
    match environment.lookUp options.path with
    | .missing => .error (.notFound options.path)
    | .directory => .error (.unreadable options.path directoryReason)
    | .file content => .ok content
    | .unreadable reason => .error (.unreadable options.path reason)

/-- The source. -/
def source (options : Options) (environment : Environment) : Except SourceError String := do
  match String.fromUTF8? (← options.bytes environment) with
  | some source => .ok source
  | none => .error (.notUtf8 options.sourceName)

/-- The report of a scan. -/
def report (options : Options) (scan : Scan) : String :=
  Report.render options.format scan options.treatment.reports

/-- Whether a run with this scan passes. -/
def passes (options : Options) (scan : Scan) : Bool :=
  !scan.hasFindings && !(options.treatment = .denied && scan.hasWarnings)

end Options

/-- How a run ends. -/
inductive Outcome where
  /-- The command line cannot be read. -/
  | misuse
  /-- The help page was asked for. -/
  | help
  /-- The version was asked for. -/
  | version
  /-- The source cannot be read. -/
  | failed (error : SourceError)
  /-- The source was scanned. -/
  | scanned (report : String) (passed : Bool)
  deriving DecidableEq, Repr

namespace Outcome

/-- How the command is called. -/
def usage : String :=
  "Usage: dupattr [--format text|json] [--warnings show|hide|deny] <PATH>\n"

/-- The help page. -/
def helpText : String :=
  "Report attributes declared more than once on the same tag\n\n" ++ usage
    ++ "\nA path of - reads standard input.\n"

/-- The exit status. -/
def code : Outcome → UInt32
  | misuse => 2
  | help => 0
  | version => 0
  | failed _ => 1
  | scanned _ passed => if passed then 0 else 1

/-- What is printed on standard output. -/
def output : Outcome → String
  | misuse => ""
  | help => helpText
  | version => "dupattr 0.1.0\n"
  | failed _ => ""
  | scanned report _ => report ++ "\n"

/-- What is printed on standard error. -/
def errors : Outcome → String
  | misuse => usage
  | help => ""
  | version => ""
  | failed error => "Error: " ++ error.message ++ "\n"
  | scanned _ _ => ""

end Outcome

/-- How a scan with some options ends. -/
def Options.run (options : Options) (environment : Environment) : Outcome :=
  match options.source environment with
  | .ok source =>
    let scan := Scan.ofString source
    .scanned (options.report scan) (options.passes scan)
  | .error error => .failed error

/-- How a request ends. -/
def Request.run (environment : Environment) : Request → Outcome
  | misuse => .misuse
  | help => .help
  | version => .version
  | scan options => options.run environment

end TagLint.Cli
