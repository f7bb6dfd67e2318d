import Mathlib.Logic.Basic
import TagLint.Proofs.Cli.Verdict

/-!
# How the source of a run matters

A run either fails, with one message and no report, or it completes its report. It fails if its
source cannot be read or is not UTF-8, and for no other reason. Where the bytes of a source come
from makes no difference but for the name of the source in a message.

- `Outcome.IsFatal`, `Outcome.IsComplete`: the two ways to end.
- `Options.Reads`, `Options.Unread`: the bytes that a run reads, and why it can have no source.
- `Options.Fails`, `Options.Completes`: what a run comes to in either case.
- `Request.run_fails_xor_completes`: every run that is to scan comes to one of them.
-/

namespace TagLint.Cli

namespace Outcome

/-- A run ends with an error: there is a message and no report. -/
structure IsFatal (outcome : Outcome) (message : String) : Prop where
  output : outcome.output = ""
  errors : outcome.errors = "Error: " ++ message ++ "\n"
  code : outcome.code = 1

/-- A run ends with a report: all of it is printed, and no message. -/
structure IsComplete (outcome : Outcome) (report : String) : Prop where
  output : outcome.output = report ++ "\n"
  errors : outcome.errors = ""

theorem isFatal_failed (error : SourceError) : (failed error).IsFatal error.message := by
  constructor
  case output => rfl
  case errors => rfl
  case code => rfl

theorem isComplete_scanned (report : String) (passed : Bool) :
    (scanned report passed).IsComplete report := by
  constructor
  case output => rfl
  case errors => rfl

/-- No run ends in both ways. -/
theorem IsFatal.not_isComplete {outcome : Outcome} {message report : String}
    (h : outcome.IsFatal message) : ¬outcome.IsComplete report := by
  intro hcomplete
  have hempty := h.errors.symm.trans hcomplete.errors
  simp at hempty

end Outcome

namespace Options

/-- The bytes that a run reads: those of standard input, or those of the file at its path. -/
inductive Reads (options : Options) (environment : Environment) : ByteArray → Prop
  | input : options.path = "-" → Reads options environment environment.input
  | file {bytes : ByteArray} : options.path ≠ "-" →
    environment.lookUp options.path = .file bytes → Reads options environment bytes

/-- A run has no source, and this is the message. -/
inductive Unread (options : Options) (environment : Environment) : String → Prop
  | missing : options.path ≠ "-" → environment.lookUp options.path = .missing →
    Unread options environment ("file not found: " ++ options.path)
  | directory : options.path ≠ "-" → environment.lookUp options.path = .directory →
    Unread options environment
      ("cannot read " ++ options.path ++ ": " ++ "Is a directory (os error 21)")
  | unreadable {reason : String} : options.path ≠ "-" →
    environment.lookUp options.path = .unreadable reason →
    Unread options environment ("cannot read " ++ options.path ++ ": " ++ reason)
  | inputEncoding : options.path = "-" → ¬environment.input.IsValidUTF8 →
    Unread options environment "<stdin> is not valid UTF-8"
  | fileEncoding {bytes : ByteArray} : options.path ≠ "-" →
    environment.lookUp options.path = .file bytes → ¬bytes.IsValidUTF8 →
    Unread options environment (options.path ++ " is not valid UTF-8")

/-- A run has no source, and ends with the message that says why. -/
def Fails (options : Options) (environment : Environment) (outcome : Outcome) : Prop :=
  ∃ message, options.Unread environment message ∧ outcome.IsFatal message

/-- A run has a source, and ends with its whole report. -/
def Completes (options : Options) (environment : Environment) (outcome : Outcome) : Prop :=
  ∃ source : String, options.Reads environment source.toUTF8 ∧
    outcome.IsComplete
      (Report.render options.format (Scan.ofString source) (options.treatment != .hidden))

variable {options : Options} {environment : Environment} {bytes : ByteArray}

theorem bytes_of_input (h : options.path = "-") :
    options.bytes environment = .ok environment.input := by
  rw [Options.bytes, readsInput, if_pos (decide_eq_true h)]

theorem bytes_of_file (h : options.path ≠ "-") : options.bytes environment =
    match environment.lookUp options.path with
    | .missing => .error (.notFound options.path)
    | .directory => .error (.unreadable options.path directoryReason)
    | .file content => .ok content
    | .unreadable reason => .error (.unreadable options.path reason) :=
  if_neg (by rwa [readsInput, decide_eq_true_eq])

theorem sourceName_of_input (h : options.path = "-") : options.sourceName = "<stdin>" := by
  rw [sourceName, readsInput, if_pos (decide_eq_true h)]

theorem sourceName_of_file (h : options.path ≠ "-") : options.sourceName = options.path := by
  rw [sourceName, readsInput, if_neg (by rwa [decide_eq_true_eq])]

/-- Bytes that are UTF-8 are those of a source. -/
theorem exists_toUTF8_eq (h : bytes.IsValidUTF8) : ∃ source : String, source.toUTF8 = bytes :=
  ⟨String.fromUTF8 bytes h, rfl⟩

theorem Reads.bytes_eq (h : options.Reads environment bytes) :
    options.bytes environment = .ok bytes := by
  cases h with
  | input hpath => exact bytes_of_input hpath
  | file hpath hfile => rw [bytes_of_file hpath, hfile]

/-- Bytes that are not UTF-8 are read as no source. -/
theorem Reads.run_eq_failed (h : options.Reads environment bytes) (hbytes : ¬bytes.IsValidUTF8) :
    options.run environment = .failed (.notUtf8 options.sourceName) := by
  have hutf8 : String.fromUTF8? bytes = none := dif_neg hbytes
  have hsource : options.source environment = .error (.notUtf8 options.sourceName) := by
    unfold Options.source
    simp only [h.bytes_eq, Bind.bind, Except.bind, hutf8]
  rw [Options.run, hsource]

/-- A run on a source completes its report. -/
theorem Reads.isComplete {source : String} (h : options.Reads environment source.toUTF8) :
    (options.run environment).IsComplete
      (Report.render options.format (Scan.ofString source) (options.treatment != .hidden)) := by
  have hreports : options.treatment.reports = (options.treatment != .hidden) := by
    cases options.treatment <;> rfl
  rw [run_eq_scanned h.bytes_eq, report, hreports]
  exact Outcome.isComplete_scanned _ _

/-- A run on bytes is fatal exactly if they are not UTF-8. -/
theorem Reads.isFatal_iff (h : options.Reads environment bytes) :
    (∃ message, (options.run environment).IsFatal message) ↔ ¬bytes.IsValidUTF8 := by
  constructor
  · rintro ⟨message, hfatal⟩ hbytes
    obtain ⟨source, rfl⟩ := exists_toUTF8_eq hbytes
    exact hfatal.not_isComplete h.isComplete
  · intro hbytes
    rw [h.run_eq_failed hbytes]
    exact ⟨_, Outcome.isFatal_failed _⟩

/-- Where there are no bytes to read, a run fails and says why. -/
theorem fails_of_bytes_eq_error {error : SourceError} (h : options.bytes environment = .error error)
    (hunread : options.Unread environment error.message) :
    options.Fails environment (options.run environment) := by
  have hsource : options.source environment = .error error := by
    unfold Options.source
    simp only [h, Bind.bind, Except.bind]
  refine ⟨error.message, hunread, ?_⟩
  rw [Options.run, hsource]
  exact Outcome.isFatal_failed error

/-- Where there are bytes to read, a run fails or completes. -/
theorem Reads.fails_or_completes (h : options.Reads environment bytes) :
    options.Fails environment (options.run environment) ∨
      options.Completes environment (options.run environment) := by
  by_cases hbytes : bytes.IsValidUTF8
  · obtain ⟨source, rfl⟩ := exists_toUTF8_eq hbytes
    exact .inr ⟨source, h, h.isComplete⟩
  · have hfatal :
        (options.run environment).IsFatal (options.sourceName ++ " is not valid UTF-8") := by
      rw [h.run_eq_failed hbytes]
      exact Outcome.isFatal_failed _
    refine .inl ⟨_, ?_, hfatal⟩
    cases h with
    | input hpath =>
      rw [sourceName_of_input hpath]
      exact .inputEncoding hpath hbytes
    | file hpath hfile =>
      rw [sourceName_of_file hpath]
      exact .fileEncoding hpath hfile hbytes

/-- **A run fails or completes**, whatever its path leads to. -/
theorem fails_or_completes_run (options : Options) (environment : Environment) :
    options.Fails environment (options.run environment) ∨
      options.Completes environment (options.run environment) := by
  by_cases hpath : options.path = "-"
  · exact (Reads.input hpath).fails_or_completes
  have hbytes : options.bytes environment = _ := bytes_of_file hpath
  rcases hentry : environment.lookUp options.path with _ | _ | content | reason
  · rw [hentry] at hbytes
    exact .inl (fails_of_bytes_eq_error hbytes (.missing hpath hentry))
  · rw [hentry] at hbytes
    exact .inl (fails_of_bytes_eq_error hbytes (.directory hpath hentry))
  · exact (Reads.file hpath hentry).fails_or_completes
  · rw [hentry] at hbytes
    exact .inl (fails_of_bytes_eq_error hbytes (.unreadable hpath hentry))

/-- A run does not both fail and complete. -/
theorem Fails.not_completes {outcome : Outcome} (h : options.Fails environment outcome) :
    ¬options.Completes environment outcome := by
  obtain ⟨message, -, hfatal⟩ := h
  rintro ⟨source, -, hcomplete⟩
  exact hfatal.not_isComplete hcomplete

end Options

/-- Two runs, one on the file at a path and one on standard input, end alike on some bytes. They
print the same report and have the same exit status. Their messages differ in the name of the
source only. -/
structure Outcome.Alike (bytes : ByteArray) (path : String) (onFile onInput : Outcome) : Prop where
  output : onFile.output = onInput.output
  code : onFile.code = onInput.code
  errors : bytes.IsValidUTF8 → onFile.errors = "" ∧ onInput.errors = ""
  fatal : ¬bytes.IsValidUTF8 → onFile.IsFatal (path ++ " is not valid UTF-8") ∧
    onInput.IsFatal "<stdin> is not valid UTF-8"

namespace Options

variable {bytes : ByteArray}

/-- **A file and standard input are interchangeable.** -/
theorem alike_run (format : Report.Format) (treatment : Treatment) {path : String}
    {onFile onInput : Environment} (hpath : path ≠ "-") (hfile : onFile.lookUp path = .file bytes)
    (hinput : onInput.input = bytes) :
    Outcome.Alike bytes path ((Options.mk path format treatment).run onFile)
      ((Options.mk "-" format treatment).run onInput) := by
  have honFile : (Options.mk path format treatment).Reads onFile bytes := .file hpath hfile
  have honInput : (Options.mk "-" format treatment).Reads onInput bytes := by
    rw [← hinput]
    exact .input rfl
  by_cases hbytes : bytes.IsValidUTF8
  · obtain ⟨source, rfl⟩ := exists_toUTF8_eq hbytes
    constructor
    case output => rw [honFile.isComplete.output, honInput.isComplete.output]
    case code =>
      rw [run_eq_scanned honFile.bytes_eq, run_eq_scanned honInput.bytes_eq]
      rfl
    case errors => exact fun _ => ⟨honFile.isComplete.errors, honInput.isComplete.errors⟩
    case fatal => exact absurd hbytes
  · rw [honFile.run_eq_failed hbytes, honInput.run_eq_failed hbytes, sourceName_of_file hpath,
      sourceName_of_input rfl]
    constructor
    case output => rfl
    case code => rfl
    case errors => exact fun hvalid => absurd hvalid hbytes
    case fatal => exact fun _ => ⟨Outcome.isFatal_failed _, Outcome.isFatal_failed _⟩

end Options

namespace Request

/-- Every scan can be asked for. -/
theorem exists_arguments (options : Options) :
    ∃ arguments, ofArguments arguments = .scan options := by
  obtain ⟨path, format, treatment⟩ := options
  cases format with
  | text =>
    cases treatment with
    | shown => exact ⟨["--format", "text", "--warnings", "show", "--", path], rfl⟩
    | hidden => exact ⟨["--format", "text", "--warnings", "hide", "--", path], rfl⟩
    | denied => exact ⟨["--format", "text", "--warnings", "deny", "--", path], rfl⟩
  | json =>
    cases treatment with
    | shown => exact ⟨["--format", "json", "--warnings", "show", "--", path], rfl⟩
    | hidden => exact ⟨["--format", "json", "--warnings", "hide", "--", path], rfl⟩
    | denied => exact ⟨["--format", "json", "--warnings", "deny", "--", path], rfl⟩

/-- **A run that is to scan either fails or completes.** It fails on bytes exactly if they are not
UTF-8, so nothing that a source contains is fatal. On a file it ends as on standard input. -/
theorem run_fails_xor_completes {arguments : List String} {options : Options}
    (h : ofArguments arguments = .scan options) (environment : Environment) :
    Xor (options.Fails environment ((ofArguments arguments).run environment))
      (options.Completes environment ((ofArguments arguments).run environment)) ∧
    (∀ bytes, options.Reads environment bytes →
      ((∃ message, ((ofArguments arguments).run environment).IsFatal message) ↔
        ¬bytes.IsValidUTF8)) ∧
    ∀ onInput bytes, options.path ≠ "-" → environment.lookUp options.path = .file bytes →
      onInput.input = bytes →
      ∀ others, ofArguments others = .scan { options with path := "-" } →
      Outcome.Alike bytes options.path ((ofArguments arguments).run environment)
        ((ofArguments others).run onInput) := by
  rw [h]
  refine ⟨?_, ?_, ?_⟩
  · rcases options.fails_or_completes_run environment with hfails | hcompletes
    · exact .inl ⟨hfails, hfails.not_completes⟩
    · exact .inr ⟨hcompletes, fun hfails => hfails.not_completes hcompletes⟩
  · intro bytes hreads
    exact hreads.isFatal_iff
  · intro onInput bytes hpath hfile hinput others hothers
    rw [hothers]
    exact Options.alike_run options.format options.treatment hpath hfile hinput

/-- A run on standard input that is not UTF-8. -/
theorem run_fails_of_input : ofArguments ["-"] = .scan ⟨"-", .text, .shown⟩ ∧
    ∃ message, ((ofArguments ["-"]).run ⟨⟨#[0xff]⟩, fun _ => .missing⟩).IsFatal message := by
  have hbytes : ¬(ByteArray.mk #[0xff]).IsValidUTF8 := by decide
  exact ⟨rfl, ((run_fails_xor_completes rfl _).2.1 _ (.input rfl)).2 hbytes⟩

end Request

end TagLint.Cli
