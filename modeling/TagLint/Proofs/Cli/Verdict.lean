import TagLint.Cli.Run
import TagLint.Proofs.Report.Verdict

/-!
# How a run ends

The exit status of a run is the verdict that its report gives.

- `Options.source_eq_ok`: bytes that are the UTF-8 form of a source are read as this source.
- `Options.Agrees`: what a run prints and how it ends, for a scan and every treatment of warnings.
- `Options.agrees_run`: a run on a source that can be read ends as the scan of the source says.
-/

namespace TagLint.Cli

namespace Options

variable {options : Options} {environment : Environment} {source : String}

/-- A run prints the report of a scan, and ends well exactly if the scan has no findings and no
denied warnings. Hidden warnings might as well not be there, and do no more to how the run ends than
shown ones. Denying warnings is never kinder. -/
structure Agrees (options : Options) (environment : Environment) (scan : Scan) : Prop where
  output : (options.run environment).output =
    Report.render options.format scan (options.treatment != .hidden) ++ "\n"
  code : (options.run environment).code = 0 ↔
    scan.findings = [] ∧ ¬(options.treatment = .denied ∧ scan.warnings ≠ [])
  hidden : options.treatment = .hidden → ∀ showWarnings, (options.run environment).output =
    Report.render options.format { scan with warnings := [] } showWarnings ++ "\n"
  alike : ({ options with treatment := .hidden }.run environment).code =
    ({ options with treatment := .shown }.run environment).code
  denied : ({ options with treatment := .denied }.run environment).code = 0 →
    ∀ treatment, ({ options with treatment := treatment }.run environment).code = 0

/-- The bytes of a source are read as this source. -/
theorem source_eq_ok (h : options.bytes environment = .ok source.toUTF8) :
    options.source environment = .ok source := by
  have hutf8 : String.fromUTF8? source.toUTF8 = some source := dif_pos source.isValidUTF8
  unfold Options.source
  simp only [h, Bind.bind, Except.bind, hutf8]

/-- A run scans the source. -/
theorem run_eq_scanned (h : options.bytes environment = .ok source.toUTF8) :
    options.run environment = .scanned (options.report (Scan.ofString source))
      (options.passes (Scan.ofString source)) := by
  rw [Options.run, source_eq_ok h]

/-- A run passes if there are no findings and no denied warnings. -/
theorem passes_iff (options : Options) (scan : Scan) : options.passes scan = true ↔
    scan.findings = [] ∧ ¬(options.treatment = .denied ∧ scan.warnings ≠ []) := by
  have hfindings : (!scan.hasFindings) = true ↔ scan.findings = [] := by
    rw [Scan.hasFindings, Bool.not_not, List.isEmpty_iff]
  have hwarnings : scan.hasWarnings = true ↔ scan.warnings ≠ [] := by
    rw [Scan.hasWarnings, Bool.not_eq_true', ← Bool.not_eq_true, List.isEmpty_iff]
  rw [passes, Bool.and_eq_true, hfindings, Bool.not_eq_true', ← Bool.not_eq_true, Bool.and_eq_true,
    decide_eq_true_eq, hwarnings]

/-- The exit status tells whether a run passes. -/
theorem code_eq_zero_iff (h : options.bytes environment = .ok source.toUTF8) :
    (options.run environment).code = 0 ↔ options.passes (Scan.ofString source) = true := by
  rw [run_eq_scanned h, Outcome.code]
  cases options.passes (Scan.ofString source) <;> decide

/-- **Exit status and reports give one verdict** on every source, in both formats and for every
treatment of warnings. -/
theorem agrees_run (h : options.bytes environment = .ok source.toUTF8) :
    options.Agrees environment (Scan.ofString source) ∧
      ∀ scan showWarnings, Report.OneVerdict scan showWarnings := by
  refine ⟨?_, Report.oneVerdict⟩
  have hcode : ∀ treatment, ({ options with treatment := treatment }.run environment).code = 0 ↔
      (Scan.ofString source).findings = [] ∧
        ¬(treatment = .denied ∧ (Scan.ofString source).warnings ≠ []) := by
    intro treatment
    have hbytes : { options with treatment := treatment }.bytes environment =
      .ok source.toUTF8 := h
    rw [code_eq_zero_iff hbytes, passes_iff]
  have houtput : (options.run environment).output =
      Report.render options.format (Scan.ofString source) options.treatment.reports ++ "\n" := by
    rw [run_eq_scanned h]
    rfl
  constructor
  case output =>
    rw [houtput]
    cases options.treatment <;> rfl
  case code => exact hcode options.treatment
  case hidden =>
    intro htreatment showWarnings
    rw [houtput, htreatment]
    exact congrArg (· ++ "\n") (Report.render_hidden _ _ showWarnings)
  case alike =>
    have hhidden : { options with treatment := .hidden }.bytes environment =
      .ok source.toUTF8 := h
    have hshown : { options with treatment := .shown }.bytes environment = .ok source.toUTF8 := h
    rw [run_eq_scanned hhidden, run_eq_scanned hshown]
    rfl
  case denied =>
    intro hdenied treatment
    obtain ⟨hfindings, hwarnings⟩ := (hcode .denied).1 hdenied
    refine (hcode treatment).2 ⟨hfindings, ?_⟩
    rintro ⟨-, hne⟩
    exact hwarnings ⟨rfl, hne⟩

/-- A run on standard input that denies warnings, of which there is one. -/
theorem agrees_run_of_stray :
    (Options.mk "-" .text .denied).bytes ⟨"<p ]>".toUTF8, fun _ => .missing⟩ =
      .ok "<p ]>".toUTF8 ∧
    (Options.mk "-" .text .denied).Agrees ⟨"<p ]>".toUTF8, fun _ => .missing⟩
      (Scan.ofString "<p ]>") ∧
    ∀ scan showWarnings, Report.OneVerdict scan showWarnings := by
  have hbytes : (Options.mk "-" .text .denied).bytes ⟨"<p ]>".toUTF8, fun _ => .missing⟩ =
      .ok "<p ]>".toUTF8 := by
    rw [bytes, readsInput, if_pos (decide_eq_true rfl)]
  exact ⟨hbytes, agrees_run hbytes⟩

end Options

end TagLint.Cli
