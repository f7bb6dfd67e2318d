import TagLint.Proofs.Text.LastLine
import TagLint.Report.Text

/-!
# The last line of a report

A report for people has whole lines for findings and warnings, and then the summary. The texts of
tags and the messages of warnings may hold any characters: the summary has no newline, so that it is
the last line in any case.

- `newline_notMem_summary`: a summary is one line.
- `lastLine_text`: the last line of a report is the summary.
- `none_prefix_iff`, `found_prefix`: what the summary says of the findings.
-/

namespace TagLint.Report

open Text

/-! ### The summary is one line -/

theorem newline_notMem_natText (n : Nat) : '\n' ∉ (toString n).toList := by
  rw [Nat.toString_eq_ofList_toDigits, String.toList_ofList]
  intro h
  have hdigit : Char.isDigit '\n' = true :=
    Nat.isDigit_of_mem_toDigits (b := 10) (n := n) (by decide) (by decide) h
  cases hdigit

theorem newline_notMem_append {first second : String} (hfirst : '\n' ∉ first.toList)
    (hsecond : '\n' ∉ second.toList) : '\n' ∉ (first ++ second).toList := by
  rw [String.toList_append, List.mem_append]
  exact not_or.2 ⟨hfirst, hsecond⟩

theorem newline_notMem_plural (count : Nat) {word : String} (h : '\n' ∉ word.toList) :
    '\n' ∉ (plural count word).toList := by
  rw [plural]
  split
  · exact h
  · exact newline_notMem_append h (by decide)

theorem newline_notMem_findingsSummary (findings : Nat) :
    '\n' ∉ (findingsSummary findings).toList := by
  rw [findingsSummary]
  split
  · decide
  · refine newline_notMem_append ?_ (newline_notMem_plural _ (by decide))
    show '\n' ∉ ("Found " ++ toString findings ++ " duplicate ").toList
    refine newline_notMem_append (newline_notMem_append (by decide) ?_) (by decide)
    exact newline_notMem_natText findings

theorem newline_notMem_warningsSummary (warnings : Nat) :
    '\n' ∉ (warningsSummary warnings).toList := by
  rw [warningsSummary]
  split
  · decide
  · refine newline_notMem_append (newline_notMem_append ?_ ?_) (by decide)
    · show '\n' ∉ (" (" ++ toString warnings ++ " ").toList
      refine newline_notMem_append (newline_notMem_append (by decide) ?_) (by decide)
      exact newline_notMem_natText warnings
    · exact newline_notMem_plural _ (by decide)

/-- A summary is one line. -/
theorem newline_notMem_summary (scan : Scan) (showWarnings : Bool) :
    '\n' ∉ (summary scan showWarnings).toList := by
  rw [summary]
  refine newline_notMem_append (newline_notMem_append ?_ ?_) (by decide)
  · exact newline_notMem_findingsSummary _
  · exact newline_notMem_warningsSummary _

/-! ### The lines before it -/

theorem wholeLines_append_newline (text : String) : WholeLines (text ++ "\n").toList := by
  have hnewline : "\n".toList = ['\n'] := by decide
  rw [String.toList_append, hnewline]
  exact wholeLines_newline _

theorem wholeLines_findingText (finding : Finding) : WholeLines (findingText finding).toList :=
  wholeLines_append_newline _

theorem wholeLines_warningText (warning : Warning) : WholeLines (warningText warning).toList :=
  wholeLines_append_newline _

/-- **The last line of a report is the summary**, whatever the tags and the messages hold. -/
theorem lastLine_text (scan : Scan) (showWarnings : Bool) :
    lastLine (text scan showWarnings).toList = (summary scan showWarnings).toList := by
  have hfindings : WholeLines (String.join (scan.findings.map findingText)).toList := by
    rw [String.toList_join, List.flatMap_map]
    exact wholeLines_flatMap _ fun finding _ => wholeLines_findingText finding
  have hwarnings : WholeLines
      (String.join (if showWarnings then scan.warnings.map warningText else [])).toList := by
    split
    · rw [String.toList_join, List.flatMap_map]
      exact wholeLines_flatMap _ fun warning _ => wholeLines_warningText warning
    · exact .inl rfl
  rw [text, String.toList_append, String.toList_append]
  exact (hfindings.append hwarnings).lastLine_append (newline_notMem_summary scan showWarnings)

/-! ### What it says -/

theorem prefix_append (first second : String) : first.toList <+: (first ++ second).toList := by
  rw [String.toList_append]
  exact List.prefix_append _ _

/-- A summary begins with what it says of the findings. -/
theorem findingsSummary_prefix (scan : Scan) (showWarnings : Bool) :
    (findingsSummary scan.findings.length).toList <+: (summary scan showWarnings).toList :=
  (prefix_append _ _).trans (prefix_append _ _)

/-- A summary says how many findings there are, if there are any. -/
theorem found_prefix {scan : Scan} (h : scan.findings ≠ []) (showWarnings : Bool) :
    ("Found " ++ toString scan.findings.length ++ " duplicate ").toList <+:
      (summary scan showWarnings).toList := by
  have hlength : scan.findings.length ≠ 0 := fun hzero => h (List.eq_nil_of_length_eq_zero hzero)
  have hprefix := findingsSummary_prefix scan showWarnings
  rw [findingsSummary, if_neg hlength] at hprefix
  exact (prefix_append _ _).trans hprefix

/-- **A summary says that there are no findings exactly if there are none.** -/
theorem none_prefix_iff (scan : Scan) (showWarnings : Bool) :
    "No duplicate attributes found".toList <+: (summary scan showWarnings).toList ↔
      scan.findings = [] := by
  constructor
  · intro hnone
    by_contra hfindings
    have hfound := found_prefix hfindings showWarnings
    -- the first letter tells the two apart
    obtain ⟨rest, hrest⟩ := hnone
    obtain ⟨behind, hbehind⟩ := hfound
    rw [← hrest, String.append_assoc, String.toList_append, List.append_assoc] at hbehind
    have hfirst := congrArg List.head? hbehind
    have hletters : "Found ".toList = 'F' :: "ound ".toList ∧ "No duplicate attributes found".toList
        = 'N' :: "o duplicate attributes found".toList := by decide
    rw [hletters.1, hletters.2] at hfirst
    cases hfirst
  · intro hfindings
    have hprefix := findingsSummary_prefix scan showWarnings
    rw [hfindings] at hprefix
    exact hprefix

end TagLint.Report
