import HeaderAudit.CommandLine.Program
import HeaderAudit.Proofs.Path.Text
import Mathlib.Data.List.Basic

/-! Cutting a summary at its newlines gives its lines back when no path holds a
newline. What a terminal shows besides are two escapes. -/

namespace HeaderAudit

namespace Report

theorem toList_unlines (lines : List String) :
    (unlines lines).toList =
      ['\n'].intercalate (lines.map String.toList ++ [[]]) := by
  induction lines with
  | nil => rfl
  | cons first rest inductionHypothesis =>
      have more : rest.map String.toList ++ [[]] ≠ [] := by simp
      rw [List.map_cons, List.cons_append,
        List.intercalate_cons_of_ne_nil more, ← inductionHypothesis]
      simp [unlines]

/-- Lines are found again between the newlines, and nothing stands behind the
last newline. -/
theorem splitOn_unlines
    {lines : List String}
    (noNewlines : ∀ line ∈ lines, '\n' ∉ line.toList) :
    (unlines lines).toList.splitOn '\n' =
      lines.map String.toList ++ [[]] := by
  rw [toList_unlines]
  refine List.splitOn_intercalate '\n' ?_ (by simp)
  rw [List.forall_mem_append, List.forall_mem_map]
  exact ⟨noNewlines, by simp⟩

/-- The text of the first line. -/
def firstLine (report : Report) : String :=
  if report.ok then successLine else failureLine

/-- The colour of the first line. -/
def firstColour (report : Report) : Colour :=
  if report.ok then .green else .red

/-- The paths that follow the first line. -/
def listedPaths (report : Report) : List Path :=
  if report.ok then [] else report.violationPaths

theorem summary_eq_unlines (report : Report) :
    report.summary =
      unlines (report.firstLine :: report.listedPaths.map Path.display) := by
  unfold summary firstLine listedPaths
  split <;> rfl

/-- Lines that are written one after the other are written behind what is
there. -/
theorem foldl_writeLine (paths : List Path) :
    ∀ written : String,
      paths.foldl (fun written path => written ++ path.display ++ "\n")
          written =
        written ++ unlines (paths.map Path.display) := by
  induction paths with
  | nil =>
      intro written
      exact String.append_empty.symm
  | cons path rest inductionHypothesis =>
      intro written
      rw [List.foldl_cons, inductionHypothesis]
      simp [unlines, String.append_assoc]

theorem terminalSummary_eq_unlines (report : Report) :
    report.terminalSummary =
      unlines
        (report.firstColour.paint report.firstLine ::
          report.listedPaths.map Path.display) := by
  unfold terminalSummary firstColour firstLine listedPaths
  split
  · simp [unlines]
  · rw [foldl_writeLine]
    simp [unlines]

/-- What starts a colour. -/
def Colour.escape : Colour → String
  | .green => "\x1b[1;32m"
  | .red => "\x1b[1;31m"

/-- What ends a colour. -/
def Colour.reset : String := "\x1b[0m"

theorem Colour.paint_eq (colour : Colour) (text : String) :
    colour.paint text = colour.escape ++ text ++ Colour.reset := by
  cases colour <;> rfl

/-- The report is ok exactly when nothing is violated, and its violating paths
are texts without newlines. -/
structure IsLegible (report : Report) : Prop where
  ok_iff : report.ok = true ↔ report.violations = []
  texts :
    ∀ path ∈ report.violationPaths,
      ∃ text, path.text? = some text ∧ '\n' ∉ text

theorem IsLegible.listedPaths_eq
    {report : Report} (legible : report.IsLegible) :
    report.listedPaths = report.violationPaths := by
  unfold listedPaths
  split
  · rename_i isOk
    rw [violationPaths, legible.ok_iff.1 isOk]
    rfl
  · rfl

theorem IsLegible.newline_notMem_display
    {report : Report} (legible : report.IsLegible) :
    ∀ path ∈ report.violationPaths, '\n' ∉ path.display.toList := by
  intro path member
  obtain ⟨text, readable, noNewline⟩ := legible.texts path member
  rwa [Path.display_of_text readable, String.toList_ofList]

/-- The lines behind the first one spell the violating paths. -/
theorem IsLegible.map_ofString_display
    {report : Report} (legible : report.IsLegible) :
    (report.violationPaths.map Path.display).map Path.ofString =
      report.violationPaths := by
  have pointwise :
      ∀ path ∈ report.violationPaths,
        (Path.ofString ∘ Path.display) path = id path := by
    intro path member
    obtain ⟨text, readable, _⟩ := legible.texts path member
    change Path.ofString path.display = path
    rw [Path.display_of_text readable, Path.ofString_of_text readable]
  rw [List.map_map, List.map_congr_left pointwise, List.map_id]

end Report

namespace Program

open Report

/-- How an output shows the first line. -/
def paintFor : Sink → Colour → String → String
  | .terminal, colour, text => colour.paint text
  | _, _, text => text

theorem summaryFor_eq_unlines (sink : Sink) (report : Report) :
    summaryFor sink report =
      unlines
        (paintFor sink report.firstColour report.firstLine ::
          report.listedPaths.map Path.display) := by
  cases sink with
  | terminal => exact report.terminalSummary_eq_unlines
  | pipe => exact report.summary_eq_unlines
  | full => exact report.summary_eq_unlines

theorem newline_notMem_paintFor (sink : Sink) (report : Report) :
    '\n' ∉ (paintFor sink report.firstColour report.firstLine).toList := by
  have plain : '\n' ∉ report.firstLine.toList := by
    unfold firstLine
    split <;> decide
  cases sink with
  | terminal =>
      have escapes :
          '\n' ∉ report.firstColour.escape.toList ∧
            '\n' ∉ Colour.reset.toList := by
        cases report.firstColour <;> decide
      change '\n' ∉ (report.firstColour.paint report.firstLine).toList
      rw [Colour.paint_eq, String.toList_append, String.toList_append]
      exact
        List.not_mem_append (List.not_mem_append escapes.1 plain) escapes.2
  | pipe => exact plain
  | full => exact plain

/-- The lines of a summary are found again on every output. -/
theorem splitOn_summaryFor
    {report : Report} (legible : report.IsLegible) (sink : Sink) :
    (summaryFor sink report).toList.splitOn '\n' =
      (paintFor sink report.firstColour report.firstLine ::
          report.violationPaths.map Path.display).map String.toList ++
        [[]] := by
  rw [summaryFor_eq_unlines, legible.listedPaths_eq]
  apply splitOn_unlines
  rw [List.forall_mem_cons, List.forall_mem_map]
  exact
    ⟨newline_notMem_paintFor sink report, legible.newline_notMem_display⟩

/-- Two summaries on one output are the same when they list the same paths, and
only then. -/
theorem summaryFor_eq_iff
    {left right : Report} (leftLegible : left.IsLegible)
    (rightLegible : right.IsLegible) (sink : Sink) :
    summaryFor sink left = summaryFor sink right ↔
      left.violationPaths = right.violationPaths := by
  constructor
  · intro same
    have sameLines :=
      congrArg (fun text => text.toList.splitOn '\n') same
    simp only [splitOn_summaryFor leftLegible,
      splitOn_summaryFor rightLegible] at sameLines
    have toListInjective : Function.Injective String.toList :=
      fun _ _ => String.toList_injective
    have shown :=
      List.map_injective_iff.2 toListInjective
        (List.append_cancel_right sameLines)
    rw [← leftLegible.map_ofString_display,
      ← rightLegible.map_ofString_display, (List.cons.inj shown).2]
  · intro samePaths
    have sameOk : left.ok = right.ok := by
      have noViolations (report : Report) :
          report.violations = [] ↔ report.violationPaths = [] :=
        List.map_eq_nil_iff.symm
      rw [Bool.eq_iff_iff, leftLegible.ok_iff, rightLegible.ok_iff,
        noViolations, noViolations, samePaths]
    simp only [summaryFor_eq_unlines, firstColour, firstLine, listedPaths,
      sameOk, samePaths]

/-- A summary is read back line by line: it is the line of success, or the line
of failure and behind it exactly the violating paths in their order.  So two
reports have one summary when they list the same paths and only then, on every
output.  A terminal shows any report as a pipe does, but for the escapes around
the text of the first line. -/
theorem summaryFor_shows_violations :
    (∀ report : Report, report.IsLegible →
      ∃ lines : List String,
        lines.map Path.ofString = report.violationPaths ∧
          (summaryFor .pipe report).toList.splitOn '\n' =
            (if report.violations = [] then
                [successLine]
              else
                failureLine :: lines).map String.toList ++ [[]]) ∧
    (∀ left right : Report, left.IsLegible → right.IsLegible →
      ∀ sink,
        summaryFor sink left = summaryFor sink right ↔
          left.violationPaths = right.violationPaths) ∧
    ∀ report : Report, ∃ rest,
      summaryFor .pipe report = report.firstLine ++ "\n" ++ rest ∧
        summaryFor .terminal report =
          report.firstColour.escape ++ report.firstLine ++ Colour.reset ++
            "\n" ++ rest := by
  refine ⟨fun report legible => ?_, ?_, fun report => ?_⟩
  · refine
      ⟨report.violationPaths.map Path.display,
        legible.map_ofString_display, ?_⟩
    rw [splitOn_summaryFor legible]
    by_cases none : report.violations = []
    · have isOk := legible.ok_iff.2 none
      simp [none, paintFor, firstLine, isOk, violationPaths]
    · have notOk : report.ok ≠ true := mt legible.ok_iff.1 none
      simp [none, paintFor, firstLine, notOk]
  · exact fun _ _ => summaryFor_eq_iff
  · refine ⟨unlines (report.listedPaths.map Path.display), ?_, ?_⟩
    · change report.summary = _
      rw [summary_eq_unlines]
      simp [unlines]
    · change report.terminalSummary = _
      rw [terminalSummary_eq_unlines]
      simp [unlines, Colour.paint_eq]

/-- A report with a path that ends in a carriage return and one that spells an
escape, and with given other fields. -/
def escapingReport (root : Path) (processedFiles : Nat) : Report where
  root := root
  processedFiles := processedFiles
  ok := false
  violations :=
    [⟨Path.ofString "lib/größe.cpp\r", .other⟩,
      ⟨Path.ofString "\x1b[0mOK!", .other⟩]

theorem isLegible_escapingReport (root : Path) (processedFiles : Nat) :
    (escapingReport root processedFiles).IsLegible := by
  refine ⟨by simp [escapingReport], ?_⟩
  simp only [escapingReport, violationPaths, List.map_cons, List.map_nil,
    List.forall_mem_cons]
  exact
    ⟨⟨_, Path.text?_ofString _, by decide⟩,
      ⟨_, Path.text?_ofString _, by decide⟩, nofun⟩

/-- The paths are read from the summary, which shows neither the root nor the
number of files. -/
theorem escapingReport_summary :
    (escapingReport (Path.ofString "a") 2).IsLegible ∧
      (escapingReport (Path.ofString "b") 3).IsLegible ∧
      summaryFor .terminal (escapingReport (Path.ofString "a") 2) =
        summaryFor .terminal (escapingReport (Path.ofString "b") 3) ∧
      ∃ lines : List String,
        lines.map Path.ofString =
            ["lib/größe.cpp\r", "\x1b[0mOK!"].map Path.ofString ∧
          (summaryFor .pipe
              (escapingReport (Path.ofString "a") 2)).toList.splitOn '\n' =
            (failureLine :: lines).map String.toList ++ [[]] := by
  have first := isLegible_escapingReport (Path.ofString "a") 2
  have second := isLegible_escapingReport (Path.ofString "b") 3
  obtain ⟨shows, same, _⟩ := summaryFor_shows_violations
  obtain ⟨lines, listed, split⟩ := shows _ first
  exact
    ⟨first, second, (same _ _ first second .terminal).2 rfl, lines, listed,
      split⟩

end Program

end HeaderAudit
