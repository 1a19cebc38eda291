import HeaderAudit.CommandLine.Program
import HeaderAudit.Proofs.Report.Document

namespace HeaderAudit.Console

/-- Every write is accepted. -/
structure Accepts (console : Console) : Prop where
  roomy : console.sink ≠ .full
  intact : console.broken = false

variable {console : Console}

theorem Accepts.write_eq (accepts : console.Accepts) (text : String) :
    console.write text =
      { console with written := console.written ++ text } := by
  have roomy := accepts.roomy
  simp only [write, accepts.intact, Bool.false_eq_true, if_false]

theorem Accepts.write (accepts : console.Accepts) (text : String) :
    (console.write text).Accepts := by
  rw [accepts.write_eq]
  exact ⟨accepts.roomy, accepts.intact⟩

theorem Accepts.writeDocument_eq
    (accepts : console.Accepts) {report : Report} {document : String}
    (shown : report.document? = some document) :
    console.writeDocument report =
      (.ok (), { console with written := console.written ++ document }) := by
  simp only [writeDocument, shown, accepts.write_eq, accepts.intact,
    Bool.false_eq_true, if_false]

theorem writeDocument_of_not_isUtf8
    {report : Report} (unwritable : ¬ report.IsUtf8) :
    console.writeDocument report = (.error .unwritablePath, console) := by
  have nothing : report.document? = none :=
    Option.eq_none_iff_forall_ne_some.2 fun document shown =>
      unwritable (Report.exists_document_iff.1 ⟨document, shown⟩)
  simp only [writeDocument, nothing]

/-- Writing a document succeeds exactly for the reports that are UTF-8.  What is
written then is JSON with a newline behind it, and no other report is written
like that; otherwise nothing is written. -/
theorem writeDocument_shows_report
    (accepts : console.Accepts) (report : Report) :
    ((console.writeDocument report).1 = .ok () ↔ report.IsUtf8) ∧
      (¬ report.IsUtf8 →
        console.writeDocument report = (.error .unwritablePath, console)) ∧
      (report.IsUtf8 →
        ∃ text document,
          document = String.ofList (text ++ ['\n']) ∧
            Json.IsDocument text ∧
            console.writeDocument report =
              (.ok (),
                { console with written := console.written ++ document }) ∧
            Report.ofDocument? document.toList = some report ∧
            ∀ other,
              console.writeDocument other = console.writeDocument report →
                other = report) := by
  by_cases writable : report.IsUtf8
  · obtain ⟨document, shown⟩ := Report.exists_document_iff.2 writable
    obtain ⟨text, split, isDocument, recovered⟩ := Report.of_document? shown
    have written := accepts.writeDocument_eq shown
    rw [written]
    refine ⟨iff_of_true rfl writable, absurd writable, fun _ => ?_⟩
    refine ⟨text, document, ?_, isDocument, rfl, recovered, ?_⟩
    · rw [← split, String.ofList_toList]
    intro other same
    by_cases otherWritable : other.IsUtf8
    · obtain ⟨otherDocument, otherShown⟩ :=
        Report.exists_document_iff.2 otherWritable
      rw [accepts.writeDocument_eq otherShown] at same
      have sameText :
          console.written ++ otherDocument = console.written ++ document :=
        congrArg (fun result => result.2.written) same
      have sameDocument : otherDocument = document :=
        String.toList_injective
          (by simpa using congrArg String.toList sameText)
      obtain ⟨_, _, _, otherRecovered⟩ := Report.of_document? otherShown
      rw [sameDocument, recovered] at otherRecovered
      exact (Option.some.inj otherRecovered).symm
    · rw [writeDocument_of_not_isUtf8 otherWritable] at same
      cases congrArg Prod.fst same
  · rw [writeDocument_of_not_isUtf8 writable]
    exact ⟨iff_of_false nofun writable, fun _ => rfl, (absurd · writable)⟩

/-- A report whose paths hold a quote, a backslash, a newline, a control
character and letters outside of ASCII. -/
def quotedReport : Report where
  root := Path.ofString "a \"root\"\\"
  processedFiles := 18446744073709551615
  ok := false
  violations :=
    [⟨Path.ofString "lib/\x01\n.cpp", .compiledSource⟩,
      ⟨Path.ofString "lib/größe.py", .script⟩]

theorem isUtf8_quotedReport : quotedReport.IsUtf8 := by
  refine ⟨⟨_, Path.text?_ofString _⟩, ?_⟩
  simp only [quotedReport, List.forall_mem_cons]
  exact ⟨⟨_, Path.text?_ofString _⟩, ⟨_, Path.text?_ofString _⟩, nofun⟩

theorem quotedReport_written :
    ({ sink := .pipe } : Console).Accepts ∧
      ∃ console,
        ({ sink := .pipe } : Console).writeDocument quotedReport =
            (.ok (), console) ∧
          Report.ofDocument? console.written.toList = some quotedReport := by
  have accepts : ({ sink := .pipe } : Console).Accepts := ⟨nofun, rfl⟩
  obtain ⟨_, document, _, _, written, recovered, _⟩ :=
    (writeDocument_shows_report accepts quotedReport).2.2 isUtf8_quotedReport
  refine ⟨accepts, _, written, ?_⟩
  rw [String.empty_append]
  exact recovered

end HeaderAudit.Console
