import HeaderAudit.FileTree.Edit
import HeaderAudit.Main
import HeaderAudit.Proofs.Path.Components
import HeaderAudit.Proofs.Path.Join
import HeaderAudit.Proofs.FileTree.Leads
import HeaderAudit.Proofs.FileTree.Spelling
import HeaderAudit.Proofs.OrderedSet
import HeaderAudit.Proofs.Path.Order
import HeaderAudit.Proofs.Steps
import HeaderAudit.Proofs.Walk
import HeaderAudit.Proofs.Candidates
import HeaderAudit.Proofs.Audit.Verdict
import HeaderAudit.Proofs.Audit.Run
import HeaderAudit.Proofs.Audit.Unchanged
import HeaderAudit.Proofs.Walk.Ends
import HeaderAudit.Proofs.Text.Utf8
import HeaderAudit.Proofs.Wildcard.Acceptance
import HeaderAudit.Proofs.Wildcard.Search
import HeaderAudit.Proofs.Exclusion.Meaning
import HeaderAudit.Proofs.Category
import HeaderAudit.Proofs.Header.Pattern
import HeaderAudit.Proofs.CommandLine.Human
import HeaderAudit.Proofs.Audit.Quiet
import HeaderAudit.Proofs.CommandLine.Arguments
import HeaderAudit.Proofs.CommandLine.Delivery
import HeaderAudit.Proofs.CommandLine.Formats
import HeaderAudit.Proofs.CommandLine.NoRoom
import HeaderAudit.Proofs.Candidates.Shape
import HeaderAudit.Proofs.Report.HintedCategories
import HeaderAudit.Proofs.Audit.Repair
import HeaderAudit.Proofs.Audit.Contents
import HeaderAudit.Proofs.Audit.Reordered
import HeaderAudit.Proofs.Candidates.Included
import HeaderAudit.Proofs.Audit.Included
import HeaderAudit.Proofs.Candidates.Excluded
import HeaderAudit.Proofs.Audit.Excluded
import HeaderAudit.Proofs.Candidates.Failures
import HeaderAudit.Proofs.Candidates.Narrowed
import HeaderAudit.Proofs.Audit.LinkFree
import HeaderAudit.Proofs.Audit.Rerooted
import HeaderAudit.Proofs.Text.Malformed
import HeaderAudit.Proofs.Audit.Bytes
import HeaderAudit.Proofs.Category.Resolution
import HeaderAudit.Proofs.OrderedSet.Classes
import HeaderAudit.Proofs.Path.Lexicographic
import HeaderAudit.Proofs.Report.Violations
import HeaderAudit.Proofs.Exclusion.Usable
import HeaderAudit.Proofs.Wildcard.Reading
import HeaderAudit.Proofs.Wildcard.Plain
import HeaderAudit.Proofs.Wildcard.Slashes
import HeaderAudit.Proofs.Exclusion.Dotted
import HeaderAudit.Proofs.Audit.OwnName
import HeaderAudit.Proofs.Header.Relations
import HeaderAudit.Proofs.Notice
import HeaderAudit.Proofs.Notice.Damaged
import HeaderAudit.Proofs.FileTree.NormalForm
import HeaderAudit.Proofs.CommandLine.Gathered
import HeaderAudit.Proofs.CommandLine.Summary
import HeaderAudit.Proofs.CommandLine.Configured
