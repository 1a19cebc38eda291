import HeaderAudit.Proofs.Exclusion
import HeaderAudit.Proofs.Wildcard.Scan

namespace HeaderAudit

namespace Exclusion

/-- A list can be used exactly when the scan of every entry, outside of its
classes, finds no three stars in a row, no two stars that share a component
and no bracket that is not closed.  Otherwise it names the entry where a scan
finds one and before which none does. -/
theorem ofEntries_by_scan (entries : List String) :
    ((∃ exclusion, ofEntries entries = .ok exclusion) ↔
      ∀ entry ∈ entries, Wildcard.IsReadable entry.toList) ∧
    ∀ entry,
      (∃ cause, ofEntries entries = .error ⟨entry, cause⟩) ↔
        ∃ before after,
          entries = before ++ entry :: after ∧
            (∀ earlier ∈ before, Wildcard.IsReadable earlier.toList) ∧
              ¬ Wildcard.IsReadable entry.toList := by
  refine ⟨?_, fun entry => ?_⟩
  · simp only [exists_ofEntries_iff, Wildcard.exists_parse_iff]
  · simp only [ofEntries_eq_error_iff, ← Wildcard.exists_parse_iff,
      ← exists_error_iff]
    constructor
    · rintro ⟨cause, before, after, split, fine, failed⟩
      exact ⟨before, after, split, fine, cause, failed⟩
    · rintro ⟨before, after, split, fine, cause, failed⟩
      exact ⟨cause, before, after, split, fine, failed⟩

end Exclusion

end HeaderAudit
