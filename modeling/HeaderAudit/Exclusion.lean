import HeaderAudit.Path.Basic
import HeaderAudit.Wildcard.Acceptance

/-! Every entry counts twice: as a path, which excludes itself in any spelling,
and as a pattern for the whole text of a path. -/

namespace HeaderAudit

/-- An exclusion list, ready to be applied. -/
structure Exclusion where
  literals : List Path
  patterns : List (List Wildcard.Token)
  deriving DecidableEq, Repr

namespace Exclusion

/-- An entry that is not a pattern. -/
structure BadEntry where
  entry : String
  cause : Wildcard.SyntaxError
  deriving DecidableEq, Repr

/-- The pattern of an entry. -/
def patternOf (entry : String) : Except BadEntry (List Wildcard.Token) :=
  (Wildcard.parse entry.toList).mapError fun cause => ⟨entry, cause⟩

/-- The exclusion list with these entries. -/
def ofEntries (entries : List String) : Except BadEntry Exclusion := do
  let patterns ← entries.mapM patternOf
  pure ⟨entries.map fun entry => (Path.ofString entry).normalForm, patterns⟩

/-- The list excludes the path.  A path that is not UTF-8 is excluded by no
pattern. -/
def excludes (exclusion : Exclusion) (path : Path) : Bool :=
  exclusion.literals.any (·.isSame path) ||
    match path.text? with
    | some text => exclusion.patterns.any (Wildcard.accepts · text)
    | none => false

end Exclusion

end HeaderAudit
