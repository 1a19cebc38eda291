import HeaderAudit.Path.Basic

/-! Paths are compared component by component and not byte by byte, so
everything below one directory stands together. -/

namespace HeaderAudit

namespace Component

/-- The place of a component's kind in the order. -/
def rank : Component → Nat
  | .root => 0
  | .here => 1
  | .up => 2
  | .name _ => 3

/-- The bytes that tell components of one kind apart. -/
def label : Component → List UInt8
  | .name bytes => bytes
  | _ => []

instance : Ord Component where
  compare := compareLex (compareOn rank) (compareOn label)

end Component

instance : Ord Path where
  compare := compareOn Path.components

end HeaderAudit
