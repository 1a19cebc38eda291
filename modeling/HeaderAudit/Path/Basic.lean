import HeaderAudit.Text.Utf8

/-! A path is a byte sequence, kept as it was spelled. Repeated slashes and
slashes at the end mean nothing, and a dot is a component only as the first one
of a relative path. What a path leads to is decided by a lookup. -/

namespace HeaderAudit

/-- A path as it was spelled. -/
structure Path where
  bytes : List UInt8
  deriving DecidableEq, Repr

/-- One component of a path. -/
inductive Component where
  | root
  | here
  | up
  | name (bytes : List UInt8)
  deriving DecidableEq, Repr

/-- The byte between two components. -/
def slash : UInt8 := 0x2F

/-- The byte of the components `.` and `..`. -/
def dot : UInt8 := 0x2E

namespace Component

/-- The component of the text between two slashes.  Nothing and a single dot
leave the path where it is. -/
def ofPiece? (piece : List UInt8) : Option Component :=
  if piece = [] ∨ piece = [dot] then
    none
  else if piece = [dot, dot] then
    some .up
  else
    some (.name piece)

/-- The spelling of a component.  The root is spelled by the slash after it. -/
def piece : Component → List UInt8
  | .root => []
  | .here => [dot]
  | .up => [dot, dot]
  | .name bytes => bytes

end Component

namespace Path

/-- The path with the given text. -/
def ofString (text : String) : Path :=
  ⟨Utf8.encode text.toList⟩

/-- The text of a path that is UTF-8. -/
def text? (path : Path) : Option (List Char) :=
  Utf8.decode path.bytes

/-- A readable form of any path. -/
def display (path : Path) : String :=
  String.ofList (Utf8.decodeLossy path.bytes)

/-- An absolute path begins with a slash. -/
def isAbsolute (path : Path) : Bool :=
  path.bytes.head? == some slash

/-- The texts between the slashes of a path. -/
def pieces (path : Path) : List (List UInt8) :=
  path.bytes.splitOn slash

/-- The component that only the beginning of a path can have. -/
def lead (path : Path) : List Component :=
  if path.isAbsolute then
    [.root]
  else if path.pieces.head? = some [dot] then
    [.here]
  else
    []

/-- The components of a path. -/
def components (path : Path) : List Component :=
  path.lead ++ path.pieces.filterMap Component.ofPiece?

/-- The path that spells the components with single slashes. -/
def ofComponents : List Component → Path
  | .root :: rest => ⟨slash :: [slash].intercalate (rest.map Component.piece)⟩
  | components => ⟨[slash].intercalate (components.map Component.piece)⟩

/-- Two spellings of one list of components. -/
def isSame (left right : Path) : Bool :=
  left.components == right.components

/-- The spelling without dots, repeated slashes and slashes at the end. -/
def normalForm (path : Path) : Path :=
  ofComponents (path.components.filter (· ≠ .here))

/-- The last component, when it is a name. -/
def fileName? (path : Path) : Option (List UInt8) :=
  match path.components.getLast? with
  | some (.name bytes) => some bytes
  | _ => none

/-- The path below a base.  An absolute path stands for itself. -/
def join (base path : Path) : Path :=
  if path.isAbsolute then
    path
  else if base.bytes = [] ∨ base.bytes.getLast? = some slash then
    ⟨base.bytes ++ path.bytes⟩
  else
    ⟨base.bytes ++ slash :: path.bytes⟩

/-- The components after those of a base, or all of them when the path does
not begin with the base. -/
def relativeTo (base path : Path) : Path :=
  ofComponents <|
    (base.components.isPrefixOf? path.components).getD path.components

end Path

end HeaderAudit
