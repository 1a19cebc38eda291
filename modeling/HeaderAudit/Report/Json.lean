import HeaderAudit.Report.Basic

/-! A document is written with two blanks for each level, one member or element
to a line, and an empty array on one line. A path that is not UTF-8 has no
document. -/

namespace HeaderAudit

/-- The values that documents are made of. -/
inductive JsonValue where
  | bool (value : Bool)
  | number (value : Nat)
  | string (value : List Char)
  | array (elements : List JsonValue)
  | object (members : List (String × JsonValue))

namespace JsonValue

/-- A hexadecimal digit. -/
def hexDigit (value : Nat) : Char :=
  if value < 10 then Char.ofNat (48 + value) else Char.ofNat (87 + value)

/-- A character inside the quotes of a string. -/
def escape (char : Char) : List Char :=
  if char = '"' then
    ['\\', '"']
  else if char = '\\' then
    ['\\', '\\']
  else if char = '\x08' then
    ['\\', 'b']
  else if char = '\t' then
    ['\\', 't']
  else if char = '\n' then
    ['\\', 'n']
  else if char = '\x0c' then
    ['\\', 'f']
  else if char = '\r' then
    ['\\', 'r']
  else if char.toNat < 32 then
    ['\\', 'u', '0', '0', hexDigit (char.toNat / 16),
      hexDigit (char.toNat % 16)]
  else
    [char]

/-- A string with its quotes. -/
def quote (text : List Char) : List Char :=
  '"' :: text.flatMap escape ++ ['"']

/-- The beginning of a line at a level. -/
def indent (level : Nat) : List Char :=
  '\n' :: List.replicate (2 * level) ' '

/-- Items on lines of their own, between two brackets. -/
def block (level : Nat) (opening closing : Char) (items : List (List Char)) :
    List Char :=
  if items.isEmpty then
    [opening, closing]
  else
    opening ::
      [','].intercalate (items.map (indent (level + 1) ++ ·)) ++
        indent level ++ [closing]

mutual

/-- The text of a value at a level. -/
def write (level : Nat) : JsonValue → List Char
  | .bool value => (if value then "true" else "false").toList
  | .number value => (toString value).toList
  | .string value => quote value
  | .array elements => block level '[' ']' (writeAll (level + 1) elements)
  | .object members =>
      block level '\x7b' '\x7d' (writeMembers (level + 1) members)

/-- The texts of elements at a level. -/
def writeAll (level : Nat) : List JsonValue → List (List Char)
  | [] => []
  | element :: rest => write level element :: writeAll level rest

/-- The texts of members at a level. -/
def writeMembers (level : Nat) : List (String × JsonValue) → List (List Char)
  | [] => []
  | (key, value) :: rest =>
      (quote key.toList ++ ": ".toList ++ write level value) ::
        writeMembers level rest

end

end JsonValue

/-- A category as a value. -/
def Category.toJson (category : Category) : JsonValue :=
  .string category.label.toList

/-- A path as a value. -/
def Path.toJson? (path : Path) : Option JsonValue :=
  path.text?.map .string

/-- A violation as a value. -/
def Violation.toJson? (violation : Violation) : Option JsonValue := do
  let path ← violation.path.toJson?
  pure (.object [("path", path), ("category", violation.category.toJson)])

namespace Report

/-- A report as a value. -/
def toJson? (report : Report) : Option JsonValue := do
  let root ← report.root.toJson?
  let violations ← report.violations.mapM Violation.toJson?
  pure <| .object
    [("root", root), ("processed_files", .number report.processedFiles),
      ("ok", .bool report.ok), ("violations", .array violations)]

/-- The document of a report, with a newline at its end. -/
def document? (report : Report) : Option String :=
  report.toJson?.map fun value => String.ofList (value.write 0 ++ ['\n'])

end Report

end HeaderAudit
