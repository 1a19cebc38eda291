import HeaderAudit.Proofs.Json.RoundTrip
import HeaderAudit.Proofs.Path.Text

/-! A report is recovered from its document by the names of the members,
whatever the layout of the text. -/

namespace HeaderAudit

section Parts

variable {item value : Type} {encode : item → Option value}

theorem exists_mapM_eq_some_iff :
    ∀ {items : List item},
      (∃ values, items.mapM encode = some values) ↔
        ∀ part ∈ items, ∃ given, encode part = some given
  | [] => by simp
  | first :: rest => by
      rw [List.forall_mem_cons, ← exists_mapM_eq_some_iff]
      simp only [List.mapM_cons, Option.bind_eq_bind, Option.bind_eq_some_iff,
        Option.pure_def, Option.some.injEq]
      constructor
      · rintro ⟨_, given, firstGiven, values, restGiven, rfl⟩
        exact ⟨⟨given, firstGiven⟩, values, restGiven⟩
      · rintro ⟨⟨given, firstGiven⟩, values, restGiven⟩
        exact ⟨_, given, firstGiven, values, restGiven, rfl⟩

/-- Parts that are recovered one by one are recovered in their order. -/
theorem mapM_decode
    {decode : value → Option item}
    (recovers : ∀ part given, encode part = some given →
      decode given = some part) :
    ∀ {items : List item} {values : List value},
      items.mapM encode = some values → values.mapM decode = some items
  | [], values, encoded => by
      cases encoded
      rfl
  | first :: rest, values, encoded => by
      simp only [List.mapM_cons, Option.bind_eq_bind, Option.bind_eq_some_iff,
        Option.pure_def, Option.some.injEq] at encoded
      obtain ⟨given, firstGiven, others, restGiven, rfl⟩ := encoded
      rw [List.mapM_cons, recovers first given firstGiven,
        mapM_decode recovers restGiven]
      rfl

end Parts

namespace JsonValue

/-- The value of a member of an object. -/
def member? (name : String) : JsonValue → Option JsonValue
  | .object members => members.lookup name
  | _ => none

/-- The characters of a string. -/
def text? : JsonValue → Option (List Char)
  | .string text => some text
  | _ => none

/-- The number that a value is. -/
def number? : JsonValue → Option Nat
  | .number value => some value
  | _ => none

/-- The truth value that a value is. -/
def bool? : JsonValue → Option Bool
  | .bool value => some value
  | _ => none

/-- The elements of an array. -/
def elements? : JsonValue → Option (List JsonValue)
  | .array elements => some elements
  | _ => none

end JsonValue

/-- The path that a value shows. -/
def Path.ofJson? (value : JsonValue) : Option Path :=
  value.text?.map fun text => ⟨Utf8.encode text⟩

/-- The category with the label that a value shows. -/
def Category.ofJson? (value : JsonValue) : Option Category :=
  value.text?.bind fun text =>
    Category.all.find? fun category => category.label.toList = text

/-- The violation that a value shows. -/
def Violation.ofJson? (value : JsonValue) : Option Violation := do
  let path ← (← value.member? "path") |> Path.ofJson?
  let category ← (← value.member? "category") |> Category.ofJson?
  some ⟨path, category⟩

namespace Report

/-- The report that a value shows. -/
def ofJson? (value : JsonValue) : Option Report := do
  let root ← (← value.member? "root") |> Path.ofJson?
  let processedFiles ← (← value.member? "processed_files").number?
  let ok ← (← value.member? "ok").bool?
  let elements ← (← value.member? "violations").elements?
  let violations ← elements.mapM Violation.ofJson?
  some ⟨root, processedFiles, ok, violations⟩

/-- The report that a document shows. -/
def ofDocument? (document : List Char) : Option Report :=
  (Json.read document).bind ofJson?

end Report

theorem Path.ofJson?_toJson? (path : Path) (value : JsonValue) :
    path.toJson? = some value → Path.ofJson? value = some path := by
  intro encoded
  obtain ⟨text, textEq, rfl⟩ := Option.map_eq_some_iff.1 encoded
  have bytesEq := text?_eq_some_iff.1 textEq
  change some (⟨Utf8.encode text⟩ : Path) = some path
  rw [← bytesEq]

theorem Category.ofJson?_toJson (category : Category) :
    Category.ofJson? category.toJson = some category := by
  cases category <;> decide

theorem Violation.ofJson?_toJson? (violation : Violation) (value : JsonValue) :
    violation.toJson? = some value →
      Violation.ofJson? value = some violation := by
  intro encoded
  obtain ⟨path, pathEncoded, same⟩ := Option.bind_eq_some_iff.1 encoded
  cases same
  have pathRead := Path.ofJson?_toJson? _ _ pathEncoded
  have categoryRead := Category.ofJson?_toJson violation.category
  change (do
    let path ← Path.ofJson? _
    let category ← Category.ofJson? _
    some (⟨path, category⟩ : Violation)) = some violation
  rw [pathRead, categoryRead]
  rfl

namespace Report

theorem ofJson?_toJson? (report : Report) (value : JsonValue) :
    report.toJson? = some value → ofJson? value = some report := by
  intro encoded
  obtain ⟨root, rootEncoded, rest⟩ := Option.bind_eq_some_iff.1 encoded
  obtain ⟨elements, violationsEncoded, same⟩ := Option.bind_eq_some_iff.1 rest
  cases same
  have rootRead := Path.ofJson?_toJson? _ _ rootEncoded
  have violationsRead :=
    mapM_decode Violation.ofJson?_toJson? violationsEncoded
  change (do
    let root ← Path.ofJson? _
    let violations ← elements.mapM Violation.ofJson?
    some (⟨root, report.processedFiles, report.ok, violations⟩ : Report)) =
      some report
  rw [rootRead, violationsRead]
  rfl

end Report

/-- The bytes of a path are text. -/
def Path.IsUtf8 (path : Path) : Prop :=
  ∃ text, path.text? = some text

/-- The root and the violating paths of a report are UTF-8. -/
def Report.IsUtf8 (report : Report) : Prop :=
  report.root.IsUtf8 ∧
    ∀ violation ∈ report.violations, violation.path.IsUtf8

theorem Path.exists_toJson?_iff (path : Path) :
    (∃ value, path.toJson? = some value) ↔ path.IsUtf8 := by
  simp [toJson?, IsUtf8]

theorem Violation.exists_toJson?_iff (violation : Violation) :
    (∃ value, violation.toJson? = some value) ↔ violation.path.IsUtf8 := by
  rw [← Path.exists_toJson?_iff]
  constructor
  · intro ⟨_, encoded⟩
    obtain ⟨path, pathEncoded, -⟩ := Option.bind_eq_some_iff.1 encoded
    exact ⟨path, pathEncoded⟩
  · intro ⟨path, pathEncoded⟩
    exact ⟨_, Option.bind_eq_some_iff.2 ⟨path, pathEncoded, rfl⟩⟩

namespace Report

variable {report : Report}

theorem exists_toJson?_iff :
    (∃ value, report.toJson? = some value) ↔ report.IsUtf8 := by
  have violationsIff :=
    @exists_mapM_eq_some_iff _ _ Violation.toJson? report.violations
  simp only [Violation.exists_toJson?_iff] at violationsIff
  rw [IsUtf8, ← violationsIff, ← Path.exists_toJson?_iff]
  constructor
  · intro ⟨_, encoded⟩
    obtain ⟨root, rootEncoded, rest⟩ := Option.bind_eq_some_iff.1 encoded
    obtain ⟨elements, violationsEncoded, -⟩ := Option.bind_eq_some_iff.1 rest
    exact ⟨⟨root, rootEncoded⟩, elements, violationsEncoded⟩
  · intro ⟨⟨root, rootEncoded⟩, elements, violationsEncoded⟩
    rw [toJson?, rootEncoded, violationsEncoded]
    exact ⟨_, rfl⟩

theorem exists_document_iff :
    (∃ document, report.document? = some document) ↔ report.IsUtf8 := by
  rw [← exists_toJson?_iff]
  simp [document?]

/-- The document of a report is one of the grammar, and shows the report. -/
theorem of_document?
    {document : String} (written : report.document? = some document) :
    ∃ text, document.toList = text ++ ['\n'] ∧ Json.IsDocument text ∧
      ofDocument? document.toList = some report := by
  obtain ⟨value, encoded, rfl⟩ := Option.map_eq_some_iff.1 written
  have newline : Json.AreBlank ['\n'] := List.forall_mem_singleton.2 rfl
  refine
    ⟨value.write 0, String.toList_ofList, Json.isDocument_write value 0, ?_⟩
  rw [String.toList_ofList, ofDocument?, Json.read_write value 0 newline]
  exact ofJson?_toJson? report value encoded

end Report

end HeaderAudit
