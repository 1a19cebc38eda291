import HeaderAudit.Proofs.Category
import HeaderAudit.Proofs.Path.Respelled
import Mathlib.Data.List.Basic

/-! Each governed category asks something of the last component that no other
one allows, so the questions can be asked in any order. -/

namespace HeaderAudit

namespace Category

/-- The name is one that the files of the category have. -/
def IsNamed : Category → List Char → Prop
  | .compiledSource, name => compiledSourceSuffix.toList <:+ name
  | .header, name => headerSuffix.toList <:+ name
  | .script, name => scriptSuffix.toList <:+ name
  | .buildConfig, name => name = buildConfigName.toList
  | .other, _ => False

instance (category : Category) (name : List Char) :
    Decidable (category.IsNamed name) :=
  match category with
  | .compiledSource => inferInstanceAs (Decidable (_ <:+ _))
  | .header => inferInstanceAs (Decidable (_ <:+ _))
  | .script => inferInstanceAs (Decidable (_ <:+ _))
  | .buildConfig => inferInstanceAs (Decidable (_ = _))
  | .other => inferInstanceAs (Decidable False)

/-- What the names of the category end with. -/
def ending : Category → String
  | .compiledSource => compiledSourceSuffix
  | .header => headerSuffix
  | .script => scriptSuffix
  | .buildConfig => buildConfigName
  | .other => ""

theorem IsNamed.ends
    {category : Category} {name : List Char}
    (named : category.IsNamed name) :
    category.ending.toList <:+ name := by
  cases category with
  | compiledSource => exact named
  | header => exact named
  | script => exact named
  | buildConfig => exact named ▸ List.suffix_rfl
  | other => exact named.elim

theorem IsNamed.isGoverned
    {category : Category} {name : List Char}
    (named : category.IsNamed name) :
    category.isGoverned = true := by
  cases category with
  | other => exact named.elim
  | _ => rfl

theorem eq_of_ending_suffix
    {left right : Category}
    (leftGoverned : left.isGoverned = true)
    (rightGoverned : right.isGoverned = true)
    (ends : left.ending.toList <:+ right.ending.toList) :
    left = right := by
  revert leftGoverned rightGoverned ends
  cases left <;> cases right <;> decide

/-- No name is one of two categories. -/
theorem IsNamed.unique
    {left right : Category} {name : List Char}
    (leftNamed : left.IsNamed name) (rightNamed : right.IsNamed name) :
    left = right := by
  have leftGoverned := leftNamed.isGoverned
  have rightGoverned := rightNamed.isGoverned
  rcases List.suffix_or_suffix_of_suffix leftNamed.ends rightNamed.ends
    with ends | ends
  · exact eq_of_ending_suffix leftGoverned rightGoverned ends
  · exact (eq_of_ending_suffix rightGoverned leftGoverned ends).symm

theorem isNamed_ofName (name : List Char) :
    (ofName name).IsNamed name ∨
      ofName name = .other ∧
        ∀ category : Category, ¬ category.IsNamed name := by
  unfold ofName
  split
  · rename_i ends
    exact Or.inl (List.isSuffixOf_iff_suffix.1 ends)
  rename_i notSource
  split
  · rename_i ends
    exact Or.inl (List.isSuffixOf_iff_suffix.1 ends)
  rename_i notHeader
  split
  · rename_i ends
    exact Or.inl (List.isSuffixOf_iff_suffix.1 ends)
  rename_i notScript
  split
  · rename_i same
    exact Or.inl same
  rename_i notBuild
  refine Or.inr ⟨rfl, fun category named => ?_⟩
  simp only [List.isSuffixOf_iff_suffix] at notSource notHeader notScript
  cases category with
  | compiledSource => exact notSource named
  | header => exact notHeader named
  | script => exact notScript named
  | buildConfig => exact notBuild named
  | other => exact named

theorem ofName_eq_iff
    {category : Category} {name : List Char}
    (governed : category.isGoverned = true) :
    ofName name = category ↔ category.IsNamed name := by
  rcases isNamed_ofName name with named | ⟨isOther, notNamed⟩
  · constructor
    · rintro rfl
      exact named
    · exact named.unique
  · rw [isOther]
    apply iff_of_false _ (notNamed category)
    rintro rfl
    cases governed

/-- Asked in any order, the governed categories give the same answer. -/
theorem find?_isNamed
    {questions : List Category}
    (reordered : questions.Perm (all.filter isGoverned)) (name : List Char) :
    (questions.find? (·.IsNamed name)).getD .other = ofName name := by
  cases found : questions.find? (·.IsNamed name) with
  | some category =>
      have named : category.IsNamed name := by
        simpa using List.find?_some found
      exact ((ofName_eq_iff named.isGoverned).2 named).symm
  | none =>
      rcases isNamed_ofName name with named | ⟨isOther, _⟩
      · have member : ofName name ∈ questions := by
          rw [reordered.mem_iff, List.mem_filter]
          exact ⟨by cases ofName name <;> decide, named.isGoverned⟩
        have notNamed := List.find?_eq_none.1 found _ member
        exact absurd (decide_eq_true named) notNamed
      · exact isOther.symm

theorem bind_decode_eq_some_iff {path : Path} {name : List Char} :
    path.fileName?.bind Utf8.decode = some name ↔
      path.components.getLast? = some (.name (Utf8.encode name)) := by
  simp only [Option.bind_eq_some_iff, Path.fileName?_eq_some_iff,
    Utf8.decode_eq_some_iff]
  constructor
  · rintro ⟨_, last, rfl⟩
    exact last
  · intro last
    exact ⟨_, last, rfl⟩

theorem ofPath_eq_iff
    {path : Path} {category : Category}
    (governed : category.isGoverned = true) :
    ofPath path = category ↔
      ∃ name,
        path.components.getLast? = some (.name (Utf8.encode name)) ∧
          category.IsNamed name := by
  simp only [← bind_decode_eq_some_iff]
  unfold ofPath
  cases path.fileName?.bind Utf8.decode with
  | some name => simp [ofName_eq_iff governed]
  | none =>
      refine iff_of_false ?_ (by simp)
      rintro rfl
      cases governed

theorem ofName_eq_other_iff {name : List Char} :
    ofName name = .other ↔ ∀ category : Category, ¬ category.IsNamed name := by
  rcases isNamed_ofName name with named | ⟨isOther, notNamed⟩
  · apply iff_of_false
    · intro isOther
      rw [isOther] at named
      exact named
    · intro notNamed
      exact notNamed _ named
  · exact iff_of_true isOther notNamed

theorem ofPath_eq_other_iff {path : Path} :
    ofPath path = .other ↔
      ∀ name, path.components.getLast? = some (.name (Utf8.encode name)) →
        ∀ category : Category, ¬ category.IsNamed name := by
  simp only [← bind_decode_eq_some_iff]
  unfold ofPath
  cases path.fileName?.bind Utf8.decode with
  | some name => simp [ofName_eq_other_iff]
  | none => simp

-- A path that does not end with a name is not governed.
example :
    ∀ text ∈ ["", "/", ".", "a.cpp/.."],
      ofPath (Path.ofString text) = .other := by
  decide

theorem ofPath_congr
    {left right : Path}
    (sameLast : left.components.getLast? = right.components.getLast?) :
    ofPath left = ofPath right := by
  have sameName : left.fileName? = right.fileName? := by
    simp only [Path.fileName?, sameLast]
  simp only [ofPath, sameName]

/-- The dot at the beginning of a path is no name. -/
theorem getLast?_components_eq_name_iff {path : Path} {name : List UInt8} :
    path.components.getLast? = some (.name name) ↔
      path.moves.getLast? = some (.name name) := by
  rw [Path.moves_eq, Path.components_eq, List.getLast?_append,
    List.getLast?_append]
  cases path.innerComponents.getLast? with
  | some last => rfl
  | none =>
      unfold Path.lead
      split
      · rfl
      · split <;> simp

theorem ofPath_congr_of_moves
    {left right : Path}
    (sameLast : left.moves.getLast? = right.moves.getLast?) :
    ofPath left = ofPath right := by
  have sameName : left.fileName? = right.fileName? := by
    apply Option.ext
    intro name
    rw [Path.fileName?_eq_some_iff, Path.fileName?_eq_some_iff,
      getLast?_components_eq_name_iff, getLast?_components_eq_name_iff,
      sameLast]
  simp only [ofPath, sameName]

/-- A path that moves nowhere names the directory that it is joined to, and
every other path keeps its category below a directory. -/
theorem ofPath_join (directory path : Path) :
    ofPath (directory.join path) =
      if path.moves = [] then ofPath directory else ofPath path := by
  cases absolute : path.isAbsolute with
  | true =>
      have notEmpty : path.moves ≠ [] :=
        List.ne_nil_of_mem (path.root_mem_moves_iff.2 absolute)
      rw [Path.join_of_absolute directory absolute, if_neg notEmpty]
  | false =>
      have moves : (directory.join path).moves = _ := Path.moves_join absolute
      split
      · rename_i nowhere
        apply ofPath_congr_of_moves
        rw [moves, nowhere, List.append_nil]
      · rename_i somewhere
        apply ofPath_congr_of_moves
        rw [moves, List.getLast?_append_of_ne_nil _ somewhere]

/-- The last component alone decides the category.  It has to be a name that is
UTF-8 and meets what the category asks, no name meets what two categories ask,
and the order in which they are asked does not matter.  Directories before the
path change nothing as long as the path moves somewhere, and two spellings of
the same components have one category. -/
theorem ofPath_by_last_component (path : Path) :
    (∀ other : Path,
      path.components.getLast? = other.components.getLast? →
        ofPath path = ofPath other) ∧
    (∀ category : Category,
      category ≠ .other →
        (ofPath path = category ↔
          ∃ name,
            path.components.getLast? = some (.name (Utf8.encode name)) ∧
              category.IsNamed name)) ∧
    (ofPath path = .other ↔
      ∀ name, path.components.getLast? = some (.name (Utf8.encode name)) →
        ∀ category : Category, ¬ category.IsNamed name) ∧
    (∀ (name : List Char) (left right : Category),
      left.IsNamed name → right.IsNamed name → left = right) ∧
    (∀ questions : List Category,
      questions.Perm (all.filter isGoverned) → ∀ name,
        ofName name = (questions.find? (·.IsNamed name)).getD .other) ∧
    (∀ directory : Path,
      ofPath (directory.join path) =
        if path.moves = [] then ofPath directory else ofPath path) ∧
    (∀ other : Path,
      path.components = other.components → ofPath path = ofPath other) ∧
    ∀ other : Path, path.Respelled other → ofPath path = ofPath other := by
  refine
    ⟨fun _ => ofPath_congr, ?_, ofPath_eq_other_iff,
      fun _ _ _ => IsNamed.unique, ?_, fun directory => ofPath_join _ _,
      ?_, ?_⟩
  · intro category notOther
    exact ofPath_eq_iff (isGoverned_iff.2 notOther)
  · intro questions reordered name
    exact (find?_isNamed reordered name).symm
  · intro other same
    exact ofPath_congr (congrArg List.getLast? same)
  · intro other respelled
    exact ofPath_congr (congrArg List.getLast? respelled.components_eq)

/-- Below a directory, in any spelling, a script keeps its category, and
without a name of its own a path has that of the directory. -/
theorem ofPath_below_sources :
    ofPath ((Path.ofString "lib.cpp//").join (Path.ofString "run.py")) =
        .script ∧
      ofPath ((Path.ofString "lib.cpp//").join (Path.ofString "./")) =
        .compiledSource ∧
      ofPath (Path.ofString "lib.cpp/run.py/.") = .script := by
  have script := ofPath_by_last_component (Path.ofString "run.py")
  have nothing := ofPath_by_last_component (Path.ofString "./")
  have sources := ofPath_by_last_component (Path.ofString "lib.cpp//")
  have closed := ofPath_by_last_component (Path.ofString "lib.cpp/run.py/.")
  have isScript : IsNamed .script "run.py".toList := by decide
  have isSource : IsNamed .compiledSource "lib.cpp".toList := by decide
  refine ⟨?_, ?_, ?_⟩
  · rw [script.2.2.2.2.2.1, if_neg (by decide)]
    exact (script.2.1 .script nofun).2 ⟨_, by decide, isScript⟩
  · rw [nothing.2.2.2.2.2.1, if_pos (by decide)]
    exact (sources.2.1 .compiledSource nofun).2 ⟨_, by decide, isSource⟩
  · exact (closed.2.1 .script nofun).2 ⟨_, by decide, isScript⟩

/-- A directory before a lone dot does change something. -/
theorem ofPath_join_dot :
    ofPath (Path.ofString ".") = .other ∧
      ofPath ((Path.ofString "a.cpp").join (Path.ofString ".")) =
        .compiledSource := by
  decide

end Category

end HeaderAudit
