import HeaderAudit.Proofs.CommandLine.Arguments
import HeaderAudit.Proofs.Text.Utf8

namespace HeaderAudit

/-- A value is the path it names, and no path is empty. -/
def NamesPath (value : List UInt8) (path : Path) : Prop :=
  value ≠ [] ∧ value = path.bytes

def SpellsText (value : List UInt8) (text : String) : Prop :=
  value = Utf8.encode text.toList

def NamesFormat (value : List UInt8) (format : Format) : Prop :=
  value = Utf8.encode format.word.toList

/-- A number is written in decimal digits, and a plus may stand before them. -/
def WritesNumber (text : List Char) (number : Nat) : Prop :=
  ∃ digits,
    (text = digits ∨ text = '+' :: digits) ∧
      digits ≠ [] ∧
      (∀ digit ∈ digits, digit.isDigit = true) ∧
      Nat.ofDigitChars 10 digits 0 = number

/-- A depth is a number of 64 bits. -/
def WritesDepth (value : List UInt8) (depth : Nat) : Prop :=
  ∃ text,
    value = Utf8.encode text ∧ WritesNumber text depth ∧ depth < UInt64.size

/-- A value means something to an option. -/
def ValueOption.Accepts (option : ValueOption) (value : List UInt8) : Prop :=
  match option with
  | .root | .includeDir | .includeFile => ∃ path, NamesPath value path
  | .exclude => ∃ text, SpellsText value text
  | .maxDepth => ∃ depth, WritesDepth value depth
  | .format => ∃ format, NamesFormat value format

/-- A text without its plus. -/
def signless : List Char → List Char
  | '+' :: rest => rest
  | text => text

theorem eq_signless_or (text : List Char) :
    text = signless text ∨ text = '+' :: signless text := by
  unfold signless
  split
  · exact Or.inr rfl
  · exact Or.inl rfl

/-- No digit is a plus. -/
theorem signless_of_digits
    {text digits : List Char} (written : text = digits ∨ text = '+' :: digits)
    (allDigits : ∀ digit ∈ digits, digit.isDigit = true) :
    signless text = digits := by
  rcases written with rfl | rfl
  · match text with
    | [] => rfl
    | first :: rest =>
        have isDigit := allDigits first List.mem_cons_self
        have notPlus : first ≠ '+' := by
          rintro rfl
          revert isDigit
          decide
        simp [signless, notPlus]
  · rfl

theorem depthOf?_eq (text : List Char) :
    depthOf? text =
      if signless text ≠ [] ∧ (signless text).all Char.isDigit ∧
          digitsValue (signless text) < depthBound then
        some (digitsValue (signless text))
      else
        none := by
  match text with
  | [] => rfl
  | first :: rest =>
      by_cases plus : first = '+'
      · rw [plus]
        rfl
      · simp [depthOf?, signless, plus]

theorem depthOf?_eq_some_iff {text : List Char} {depth : Nat} :
    depthOf? text = some depth ↔
      WritesNumber text depth ∧ depth < UInt64.size := by
  rw [depthOf?_eq]
  constructor
  · intro found
    obtain ⟨⟨some, allDigits, small⟩, value⟩ :=
      Option.ite_none_right_eq_some.1 found
    cases value
    exact
      ⟨⟨signless text, eq_signless_or text, some,
          List.all_eq_true.1 allDigits, rfl⟩,
        small⟩
  · intro described
    obtain ⟨⟨digits, written, some, allDigits, rfl⟩, small⟩ := described
    rw [signless_of_digits written allDigits]
    exact if_pos ⟨some, List.all_eq_true.2 allDigits, small⟩

namespace Options

/-- The text that a value spells. -/
def textOf? (value : List UInt8) : Option String :=
  (Utf8.decode value).map String.ofList

/-- The depth that a value writes. -/
def depthIn? (value : List UInt8) : Option Nat :=
  (Utf8.decode value).bind depthOf?

/-- The format that a value names. -/
def formatIn? (value : List UInt8) : Option Format :=
  (Utf8.decode value).bind Format.ofText?

/-- A reading finds exactly what a value means. -/
def Reads {item : Type} (read : List UInt8 → Option item)
    (means : List UInt8 → item → Prop) : Prop :=
  ∀ value item, read value = some item ↔ means value item

theorem pathOf?_reads : Reads pathOf? NamesPath := by
  intro value path
  unfold pathOf? NamesPath
  by_cases empty : value = []
  · simp [empty]
  · rw [if_neg empty, Option.some.injEq]
    constructor
    · rintro rfl
      exact ⟨empty, rfl⟩
    · rintro ⟨_, rfl⟩
      rfl

theorem textOf?_reads : Reads textOf? SpellsText := by
  intro value text
  simp only [textOf?, Option.map_eq_some_iff, Utf8.decode_eq_some_iff,
    SpellsText]
  constructor
  · rintro ⟨characters, encoded, rfl⟩
    rw [String.toList_ofList]
    exact encoded
  · intro encoded
    exact ⟨text.toList, encoded, String.ofList_toList⟩

theorem depthIn?_reads : Reads depthIn? WritesDepth := by
  intro value depth
  simp only [depthIn?, Option.bind_eq_some_iff, Utf8.decode_eq_some_iff,
    depthOf?_eq_some_iff, WritesDepth]

theorem formatIn?_reads : Reads formatIn? NamesFormat := by
  intro value format
  simp only [formatIn?, Option.bind_eq_some_iff, Utf8.decode_eq_some_iff,
    NamesFormat]
  constructor
  · rintro ⟨text, rfl, found⟩
    unfold Format.ofText? at found
    split at found
    · rename_i same
      cases found
      exact congrArg Utf8.encode same
    split at found
    · rename_i same
      cases found
      exact congrArg Utf8.encode same
    · cases found
  · intro encoded
    refine ⟨format.word.toList, encoded, ?_⟩
    cases format <;> rfl

section

variable {item : Type} {read : List UInt8 → Option item}
  {means : List UInt8 → item → Prop} {value : List UInt8}

theorem Reads.eq_none
    (reads : Reads read means) (nothing : ¬ ∃ item, means value item) :
    read value = none := by
  apply Option.eq_none_iff_forall_ne_some.2
  intro item found
  exact nothing ⟨item, (reads value item).1 found⟩

theorem Reads.isSome_iff
    (reads : Reads read means) (value : List UInt8) :
    (read value).isSome = true ↔ ∃ item, means value item := by
  rw [Option.isSome_iff_exists]
  exact exists_congr (reads value)

/-- A value that may be given once is refused when it means nothing or another
one was accepted before. -/
theorem Reads.exists_error_of_once
    (reads : Reads read means) {values : List (List UInt8)}
    (accepted : ∀ earlier ∈ values, ∃ item, means earlier item)
    (unfit : ¬ ((∃ item, means value item) ∧ values = [])) :
    ∃ fault,
      once (values.head?.bind read) (read value) = .error fault := by
  cases values with
  | nil =>
      have nothing : ¬ ∃ item, means value item := fun some =>
        unfit ⟨some, rfl⟩
      rw [reads.eq_none nothing]
      exact ⟨_, rfl⟩
  | cons first rest =>
      obtain ⟨item, means⟩ := accepted first List.mem_cons_self
      have found := (reads first item).2 means
      rw [List.head?_cons, Option.bind_some, found]
      exact ⟨_, rfl⟩

end

variable {value : List UInt8}

theorem set_exclude (options : Options) :
    options.set .exclude value =
      match textOf? value with
      | some text =>
          .ok { options with exclude := options.exclude ++ [text] }
      | none => .error .invalidValue := by
  simp only [set, textOf?]
  cases Utf8.decode value <;> rfl

theorem set_maxDepth (options : Options) :
    options.set .maxDepth value =
      (once options.maxDepth (depthIn? value)).map fun depth =>
        { options with maxDepth := depth } :=
  rfl

theorem set_format (options : Options) :
    options.set .format value =
      (once options.format (formatIn? value)).map fun format =>
        { options with format := format } :=
  rfl

end Options

instance (option : ValueOption) (value : List UInt8) :
    Decidable (option.Accepts value) :=
  match option with
  | .root | .includeDir | .includeFile =>
      decidable_of_iff _ (Options.pathOf?_reads.isSome_iff value)
  | .exclude => decidable_of_iff _ (Options.textOf?_reads.isSome_iff value)
  | .maxDepth => decidable_of_iff _ (Options.depthIn?_reads.isSome_iff value)
  | .format => decidable_of_iff _ (Options.formatIn?_reads.isSome_iff value)

end HeaderAudit
