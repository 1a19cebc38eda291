import HeaderAudit.Proofs.Json.Reader

/-! What the writer writes for a value, the reader reads as that value,
whatever the level it is written at. -/

namespace HeaderAudit

namespace Json

open JsonValue

theorem skipBlanks_append
    {blanks : List Char} (blank : AreBlank blanks) (text : List Char) :
    skipBlanks (blanks ++ text) = skipBlanks text :=
  List.dropWhile_append_of_pos blank

theorem skipBlanks_cons
    {token : Char} (meant : isBlank token = false) (rest : List Char) :
    skipBlanks (token :: rest) = token :: rest :=
  List.dropWhile_cons_of_neg (by simp [meant])

theorem areBlank_indent (level : Nat) : AreBlank (indent level) := by
  intro char member
  rcases List.mem_cons.1 member with rfl | space
  · rfl
  · rw [List.eq_of_mem_replicate space]
    rfl

theorem codedChar?_hexDigits :
    ∀ code < 32,
      codedChar?
          ['0', '0', hexDigit (code / 16),
            hexDigit (code % 16)] =
        some (Char.ofNat code) := by
  decide

/-- The characters that have a letter of their own behind a backslash. -/
def lettered : List Char :=
  ['"', '\\', '\x08', '\t', '\n', '\x0c', '\r']

theorem readQuoted_escape_of_lettered (rest : List Char) :
    ∀ char ∈ lettered,
      readQuoted (escape char ++ rest) =
        before? (some char) (readQuoted rest) := by
  simp only [lettered, List.forall_mem_cons]
  exact ⟨rfl, rfl, rfl, rfl, rfl, rfl, rfl, nofun⟩

theorem escape_of_notMem_lettered {char : Char} (other : char ∉ lettered) :
    escape char =
      if char.toNat < 32 then
        ['\\', 'u', '0', '0', hexDigit (char.toNat / 16),
          hexDigit (char.toNat % 16)]
      else
        [char] := by
  simp only [lettered, List.mem_cons, List.not_mem_nil, or_false, not_or]
    at other
  simp [escape, other]

theorem readQuoted_escape (char : Char) (rest : List Char) :
    readQuoted (escape char ++ rest) =
      before? (some char) (readQuoted rest) := by
  by_cases special : char ∈ lettered
  · exact readQuoted_escape_of_lettered rest char special
  rw [escape_of_notMem_lettered special]
  by_cases control : char.toNat < 32
  · have coded := codedChar?_hexDigits char.toNat control
    rw [Char.ofNat_toNat] at coded
    rw [if_pos control, ← coded]
    rfl
  · have notQuote : char ≠ '"' := by
      rintro rfl
      exact special (by decide)
    have notBackslash : char ≠ '\\' := by
      rintro rfl
      exact special (by decide)
    rw [if_neg control, List.singleton_append, readQuoted]
    · rw [if_pos ⟨Nat.le_of_not_lt control, notBackslash⟩]
    · exact notQuote
    · intro _ _ _ _ _ same
      exact (notBackslash same).elim
    · intro _ _ same
      exact (notBackslash same).elim

theorem readQuoted_flatMap_escape (text rest : List Char) :
    readQuoted (text.flatMap escape ++ '"' :: rest) =
      some (text, rest) := by
  induction text with
  | nil => rfl
  | cons char text inductionHypothesis =>
      rw [List.flatMap_cons, List.append_assoc, readQuoted_escape,
        inductionHypothesis]
      rfl

/-- Digits of a number do not begin with a zero that could be left out. -/
theorem toDigits_eq_zero_of_head? (value : Nat) :
    (Nat.toDigits 10 value).head? = some '0' →
      Nat.toDigits 10 value = ['0'] := by
  induction value using Nat.base_induction 10 (by decide) with
  | single digit small =>
      intro first
      rw [Nat.toDigits_of_lt_base small] at first ⊢
      simpa using first
  | digit front digit small positive inductionHypothesis =>
      intro first
      rw [← Nat.toDigits_append_toDigits (by decide) positive small,
        List.head?_append_of_ne_nil _ Nat.toDigits_ne_nil] at first
      have zero : Nat.ofDigitChars 10 (Nat.toDigits 10 front) 0 = 0 := by
        rw [inductionHypothesis first]
        rfl
      rw [Nat.ofDigitChars_ten_toDigits] at zero
      omega

/-- A text behind a number does not go on with its digits. -/
def EndsNumber (rest : List Char) : Prop :=
  ∀ char, rest.head? = some char → char.isDigit = false

theorem takeWhile_isDigit_of_endsNumber
    {rest : List Char} (ends : EndsNumber rest) :
    rest.takeWhile Char.isDigit = [] ∧
      rest.dropWhile Char.isDigit = rest := by
  cases rest with
  | nil => exact ⟨rfl, rfl⟩
  | cons char after =>
      have other := ends char rfl
      simp [other]

theorem readNumber_toDigits
    {rest : List Char} (ends : EndsNumber rest) (value : Nat) :
    readNumber (Nat.toDigits 10 value ++ rest) =
      some (.number value, rest) := by
  have digits : ∀ char ∈ Nat.toDigits 10 value, char.isDigit = true :=
    fun _ member => Nat.isDigit_of_mem_toDigits (by decide) (by decide) member
  obtain ⟨noDigits, allRest⟩ := takeWhile_isDigit_of_endsNumber ends
  have taken :
      (Nat.toDigits 10 value ++ rest).takeWhile Char.isDigit =
        Nat.toDigits 10 value := by
    rw [List.takeWhile_append_of_pos digits, noDigits, List.append_nil]
  have wellFormed :
      ¬ (Nat.toDigits 10 value = [] ∨
          ((Nat.toDigits 10 value).head? = some '0' ∧
            Nat.toDigits 10 value ≠ ['0'])) := by
    rintro (empty | ⟨first, more⟩)
    · exact Nat.toDigits_ne_nil empty
    · exact more (toDigits_eq_zero_of_head? value first)
  unfold readNumber
  simp only [taken]
  rw [if_neg wellFormed, Nat.ofDigitChars_ten_toDigits,
    List.dropWhile_append_of_pos digits, allRest]

/-- Items on lines of their own, with a comma between neighbours. -/
def lined (level : Nat) (items : List (List Char)) : List Char :=
  [','].intercalate (items.map (indent level ++ ·))

theorem lined_singleton (level : Nat) (item : List Char) :
    lined level [item] = indent level ++ item := by
  simp [lined]

theorem lined_cons_cons
    (level : Nat) (first second : List Char) (items : List (List Char)) :
    lined level (first :: second :: items) =
      indent level ++ (first ++ ',' :: lined level (second :: items)) := by
  simp [lined, List.intercalate_cons_cons]

theorem block_cons
    (level : Nat) (opening closing : Char) (item : List Char)
    (items : List (List Char)) :
    block level opening closing (item :: items) =
      opening ::
        (lined (level + 1) (item :: items) ++ (indent level ++ [closing])) := by
  simp [block, lined]

theorem isBlank_eq_false_of_isDigit
    {char : Char} (digit : char.isDigit = true) :
    isBlank char = false := by
  rw [← Bool.not_eq_true]
  intro blank
  simp only [isBlank, Bool.or_eq_true, beq_iff_eq] at blank
  rcases blank with ((rfl | rfl) | rfl) | rfl <;>
  exact absurd digit (by decide)

/-- A value begins with a token that closes nothing. -/
theorem exists_token (value : JsonValue) (level : Nat) :
    ∃ token rest, value.write level = token :: rest ∧
      isBlank token = false ∧ token ≠ ']' := by
  cases value with
  | bool value =>
      cases value
      · exact ⟨'f', _, rfl, rfl, by decide⟩
      · exact ⟨'t', _, rfl, rfl, by decide⟩
  | number value =>
      obtain ⟨digit, rest, split⟩ :=
        List.exists_cons_of_ne_nil (Nat.toDigits_ne_nil (n := value) (b := 10))
      have isDigit : digit.isDigit = true :=
        Nat.isDigit_of_mem_toDigits (b := 10) (n := value) (by decide)
          (by decide) (by simp [split])
      refine
        ⟨digit, rest, by simp [write, split],
          isBlank_eq_false_of_isDigit isDigit, ?_⟩
      rintro rfl
      exact absurd isDigit (by decide)
  | string value => exact ⟨'"', _, rfl, rfl, by decide⟩
  | array elements =>
      cases elements with
      | nil => exact ⟨'[', _, rfl, rfl, by decide⟩
      | cons first rest =>
          rw [write, writeAll, block_cons]
          exact ⟨'[', _, rfl, rfl, by decide⟩
  | object members =>
      cases members with
      | nil => exact ⟨'\x7b', _, rfl, rfl, by decide⟩
      | cons first rest =>
          rw [write, writeMembers, block_cons]
          exact ⟨'\x7b', _, rfl, rfl, by decide⟩

theorem endsNumber_cons
    (char : Char) (other : char.isDigit = false) (rest : List Char) :
    EndsNumber (char :: rest) := by
  intro first same
  cases same
  exact other

theorem AreBlank.endsNumber {text : List Char} (blank : AreBlank text) :
    EndsNumber text := by
  cases text with
  | nil => nofun
  | cons char rest =>
      refine endsNumber_cons char ?_ rest
      rw [← Bool.not_eq_true]
      intro digit
      have isBlankChar := blank char List.mem_cons_self
      rw [isBlank_eq_false_of_isDigit digit] at isBlankChar
      cases isBlankChar

theorem endsNumber_indent (level : Nat) (rest : List Char) :
    EndsNumber (indent level ++ rest) :=
  endsNumber_cons '\n' rfl _

theorem readValue_append
    {blanks : List Char} (blank : AreBlank blanks)
    (fuel : Nat) (text : List Char) :
    readValue (fuel + 1) (blanks ++ text) = readValue (fuel + 1) text := by
  rw [readValue, readValue, skipBlanks_append blank]

theorem readValue_array
    {fuel : Nat} {text rest : List Char} {elements : List JsonValue}
    (goesOn : ∀ after, skipBlanks text ≠ ']' :: after)
    (read : readElements fuel text = some (elements, rest)) :
    readValue (fuel + 1) ('[' :: text) = some (.array elements, rest) := by
  rw [readValue, skipBlanks_cons rfl]
  simp only [Char.reduceEq, if_false, if_true, read, Option.map_some]

theorem readValue_object
    {fuel : Nat} {text rest : List Char}
    {members : List (String × JsonValue)}
    (goesOn : ∀ after, skipBlanks text ≠ '\x7d' :: after)
    (read : readMembers fuel text = some (members, rest)) :
    readValue (fuel + 1) ('\x7b' :: text) = some (.object members, rest) := by
  rw [readValue, skipBlanks_cons rfl]
  simp only [Char.reduceEq, if_false, if_true, read, Option.map_some]

theorem readValue_bool
    (fuel : Nat) (value : Bool) (level : Nat) (rest : List Char) :
    readValue (fuel + 1) ((JsonValue.bool value).write level ++ rest) =
      some (.bool value, rest) := by
  cases value <;> rfl

theorem readValue_string
    (fuel : Nat) (text : List Char) (level : Nat) (rest : List Char) :
    readValue (fuel + 1) ((JsonValue.string text).write level ++ rest) =
      some (.string text, rest) := by
  have quoted :
      (JsonValue.string text).write level ++ rest =
        '"' :: (text.flatMap escape ++ '"' :: rest) := by
    simp [write, quote]
  rw [quoted, readValue, skipBlanks_cons rfl]
  simp only [if_true, readQuoted_flatMap_escape, Option.map_some]

theorem readValue_number
    {rest : List Char} (ends : EndsNumber rest)
    (fuel value level : Nat) :
    readValue (fuel + 1) ((JsonValue.number value).write level ++ rest) =
      some (.number value, rest) := by
  have written :
      (JsonValue.number value).write level = Nat.toDigits 10 value := by
    simp [write]
  rw [written]
  have whole := readNumber_toDigits ends value
  obtain ⟨digit, digits, split⟩ :=
    List.exists_cons_of_ne_nil (Nat.toDigits_ne_nil (n := value) (b := 10))
  have isDigit : digit.isDigit = true :=
    Nat.isDigit_of_mem_toDigits (b := 10) (n := value) (by decide)
      (by decide) (by simp [split])
  have notQuote : digit ≠ '"' := by
    rintro rfl
    exact absurd isDigit (by decide)
  have notBracket : digit ≠ '[' := by
    rintro rfl
    exact absurd isDigit (by decide)
  have notBrace : digit ≠ '\x7b' := by
    rintro rfl
    exact absurd isDigit (by decide)
  rw [split, List.cons_append] at whole ⊢
  rw [readValue, skipBlanks_cons (isBlank_eq_false_of_isDigit isDigit)]
  simp only [notQuote, notBracket, notBrace, isDigit, if_false, if_true, whole]

theorem exists_lined_eq
    (level : Nat) (item : List Char) (items : List (List Char)) :
    ∃ more, lined level (item :: items) = indent level ++ (item ++ more) := by
  cases items with
  | nil => exact ⟨[], by rw [lined_singleton, List.append_nil]⟩
  | cons second items => exact ⟨_, lined_cons_cons level item second items⟩

theorem skipBlanks_lined
    (level : Nat) (item : List Char) (items : List (List Char))
    (rest : List Char) :
    ∃ more,
      skipBlanks (lined level (item :: items) ++ rest) =
        skipBlanks (item ++ more) := by
  obtain ⟨more, split⟩ := exists_lined_eq level item items
  refine ⟨more ++ rest, ?_⟩
  rw [split, List.append_assoc, skipBlanks_append (areBlank_indent level),
    List.append_assoc]

theorem skipBlanks_indent_cons
    {token : Char} (meant : isBlank token = false)
    (level : Nat) (rest : List Char) :
    skipBlanks (indent level ++ token :: rest) = token :: rest := by
  rw [skipBlanks_append (areBlank_indent level), skipBlanks_cons meant]

theorem length_indent (level : Nat) :
    (indent level).length = 2 * level + 1 := by
  simp [indent]

theorem readElements_last
    {fuel : Nat} {text after rest : List Char} {element : JsonValue}
    (read : readValue fuel text = some (element, after))
    (closed : skipBlanks after = ']' :: rest) :
    readElements (fuel + 1) text = some ([element], rest) := by
  rw [readElements, read]
  simp only [closed]

theorem readElements_more
    {fuel : Nat} {text after others rest : List Char} {element : JsonValue}
    {elements : List JsonValue}
    (read : readValue fuel text = some (element, after))
    (goesOn : skipBlanks after = ',' :: others)
    (readOthers : readElements fuel others = some (elements, rest)) :
    readElements (fuel + 1) text = some (element :: elements, rest) := by
  rw [readElements, read]
  simp only [goesOn, readOthers, Option.map_some]

theorem skipBlanks_quote
    {blanks : List Char} (blank : AreBlank blanks) (key text : List Char) :
    skipBlanks (blanks ++ (quote key ++ ':' :: text)) =
      '"' :: (key.flatMap escape ++ '"' :: ':' :: text) := by
  have quoted :
      quote key ++ ':' :: text =
        '"' :: (key.flatMap escape ++ '"' :: ':' :: text) := by
    simp [quote]
  rw [skipBlanks_append blank, quoted, skipBlanks_cons rfl]

theorem skipBlanks_colon (text : List Char) :
    skipBlanks (':' :: text) = ':' :: text :=
  skipBlanks_cons rfl text

theorem readMembers_last
    {fuel : Nat} {blanks text after rest : List Char} {value : JsonValue}
    (blank : AreBlank blanks) (key : List Char)
    (read : readValue fuel text = some (value, after))
    (closed : skipBlanks after = '\x7d' :: rest) :
    readMembers (fuel + 1) (blanks ++ (quote key ++ ':' :: text)) =
      some ([(String.ofList key, value)], rest) := by
  rw [readMembers, skipBlanks_quote blank]
  simp only [readQuoted_flatMap_escape, skipBlanks_colon, read, closed]

theorem readMembers_more
    {fuel : Nat} {blanks text after others rest : List Char}
    {value : JsonValue} {members : List (String × JsonValue)}
    (blank : AreBlank blanks) (key : List Char)
    (read : readValue fuel text = some (value, after))
    (goesOn : skipBlanks after = ',' :: others)
    (readOthers : readMembers fuel others = some (members, rest)) :
    readMembers (fuel + 1) (blanks ++ (quote key ++ ':' :: text)) =
      some ((String.ofList key, value) :: members, rest) := by
  rw [readMembers, skipBlanks_quote blank]
  simp only [readQuoted_flatMap_escape, skipBlanks_colon, read, goesOn,
    readOthers, Option.map_some]

theorem readValue_blank_cons
    (fuel : Nat) (text : List Char) :
    readValue (fuel + 1) (' ' :: text) = readValue (fuel + 1) text :=
  readValue_append (List.forall_mem_singleton.2 rfl) fuel text

/-! The fuel that is asked for is the length of the text that is read; each
value inside another one is shorter by a bracket at least. -/

mutual

theorem readValue_write :
    ∀ (value : JsonValue) (level fuel : Nat) {rest : List Char},
      EndsNumber rest → (value.write level).length ≤ fuel →
        readValue (fuel + 1) (value.write level ++ rest) = some (value, rest)
  | .bool value, level, fuel, rest, _, _ =>
      readValue_bool fuel value level rest
  | .number value, level, fuel, _, ends, _ =>
      readValue_number ends fuel value level
  | .string text, level, fuel, rest, _, _ =>
      readValue_string fuel text level rest
  | .array [], _, _, _, _, _ => rfl
  | .array (first :: others), level, fuel, rest, _, enough => by
      rw [write, writeAll, block_cons, ← writeAll] at enough ⊢
      simp only [List.length_cons, List.length_append] at enough
      obtain ⟨fuel, rfl⟩ : ∃ less, fuel = less + 1 := ⟨fuel - 1, by omega⟩
      have read :=
        readElements_lined (first :: others) (List.cons_ne_nil _ _) level fuel
          rest (by omega)
      simp only [List.cons_append, List.append_assoc, List.nil_append]
      refine readValue_array ?_ read
      intro after closed
      rw [writeAll] at closed
      obtain ⟨more, begins⟩ := skipBlanks_lined (level + 1) _ _ _
      obtain ⟨token, text, split, meant, notBracket⟩ :=
        exists_token first (level + 1)
      rw [begins, split, List.cons_append, skipBlanks_cons meant] at closed
      exact notBracket (List.cons.inj closed).1
  | .object [], _, _, _, _, _ => rfl
  | .object ((key, value) :: others), level, fuel, rest, _, enough => by
      rw [write, writeMembers, block_cons, ← writeMembers] at enough ⊢
      simp only [List.length_cons, List.length_append] at enough
      obtain ⟨fuel, rfl⟩ : ∃ less, fuel = less + 1 := ⟨fuel - 1, by omega⟩
      have read :=
        readMembers_lined ((key, value) :: others) (List.cons_ne_nil _ _) level
          fuel rest (by omega)
      simp only [List.cons_append, List.append_assoc, List.nil_append]
      refine readValue_object ?_ read
      intro after closed
      rw [writeMembers] at closed
      obtain ⟨more, begins⟩ := skipBlanks_lined (level + 1) _ _ _
      rw [begins] at closed
      cases closed

theorem readElements_lined :
    ∀ elements : List JsonValue, elements ≠ [] →
      ∀ (level fuel : Nat) (rest : List Char),
        (lined (level + 1) (writeAll (level + 1) elements)).length ≤ fuel →
          readElements (fuel + 1)
              (lined (level + 1) (writeAll (level + 1) elements) ++
                (indent level ++ ']' :: rest)) =
            some (elements, rest)
  | [], notEmpty, _, _, _, _ => (notEmpty rfl).elim
  | [first], _, level, fuel, rest, enough => by
      simp only [writeAll, lined_singleton] at enough ⊢
      rw [List.length_append, length_indent] at enough
      obtain ⟨fuel, rfl⟩ : ∃ less, fuel = less + 1 := ⟨fuel - 1, by omega⟩
      rw [List.append_assoc]
      refine readElements_last ?_ (skipBlanks_indent_cons rfl level rest)
      rw [readValue_append (areBlank_indent _)]
      exact readValue_write first _ _ (endsNumber_indent _ _) (by omega)
  | first :: second :: others, _, level, fuel, rest, enough => by
      rw [writeAll, writeAll, lined_cons_cons, ← writeAll] at enough ⊢
      simp only [List.length_append, List.length_cons, length_indent]
        at enough
      obtain ⟨fuel, rfl⟩ : ∃ less, fuel = less + 1 := ⟨fuel - 1, by omega⟩
      have readOthers :=
        readElements_lined (second :: others) (List.cons_ne_nil _ _) level fuel
          rest (by omega)
      simp only [List.append_assoc, List.cons_append]
      refine readElements_more ?_ (skipBlanks_cons rfl _) readOthers
      rw [readValue_append (areBlank_indent _)]
      exact readValue_write first _ _ (endsNumber_cons ',' rfl _) (by omega)

theorem readMembers_lined :
    ∀ members : List (String × JsonValue), members ≠ [] →
      ∀ (level fuel : Nat) (rest : List Char),
        (lined (level + 1) (writeMembers (level + 1) members)).length ≤ fuel →
          readMembers (fuel + 1)
              (lined (level + 1) (writeMembers (level + 1) members) ++
                (indent level ++ '\x7d' :: rest)) =
            some (members, rest)
  | [], notEmpty, _, _, _, _ => (notEmpty rfl).elim
  | [(key, value)], _, level, fuel, rest, enough => by
      simp only [writeMembers, lined_singleton] at enough ⊢
      simp only [List.length_append, length_indent] at enough
      obtain ⟨fuel, rfl⟩ : ∃ less, fuel = less + 1 := ⟨fuel - 1, by omega⟩
      have read :=
        (readValue_blank_cons fuel _).trans <|
          readValue_write value (level + 1) fuel
            (endsNumber_indent level ('\x7d' :: rest)) (by omega)
      have last :=
        readMembers_last (areBlank_indent (level + 1)) key.toList read
          (skipBlanks_indent_cons rfl level rest)
      rw [String.ofList_toList] at last
      simpa using last
  | (key, value) :: (nextKey, next) :: others, _, level, fuel, rest, enough => by
      rw [writeMembers, writeMembers, lined_cons_cons, ← writeMembers]
        at enough ⊢
      simp only [List.length_append, List.length_cons, length_indent]
        at enough
      obtain ⟨fuel, rfl⟩ : ∃ less, fuel = less + 1 := ⟨fuel - 1, by omega⟩
      have readOthers :=
        readMembers_lined ((nextKey, next) :: others) (List.cons_ne_nil _ _)
          level fuel rest (by omega)
      have read (after : List Char) :=
        (readValue_blank_cons fuel _).trans <|
          readValue_write value (level + 1) fuel
            (endsNumber_cons ',' rfl after) (by omega)
      have more :=
        readMembers_more (areBlank_indent (level + 1)) key.toList (read _)
          (skipBlanks_cons rfl _) readOthers
      rw [String.ofList_toList] at more
      simpa using more

end

/-- A value is read back from its text at any level, whatever blanks stand
behind it. -/
theorem read_write
    (value : JsonValue) (level : Nat) {blanks : List Char}
    (blank : AreBlank blanks) :
    read (value.write level ++ blanks) = some value := by
  unfold read
  rw [readValue_write value level _ blank.endsNumber (by simp)]
  have nothing : skipBlanks blanks = [] := List.dropWhile_eq_nil_iff.2 blank
  simp only [nothing, if_true]

/-- The text of a value is a document. -/
theorem isDocument_write
    (value : JsonValue) (level : Nat) : IsDocument (value.write level) := by
  have nothing : AreBlank [] := nofun
  have ran := read_write value level nothing
  rw [List.append_nil] at ran
  exact isDocument_of_read ran

end Json

end HeaderAudit
