import HeaderAudit.Proofs.Json.Grammar
import HeaderAudit.Report.Json
import Mathlib.Data.List.TakeWhile

/-! The reader knows nothing of how the writer lays a document out. It declines
numbers other than the natural ones, `null`, and surrogates among the escapes.
-/

namespace HeaderAudit

namespace Json

/-! ## Tokens -/

/-- The text from its first token on. -/
def skipBlanks (text : List Char) : List Char :=
  text.dropWhile isBlank

/-- The value of a hexadecimal digit. -/
def hexValue (digit : Char) : Nat :=
  if digit.isDigit then
    digit.toNat - 48
  else if digit.toNat < 97 then
    digit.toNat - 55
  else
    digit.toNat - 87

/-- The character with the code that hexadecimal digits write.  A surrogate is
no character. -/
def codedChar? (digits : List Char) : Option Char :=
  let code := digits.foldl (fun code digit => 16 * code + hexValue digit) 0
  if digits.all isHexDigit ∧ code.isValidChar then
    some (Char.ofNat code)
  else
    none

/-- The character that a letter behind a backslash stands for. -/
def escapedChar? : Char → Option Char
  | '"' => some '"'
  | '\\' => some '\\'
  | '/' => some '/'
  | 'b' => some '\x08'
  | 'f' => some '\x0c'
  | 'n' => some '\n'
  | 'r' => some '\r'
  | 't' => some '\t'
  | _ => none

/-- A character before the text that was read after it. -/
def before? (char? : Option Char) (read? : Option (List Char × List Char)) :
    Option (List Char × List Char) :=
  match char?, read? with
  | some char, some (text, rest) => some (char :: text, rest)
  | _, _ => none

/-- Read a string behind its opening quote. -/
def readQuoted : List Char → Option (List Char × List Char)
  | [] => none
  | '"' :: rest => some ([], rest)
  | '\\' :: 'u' :: first :: second :: third :: fourth :: rest =>
      before? (codedChar? [first, second, third, fourth]) (readQuoted rest)
  | '\\' :: letter :: rest => before? (escapedChar? letter) (readQuoted rest)
  | char :: rest =>
      before? (if 32 ≤ char.toNat ∧ char ≠ '\\' then some char else none)
        (readQuoted rest)

/-- Read a natural number. -/
def readNumber (text : List Char) : Option (JsonValue × List Char) :=
  let digits := text.takeWhile Char.isDigit
  if digits = [] ∨ (digits.head? = some '0' ∧ digits ≠ ['0']) then
    none
  else
    some (.number (Nat.ofDigitChars 10 digits 0), text.dropWhile Char.isDigit)

/-- Read a truth value. -/
def readWord (text : List Char) : Option (JsonValue × List Char) :=
  match "true".toList.isPrefixOf? text, "false".toList.isPrefixOf? text with
  | some rest, _ => some (.bool true, rest)
  | none, some rest => some (.bool false, rest)
  | none, none => none

/-! ## Values -/

mutual

/-- Read a value behind blanks.  The fuel bounds how many values can be read
one inside or behind the other. -/
def readValue : Nat → List Char → Option (JsonValue × List Char)
  | 0, _ => none
  | fuel + 1, text =>
      match skipBlanks text with
      | [] => none
      | first :: rest =>
          if first = '"' then
            (readQuoted rest).map fun (text, rest) => (.string text, rest)
          else if first = '[' then
            match skipBlanks rest with
            | ']' :: after => some (.array [], after)
            | _ =>
                (readElements fuel rest).map fun (elements, after) =>
                  (.array elements, after)
          else if first = '\x7b' then
            match skipBlanks rest with
            | '\x7d' :: after => some (.object [], after)
            | _ =>
                (readMembers fuel rest).map fun (members, after) =>
                  (.object members, after)
          else if first.isDigit then
            readNumber (first :: rest)
          else
            readWord (first :: rest)

/-- Read elements up to the bracket that closes the array. -/
def readElements : Nat → List Char → Option (List JsonValue × List Char)
  | 0, _ => none
  | fuel + 1, text =>
      match readValue fuel text with
      | none => none
      | some (element, rest) =>
          match skipBlanks rest with
          | ',' :: rest =>
              (readElements fuel rest).map fun (elements, rest) =>
                (element :: elements, rest)
          | ']' :: rest => some ([element], rest)
          | _ => none

/-- Read members up to the brace that closes the object. -/
def readMembers :
    Nat → List Char → Option (List (String × JsonValue) × List Char)
  | 0, _ => none
  | fuel + 1, text =>
      match skipBlanks text with
      | '"' :: rest =>
          match readQuoted rest with
          | none => none
          | some (key, rest) =>
              match skipBlanks rest with
              | ':' :: rest =>
                  match readValue fuel rest with
                  | none => none
                  | some (value, rest) =>
                      match skipBlanks rest with
                      | ',' :: rest =>
                          (readMembers fuel rest).map fun (members, rest) =>
                            ((String.ofList key, value) :: members, rest)
                      | '\x7d' :: rest =>
                          some ([(String.ofList key, value)], rest)
                      | _ => none
              | _ => none
      | _ => none

end

/-- Read a document. -/
def read (text : List Char) : Option JsonValue :=
  match readValue (text.length + 1) text with
  | some (value, rest) => if skipBlanks rest = [] then some value else none
  | none => none

/-! ## What is read is of the grammar -/

theorem exists_blanks (text : List Char) :
    ∃ blanks, AreBlank blanks ∧ text = blanks ++ skipBlanks text := by
  refine ⟨text.takeWhile isBlank, ?_, List.takeWhile_append_dropWhile.symm⟩
  intro char member
  exact List.mem_takeWhile_imp member

theorem isHexDigit_of_codedChar?
    {digits : List Char} {char : Char}
    (coded : codedChar? digits = some char) :
    ∀ digit ∈ digits, isHexDigit digit = true := by
  unfold codedChar? at coded
  simp only at coded
  split at coded
  · rename_i valid
    exact List.all_eq_true.1 valid.1
  · cases coded

theorem mem_escapeLetters_of_escapedChar?
    {letter char : Char} (escaped : escapedChar? letter = some char) :
    letter ∈ escapeLetters := by
  unfold escapedChar? at escaped
  split at escaped
  case h_9 => cases escaped
  all_goals decide

theorem before?_eq_some_iff
    {char? : Option Char} {read? : Option (List Char × List Char)}
    {content rest : List Char} :
    before? char? read? = some (content, rest) ↔
      ∃ char text, char? = some char ∧ read? = some (text, rest) ∧
        content = char :: text := by
  unfold before?
  split
  · rename_i char text after
    simp only [Option.some.injEq, Prod.mk.injEq]
    constructor
    · rintro ⟨rfl, rfl⟩
      exact ⟨char, text, rfl, ⟨rfl, rfl⟩, rfl⟩
    · rintro ⟨_, _, rfl, ⟨rfl, rfl⟩, rfl⟩
      exact ⟨rfl, rfl⟩
  · rename_i incomplete
    constructor
    · intro impossible
      cases impossible
    · rintro ⟨char, text, rfl, rfl, _⟩
      exact (incomplete char text rest rfl rfl).elim

/-- A string that is read ends at a quote, and the grammar knows what stands
before that. -/
theorem isQuoted_of_readQuoted (text : List Char) :
    ∀ {content rest : List Char}, readQuoted text = some (content, rest) →
      ∃ body, IsQuoted body ∧ text = body ++ '"' :: rest := by
  fun_induction readQuoted text with
  | case1 =>
      intro content rest impossible
      cases impossible
  | case2 after =>
      intro content rest read
      cases read
      exact ⟨[], .nothing, rfl⟩
  | case3 first second third fourth after inductionHypothesis =>
      intro content rest read
      obtain ⟨char, text, coded, readRest, _⟩ := before?_eq_some_iff.1 read
      obtain ⟨body, quoted, rfl⟩ := inductionHypothesis readRest
      exact ⟨_, .coded (isHexDigit_of_codedChar? coded) quoted, rfl⟩
  | case4 letter after notCoded inductionHypothesis =>
      intro content rest read
      obtain ⟨char, text, escaped, readRest, _⟩ := before?_eq_some_iff.1 read
      obtain ⟨body, quoted, rfl⟩ := inductionHypothesis readRest
      exact
        ⟨_, .escaped (mem_escapeLetters_of_escapedChar? escaped) quoted, rfl⟩
  | case5 char after notQuote notCoded notEscaped inductionHypothesis =>
      intro content rest read
      obtain ⟨_, text, plain, readRest, _⟩ := before?_eq_some_iff.1 read
      obtain ⟨body, quoted, rfl⟩ := inductionHypothesis readRest
      split at plain
      · rename_i printable
        exact ⟨_, .plain printable.1 notQuote printable.2 quoted, rfl⟩
      · cases plain

theorem isValue_of_readNumber
    {text rest : List Char} {value : JsonValue}
    (read : readNumber text = some (value, rest)) :
    ∃ body, IsValue body ∧ text = body ++ rest := by
  unfold readNumber at read
  simp only at read
  split at read
  · cases read
  · rename_i wellFormed
    cases read
    rw [not_or, not_and, not_not] at wellFormed
    refine ⟨_, .number ?_, List.takeWhile_append_dropWhile.symm⟩
    have digits : AreDigits (text.takeWhile Char.isDigit) :=
      ⟨wellFormed.1, fun _ member => List.mem_takeWhile_imp member⟩
    exact
      ⟨[], by simp, _, [], [], ⟨digits, wellFormed.2⟩, Or.inl rfl, Or.inl rfl,
        by simp⟩

theorem isValue_of_readWord
    {text rest : List Char} {value : JsonValue}
    (read : readWord text = some (value, rest)) :
    ∃ body, IsValue body ∧ text = body ++ rest := by
  unfold readWord at read
  split at read
  · rename_i begins
    cases read
    exact
      ⟨_, .word (by simp), (List.isPrefixOf?_eq_some_iff_append_eq.1 begins).symm⟩
  · rename_i begins
    cases read
    exact
      ⟨_, .word (by simp), (List.isPrefixOf?_eq_some_iff_append_eq.1 begins).symm⟩
  · cases read

/-- What the reader of values takes is a value behind blanks. -/
def TakesValues (fuel : Nat) : Prop :=
  ∀ {text rest : List Char} {value : JsonValue},
    readValue fuel text = some (value, rest) →
      ∃ before body, AreBlank before ∧ IsValue body ∧
        text = before ++ (body ++ rest)

/-- What the reader of elements takes are elements and a bracket. -/
def TakesElements (fuel : Nat) : Prop :=
  ∀ {text rest : List Char} {elements : List JsonValue},
    readElements fuel text = some (elements, rest) →
      ∃ body, AreElements body ∧ text = body ++ ']' :: rest

/-- What the reader of members takes are members and a brace. -/
def TakesMembers (fuel : Nat) : Prop :=
  ∀ {text rest : List Char} {members : List (String × JsonValue)},
    readMembers fuel text = some (members, rest) →
      ∃ body, AreMembers body ∧ text = body ++ '\x7d' :: rest

/-- The blanks before the token at which the reader goes on. -/
theorem blanks_of_skipBlanks
    {text rest : List Char} {token : Char}
    (skipped : skipBlanks text = token :: rest) :
    ∃ blanks, AreBlank blanks ∧ text = blanks ++ token :: rest := by
  obtain ⟨blanks, blank, split⟩ := exists_blanks text
  rw [skipped] at split
  exact ⟨blanks, blank, split⟩

theorem takesValues_succ
    {fuel : Nat} (elementsTaken : TakesElements fuel)
    (membersTaken : TakesMembers fuel) :
    TakesValues (fuel + 1) := by
  intro text rest value read
  rw [readValue] at read
  split at read
  · cases read
  rename_i first after skipped
  obtain ⟨before, blank, rfl⟩ := blanks_of_skipBlanks skipped
  -- It is left to show that what stands at the first token is a value.
  suffices taken : ∃ body, IsValue body ∧ first :: after = body ++ rest by
    obtain ⟨body, isValue, split⟩ := taken
    exact ⟨before, body, blank, isValue, by rw [split]⟩
  split at read
  · rename_i quote
    subst quote
    obtain ⟨⟨content, last⟩, readRest, same⟩ := Option.map_eq_some_iff.1 read
    cases same
    obtain ⟨body, quoted, rfl⟩ := isQuoted_of_readQuoted _ readRest
    exact ⟨_, .string quoted, by simp⟩
  split at read
  · rename_i bracket
    subst bracket
    split at read
    · rename_i last closed
      cases read
      obtain ⟨blanks, blank, rfl⟩ := blanks_of_skipBlanks closed
      exact ⟨_, .emptyArray blank, by simp⟩
    · obtain ⟨⟨elements, last⟩, readRest, same⟩ :=
        Option.map_eq_some_iff.1 read
      cases same
      obtain ⟨body, areElements, rfl⟩ := elementsTaken readRest
      exact ⟨_, .array areElements, by simp⟩
  split at read
  · rename_i brace
    subst brace
    split at read
    · rename_i last closed
      cases read
      obtain ⟨blanks, blank, rfl⟩ := blanks_of_skipBlanks closed
      exact ⟨_, .emptyObject blank, by simp⟩
    · obtain ⟨⟨members, last⟩, readRest, same⟩ :=
        Option.map_eq_some_iff.1 read
      cases same
      obtain ⟨body, areMembers, rfl⟩ := membersTaken readRest
      exact ⟨_, .object areMembers, by simp⟩
  split at read
  · exact isValue_of_readNumber read
  · exact isValue_of_readWord read

theorem takesElements_succ
    {fuel : Nat} (valuesTaken : TakesValues fuel)
    (elementsTaken : TakesElements fuel) :
    TakesElements (fuel + 1) := by
  intro text rest elements read
  rw [readElements] at read
  split at read
  · cases read
  rename_i element after readFirst
  obtain ⟨before, body, blankBefore, isValue, rfl⟩ := valuesTaken readFirst
  split at read
  · rename_i others skipped
    obtain ⟨behind, blankBehind, rfl⟩ := blanks_of_skipBlanks skipped
    obtain ⟨⟨elements, last⟩, readRest, same⟩ := Option.map_eq_some_iff.1 read
    cases same
    obtain ⟨restBody, areElements, rfl⟩ := elementsTaken readRest
    exact
      ⟨_, .more (.padded blankBefore isValue blankBehind) areElements,
        by simp⟩
  · rename_i last skipped
    obtain ⟨behind, blankBehind, rfl⟩ := blanks_of_skipBlanks skipped
    cases read
    exact ⟨_, .last (.padded blankBefore isValue blankBehind), by simp⟩
  · cases read

theorem takesMembers_succ
    {fuel : Nat} (valuesTaken : TakesValues fuel)
    (membersTaken : TakesMembers fuel) :
    TakesMembers (fuel + 1) := by
  intro text rest members read
  rw [readMembers] at read
  split at read
  case h_2 => cases read
  rename_i after skipped
  obtain ⟨before, blankBefore, rfl⟩ := blanks_of_skipBlanks skipped
  split at read
  · cases read
  rename_i key afterKey readKey
  obtain ⟨keyBody, keyQuoted, rfl⟩ := isQuoted_of_readQuoted _ readKey
  split at read
  case h_2 => cases read
  rename_i afterColon skippedColon
  obtain ⟨behindKey, blankBehindKey, rfl⟩ := blanks_of_skipBlanks skippedColon
  split at read
  · cases read
  rename_i value afterValue readFirst
  obtain ⟨beforeValue, body, blankBeforeValue, isValue, rfl⟩ :=
    valuesTaken readFirst
  split at read
  · rename_i others skippedComma
    obtain ⟨behind, blankBehind, rfl⟩ := blanks_of_skipBlanks skippedComma
    obtain ⟨⟨members, last⟩, readRest, same⟩ := Option.map_eq_some_iff.1 read
    cases same
    obtain ⟨restBody, areMembers, rfl⟩ := membersTaken readRest
    exact
      ⟨_, .more blankBefore keyQuoted blankBehindKey
        (.padded blankBeforeValue isValue blankBehind) areMembers, by simp⟩
  · rename_i last skippedBrace
    obtain ⟨behind, blankBehind, rfl⟩ := blanks_of_skipBlanks skippedBrace
    cases read
    exact
      ⟨_, .last blankBefore keyQuoted blankBehindKey
        (.padded blankBeforeValue isValue blankBehind), by simp⟩
  · cases read

theorem takes (fuel : Nat) :
    TakesValues fuel ∧ TakesElements fuel ∧ TakesMembers fuel := by
  induction fuel with
  | zero =>
      refine ⟨?_, ?_, ?_⟩ <;>
      · intro _ _ _ read
        cases read
  | succ fuel inductionHypothesis =>
      obtain ⟨values, elements, members⟩ := inductionHypothesis
      exact
        ⟨takesValues_succ elements members, takesElements_succ values elements,
          takesMembers_succ values members⟩

/-- What can be read is a document. -/
theorem isDocument_of_read
    {text : List Char} {value : JsonValue} (ran : read text = some value) :
    IsDocument text := by
  unfold read at ran
  split at ran
  · rename_i found rest readText
    split at ran
    · rename_i nothing
      obtain ⟨before, body, blankBefore, isValue, split⟩ :=
        (takes _).1 readText
      obtain ⟨blanks, blank, behind⟩ := exists_blanks rest
      rw [nothing, List.append_nil] at behind
      rw [split, behind]
      exact .padded blankBefore isValue blank
    · cases ran
  · cases ran

end Json

end HeaderAudit
