import HeaderAudit.Text.Lines
import Mathlib.Data.List.Basic

/-! The grammar knows every kind of value, every escape and blanks wherever two
tokens meet, whatever a writer makes use of. Every line of a document begins
with a blank or a token, and no token begins with a capital letter. -/

namespace HeaderAudit

namespace Json

/-- Blanks, tabs and line ends mean nothing between two tokens. -/
def isBlank (char : Char) : Bool :=
  char == ' ' || char == '\t' || char == '\n' || char == '\r'

/-- A text without a token. -/
def AreBlank (text : List Char) : Prop :=
  ∀ char ∈ text, isBlank char = true

/-- The digits of the codes in strings. -/
def isHexDigit (char : Char) : Bool :=
  char.isDigit || ('a' ≤ char && char ≤ 'f') || ('A' ≤ char && char ≤ 'F')

/-- The letters that stand for a character behind a backslash. -/
def escapeLetters : List Char :=
  ['"', '\\', '/', 'b', 'f', 'n', 'r', 't']

/-- What stands between the quotes of a string. -/
inductive IsQuoted : List Char → Prop
  | nothing : IsQuoted []
  | plain {char : Char} {rest : List Char} :
      32 ≤ char.toNat → char ≠ '"' → char ≠ '\\' → IsQuoted rest →
      IsQuoted (char :: rest)
  | escaped {letter : Char} {rest : List Char} :
      letter ∈ escapeLetters → IsQuoted rest →
      IsQuoted ('\\' :: letter :: rest)
  | coded {first second third fourth : Char} {rest : List Char} :
      (∀ digit ∈ [first, second, third, fourth], isHexDigit digit = true) →
      IsQuoted rest →
      IsQuoted ('\\' :: 'u' :: first :: second :: third :: fourth :: rest)

/-- At least one decimal digit. -/
def AreDigits (text : List Char) : Prop :=
  text ≠ [] ∧ ∀ char ∈ text, char.isDigit = true

/-- Digits of a number before its point: no zero stands before others. -/
def AreWholeDigits (text : List Char) : Prop :=
  AreDigits text ∧ (text.head? = some '0' → text = ['0'])

/-- A point and digits, or nothing. -/
def IsFraction (text : List Char) : Prop :=
  text = [] ∨ ∃ digits, AreDigits digits ∧ text = '.' :: digits

/-- A power of ten, or nothing. -/
def IsExponent (text : List Char) : Prop :=
  text = [] ∨
    ∃ letter ∈ ['e', 'E'], ∃ sign ∈ [[], ['+'], ['-']], ∃ digits,
      AreDigits digits ∧ text = letter :: (sign ++ digits)

/-- A number: its sign, its digits, its fraction and its exponent. -/
def IsNumber (text : List Char) : Prop :=
  ∃ sign ∈ [[], ['-']], ∃ whole fraction exponent,
    AreWholeDigits whole ∧ IsFraction fraction ∧ IsExponent exponent ∧
      text = sign ++ whole ++ fraction ++ exponent

mutual

/-- The text of one value. -/
inductive IsValue : List Char → Prop
  | word {text : String} :
      text ∈ ["true", "false", "null"] → IsValue text.toList
  | number {text : List Char} : IsNumber text → IsValue text
  | string {text : List Char} :
      IsQuoted text → IsValue ('"' :: (text ++ ['"']))
  | emptyArray {blanks : List Char} :
      AreBlank blanks → IsValue ('[' :: (blanks ++ [']']))
  | array {text : List Char} :
      AreElements text → IsValue ('[' :: (text ++ [']']))
  | emptyObject {blanks : List Char} :
      AreBlank blanks → IsValue ('\x7b' :: (blanks ++ ['\x7d']))
  | object {text : List Char} :
      AreMembers text → IsValue ('\x7b' :: (text ++ ['\x7d']))

/-- A value between blanks. -/
inductive IsPadded : List Char → Prop
  | padded {before text after : List Char} :
      AreBlank before → IsValue text → AreBlank after →
      IsPadded (before ++ (text ++ after))

/-- The elements of an array that is not empty, with a comma between
neighbours. -/
inductive AreElements : List Char → Prop
  | last {text : List Char} : IsPadded text → AreElements text
  | more {first rest : List Char} :
      IsPadded first → AreElements rest →
      AreElements (first ++ ',' :: rest)

/-- The members of an object that is not empty, each with its key. -/
inductive AreMembers : List Char → Prop
  | last {before key after text : List Char} :
      AreBlank before → IsQuoted key → AreBlank after → IsPadded text →
      AreMembers (before ++ '"' :: (key ++ '"' :: (after ++ ':' :: text)))
  | more {before key after text rest : List Char} :
      AreBlank before → IsQuoted key → AreBlank after → IsPadded text →
      AreMembers rest →
      AreMembers
        (before ++ '"' :: (key ++ '"' :: (after ++ ':' :: (text ++ ',' :: rest))))

end

/-- A document is one value, with blanks around it. -/
def IsDocument (text : List Char) : Prop :=
  IsPadded text

end Json

namespace Text

/-- The character begins no line of a text, where `atStart` tells whether the
text itself begins a line. -/
def BeginsNoLine (char : Char) : Bool → List Char → Prop
  | _, [] => True
  | atStart, first :: rest =>
      (atStart = true → first ≠ char) ∧ BeginsNoLine char (first == '\n') rest

variable {char : Char} {text first rest : List Char}

theorem beginsNoLine_of_notMem (absent : char ∉ text) :
    ∀ atStart, BeginsNoLine char atStart text := by
  induction text with
  | nil =>
      intro atStart
      trivial
  | cons head tail inductionHypothesis =>
      rw [List.mem_cons, not_or] at absent
      intro atStart
      exact ⟨fun _ => absent.1 ∘ Eq.symm, inductionHypothesis absent.2 _⟩

theorem beginsNoLine_of_noNewline (noNewline : '\n' ∉ text) :
    BeginsNoLine char false text := by
  induction text with
  | nil => trivial
  | cons head tail inductionHypothesis =>
      rw [List.mem_cons, not_or] at noNewline
      have goesOn : (head == '\n') = false :=
        beq_false_of_ne (noNewline.1 ∘ Eq.symm)
      refine ⟨nofun, ?_⟩
      rw [goesOn]
      exact inductionHypothesis noNewline.2

theorem BeginsNoLine.append
    (restBegins : ∀ atStart, BeginsNoLine char atStart rest) :
    ∀ {first : List Char} {atStart : Bool},
      BeginsNoLine char atStart first →
        BeginsNoLine char atStart (first ++ rest)
  | [], _, _ => restBegins _
  | _ :: _, _, firstBegins => ⟨firstBegins.1, firstBegins.2.append restBegins⟩

/-- The first line stands apart, because it need not begin a line of a longer
text. -/
theorem BeginsNoLine.head?_ne (text : List Char) :
    ∀ {atStart : Bool}, BeginsNoLine char atStart text →
      (∀ line ∈ (lines text).tail, line.head? ≠ some char) ∧
        (atStart = true → ∀ line ∈ lines text, line.head? ≠ some char) := by
  induction text using lines.induct with
  | case1 =>
      intro atStart _
      exact ⟨nofun, fun _ => nofun⟩
  | case2 rest inductionHypothesis =>
      intro atStart begins
      have later := (inductionHypothesis begins.2).2 rfl
      rw [lines]
      exact ⟨later, fun _ => List.forall_mem_cons.2 ⟨nofun, later⟩⟩
  | case3 rest inductionHypothesis =>
      intro atStart begins
      have later := (inductionHypothesis begins.2.2).2 rfl
      rw [lines]
      exact ⟨later, fun _ => List.forall_mem_cons.2 ⟨nofun, later⟩⟩
  | case4 head rest notNewline notReturn empty _ =>
      intro atStart begins
      rw [lines.eq_4 head rest notNewline notReturn, empty]
      refine ⟨nofun, fun start => List.forall_mem_singleton.2 ?_⟩
      simpa using begins.1 start
  | case5 head rest notNewline notReturn line others split
      inductionHypothesis =>
      intro atStart begins
      have later := (inductionHypothesis begins.2).1
      rw [split] at later
      rw [lines.eq_4 head rest notNewline notReturn, split]
      refine ⟨later, fun start => List.forall_mem_cons.2 ⟨?_, later⟩⟩
      simpa using begins.1 start

end Text

namespace Json

open Text

variable {text : List Char}

theorem AreBlank.beginsNoLine (blank : AreBlank text) :
    ∀ atStart, BeginsNoLine 'P' atStart text := by
  apply beginsNoLine_of_notMem
  intro member
  exact absurd (blank 'P' member) (by decide)

theorem AreDigits.notMem (digits : AreDigits text) : 'P' ∉ text := by
  intro member
  exact absurd (digits.2 'P' member) (by decide)

theorem IsNumber.beginsNoLine (number : IsNumber text) :
    ∀ atStart, BeginsNoLine 'P' atStart text := by
  apply beginsNoLine_of_notMem
  obtain ⟨sign, signMember, whole, fraction, exponent, wholeDigits,
    isFraction, isExponent, rfl⟩ := number
  have signClean : 'P' ∉ sign := by
    revert sign
    decide
  have fractionClean : 'P' ∉ fraction := by
    rcases isFraction with rfl | ⟨digits, areDigits, rfl⟩
    · exact List.not_mem_nil
    · simpa using areDigits.notMem
  have exponentClean : 'P' ∉ exponent := by
    rcases isExponent with
      rfl | ⟨letter, letterMember, sign, signMember, digits, areDigits, rfl⟩
    · exact List.not_mem_nil
    · have letterClean : 'P' ≠ letter := by
        rintro rfl
        exact absurd letterMember (by decide)
      have signClean : 'P' ∉ sign := by
        revert sign
        decide
      simp [letterClean, signClean, areDigits.notMem]
  simp [signClean, wholeDigits.1.notMem, fractionClean, exponentClean]

theorem IsQuoted.noNewline (quoted : IsQuoted text) : '\n' ∉ text := by
  induction quoted with
  | nothing => exact List.not_mem_nil
  | plain printable _ _ _ inductionHypothesis =>
      rw [List.mem_cons, not_or]
      refine ⟨?_, inductionHypothesis⟩
      rintro rfl
      exact absurd printable (by decide)
  | @escaped letter rest letterMember _ inductionHypothesis =>
      have different : '\n' ≠ letter := by
        rintro rfl
        exact absurd letterMember (by decide)
      simp [different, inductionHypothesis]
  | @coded first second third fourth rest hexDigits _ inductionHypothesis =>
      have digitsClean : '\n' ∉ [first, second, third, fourth] := by
        intro member
        exact absurd (hexDigits _ member) (by decide)
      have letterClean : '\n' ∉ ['\\', 'u'] := by decide
      rw [show '\\' :: 'u' :: first :: second :: third :: fourth :: rest =
        ['\\', 'u'] ++ ([first, second, third, fourth] ++ rest) from rfl]
      simp only [List.mem_append, not_or]
      exact ⟨letterClean, digitsClean, inductionHypothesis⟩

theorem notMem_of_word
    {text : String} (word : text ∈ ["true", "false", "null"]) :
    'P' ∉ text.toList := by
  revert text
  decide

/-- A token of one character goes before what begins no line wrongly. -/
theorem beginsNoLine_cons
    {token : Char} (different : token ≠ 'P')
    (begins : ∀ atStart, BeginsNoLine 'P' atStart text) :
    ∀ atStart, BeginsNoLine 'P' atStart (token :: text) :=
  fun _ => ⟨fun _ => different, begins _⟩

theorem IsQuoted.beginsNoLine
    {rest : List Char} (quoted : IsQuoted text)
    (begins : ∀ atStart, BeginsNoLine 'P' atStart rest) :
    ∀ atStart, BeginsNoLine 'P' atStart ('"' :: (text ++ '"' :: rest)) := by
  intro atStart
  refine ⟨fun _ => by decide, ?_⟩
  exact
    (beginsNoLine_of_noNewline quoted.noNewline).append
      (beginsNoLine_cons (by decide) begins)

theorem beginsNoLine_nil :
    ∀ atStart, BeginsNoLine 'P' atStart [] :=
  fun _ => trivial

mutual

theorem IsValue.beginsNoLine :
    ∀ {text : List Char}, IsValue text →
      ∀ atStart, BeginsNoLine 'P' atStart text
  | _, .word member => beginsNoLine_of_notMem (notMem_of_word member)
  | _, .number number => number.beginsNoLine
  | _, .string quoted => quoted.beginsNoLine beginsNoLine_nil
  | _, .emptyArray blank =>
      beginsNoLine_cons (by decide) fun _ =>
        (blank.beginsNoLine _).append
          (beginsNoLine_cons (by decide) beginsNoLine_nil)
  | _, .array elements =>
      beginsNoLine_cons (by decide) fun _ =>
        (elements.beginsNoLine _).append
          (beginsNoLine_cons (by decide) beginsNoLine_nil)
  | _, .emptyObject blank =>
      beginsNoLine_cons (by decide) fun _ =>
        (blank.beginsNoLine _).append
          (beginsNoLine_cons (by decide) beginsNoLine_nil)
  | _, .object members =>
      beginsNoLine_cons (by decide) fun _ =>
        (members.beginsNoLine _).append
          (beginsNoLine_cons (by decide) beginsNoLine_nil)

theorem IsPadded.beginsNoLine :
    ∀ {text : List Char}, IsPadded text →
      ∀ atStart, BeginsNoLine 'P' atStart text
  | _, .padded before value after => fun _ =>
      (before.beginsNoLine _).append fun _ =>
        (value.beginsNoLine _).append after.beginsNoLine

theorem AreElements.beginsNoLine :
    ∀ {text : List Char}, AreElements text →
      ∀ atStart, BeginsNoLine 'P' atStart text
  | _, .last padded => padded.beginsNoLine
  | _, .more padded elements => fun _ =>
      (padded.beginsNoLine _).append
        (beginsNoLine_cons (by decide) elements.beginsNoLine)

theorem AreMembers.beginsNoLine :
    ∀ {text : List Char}, AreMembers text →
      ∀ atStart, BeginsNoLine 'P' atStart text
  | _, .last before key after padded => fun _ =>
      (before.beginsNoLine _).append <| key.beginsNoLine fun _ =>
        (after.beginsNoLine _).append
          (beginsNoLine_cons (by decide) padded.beginsNoLine)
  | _, .more before key after padded members => fun _ =>
      (before.beginsNoLine _).append <| key.beginsNoLine fun _ =>
        (after.beginsNoLine _).append <|
          beginsNoLine_cons (by decide) fun _ =>
            (padded.beginsNoLine _).append
              (beginsNoLine_cons (by decide) members.beginsNoLine)

end

end Json

end HeaderAudit
