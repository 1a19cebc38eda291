/-! `**` must fill a whole component of a pattern, and the slash after it
belongs to it. The first character of a class is always a member, even a
bracket. A fault carries the position, counted in characters, that a message
names. -/

namespace HeaderAudit.Wildcard

/-- The characters from the first to the last one, both included. -/
structure Range where
  first : Char
  last : Char
  deriving DecidableEq, Repr

/-- The range holds the character. -/
def Range.holds (range : Range) (tested : Char) : Bool :=
  range.first ≤ tested && tested ≤ range.last

/-- One token of a pattern. -/
inductive Token where
  /-- Exactly this character. -/
  | literal (char : Char)
  /-- One character. -/
  | anyChar
  /-- One character inside, or outside, the ranges. -/
  | ofClass (negated : Bool) (ranges : List Range)
  /-- Any text inside one component. -/
  | anyText
  /-- Any number of whole components. -/
  | anyComponents
  deriving DecidableEq, Repr

/-- What is wrong with a pattern. -/
inductive Fault where
  | starRun
  | partialComponent
  | openClass
  deriving DecidableEq, Repr

/-- A fault and the position that it is reported at. -/
structure SyntaxError where
  position : Nat
  fault : Fault
  deriving DecidableEq, Repr

/-- The wording of a fault. -/
def Fault.message : Fault → String
  | .starRun => "wildcards are either regular `*` or recursive `**`"
  | .partialComponent =>
      "recursive wildcards must form a single path component"
  | .openClass => "invalid range pattern"

/-- The message of a pattern that cannot be read. -/
def SyntaxError.message (error : SyntaxError) : String :=
  "Pattern syntax error near position " ++ toString error.position ++ ": " ++
    error.fault.message

/-- The ranges that a class body lists: `a-b` is a range, and any other
character is a range of its own. -/
def rangesOf : List Char → List Range
  | first :: '-' :: last :: rest => ⟨first, last⟩ :: rangesOf rest
  | single :: rest => ⟨single, single⟩ :: rangesOf rest
  | [] => []

/-- Nothing, or a slash, stands before a component. -/
def startsComponent : Option Char → Bool
  | none => true
  | some before => before == '/'

mutual

/-- The tokens of a pattern from a position outside a class.  The character
before that position decides whether `**` may stand there. -/
def tokensFrom (before : Option Char) (position : Nat) :
    List Char → Except SyntaxError (List Token)
  | [] => .ok []
  | '?' :: rest =>
      (.anyChar :: ·) <$> tokensFrom (some '?') (position + 1) rest
  | '*' :: '*' :: '*' :: _ => .error ⟨position + 2, .starRun⟩
  | '*' :: '*' :: rest =>
      if startsComponent before then
        match rest with
        | [] => .ok [.anyComponents]
        | '/' :: rest =>
            (.anyComponents :: ·) <$>
              tokensFrom (some '/') (position + 3) rest
        | _ => .error ⟨position + 2, .partialComponent⟩
      else
        .error ⟨position - 1, .partialComponent⟩
  | '*' :: rest =>
      (.anyText :: ·) <$> tokensFrom (some '*') (position + 1) rest
  | '[' :: '!' :: member :: rest =>
      classFrom position true [member] (position + 3) rest
  | '[' :: member :: rest =>
      classFrom position false [member] (position + 2) rest
  | '[' :: [] => .error ⟨position, .openClass⟩
  | char :: rest =>
      (.literal char :: ·) <$> tokensFrom (some char) (position + 1) rest

/-- The tokens from a position inside a class, whose members so far are given
from the latest to the first. -/
def classFrom
    (opened : Nat) (negated : Bool) (members : List Char) (position : Nat) :
    List Char → Except SyntaxError (List Token)
  | [] => .error ⟨opened, .openClass⟩
  | ']' :: rest =>
      (.ofClass negated (rangesOf members.reverse) :: ·) <$>
        tokensFrom (some ']') (position + 1) rest
  | member :: rest =>
      classFrom opened negated (member :: members) (position + 1) rest

end

/-- The tokens of a pattern. -/
def parse (pattern : List Char) : Except SyntaxError (List Token) :=
  tokensFrom none 0 pattern

end HeaderAudit.Wildcard
