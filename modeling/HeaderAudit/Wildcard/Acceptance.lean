import HeaderAudit.Wildcard.Token

/-! The decision goes through the tokens from the last to the first and keeps,
for every suffix of the text, whether the tokens so far accept it. -/

namespace HeaderAudit.Wildcard

/-- A token for one character takes this character. -/
def Token.takes (tested : Char) : Token → Bool
  | .literal char => tested == char
  | .anyChar => tested != '/'
  | .ofClass negated ranges =>
      tested != '/' && ranges.any (·.holds tested) != negated
  | .anyText => false
  | .anyComponents => false

/-- For every suffix of a text, from the whole text to the empty one: it is
empty. -/
def atEnd : List Char → List Bool
  | [] => [true]
  | _ :: rest => false :: atEnd rest

/-- For every suffix: it begins with a character that is taken, and what
follows is accepted. -/
def afterOne (takes : Char → Bool) : List Char → List Bool → List Bool
  | char :: rest, _ :: accepted =>
      (takes char && accepted.headD false) :: afterOne takes rest accepted
  | _, _ => [false]

/-- For every suffix: it is accepted after a text without a slash. -/
def afterText : List Char → List Bool → List Bool
  | char :: rest, now :: accepted =>
      let later := afterText rest accepted
      (now || char != '/' && later.headD false) :: later
  | _, accepted => accepted

/-- For every suffix: it is accepted after some slash in it. -/
def afterSlash : List Char → List Bool → List Bool
  | char :: rest, _ :: accepted =>
      let later := afterSlash rest accepted
      (char == '/' && accepted.headD false || later.headD false) :: later
  | _, _ => [false]

/-- For every suffix of a text: the tokens accept it. -/
def acceptedSuffixes : List Token → List Char → List Bool
  | [], text => atEnd text
  | [.anyComponents], text => true :: text.map fun _ => true
  | .anyComponents :: tokens, text =>
      let accepted := acceptedSuffixes tokens text
      accepted.zipWith (· || ·) (afterSlash text accepted)
  | .anyText :: tokens, text =>
      afterText text (acceptedSuffixes tokens text)
  | token :: tokens, text =>
      afterOne (fun char => token.takes char) text
        (acceptedSuffixes tokens text)

/-- The tokens accept the whole text. -/
def accepts (tokens : List Token) (text : List Char) : Bool :=
  (acceptedSuffixes tokens text).headD false

end HeaderAudit.Wildcard
