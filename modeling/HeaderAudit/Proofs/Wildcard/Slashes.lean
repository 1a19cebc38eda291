import HeaderAudit.Proofs.Wildcard.Cuts
import HeaderAudit.Proofs.Wildcard.Reading

/-! Without `**`, a slash of a text can only be matched by a slash of the
pattern that stands outside of the classes. -/

namespace HeaderAudit.Wildcard

mutual

/-- What a pattern has outside of its classes. -/
def outsideClasses : List Char → List Char
  | [] => []
  | '[' :: '!' :: _ :: rest => behindClass rest
  | '[' :: _ :: rest => behindClass rest
  | char :: rest => char :: outsideClasses rest

/-- What a pattern has outside of its classes, from a place behind the first
member of one. -/
def behindClass : List Char → List Char
  | [] => []
  | ']' :: rest => outsideClasses rest
  | _ :: rest => behindClass rest

end

theorem outsideClasses_cons
    {char : Char} (notOpen : char ≠ '[') (rest : List Char) :
    outsideClasses (char :: rest) = char :: outsideClasses rest := by
  rw [outsideClasses]
  · exact fun _ _ same _ => notOpen same
  · exact fun _ _ same _ => notOpen same

theorem behindClass_append
    {others : List Char} (notClosed : ']' ∉ others) (rest : List Char) :
    behindClass (others ++ ']' :: rest) = outsideClasses rest := by
  induction others with
  | nil => rw [List.nil_append, behindClass]
  | cons member others inductionHypothesis =>
      rw [List.mem_cons, not_or] at notClosed
      rw [List.cons_append, behindClass, inductionHypothesis notClosed.2]
      exact Ne.symm notClosed.1

-- A bracket that comes first in a class is a member and does not close it.
example : outsideClasses "a/[]/]b[!]/]/c".toList = "a/b/c".toList := by
  decide

/-- A pattern that is read without `**` has a slash outside of its classes for
each literal slash among its tokens. -/
theorem Reads.count_slash
    {begins : Bool} {pattern : List Char} {tokens : List Token}
    (reads : Reads begins pattern tokens)
    (flat : .anyComponents ∉ tokens) :
    (outsideClasses pattern).count '/' = tokens.count (.literal '/') := by
  induction reads with
  | atEnd =>
      rw [outsideClasses]
      rfl
  | @literal _ char _ _ ordinary _ inductionHypothesis =>
      rw [List.mem_cons, not_or] at flat
      have notOpen : char ≠ '[' :=
        fun same => ordinary (Or.inr (Or.inr same))
      rw [outsideClasses_cons notOpen, List.count_cons, List.count_cons,
        inductionHypothesis flat.2]
      simp
  | anyChar _ inductionHypothesis =>
      rw [List.mem_cons, not_or] at flat
      rw [outsideClasses_cons (by decide), List.count_cons_of_ne (by decide),
        List.count_cons_of_ne (by decide), inductionHypothesis flat.2]
  | anyText _ _ inductionHypothesis =>
      rw [List.mem_cons, not_or] at flat
      rw [outsideClasses_cons (by decide), List.count_cons_of_ne (by decide),
        List.count_cons_of_ne (by decide), inductionHypothesis flat.2]
  | remainder => exact absurd List.mem_cons_self flat
  | anyComponents => exact absurd List.mem_cons_self flat
  | @ofClass _ first others _ _ unmarked notClosed _ inductionHypothesis =>
      rw [List.mem_cons, not_or] at flat
      have noLiteral :
          Token.ofClass false (rangesOf (first :: others)) ≠ .literal '/' := by
        simp
      rw [outsideClasses, behindClass_append notClosed,
        List.count_cons_of_ne noLiteral, inductionHypothesis flat.2]
      exact fun _ _ marked _ => unmarked marked
  | @complement _ first others _ _ notClosed _ inductionHypothesis =>
      rw [List.mem_cons, not_or] at flat
      have noLiteral :
          Token.ofClass true (rangesOf (first :: others)) ≠ .literal '/' := by
        simp
      rw [outsideClasses, behindClass_append notClosed,
        List.count_cons_of_ne noLiteral, inductionHypothesis flat.2]

/-- Two stars in a row are the only spelling of `**`. -/
theorem Reads.stars_of_mem
    {begins : Bool} {pattern : List Char} {tokens : List Token}
    (reads : Reads begins pattern tokens)
    (deep : .anyComponents ∈ tokens) :
    ['*', '*'] <:+: pattern := by
  induction reads with
  | atEnd => cases deep
  | literal _ _ inductionHypothesis =>
      exact List.infix_cons (inductionHypothesis (by simpa using deep))
  | anyChar _ inductionHypothesis =>
      exact List.infix_cons (inductionHypothesis (by simpa using deep))
  | anyText _ _ inductionHypothesis =>
      exact List.infix_cons (inductionHypothesis (by simpa using deep))
  | remainder => exact List.infix_refl _
  | @anyComponents rest _ _ _ =>
      exact (List.prefix_append ['*', '*'] ('/' :: rest)).isInfix
  | @ofClass _ first others rest _ _ _ _ inductionHypothesis =>
      have inRest := inductionHypothesis (by simpa using deep)
      have behind := List.suffix_append ('[' :: first :: others ++ [']']) rest
      exact inRest.trans (by simpa using behind.isInfix)
  | @complement _ first others rest _ _ _ inductionHypothesis =>
      have inRest := inductionHypothesis (by simpa using deep)
      have behind :=
        List.suffix_append ('[' :: '!' :: first :: others ++ [']']) rest
      exact inRest.trans (by simpa using behind.isInfix)

/-- No token but `**` and the literal slash takes a slash. -/
theorem Token.count_slash_of_fits
    {token : Token} {piece : List Char}
    (flat : token ≠ .anyComponents) (fits : token.Fits piece) :
    piece.count '/' = [token].count (.literal '/') := by
  cases token with
  | literal char =>
      have whole : piece = [char] := fits
      rw [whole, List.count_singleton, List.count_singleton]
      simp
  | anyChar =>
      obtain ⟨char, rfl, notSlash⟩ := fits
      rw [List.count_cons_of_ne notSlash]
      rfl
  | ofClass negated ranges =>
      cases negated <;>
        · obtain ⟨char, rfl, notSlash, _⟩ := fits
          rw [List.count_cons_of_ne notSlash]
          rfl
  | anyText =>
      have noSlash : '/' ∉ piece := fits
      rw [List.count_eq_zero_of_not_mem noSlash]
      rfl
  | anyComponents => exact absurd rfl flat

theorem Cut.count_slash
    {tokens : List Token} {pieces : List (List Char)}
    (cut : Cut tokens pieces) (flat : .anyComponents ∉ tokens) :
    pieces.flatten.count '/' = tokens.count (.literal '/') := by
  induction cut with
  | none => rfl
  | remainder => exact absurd List.mem_cons_self flat
  | @piece token piece tokens pieces fits _ inductionHypothesis =>
      rw [List.mem_cons, not_or] at flat
      have first := token.count_slash_of_fits (Ne.symm flat.1) fits
      rw [List.flatten_cons, List.count_append, first,
        inductionHypothesis flat.2, ← List.count_append,
        List.singleton_append]

/-- All texts that a pattern without `**` matches have as many slashes as the
pattern has outside of its classes. -/
theorem count_slash_of_matches
    {pattern text : List Char} {tokens : List Token}
    (read : parse pattern = .ok tokens)
    (noStars : ¬ ['*', '*'] <:+: pattern) (matched : Matches tokens text) :
    text.count '/' = (outsideClasses pattern).count '/' := by
  have reads := parse_eq_ok_iff.1 read
  have flat : .anyComponents ∉ tokens :=
    fun deep => noStars (reads.stars_of_mem deep)
  obtain ⟨pieces, cut, rfl⟩ := matched
  rw [cut.count_slash flat, reads.count_slash flat]

end HeaderAudit.Wildcard
