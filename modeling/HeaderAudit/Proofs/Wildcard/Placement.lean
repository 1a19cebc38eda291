import HeaderAudit.Proofs.Wildcard.Reading

namespace HeaderAudit.Wildcard

/-- What follows the token begins a component. -/
def Token.endsComponent : Token → Bool
  | .literal char => char == '/'
  | .anyComponents => true
  | _ => false

/-- `**` stands only where a component begins. -/
def WellPlaced : Bool → List Token → Prop
  | _, [] => True
  | begins, token :: tokens =>
      (token = .anyComponents → begins = true) ∧
        WellPlaced token.endsComponent tokens

theorem WellPlaced.of_head
    {begins : Bool} {tokens : List Token}
    (placed : WellPlaced begins tokens)
    (first : tokens.head? = some .anyComponents) :
    begins = true := by
  cases tokens with
  | nil => cases first
  | cons token tokens =>
      injection first with isComponents
      exact placed.1 isComponents

/-- The tokens of a pattern are well placed behind what was read before it. -/
theorem Reads.wellPlaced
    {begins : Bool} {pattern : List Char} {tokens : List Token}
    (reads : Reads begins pattern tokens) :
    WellPlaced begins tokens := by
  induction reads with
  | atEnd => trivial
  | literal _ _ restPlaced => exact ⟨nofun, restPlaced⟩
  | anyChar _ restPlaced => exact ⟨nofun, restPlaced⟩
  | anyText _ _ restPlaced => exact ⟨nofun, restPlaced⟩
  | remainder => exact ⟨fun _ => rfl, trivial⟩
  | anyComponents _ restPlaced => exact ⟨fun _ => rfl, restPlaced⟩
  | ofClass _ _ _ restPlaced => exact ⟨nofun, restPlaced⟩
  | complement _ _ restPlaced => exact ⟨nofun, restPlaced⟩

theorem wellPlaced_of_parse
    {pattern : List Char} {tokens : List Token}
    (read : parse pattern = .ok tokens) :
    WellPlaced true tokens :=
  (parse_eq_ok_iff.1 read).wellPlaced

end HeaderAudit.Wildcard
