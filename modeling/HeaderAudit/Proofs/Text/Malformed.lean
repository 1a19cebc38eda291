import HeaderAudit.Proofs.Text.Utf8

/-! One malformed sequence, wherever it stands, keeps all the bytes around it
from being the encoding of a text. -/

namespace HeaderAudit.Utf8

/-- The bytes have the form of a sequence that carries the number, whether or
not the number may be written so. -/
inductive Carries : List UInt8 → Nat → Prop
  | one {first : UInt8} :
      first.toNat < 128 → Carries [first] first.toNat
  | two {first second : UInt8} :
      192 ≤ first.toNat → first.toNat < 224 →
      isContinuation second = true →
      Carries [first, second] (first.toNat % 32 * 64 + payload second)
  | three {first second third : UInt8} :
      224 ≤ first.toNat → first.toNat < 240 →
      isContinuation second = true → isContinuation third = true →
      Carries [first, second, third]
        ((first.toNat % 16 * 64 + payload second) * 64 + payload third)
  | four {first second third fourth : UInt8} :
      240 ≤ first.toNat → first.toNat < 248 →
      isContinuation second = true → isContinuation third = true →
      isContinuation fourth = true →
      Carries [first, second, third, fourth]
        (((first.toNat % 8 * 64 + payload second) * 64 + payload third) * 64 +
          payload fourth)

/-- The number of bytes in the shortest form that carries a number. -/
def width (number : Nat) : Nat :=
  if number < 0x80 then 1
  else if number < 0x800 then 2
  else if number < 0x10000 then 3
  else 4

/-- The bytes do not go on with a sequence that was begun before them. -/
def EndsBefore (after : List UInt8) : Prop :=
  ∀ next, after.head? = some next → isContinuation next = false

/-- The bytes are no sequence of UTF-8 where these bytes come after them. -/
inductive IsMalformed : List UInt8 → List UInt8 → Prop
  /-- A shorter form carries the same number. -/
  | overlong {bad after : List UInt8} {number : Nat} :
      Carries bad number → width number < bad.length →
      IsMalformed bad after
  /-- The number is kept for halves of pairs. -/
  | surrogate {bad after : List UInt8} {number : Nat} :
      Carries bad number → 0xD800 ≤ number → number ≤ 0xDFFF →
      IsMalformed bad after
  /-- No scalar value is as great as the number. -/
  | tooLarge {bad after : List UInt8} {number : Nat} :
      Carries bad number → 0x10FFFF < number →
      IsMalformed bad after
  /-- The sequence ends too early. -/
  | truncated {bad missing after : List UInt8} {number : Nat} :
      Carries (bad ++ missing) number → bad ≠ [] → missing ≠ [] →
      EndsBefore after →
      IsMalformed bad after

theorem none_mem_pieces_of_not_isFirst
    {first : UInt8} (notAscii : 128 ≤ first.toNat)
    (rejected : first.toNat < 194 ∨ 244 < first.toNat) (rest : List UInt8) :
    none ∈ pieces (first :: rest) := by
  have notOne : ¬ first.toNat < 128 := by omega
  rw [pieces.eq_def]
  simp [UInt8.lt_iff_toNat_lt, notOne, rejected]

theorem none_mem_pieces_of_not_isSecond
    {first second : UInt8} (notAscii : 128 ≤ first.toNat)
    (rejected : isSecond first second = false) (rest : List UInt8) :
    none ∈ pieces (first :: second :: rest) := by
  have notOne : ¬ first.toNat < 128 := by omega
  by_cases isFirst : first.toNat < 194 ∨ 244 < first.toNat
  · exact none_mem_pieces_of_not_isFirst notAscii isFirst _
  · rw [pieces.eq_def]
    simp [UInt8.lt_iff_toNat_lt, notOne, isFirst, rejected]

section Truncated

variable {first second third : UInt8} {after : List UInt8}

theorem none_mem_pieces_of_one
    (notAscii : 128 ≤ first.toNat) (ends : EndsBefore after) :
    none ∈ pieces (first :: after) := by
  have notOne : ¬ first.toNat < 128 := by omega
  by_cases isFirst : first.toNat < 194 ∨ 244 < first.toNat
  · exact none_mem_pieces_of_not_isFirst notAscii isFirst _
  cases after with
  | nil =>
      rw [pieces.eq_def]
      simp [UInt8.lt_iff_toNat_lt, notOne, isFirst]
  | cons next rest =>
      have rejected : isSecond first next = false := by
        simp [isSecond, ends next rfl]
      exact none_mem_pieces_of_not_isSecond notAscii rejected rest

theorem none_mem_pieces_of_two
    (long : 224 ≤ first.toNat) (ends : EndsBefore after) :
    none ∈ pieces (first :: second :: after) := by
  have notOne : ¬ first.toNat < 128 := by omega
  have notTwo : ¬ first.toNat < 224 := by omega
  by_cases isFirst : first.toNat < 194 ∨ 244 < first.toNat
  · exact none_mem_pieces_of_not_isFirst (by omega) isFirst _
  by_cases follows : isSecond first second = true
  · rw [pieces.eq_def]
    cases after with
    | nil => simp [UInt8.lt_iff_toNat_lt, notOne, isFirst, follows, notTwo]
    | cons next rest =>
        simp [UInt8.lt_iff_toNat_lt, notOne, isFirst, follows, notTwo,
          ends next rfl]
  · exact
      none_mem_pieces_of_not_isSecond (by omega)
        (Bool.eq_false_iff.2 follows) after

theorem none_mem_pieces_of_three
    (long : 240 ≤ first.toNat) (continues : isContinuation third = true)
    (ends : EndsBefore after) :
    none ∈ pieces (first :: second :: third :: after) := by
  have notOne : ¬ first.toNat < 128 := by omega
  have notTwo : ¬ first.toNat < 224 := by omega
  have notThree : ¬ first.toNat < 240 := by omega
  by_cases isFirst : first.toNat < 194 ∨ 244 < first.toNat
  · exact none_mem_pieces_of_not_isFirst (by omega) isFirst _
  by_cases follows : isSecond first second = true
  · rw [pieces.eq_def]
    cases after with
    | nil =>
        simp [UInt8.lt_iff_toNat_lt, notOne, isFirst, follows, notTwo,
          continues, notThree]
    | cons next rest =>
        simp [UInt8.lt_iff_toNat_lt, notOne, isFirst, follows, notTwo,
          continues, notThree, ends next rfl]
  · exact
      none_mem_pieces_of_not_isSecond (by omega)
        (Bool.eq_false_iff.2 follows) _

end Truncated

variable {bad after : List UInt8} {number : Nat}

theorem Carries.exists_first (carries : Carries bad number) :
    ∃ first rest, bad = first :: rest ∧ isContinuation first = false := by
  simp only [← Bool.not_eq_true, isContinuation_iff]
  cases carries with
  | one ascii => exact ⟨_, _, rfl, by omega⟩
  | two low high => exact ⟨_, _, rfl, by omega⟩
  | three low high => exact ⟨_, _, rfl, by omega⟩
  | four low high => exact ⟨_, _, rfl, by omega⟩

theorem IsMalformed.exists_first (malformed : IsMalformed bad after) :
    ∃ first rest, bad = first :: rest ∧ isContinuation first = false := by
  cases malformed with
  | overlong carries => exact carries.exists_first
  | surrogate carries => exact carries.exists_first
  | tooLarge carries => exact carries.exists_first
  | truncated carries notEmpty =>
      obtain ⟨first, rest, whole, begins⟩ := carries.exists_first
      obtain ⟨head, others, rfl⟩ := List.exists_cons_of_ne_nil notEmpty
      injection whole with same
      exact ⟨head, others, rfl, same ▸ begins⟩

theorem one_le_width (number : Nat) : 1 ≤ width number := by
  unfold width
  (repeat' split) <;> omega

theorem width_lt_two_iff : width number < 2 ↔ number < 0x80 := by
  unfold width
  (repeat' split) <;> omega

theorem width_lt_three_iff : width number < 3 ↔ number < 0x800 := by
  unfold width
  (repeat' split) <;> omega

theorem width_lt_four_iff : width number < 4 ↔ number < 0x10000 := by
  unfold width
  (repeat' split) <;> omega

/-- A number that must not be written as it is shows in the first two bytes. -/
theorem Carries.none_mem_pieces
    (carries : Carries bad number)
    (wrong :
      width number < bad.length ∨
        0xD800 ≤ number ∧ number ≤ 0xDFFF ∨ 0x10FFFF < number) :
    none ∈ pieces (bad ++ after) := by
  cases carries with
  | @one first ascii =>
      have notShorter := one_le_width first.toNat
      rw [List.length_singleton] at wrong
      omega
  | @two first second low high continues =>
      have secondRange := isContinuation_iff.1 continues
      simp only [List.length_cons, List.length_nil, Nat.reduceAdd,
        width_lt_two_iff, payload] at wrong
      exact none_mem_pieces_of_not_isFirst (by omega) (by omega) _
  | @three first second third low high secondContinues thirdContinues =>
      have secondRange := isContinuation_iff.1 secondContinues
      have thirdRange := isContinuation_iff.1 thirdContinues
      simp only [List.length_cons, List.length_nil, Nat.reduceAdd,
        width_lt_three_iff, payload] at wrong
      have rejected : isSecond first second = false := by
        rw [← Bool.not_eq_true, isSecond_iff]
        omega
      exact none_mem_pieces_of_not_isSecond (by omega) rejected _
  | @four first second third fourth low high secondContinues thirdContinues
      fourthContinues =>
      have secondRange := isContinuation_iff.1 secondContinues
      have thirdRange := isContinuation_iff.1 thirdContinues
      have fourthRange := isContinuation_iff.1 fourthContinues
      simp only [List.length_cons, List.length_nil, Nat.reduceAdd,
        width_lt_four_iff, payload] at wrong
      by_cases isFirst : 244 < first.toNat
      · exact none_mem_pieces_of_not_isFirst (by omega) (Or.inr isFirst) _
      · have rejected : isSecond first second = false := by
          rw [← Bool.not_eq_true, isSecond_iff]
          omega
        exact none_mem_pieces_of_not_isSecond (by omega) rejected _

/-- A part of a sequence is no scalar value where the rest does not follow. -/
theorem Carries.none_mem_pieces_of_truncated
    {missing : List UInt8}
    (carries : Carries (bad ++ missing) number)
    (notEmpty : bad ≠ []) (isMissing : missing ≠ [])
    (ends : EndsBefore after) :
    none ∈ pieces (bad ++ after) := by
  generalize whole : bad ++ missing = bytes at carries
  cases carries with
  | one ascii =>
      rcases List.append_eq_singleton_iff.1 whole with parts | parts
      · exact absurd parts.1 notEmpty
      · exact absurd parts.2 isMissing
  | two low high continues =>
      match bad, whole with
      | [first], whole =>
          injection whole with same
          subst same
          exact none_mem_pieces_of_one (by omega) ends
      | first :: second :: others, whole =>
          simp [isMissing] at whole
  | three low high secondContinues thirdContinues =>
      match bad, whole with
      | [first], whole =>
          injection whole with same
          subst same
          exact none_mem_pieces_of_one (by omega) ends
      | [first, second], whole =>
          injection whole with same
          subst same
          exact none_mem_pieces_of_two (by omega) ends
      | first :: second :: third :: others, whole =>
          simp [isMissing] at whole
  | four low high secondContinues thirdContinues fourthContinues =>
      match bad, whole with
      | [first], whole =>
          injection whole with same
          subst same
          exact none_mem_pieces_of_one (by omega) ends
      | [first, second], whole =>
          injection whole with same
          subst same
          exact none_mem_pieces_of_two (by omega) ends
      | [first, second, third], whole =>
          injection whole with same rest
          injection rest with _ rest
          injection rest with third
          subst same third
          exact none_mem_pieces_of_three low thirdContinues ends
      | first :: second :: third :: fourth :: others, whole =>
          simp [isMissing] at whole

theorem IsMalformed.none_mem_pieces (malformed : IsMalformed bad after) :
    none ∈ pieces (bad ++ after) := by
  cases malformed with
  | overlong carries shorter => exact carries.none_mem_pieces (Or.inl shorter)
  | surrogate carries low high =>
      exact carries.none_mem_pieces (Or.inr (Or.inl ⟨low, high⟩))
  | tooLarge carries large =>
      exact carries.none_mem_pieces (Or.inr (Or.inr large))
  | truncated carries notEmpty isMissing ends =>
      exact carries.none_mem_pieces_of_truncated notEmpty isMissing ends

/-- No encoding of a text has a malformed sequence in it, at its beginning or
behind any other bytes. -/
theorem IsMalformed.ne_encode
    (malformed : IsMalformed bad after) (before : List UInt8)
    (text : List Char) :
    before ++ bad ++ after ≠ encode text := by
  intro encoded
  have unread := malformed.none_mem_pieces
  obtain ⟨first, rest, rfl, begins⟩ := malformed.exists_first
  have inWhole : none ∈ pieces (before ++ (first :: rest) ++ after) := by
    rw [List.append_assoc, List.cons_append,
      pieces_append_of_begins begins]
    exact List.mem_append_right _ unread
  rw [encoded, pieces_encode] at inWhole
  obtain ⟨char, _, impossible⟩ := List.mem_map.1 inWhole
  cases impossible

end HeaderAudit.Utf8
