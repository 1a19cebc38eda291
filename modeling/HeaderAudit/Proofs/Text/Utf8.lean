import HeaderAudit.Text.Utf8

/-! `Spells` is the grammar that decoding and encoding are compared with. A
byte that continues nothing begins a piece wherever it stands, so a sequence
can be cut there. -/

namespace HeaderAudit.Utf8

theorem isContinuation_iff {byte : UInt8} :
    isContinuation byte = true ↔ 128 ≤ byte.toNat ∧ byte.toNat < 192 := by
  simp [isContinuation, UInt8.le_iff_toNat_le, UInt8.lt_iff_toNat_lt]

theorem isSecond_iff {first second : UInt8} :
    isSecond first second = true ↔
      (128 ≤ second.toNat ∧ second.toNat < 192) ∧
        (first.toNat = 224 → 160 ≤ second.toNat) ∧
        (first.toNat = 237 → second.toNat < 160) ∧
        (first.toNat = 240 → 144 ≤ second.toNat) ∧
        (first.toNat = 244 → second.toNat < 144) := by
  simp only [isSecond, Bool.and_eq_true, Bool.or_eq_true, isContinuation_iff,
    bne_iff_ne, ne_eq, ← UInt8.toNat_inj, UInt8.le_iff_toNat_le,
    UInt8.lt_iff_toNat_lt, decide_eq_true_eq, UInt8.reduceToNat, and_assoc]
  omega

/-- Bytes that are the shortest form of a scalar value. -/
inductive Spells : List UInt8 → Char → Prop
  | one {first : UInt8} :
      first.toNat < 128 →
      Spells [first] (Char.ofNat first.toNat)
  | two {first second : UInt8} :
      194 ≤ first.toNat → first.toNat < 224 →
      isSecond first second = true →
      Spells [first, second]
        (Char.ofNat (first.toNat % 32 * 64 + payload second))
  | three {first second third : UInt8} :
      224 ≤ first.toNat → first.toNat < 240 →
      isSecond first second = true → isContinuation third = true →
      Spells [first, second, third]
        (Char.ofNat
          ((first.toNat % 16 * 64 + payload second) * 64 + payload third))
  | four {first second third fourth : UInt8} :
      240 ≤ first.toNat → first.toNat < 245 →
      isSecond first second = true → isContinuation third = true →
      isContinuation fourth = true →
      Spells [first, second, third, fourth]
        (Char.ofNat
          (((first.toNat % 8 * 64 + payload second) * 64 + payload third) *
              64 + payload fourth))

namespace Spells

variable {bytes : List UInt8} {char : Char}

/-- The bytes are read as one piece, whatever follows them. -/
theorem pieces_append (spells : Spells bytes char) (rest : List UInt8) :
    pieces (bytes ++ rest) = some char :: pieces rest := by
  cases spells with
  | one ascii =>
      rw [List.cons_append, pieces.eq_def]
      simp [UInt8.lt_iff_toNat_lt, ascii]
  | @two first second low high follows =>
      have notAscii : ¬ first.toNat < 128 := by omega
      have isFirst : ¬ (first.toNat < 194 ∨ 244 < first.toNat) := by omega
      rw [List.cons_append, pieces.eq_def]
      simp [UInt8.lt_iff_toNat_lt, notAscii, isFirst, follows, high]
  | @three first second third low high follows continues =>
      have notAscii : ¬ first.toNat < 128 := by omega
      have isFirst : ¬ (first.toNat < 194 ∨ 244 < first.toNat) := by omega
      have notTwo : ¬ first.toNat < 224 := by omega
      rw [List.cons_append, pieces.eq_def]
      simp [UInt8.lt_iff_toNat_lt, notAscii, isFirst, notTwo, follows,
        continues, high]
  | @four first second third fourth low high follows third fourth =>
      have notAscii : ¬ first.toNat < 128 := by omega
      have isFirst : ¬ (first.toNat < 194 ∨ 244 < first.toNat) := by omega
      have notTwo : ¬ first.toNat < 224 := by omega
      have notThree : ¬ first.toNat < 240 := by omega
      rw [List.cons_append, pieces.eq_def]
      simp [UInt8.lt_iff_toNat_lt, notAscii, isFirst, notTwo, notThree,
        follows, third, fourth]

theorem toNat_ofNat_of_isValidChar
    {value : Nat} (valid : value.isValidChar) :
    (Char.ofNat value).val.toNat = value := by
  rw [Char.ofNat, dif_pos valid]
  rfl

theorem encodeChar_eq (spells : Spells bytes char) :
    String.utf8EncodeChar char = bytes := by
  cases spells with
  | @one first ascii =>
      have valid : first.toNat.isValidChar := Or.inl (by omega)
      have same := toNat_ofNat_of_isValidChar valid
      have one : first.toNat ≤ 127 := by omega
      simp only [String.utf8EncodeChar, same, one, if_true,
        UInt8.ofNat_toNat]
  | @two first second low high follows =>
      obtain ⟨secondRange, _⟩ := isSecond_iff.1 follows
      generalize valueEq : first.toNat % 32 * 64 + payload second = value
      unfold payload at valueEq
      have valid : value.isValidChar := Or.inl (by omega)
      have same := toNat_ofNat_of_isValidChar valid
      have notOne : ¬ value ≤ 127 := by omega
      have two : value ≤ 2047 := by omega
      simp only [String.utf8EncodeChar, same, notOne, two, if_true, if_false,
        List.cons.injEq, and_true, ← UInt8.toNat_inj, UInt8.toNat_ofNat']
      omega
  | @three first second third low high follows continues =>
      obtain ⟨secondRange, overlong, surrogate, _⟩ := isSecond_iff.1 follows
      have thirdRange := isContinuation_iff.1 continues
      generalize valueEq :
        (first.toNat % 16 * 64 + payload second) * 64 + payload third = value
      unfold payload at valueEq
      have valid : value.isValidChar := by
        unfold Nat.isValidChar
        omega
      have same := toNat_ofNat_of_isValidChar valid
      have notOne : ¬ value ≤ 127 := by omega
      have notTwo : ¬ value ≤ 2047 := by omega
      have three : value ≤ 65535 := by omega
      simp only [String.utf8EncodeChar, same, notOne, notTwo, three, if_true,
        if_false, List.cons.injEq, and_true, ← UInt8.toNat_inj,
        UInt8.toNat_ofNat']
      omega
  | @four first second third fourth low high follows thirdContinues
      fourthContinues =>
      obtain ⟨secondRange, _, _, overlong, large⟩ := isSecond_iff.1 follows
      have thirdRange := isContinuation_iff.1 thirdContinues
      have fourthRange := isContinuation_iff.1 fourthContinues
      generalize valueEq :
        ((first.toNat % 8 * 64 + payload second) * 64 + payload third) * 64 +
          payload fourth = value
      unfold payload at valueEq
      have valid : value.isValidChar := by
        unfold Nat.isValidChar
        omega
      have same := toNat_ofNat_of_isValidChar valid
      have notOne : ¬ value ≤ 127 := by omega
      have notTwo : ¬ value ≤ 2047 := by omega
      have notThree : ¬ value ≤ 65535 := by omega
      simp only [String.utf8EncodeChar, same, notOne, notTwo, notThree,
        if_false, List.cons.injEq, and_true, ← UInt8.toNat_inj,
        UInt8.toNat_ofNat']
      omega

/-- A character with an ASCII byte is that byte. -/
theorem eq_of_mem_ascii
    {byte : UInt8} (spells : Spells bytes char) (ascii : byte < 0x80)
    (member : byte ∈ bytes) :
    char = Char.ofNat byte.toNat := by
  have small : byte.toNat < 128 := UInt8.lt_iff_toNat_lt.1 ascii
  cases spells with
  | one =>
      rw [List.mem_singleton.1 member]
  | two leadLow _ second =>
      have secondLow := (isSecond_iff.1 second).1.1
      simp only [List.mem_cons, List.not_mem_nil, or_false] at member
      rcases member with rfl | rfl <;> omega
  | three leadLow _ second third =>
      have secondLow := (isSecond_iff.1 second).1.1
      have thirdLow := (isContinuation_iff.1 third).1
      simp only [List.mem_cons, List.not_mem_nil, or_false] at member
      rcases member with rfl | rfl | rfl <;> omega
  | four leadLow _ second third fourth =>
      have secondLow := (isSecond_iff.1 second).1.1
      have thirdLow := (isContinuation_iff.1 third).1
      have fourthLow := (isContinuation_iff.1 fourth).1
      simp only [List.mem_cons, List.not_mem_nil, or_false] at member
      rcases member with rfl | rfl | rfl | rfl <;> omega

end Spells

/-- Every scalar value has a spelling. -/
theorem exists_spells (char : Char) : ∃ bytes, Spells bytes char := by
  have valid : char.val.toNat.isValidChar := char.valid
  have same : Char.ofNat char.val.toNat = char := Char.ofNat_toNat char
  unfold Nat.isValidChar at valid
  generalize char.val.toNat = value at valid same
  have byte (number : Nat) (small : number < 256) :
      (UInt8.ofNat number).toNat = number := by
    rw [UInt8.toNat_ofNat']
    omega
  by_cases one : value < 128
  · have first := byte value (by omega)
    have spells : Spells _ _ := Spells.one (by rwa [first])
    rw [first, same] at spells
    exact ⟨_, spells⟩
  have last := byte (128 + value % 64) (by omega)
  by_cases two : value < 2048
  · have first := byte (192 + value / 64) (by omega)
    have follows :
        isSecond (.ofNat (192 + value / 64)) (.ofNat (128 + value % 64)) =
          true := by
      rw [isSecond_iff, first, last]
      omega
    have spells := Spells.two (by omega) (by omega) follows
    have valueEq :
        (192 + value / 64) % 32 * 64 + (128 + value % 64) % 64 = value := by
      omega
    rw [payload, first, last, valueEq, same] at spells
    exact ⟨_, spells⟩
  have middle := byte (128 + value / 64 % 64) (by omega)
  have lastContinues : isContinuation (.ofNat (128 + value % 64)) = true := by
    rw [isContinuation_iff, last]
    omega
  by_cases three : value < 65536
  · have first := byte (224 + value / 4096) (by omega)
    have follows :
        isSecond (.ofNat (224 + value / 4096))
            (.ofNat (128 + value / 64 % 64)) = true := by
      rw [isSecond_iff, first, middle]
      omega
    have spells := Spells.three (by omega) (by omega) follows lastContinues
    have valueEq :
        ((224 + value / 4096) % 16 * 64 + (128 + value / 64 % 64) % 64) * 64 +
          (128 + value % 64) % 64 = value := by
      omega
    rw [payload, payload, first, middle, last, valueEq, same] at spells
    exact ⟨_, spells⟩
  · have first := byte (240 + value / 262144) (by omega)
    have second := byte (128 + value / 4096 % 64) (by omega)
    have follows :
        isSecond (.ofNat (240 + value / 262144))
            (.ofNat (128 + value / 4096 % 64)) = true := by
      rw [isSecond_iff, first, second]
      omega
    have middleContinues :
        isContinuation (.ofNat (128 + value / 64 % 64)) = true := by
      rw [isContinuation_iff, middle]
      omega
    have spells :=
      Spells.four (by omega) (by omega) follows middleContinues
        lastContinues
    have valueEq :
        (((240 + value / 262144) % 8 * 64 + (128 + value / 4096 % 64) % 64) *
            64 + (128 + value / 64 % 64) % 64) * 64 +
          (128 + value % 64) % 64 = value := by
      omega
    rw [payload, payload, payload, first, second, middle, last, valueEq,
      same] at spells
    exact ⟨_, spells⟩

@[simp]
theorem encode_cons (char : Char) (text : List Char) :
    encode (char :: text) = String.utf8EncodeChar char ++ encode text :=
  rfl

theorem pieces_encode_append (text : List Char) (rest : List UInt8) :
    pieces (encode text ++ rest) = text.map some ++ pieces rest := by
  induction text with
  | nil => rfl
  | cons char text inductionHypothesis =>
      obtain ⟨bytes, spells⟩ := exists_spells char
      rw [encode_cons, spells.encodeChar_eq, List.append_assoc,
        spells.pieces_append, inductionHypothesis, List.map_cons,
        List.cons_append]

theorem pieces_encode (text : List Char) :
    pieces (encode text) = text.map some := by
  have noRest := pieces_encode_append text []
  rwa [List.append_nil, pieces, List.append_nil] at noRest

theorem allPresent_eq_some_iff
    {value : Type} {values : List (Option value)} {present : List value} :
    allPresent values = some present ↔ values = present.map some := by
  induction values generalizing present with
  | nil =>
      cases present <;> simp [allPresent]
  | cons first rest inductionHypothesis =>
      cases first with
      | none => cases present <;> simp [allPresent]
      | some head =>
          cases present with
          | nil => simp [allPresent]
          | cons other others =>
              simp only [allPresent, Option.map_eq_some_iff,
                inductionHypothesis, List.cons.injEq, List.map_cons,
                Option.some.injEq]
              constructor
              · rintro ⟨_, same, rfl, rfl⟩
                exact ⟨rfl, same⟩
              · rintro ⟨rfl, same⟩
                exact ⟨others, same, rfl, rfl⟩

theorem encode_of_spells
    {bytes rest : List UInt8} {char : Char} {text : List Char}
    (spells : Spells bytes char)
    (read : some char :: pieces rest = text.map some)
    (restEncoded :
      ∀ {others : List Char},
        pieces rest = others.map some → encode others = rest) :
    encode text = bytes ++ rest := by
  cases text with
  | nil => cases read
  | cons head others =>
      rw [List.map_cons] at read
      injection read with sameHead restRead
      cases sameHead
      rw [encode_cons, spells.encodeChar_eq, restEncoded restRead]

theorem encode_of_pieces
    {bytes : List UInt8} {text : List Char}
    (read : pieces bytes = text.map some) :
    encode text = bytes := by
  fun_induction pieces bytes generalizing text with
  | case1 =>
      rw [List.map_eq_nil_iff.1 read.symm]
      rfl
  | case2 first rest ascii inductionHypothesis =>
      have spells : Spells [first] _ := .one (UInt8.lt_iff_toNat_lt.1 ascii)
      exact encode_of_spells spells read inductionHypothesis
  | case6 first notAscii isFirst second rest follows high
      inductionHypothesis =>
      simp only [UInt8.lt_iff_toNat_lt, Bool.or_eq_true, decide_eq_true_eq,
        Bool.not_eq_true', Bool.not_eq_false, UInt8.reduceToNat] at *
      have spells : Spells [first, second] _ :=
        .two (by omega) (by omega) follows
      exact encode_of_spells spells read inductionHypothesis
  | case9 first notAscii isFirst second follows notTwo third rest continues
      high inductionHypothesis =>
      simp only [UInt8.lt_iff_toNat_lt, Bool.or_eq_true, decide_eq_true_eq,
        Bool.not_eq_true', Bool.not_eq_false, UInt8.reduceToNat] at *
      have spells : Spells [first, second, third] _ :=
        .three (by omega) high follows continues
      exact encode_of_spells spells read inductionHypothesis
  | case12 first notAscii isFirst second follows notTwo third thirdContinues
      notThree fourth rest fourthContinues inductionHypothesis =>
      simp only [UInt8.lt_iff_toNat_lt, Bool.or_eq_true, decide_eq_true_eq,
        Bool.not_eq_true', Bool.not_eq_false, UInt8.reduceToNat] at *
      have spells : Spells [first, second, third, fourth] _ :=
        .four (by omega) (by omega) follows thirdContinues fourthContinues
      exact encode_of_spells spells read inductionHypothesis
  | _ => cases text <;> cases read

/-- Bytes decode to a text exactly when they are its encoding. -/
theorem decode_eq_some_iff {bytes : List UInt8} {text : List Char} :
    decode bytes = some text ↔ bytes = encode text := by
  unfold decode
  rw [allPresent_eq_some_iff]
  constructor
  · intro read
    exact (encode_of_pieces read).symm
  · rintro rfl
    exact pieces_encode text

/-- Encoded texts begin with each other as the texts do. -/
theorem encode_prefix_encode_iff {front text : List Char} :
    encode front <+: encode text ↔ front <+: text := by
  constructor
  · rintro ⟨rest, encoded⟩
    have read : front.map some ++ pieces rest = text.map some := by
      rw [← pieces_encode_append, encoded, pieces_encode]
    have begins : front.map some <+: text.map some := ⟨pieces rest, read⟩
    exact
      (List.prefix_map_iff_of_injective fun _ _ => Option.some.inj).1 begins
  · rintro ⟨rest, rfl⟩
    exact ⟨encode rest, List.flatMap_append.symm⟩

/-- What stands before a byte that continues nothing is read as if nothing
followed. -/
theorem pieces_append_of_begins
    {byte : UInt8} (begins : isContinuation byte = false)
    (before after : List UInt8) :
    pieces (before ++ byte :: after) =
      pieces before ++ pieces (byte :: after) := by
  have notSecond (first : UInt8) : isSecond first byte = false := by
    simp [isSecond, begins]
  fun_induction pieces before with
  | case1 => rfl
  | _ =>
      simp only [List.cons_append] at *
      rw [pieces.eq_def]
      simp [*]

theorem isContinuation_of_ascii
    {byte : UInt8} (ascii : byte < 0x80) : isContinuation byte = false := by
  have small : byte.toNat < 128 := UInt8.lt_iff_toNat_lt.1 ascii
  rw [← Bool.not_eq_true, isContinuation_iff]
  omega

theorem pieces_append_ascii
    {byte : UInt8} (ascii : byte < 0x80) (before after : List UInt8) :
    pieces (before ++ byte :: after) =
      pieces before ++ pieces (byte :: after) :=
  pieces_append_of_begins (isContinuation_of_ascii ascii) before after

theorem pieces_ascii_cons
    {byte : UInt8} (ascii : byte < 0x80) (after : List UInt8) :
    pieces (byte :: after) = some (Char.ofNat byte.toNat) :: pieces after :=
  (Spells.one (UInt8.lt_iff_toNat_lt.1 ascii)).pieces_append after

/-- A sequence does not decode when some part of it between such bytes does
not. -/
theorem none_mem_pieces_intercalate_iff
    {byte : UInt8} (ascii : byte < 0x80) {parts : List (List UInt8)} :
    none ∈ pieces ([byte].intercalate parts) ↔
      ∃ part ∈ parts, none ∈ pieces part := by
  induction parts with
  | nil => simp [pieces]
  | cons first others inductionHypothesis =>
      by_cases empty : others = []
      · simp [empty]
      · rw [List.intercalate_cons_of_ne_nil empty, List.append_assoc,
          List.singleton_append, pieces_append_ascii ascii,
          pieces_ascii_cons ascii]
        simp [inductionHypothesis]

theorem decode_eq_none_iff {bytes : List UInt8} :
    decode bytes = none ↔ none ∈ pieces bytes := by
  unfold decode
  induction pieces bytes with
  | nil => simp [allPresent]
  | cons first rest inductionHypothesis =>
      cases first with
      | none => simp [allPresent]
      | some char => simp [allPresent, inductionHypothesis]

/-- The readable form of bytes that decode is what they decode to. -/
theorem decodeLossy_of_decode
    {bytes : List UInt8} {text : List Char}
    (decoded : decode bytes = some text) :
    decodeLossy bytes = text := by
  unfold decodeLossy
  rw [allPresent_eq_some_iff.1 decoded]
  simp [Function.comp_def]

/-- A text has an ASCII character as often as its bytes have that byte. -/
theorem count_encode_ascii
    {byte : UInt8} (ascii : byte < 0x80) (text : List Char) :
    (encode text).count byte = text.count (Char.ofNat byte.toNat) := by
  have small : byte.toNat < 128 := UInt8.lt_iff_toNat_lt.1 ascii
  induction text with
  | nil => rfl
  | cons char text inductionHypothesis =>
      rw [encode_cons, List.count_append, inductionHypothesis]
      by_cases same : char = Char.ofNat byte.toNat
      · rw [same, (Spells.one small).encodeChar_eq, List.count_singleton_self,
          List.count_cons_self, Nat.add_comm]
      · obtain ⟨bytes, spells⟩ := exists_spells char
        have absent : byte ∉ bytes :=
          fun member => same (spells.eq_of_mem_ascii ascii member)
        rw [spells.encodeChar_eq, List.count_eq_zero_of_not_mem absent,
          List.count_cons_of_ne same, Nat.zero_add]
end HeaderAudit.Utf8
