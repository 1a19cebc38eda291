/-! A byte sequence is cut from the left into pieces: each is one scalar value
in its shortest form, or a longest sequence of bytes that begins a scalar value
and does not complete it. -/

namespace HeaderAudit.Utf8

/-- A byte that may stand after the first one of a scalar value. -/
def isContinuation (byte : UInt8) : Bool :=
  0x80 ≤ byte && byte < 0xC0

/-- The second byte keeps the value in the range that belongs to the first:
no overlong form, no surrogate and nothing above `U+10FFFF`. -/
def isSecond (first second : UInt8) : Bool :=
  isContinuation second
    && (first != 0xE0 || 0xA0 ≤ second)
    && (first != 0xED || second < 0xA0)
    && (first != 0xF0 || 0x90 ≤ second)
    && (first != 0xF4 || second < 0x90)

/-- The six bits that a continuation byte carries. -/
def payload (byte : UInt8) : Nat :=
  byte.toNat % 64

/-- The pieces of a byte sequence: a scalar value, or `none` for a piece that
is not one. -/
def pieces : List UInt8 → List (Option Char)
  | [] => []
  | first :: rest =>
      if first < 0x80 then
        some (Char.ofNat first.toNat) :: pieces rest
      else if first < 0xC2 || 0xF4 < first then
        none :: pieces rest
      else
        match rest with
        | [] => [none]
        | second :: rest₂ =>
            if !isSecond first second then
              none :: pieces (second :: rest₂)
            else if first < 0xE0 then
              some (Char.ofNat (first.toNat % 32 * 64 + payload second)) ::
                pieces rest₂
            else
              match rest₂ with
              | [] => [none]
              | third :: rest₃ =>
                  if !isContinuation third then
                    none :: pieces (third :: rest₃)
                  else if first < 0xF0 then
                    some (Char.ofNat
                      ((first.toNat % 16 * 64 + payload second) * 64 +
                        payload third)) ::
                      pieces rest₃
                  else
                    match rest₃ with
                    | [] => [none]
                    | fourth :: rest₄ =>
                        if !isContinuation fourth then
                          none :: pieces (fourth :: rest₄)
                        else
                          some (Char.ofNat
                            (((first.toNat % 8 * 64 + payload second) * 64 +
                              payload third) * 64 + payload fourth)) ::
                            pieces rest₄

/-- Collect the values of a list without a gap. -/
def allPresent {value : Type} : List (Option value) → Option (List value)
  | [] => some []
  | none :: _ => none
  | some first :: rest => (allPresent rest).map (first :: ·)

/-- The scalar values of a sequence that is UTF-8 throughout. -/
def decode (bytes : List UInt8) : Option (List Char) :=
  allPresent (pieces bytes)

/-- The character that stands for a piece that is not a scalar value. -/
def replacement : Char := '\uFFFD'

/-- Every sequence has a readable form, with one replacement character for
each piece that is not a scalar value. -/
def decodeLossy (bytes : List UInt8) : List Char :=
  (pieces bytes).map (·.getD replacement)

/-- The bytes of a sequence of scalar values. -/
def encode (text : List Char) : List UInt8 :=
  text.flatMap String.utf8EncodeChar

end HeaderAudit.Utf8
