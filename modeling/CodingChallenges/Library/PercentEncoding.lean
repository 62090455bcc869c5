import CodingChallenges.Library.Hexadecimal

/-!
# Percent Encoding

A byte that may not stand in a text is written as a percent sign and two hexadecimal digits.

Decoding reads the text once. A byte that was decoded is not looked at again, so a percent sign
that was encoded comes out as one.

## Main definitions

* `percentEncode`, `percentDecode`: Writing and reading.

## Theorems

* `percentDecode_cons`, `percentDecode_escape`, `percentDecode_malformed`, `percentDecode_short`:
  Reading from the front.
* `percentDecode_percentEncode`: What was written is read back.
-/

namespace CodingChallenges

/-- The byte that two digits spell. -/
def hexByte (high low : UInt8) : Option UInt8 :=
  match hexDigitValue high, hexDigitValue low with
  | some n, some m => some (UInt8.ofNat (16 * n + m))
  | _, _ => none

/-- Each escape is replaced by its byte, from the front, and each percent sign has to begin
    one. -/
def percentDecode : List UInt8 → Option (List UInt8)
  | [] => some []
  | b :: text =>
    if b = 37 then
      match text with
      | high :: low :: rest =>
        match hexByte high low with
        | some c => (percentDecode rest).map (c :: ·)
        | none => none
      | _ => none
    else (percentDecode text).map (b :: ·)

/-- A percent sign and two hexadecimal digits. -/
def percentEncodeByte (b : UInt8) : List UInt8 :=
  [37, hexDigit (b.toNat / 16), hexDigit (b.toNat % 16)]

/-- The reserved bytes are escaped. -/
def percentEncode (reserved : UInt8 → Bool) (text : List UInt8) : List UInt8 :=
  text.flatMap fun b => if reserved b then percentEncodeByte b else [b]

theorem percentDecode_cons {b : UInt8} (text : List UInt8) (hb : b ≠ 37) :
    percentDecode (b :: text) = (percentDecode text).map (b :: ·) := by
  rw [percentDecode.eq_def]
  exact if_neg hb

theorem percentDecode_escape {high low c : UInt8} (rest : List UInt8)
    (h : hexByte high low = some c) :
    percentDecode (37 :: high :: low :: rest) = (percentDecode rest).map (c :: ·) := by
  rw [percentDecode.eq_def]
  simp only [if_true, h]

theorem percentDecode_malformed {high low : UInt8} (rest : List UInt8)
    (h : hexByte high low = none) : percentDecode (37 :: high :: low :: rest) = none := by
  rw [percentDecode.eq_def]
  simp only [if_true, h]

theorem percentDecode_short {text : List UInt8} (h : text.length < 2) :
    percentDecode (37 :: text) = none := by
  rw [percentDecode.eq_def]
  match text, h with
  | [], _ => rfl
  | [_], _ => rfl

theorem hexByte_hexDigit (b : UInt8) :
    hexByte (hexDigit (b.toNat / 16)) (hexDigit (b.toNat % 16)) = some b := by
  have hlt : b.toNat < 256 := b.toNat_lt
  have hnumber : 16 * (b.toNat / 16) + b.toNat % 16 = b.toNat := Nat.div_add_mod b.toNat 16
  rw [hexByte, hexDigitValue_hexDigit (by omega), hexDigitValue_hexDigit (by omega)]
  simp only [hnumber, UInt8.ofNat_toNat]

/-- What was written is read back, if percent signs are reserved. -/
theorem percentDecode_percentEncode {reserved : UInt8 → Bool} (h : reserved 37 = true)
    (text : List UInt8) : percentDecode (percentEncode reserved text) = some text := by
  induction text with
  | nil => rfl
  | cons b text ih =>
      rw [percentEncode, List.flatMap_cons, ← percentEncode]
      cases hb : reserved b with
      | true =>
          rw [if_pos rfl, percentEncodeByte, List.cons_append, List.cons_append, List.cons_append,
            percentDecode_escape _ (hexByte_hexDigit b), List.nil_append, ih]
          rfl
      | false =>
          -- A byte that is not escaped is no percent sign, so none of those written is misread.
          have hne : b ≠ 37 := by
            rintro rfl
            rw [h] at hb
            cases hb
          rw [if_neg Bool.false_ne_true, List.singleton_append, percentDecode_cons _ hne, ih]
          rfl

end CodingChallenges
