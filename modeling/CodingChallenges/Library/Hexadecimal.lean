import CodingChallenges.Library.Runs

/-!
# Hexadecimal Numbers in Byte Strings

`fromCharsHex` is what `std::from_chars` does with the base 16 for an unsigned type with `bound`
values, and `fromCharsHexSigned` what it does for a signed type of which `bound` values are not
negative. Like for decimal numbers the longest prefix of digits is taken, so of two characters
the second one need not be a digit. There is no prefix, and a sign only for a signed type.

## Main definitions

* `hexDigitValue`, `hexDigit`: A digit, read and written.
* `fromCharsHex`, `fromCharsHexSigned`: Reading a number.

## Theorems

* `hexDigitValue_hexDigit`: A digit is read back.
* `fromCharsHexSigned_two`: What is read of two characters.
-/

namespace CodingChallenges

/-- The value of a digit, of either case. -/
def hexDigitValue (c : UInt8) : Option Nat :=
  if 48 ≤ c ∧ c ≤ 57 then some (c.toNat - 48)
  else if 65 ≤ c ∧ c ≤ 70 then some (c.toNat - 55)
  else if 97 ≤ c ∧ c ≤ 102 then some (c.toNat - 87)
  else none

/-- The digits of a hexadecimal number, in both cases. -/
def isHexDigit (c : UInt8) : Bool :=
  (hexDigitValue c).isSome

/-- The digit of a value below 16. -/
def hexDigit (n : Nat) : UInt8 :=
  if n < 10 then UInt8.ofNat (48 + n) else UInt8.ofNat (55 + n)

/-- The number a digit string spells, read from the left. -/
def hexNumber (digits : List UInt8) : Nat :=
  digits.foldl (fun value digit => 16 * value + (hexDigitValue digit).getD 0) 0

/-- Reading a number below `bound`: the number and the rest of the text. -/
def fromCharsHex (bound : Nat) (text : List UInt8) : Option (Nat × List UInt8) :=
  let digits := text.takeWhile isHexDigit
  if digits = [] then none
  else if hexNumber digits < bound then
    some (hexNumber digits, text.dropWhile isHexDigit)
  else none

/-- Reading a number of which `bound` values are not negative. -/
def fromCharsHexSigned (bound : Nat) : List UInt8 → Option (Int × List UInt8)
  | 45 :: text => (fromCharsHex (bound + 1) text).map fun (number, rest) => (-(number : Int), rest)
  | text => (fromCharsHex bound text).map fun (number, rest) => ((number : Int), rest)

theorem hexDigitValue_lt {c : UInt8} {n : Nat} (h : hexDigitValue c = some n) : n < 16 := by
  unfold hexDigitValue at h
  simp only [UInt8.le_iff_toNat_le, UInt8.reduceToNat] at h
  split_ifs at h <;> cases h <;> omega

/-- A decimal digit is the only one with its value. -/
theorem eq_hexDigit_of_value {c : UInt8} {n : Nat} (h : hexDigitValue c = some n) (hn : n < 10) :
    c = hexDigit n := by
  rw [hexDigit, if_pos hn, ← UInt8.toNat_inj, UInt8.toNat_ofNat_of_lt' (show 48 + n < 256 by omega)]
  unfold hexDigitValue at h
  simp only [UInt8.le_iff_toNat_le, UInt8.reduceToNat] at h
  split_ifs at h <;> cases h <;> omega

theorem hexDigitValue_hexDigit {n : Nat} (h : n < 16) : hexDigitValue (hexDigit n) = some n := by
  have hdigit : ∀ n < 16, hexDigitValue (hexDigit n) = some n := by decide
  exact hdigit n h

theorem isHexDigit_of_some {c : UInt8} {n : Nat} (h : hexDigitValue c = some n) :
    isHexDigit c = true := by
  rw [isHexDigit, h]
  rfl

theorem isHexDigit_of_none {c : UInt8} (h : hexDigitValue c = none) : isHexDigit c = false := by
  rw [isHexDigit, h]
  rfl

/-- Digits are read up to what is no digit. -/
theorem fromCharsHex_run (bound : Nat) {digits rest : List UInt8} (hne : digits ≠ [])
    (hdigits : ∀ d ∈ digits, isHexDigit d = true) (hrest : Outside isHexDigit rest)
    (hbound : hexNumber digits < bound) :
    fromCharsHex bound (digits ++ rest) = some (hexNumber digits, rest) := by
  unfold fromCharsHex
  rw [takeWhile_run hdigits hrest, dropWhile_run hdigits hrest]
  simp only
  rw [if_neg hne, if_pos hbound]

theorem fromCharsHex_outside {bound : Nat} {text : List UInt8} (h : Outside isHexDigit text) :
    fromCharsHex bound text = none := by
  have hnone : ([] ++ text).takeWhile isHexDigit = [] :=
    takeWhile_run (fun c hc => absurd hc List.not_mem_nil) h
  unfold fromCharsHex
  rw [List.nil_append] at hnone
  rw [hnone]
  rfl

theorem hexNumber_one {c : UInt8} {n : Nat} (h : hexDigitValue c = some n) : hexNumber [c] = n := by
  rw [hexNumber, List.foldl_cons, List.foldl_nil, h, Option.getD_some]
  omega

theorem hexNumber_two {c d : UInt8} {n m : Nat} (h : hexDigitValue c = some n)
    (hd : hexDigitValue d = some m) : hexNumber [c, d] = 16 * n + m := by
  rw [hexNumber, List.foldl_cons, List.foldl_cons, List.foldl_nil, h, hd, Option.getD_some,
    Option.getD_some]
  omega

theorem fromCharsHex_two (bound : Nat) (c d : UInt8) (hbound : 256 ≤ bound) :
    fromCharsHex bound [c, d] =
      (hexDigitValue c).map fun n =>
        match hexDigitValue d with
        | some m => (16 * n + m, [])
        | none => (n, [d]) := by
  cases hc : hexDigitValue c with
  | none => exact fromCharsHex_outside (outside_cons.mpr (isHexDigit_of_none hc))
  | some n =>
      have hlt := hexDigitValue_lt hc
      -- The run of digits ends behind the first one, or goes up to the end.
      cases hd : hexDigitValue d with
      | none =>
          have hrun := fromCharsHex_run bound (List.cons_ne_nil c [])
            (List.forall_mem_singleton.mpr (isHexDigit_of_some hc))
            (outside_cons (v := []).mpr (isHexDigit_of_none hd))
            (by rw [hexNumber_one hc]; omega)
          rw [hexNumber_one hc] at hrun
          exact hrun
      | some m =>
          have hlt' := hexDigitValue_lt hd
          have hrun := fromCharsHex_run bound (List.cons_ne_nil c [d])
            (List.forall_mem_cons.mpr ⟨isHexDigit_of_some hc,
              List.forall_mem_singleton.mpr (isHexDigit_of_some hd)⟩)
            outside_nil (by rw [hexNumber_two hc hd]; omega)
          rw [hexNumber_two hc hd] at hrun
          exact hrun

theorem fromCharsHex_one (bound : Nat) (c : UInt8) (hbound : 16 ≤ bound) :
    fromCharsHex bound [c] = (hexDigitValue c).map fun n => (n, []) := by
  cases hc : hexDigitValue c with
  | none => exact fromCharsHex_outside (outside_cons.mpr (isHexDigit_of_none hc))
  | some n =>
      have hlt := hexDigitValue_lt hc
      have hrun := fromCharsHex_run bound (List.cons_ne_nil c [])
        (List.forall_mem_singleton.mpr (isHexDigit_of_some hc)) outside_nil
        (by rw [hexNumber_one hc]; omega)
      rw [hexNumber_one hc] at hrun
      exact hrun

/-- Of two characters the first one is a digit, or a sign if the second one is a digit. -/
theorem fromCharsHexSigned_two (bound : Nat) (c d : UInt8) (hbound : 256 ≤ bound) :
    (fromCharsHexSigned bound [c, d]).map Prod.fst =
      if c = 45 then (hexDigitValue d).map fun m : Nat => -(m : Int)
      else (hexDigitValue c).map fun n : Nat =>
        match hexDigitValue d with
        | some m => ((16 * n + m : Nat) : Int)
        | none => (n : Int) := by
  by_cases hsign : c = 45
  · subst hsign
    rw [if_pos rfl, fromCharsHexSigned, fromCharsHex_one _ _ (by omega)]
    cases hexDigitValue d <;> rfl
  · have hplain : fromCharsHexSigned bound [c, d] =
        (fromCharsHex bound [c, d]).map fun (number, rest) => ((number : Int), rest) := by
      rw [fromCharsHexSigned]
      rintro text htext
      exact hsign (List.cons.inj htext).1
    -- Without a sign it is read as an unsigned number is.
    rw [if_neg hsign, hplain, fromCharsHex_two _ _ _ hbound]
    cases hexDigitValue c with
    | none => rfl
    | some n => cases hexDigitValue d <;> rfl

end CodingChallenges
