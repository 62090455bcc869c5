import Mathlib.Data.List.TakeWhile
import Mathlib.Data.Nat.Init

/-!
# Decimal Numbers in Byte Strings

Reading a number off the front of a byte string, writing one, and what is read
of what was written.

`fromChars` is what `std::from_chars` does for an unsigned type with `bound`
values: it takes the longest prefix of digits, fails if there is none or if the
number does not fit, and leaves the rest. `fromCharsSigned` is what it does for a
signed type of which `bound` values are not negative.

## Main definitions

* `isDecimalDigit`, `decimalValue`: Digits and the number they spell.
* `fromChars`, `fromCharsSigned`: Reading a number.
* `decimalDigits`, `signedDigits`: Writing a number.
* `Spells`: A text is a decimal form of a number.

## Theorems

* `fromChars_eq_some`: What was read spells the number, and no digit follows.
* `fromChars_decimalDigits`, `fromCharsSigned_signedDigits`: Reading what was
  written.
* `fromCharsSigned_whole_iff`: The texts that are read as a whole.
-/

namespace CodingChallenges

/-- The digits `0` to `9`. -/
def isDecimalDigit (c : UInt8) : Bool :=
  48 ≤ c && c ≤ 57

/-- The number a digit string spells, read from the left. -/
def decimalValue (digits : List UInt8) : Nat :=
  digits.foldl (fun value digit => 10 * value + (digit.toNat - 48)) 0

/-- Reading a number below `bound`: the number and the rest of the text. -/
def fromChars (bound : Nat) (text : List UInt8) : Option (Nat × List UInt8) :=
  let digits := text.takeWhile isDecimalDigit
  if digits = [] then none
  else if decimalValue digits < bound then
    some (decimalValue digits, text.dropWhile isDecimalDigit)
  else none

/-- What was read is a digit string that spells the number. -/
theorem fromChars_eq_some {bound : Nat} {text rest : List UInt8} {number : Nat}
    (h : fromChars bound text = some (number, rest)) :
    ∃ digits, text = digits ++ rest ∧ digits ≠ [] ∧ (∀ d ∈ digits, isDecimalDigit d = true) ∧
      decimalValue digits = number ∧ number < bound := by
  unfold fromChars at h
  simp only at h
  split at h
  · cases h
  · next hne =>
      split at h
      · next hlt =>
          cases h
          refine ⟨text.takeWhile isDecimalDigit, ?_, hne, fun d hd => ?_, rfl, hlt⟩
          · exact List.takeWhile_append_dropWhile.symm
          · exact List.mem_takeWhile_imp hd
      · cases h

/-- Reading a number of which `bound` values are not negative. -/
def fromCharsSigned (bound : Nat) : List UInt8 → Option (Int × List UInt8)
  | 45 :: text => (fromChars (bound + 1) text).map fun (number, rest) => (-(number : Int), rest)
  | text => (fromChars bound text).map fun (number, rest) => ((number : Int), rest)

/-- The digits of a number. -/
def decimalDigits (n : Nat) : List UInt8 :=
  (Nat.toDigits 10 n).map fun c => UInt8.ofNat c.toNat

/-- The digits of a number, with a sign in front if it is negative. -/
def signedDigits : Int → List UInt8
  | .ofNat n => decimalDigits n
  | .negSucc n => 45 :: decimalDigits (n + 1)

theorem isDecimalDigit_iff_toNat (c : UInt8) :
    isDecimalDigit c = true ↔ 48 ≤ c.toNat ∧ c.toNat ≤ 57 := by
  unfold isDecimalDigit
  rw [Bool.and_eq_true, decide_eq_true_eq, decide_eq_true_eq, UInt8.le_iff_toNat_le,
    UInt8.le_iff_toNat_le]
  exact Iff.rfl

/-- What is written is the byte of a digit. -/
theorem toNat_decimalDigit {c : Char} (h : c.isDigit = true) :
    (UInt8.ofNat c.toNat).toNat = c.toNat ∧ 48 ≤ c.toNat ∧ c.toNat ≤ 57 := by
  have hrange : 48 ≤ c.toNat ∧ c.toNat ≤ 57 := by
    simp only [Char.isDigit, Bool.and_eq_true, decide_eq_true_eq, ge_iff_le,
      UInt32.le_iff_toNat_le] at h
    exact h
  refine ⟨?_, hrange⟩
  rw [UInt8.toNat_ofNat']
  exact Nat.mod_eq_of_lt (by omega)

theorem isDecimalDigit_decimalDigits {n : Nat} {d : UInt8} (h : d ∈ decimalDigits n) :
    isDecimalDigit d = true := by
  rcases List.mem_map.mp h with ⟨c, hc, rfl⟩
  have hdigit := toNat_decimalDigit (Nat.isDigit_of_mem_toDigits (by decide) (by decide) hc)
  rw [isDecimalDigit_iff_toNat, hdigit.1]
  exact hdigit.2

theorem decimalDigits_ne_nil (n : Nat) : decimalDigits n ≠ [] :=
  mt List.map_eq_nil_iff.mp Nat.toDigits_ne_nil

/-- The digits of a number spell it. -/
theorem decimalValue_decimalDigits (n : Nat) : decimalValue (decimalDigits n) = n := by
  have hfold : ∀ (chars : List Char) (value : Nat), (∀ c ∈ chars, c.isDigit = true) →
      (chars.map fun c => UInt8.ofNat c.toNat).foldl
          (fun value digit => 10 * value + (digit.toNat - 48)) value
        = Nat.ofDigitChars 10 chars value := by
    intro chars
    induction chars with
    | nil => exact fun value _ => rfl
    | cons c chars ih =>
        intro value hdigits
        have hc := (toNat_decimalDigit (hdigits c List.mem_cons_self)).1
        rw [List.map_cons, List.foldl_cons, hc, Nat.ofDigitChars_cons]
        exact ih _ fun c' hc' => hdigits c' (List.mem_cons_of_mem c hc')
  unfold decimalValue decimalDigits
  rw [hfold _ 0 fun c hc => Nat.isDigit_of_mem_toDigits (by decide) (by decide) hc]
  exact Nat.ofDigitChars_ten_toDigits

/-- Different numbers have different digits. -/
theorem decimalDigits_injective : Function.Injective decimalDigits :=
  Function.LeftInverse.injective decimalValue_decimalDigits

/-- The text does not begin with a digit. -/
def NoDigitHead (text : List UInt8) : Prop :=
  ∀ c ∈ text.head?, isDecimalDigit c = false

/-- All digits are read. -/
theorem noDigitHead_of_fromChars {bound number : Nat} {text rest : List UInt8}
    (h : fromChars bound text = some (number, rest)) : NoDigitHead rest := by
  unfold fromChars at h
  simp only at h
  split at h
  · cases h
  · split at h
    · cases h
      intro c hc
      have hhead := List.head?_dropWhile_not isDecimalDigit text
      rw [Option.mem_def.mp hc] at hhead
      exact hhead
    · cases h

/-- A digit string with no digit behind it is read as a whole. -/
theorem fromChars_digits {bound : Nat} {digits rest : List UInt8} (hne : digits ≠ [])
    (hdigits : ∀ d ∈ digits, isDecimalDigit d = true) (hlt : decimalValue digits < bound)
    (hrest : NoDigitHead rest) :
    fromChars bound (digits ++ rest) = some (decimalValue digits, rest) := by
  have htake : rest.takeWhile isDecimalDigit = [] ∧ rest.dropWhile isDecimalDigit = rest := by
    cases rest with
    | nil => exact ⟨rfl, rfl⟩
    | cons c rest =>
        have hc : isDecimalDigit c = false := hrest c rfl
        exact ⟨List.takeWhile_cons_of_neg (by rw [hc]; exact Bool.false_ne_true),
          List.dropWhile_cons_of_neg (by rw [hc]; exact Bool.false_ne_true)⟩
  unfold fromChars
  simp only
  rw [List.takeWhile_append_of_pos hdigits, List.dropWhile_append_of_pos hdigits, htake.1,
    htake.2, List.append_nil, if_neg hne, if_pos hlt]

/-- The digits of a number that fits are read as that number. -/
theorem fromChars_decimalDigits {bound n : Nat} {rest : List UInt8} (hlt : n < bound)
    (hrest : NoDigitHead rest) : fromChars bound (decimalDigits n ++ rest) = some (n, rest) := by
  have hvalue := decimalValue_decimalDigits n
  have hfits : decimalValue (decimalDigits n) < bound := by
    rw [hvalue]
    exact hlt
  have hread := fromChars_digits (decimalDigits_ne_nil n)
    (fun d hd => isDecimalDigit_decimalDigits hd) hfits hrest
  rw [hvalue] at hread
  exact hread

theorem head_decimalDigits_ne_minus (n : Nat) (rest text : List UInt8) :
    decimalDigits n ++ rest ≠ 45 :: text := by
  intro heq
  have hmem : (45 : UInt8) ∈ decimalDigits n := by
    cases hdigits : decimalDigits n with
    | nil => exact absurd hdigits (decimalDigits_ne_nil n)
    | cons d digits =>
        rw [hdigits, List.cons_append, List.cons.injEq] at heq
        rw [heq.1]
        exact List.mem_cons_self
  have hdigit := isDecimalDigit_decimalDigits hmem
  cases hdigit

/-- The digits of a signed number that fits are read as that number. -/
theorem fromCharsSigned_signedDigits {bound : Nat} {n : Int} {rest : List UInt8}
    (hlow : -(bound : Int) ≤ n) (hhigh : n < bound) (hrest : NoDigitHead rest) :
    fromCharsSigned bound (signedDigits n ++ rest) = some (n, rest) := by
  cases n with
  | ofNat n =>
      have hlt : n < bound := by
        have hcast : ((n : Nat) : Int) < bound := hhigh
        omega
      unfold signedDigits fromCharsSigned
      simp only
      split
      · next text heq => exact absurd heq (head_decimalDigits_ne_minus n rest text)
      · rw [fromChars_decimalDigits hlt hrest]
        rfl
  | negSucc n =>
      have hlt : n + 1 < bound + 1 := by omega
      have hread : fromChars (bound + 1) (decimalDigits (n + 1) ++ rest) = some (n + 1, rest) :=
        fromChars_decimalDigits hlt hrest
      change (fromChars (bound + 1) (decimalDigits (n + 1) ++ rest)).map _ = _
      rw [hread]
      rfl

section Spelling

/-- The text is a decimal form of the number: digits, perhaps behind a sign. Zeros in
    front are allowed. -/
def Spells (text : List UInt8) (n : Int) : Prop :=
  ∃ digits, digits ≠ [] ∧ (∀ d ∈ digits, isDecimalDigit d = true) ∧
    ((text = digits ∧ n = decimalValue digits) ∨
      (text = 45 :: digits ∧ n = -(decimalValue digits : Int)))

theorem digits_ne_minus {digits text : List UInt8}
    (hdigits : ∀ d ∈ digits, isDecimalDigit d = true) : digits ≠ 45 :: text := by
  rintro rfl
  have hminus : isDecimalDigit 45 = true := hdigits 45 List.mem_cons_self
  exact absurd hminus (by decide)

/-- A text is a decimal form of one number. -/
theorem Spells.unique {text : List UInt8} {m n : Int} (hm : Spells text m) (hn : Spells text n) :
    m = n := by
  rcases hm with ⟨digits, -, hdigits, ⟨rfl, rfl⟩ | ⟨rfl, rfl⟩⟩
  · rcases hn with ⟨digits', -, -, ⟨rfl, rfl⟩ | ⟨rfl, -⟩⟩
    · rfl
    · exact absurd rfl (digits_ne_minus hdigits)
  · rcases hn with ⟨digits', -, hdigits', ⟨rfl, -⟩ | ⟨heq, rfl⟩⟩
    · exact absurd rfl (digits_ne_minus hdigits')
    · rw [(List.cons.inj heq).2]

/-- A number is read off a text as a whole exactly if the text is a decimal form of
    it, and it fits. -/
theorem fromChars_whole_iff {bound number : Nat} {text : List UInt8} :
    fromChars bound text = some (number, []) ↔
      text ≠ [] ∧ (∀ d ∈ text, isDecimalDigit d = true) ∧ decimalValue text = number ∧
        number < bound := by
  constructor
  · intro h
    rcases fromChars_eq_some h with ⟨digits, rfl, hne, hdigits, hvalue, hlt⟩
    rw [List.append_nil]
    exact ⟨hne, hdigits, hvalue, hlt⟩
  · rintro ⟨hne, hdigits, rfl, hlt⟩
    have hread : fromChars bound (text ++ []) = some (decimalValue text, []) :=
      fromChars_digits hne hdigits hlt (fun c hc => by cases hc)
    rwa [List.append_nil] at hread

theorem fromCharsSigned_whole_iff {bound : Nat} {text : List UInt8} {n : Int} (hpos : 0 < bound) :
    fromCharsSigned bound text = some (n, []) ↔
      Spells text n ∧ -(bound : Int) ≤ n ∧ n < bound := by
  unfold fromCharsSigned
  split
  · next digits =>
      rw [Option.map_eq_some_iff]
      constructor
      · rintro ⟨⟨number, rest⟩, hread, heq⟩
        cases heq
        rcases fromChars_whole_iff.mp hread with ⟨hne, hdigits, rfl, hlt⟩
        exact ⟨⟨digits, hne, hdigits, Or.inr ⟨rfl, rfl⟩⟩, by omega, by omega⟩
      · rintro ⟨⟨digits', hne, hdigits, ⟨heq, -⟩ | ⟨heq, rfl⟩⟩, hlow, -⟩
        -- With a minus in front, one more than the bound is allowed.
        · exact absurd heq.symm (digits_ne_minus hdigits)
        · rw [← (List.cons.inj heq).2] at hne hdigits hlow ⊢
          have hread := fromChars_whole_iff.mpr ⟨hne, hdigits, rfl,
            (show decimalValue digits < bound + 1 by omega)⟩
          exact ⟨_, hread, rfl⟩
  · next hsign =>
      rw [Option.map_eq_some_iff]
      constructor
      · rintro ⟨⟨number, rest⟩, hread, heq⟩
        cases heq
        rcases fromChars_whole_iff.mp hread with ⟨hne, hdigits, rfl, hlt⟩
        exact ⟨⟨_, hne, hdigits, Or.inl ⟨rfl, rfl⟩⟩, by omega, by omega⟩
      · rintro ⟨⟨digits, hne, hdigits, ⟨rfl, rfl⟩ | ⟨heq, -⟩⟩, -, hhigh⟩
        · have hread := fromChars_whole_iff.mpr ⟨hne, hdigits, rfl,
            (show decimalValue text < bound by omega)⟩
          exact ⟨_, hread, rfl⟩
        · exact absurd heq (hsign digits)

end Spelling

end CodingChallenges
