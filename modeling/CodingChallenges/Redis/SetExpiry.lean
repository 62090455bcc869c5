import CodingChallenges.Redis.CommandProcessor

/-!
# The Expiry of a Value

Which expiry `SET` stores.

The value of an option is read up to the first byte that is no digit, and what
follows is ignored. The expiry is computed from it in 64 bits and may wrap
around, and then a key that was to be kept for ages expires at once. Of the
expiries that do not make sense only those are refused that name a time which
has passed.

## Main definitions

* `ExpiryOption`, `ExpiryOption.expiry`: The options, and what they mean.
* `RefusesExpiry`: The arguments that are answered with an error.
* `ExactOrNothing`: An error and no change, or the expiry that was meant.

## Theorems

* `expiryOf_eq`: What is computed, in terms of what is meant.
* `exactOrNothing_iff`: The arguments for which the expiry is right.
-/

namespace CodingChallenges

namespace Redis

/-- The options of `SET` that set an expiry. -/
inductive ExpiryOption where
  | ex
  | px
  | exat
  | pxat
deriving DecidableEq, Repr

/-- How the option is written. -/
def ExpiryOption.text : ExpiryOption → List Byte
  | .ex => bytes "EX"
  | .px => bytes "PX"
  | .exat => bytes "EXAT"
  | .pxat => bytes "PXAT"

/-- The expiry that is meant, in milliseconds. -/
def ExpiryOption.expiry (option : ExpiryOption) (now n : Nat) : Nat :=
  match option with
  | .ex => now + 1000 * n
  | .px => now + n
  | .exat => 1000 * n
  | .pxat => n

/-- The time that is named has come. -/
def ExpiryOption.Past (option : ExpiryOption) (now n : Nat) : Prop :=
  match option with
  | .exat => n ≤ now / 1000
  | .pxat => n ≤ now
  | _ => False

instance (option : ExpiryOption) (now n : Nat) : Decidable (option.Past now n) := by
  unfold ExpiryOption.Past
  cases option <;> infer_instance

/-- The number at the front of a text. -/
def leadingNumber (text : List Byte) : Nat :=
  decimalValue (text.takeWhile isDecimalDigit)

/-- The argument has no number at its front, or one of more than 64 bits, or it
    names a time that has come. -/
def RefusesExpiry (option : ExpiryOption) (now : Nat) (argument : List Byte) : Prop :=
  argument.takeWhile isDecimalDigit = [] ∨ sizeBound ≤ leadingNumber argument ∨
    option.Past now (leadingNumber argument)

/-- The text is a number as a whole. -/
def IsNumber (text : List Byte) (n : Nat) : Prop :=
  text ≠ [] ∧ (∀ d ∈ text, isDecimalDigit d = true) ∧ decimalValue text = n

/-- The store with a value and its expiry under the key. -/
def Store.withValue (s : Store) (key value : List Byte) (expiry : UInt64) : Store :=
  { s with dictionary := s.dictionary.insert key ⟨.string ⟨value, true⟩, some expiry⟩ }

/-- Running a `SET` with an option. -/
def runSet (option : ExpiryOption) (key value argument : List Byte) (moment : Moment)
    (s : Store) : Answer × Store :=
  (process (commandOf [bytes "SET", key, value, option.text, argument])).run performOperation
    moment s

/-- There is an error and no change, or the argument is a number and what is stored
    has the expiry that is meant. -/
def ExactOrNothing (option : ExpiryOption) (key value argument : List Byte) (moment : Moment)
    (s : Store) : Prop :=
  ((∃ e, (runSet option key value argument moment s).1 = .response (.error e)) ∧
    (runSet option key value argument moment s).2 = s) ∨
  ∃ n, IsNumber argument n ∧ n < sizeBound ∧ ∃ expiry : UInt64,
    (runSet option key value argument moment s).2 = s.withValue key value expiry ∧
    expiry.toNat = option.expiry moment.now.toNat n

section Numbers

/-- The sum and the product are computed modulo the number of values. -/
theorem expiryOf_eq (option : ExpiryOption) (now : UInt64) {n : Nat} (hn : n < sizeBound) :
    expiryOf option.text (UInt64.ofNat n) now =
      if option.Past now.toNat n then .error invalidExpiryValueResponse
      else .ok (some (UInt64.ofNat (option.expiry now.toNat n))) := by
  have hvalue : (UInt64.ofNat n).toNat = n := UInt64.toNat_ofNat_of_lt' hn
  -- Only the two options that name a time compare it with the clock.
  cases option with
  | ex =>
      have hmeant : UInt64.ofNat (now.toNat + 1000 * n) = now + UInt64.ofNat n * 1000 := by
        rw [UInt64.ofNat_add, UInt64.ofNat_toNat, Nat.mul_comm, UInt64.ofNat_mul]
        rfl
      have hpast : ¬ ExpiryOption.ex.Past now.toNat n := id
      rw [if_neg hpast, ExpiryOption.expiry, hmeant]
      rfl
  | px =>
      have hmeant : UInt64.ofNat (now.toNat + n) = now + UInt64.ofNat n := by
        rw [UInt64.ofNat_add, UInt64.ofNat_toNat]
      have hpast : ¬ ExpiryOption.px.Past now.toNat n := id
      rw [if_neg hpast, ExpiryOption.expiry, hmeant]
      rfl
  | exat =>
      have hmeant : UInt64.ofNat (1000 * n) = UInt64.ofNat n * 1000 := by
        rw [Nat.mul_comm, UInt64.ofNat_mul]
        rfl
      have hpast : UInt64.ofNat n ≤ now / 1000 ↔ ExpiryOption.exat.Past now.toNat n := by
        rw [UInt64.le_iff_toNat_le, hvalue, UInt64.toNat_div]
        exact Iff.rfl
      change (if UInt64.ofNat n ≤ now / 1000 then _ else _) = _
      rw [ExpiryOption.expiry, hmeant]
      simp only [hpast]
  | pxat =>
      have hpast : UInt64.ofNat n ≤ now ↔ ExpiryOption.pxat.Past now.toNat n := by
        rw [UInt64.le_iff_toNat_le, hvalue]
        exact Iff.rfl
      change (if UInt64.ofNat n ≤ now then _ else _) = _
      simp only [hpast]
      rfl

/-- What becomes of a `SET` with an option. -/
theorem runSet_eq (option : ExpiryOption) (key value argument : List Byte) (moment : Moment)
    (s : Store) : runSet option key value argument moment s =
      match fromChars sizeBound argument with
      | none => (invalidExpiryValueResponse, s)
      | some (n, _) =>
        if option.Past moment.now.toNat n then (invalidExpiryValueResponse, s)
        else (okResponse,
          s.withValue key value (UInt64.ofNat (option.expiry moment.now.toNat n))) := by
  have hprogram : process (commandOf [bytes "SET", key, value, option.text, argument]) =
      processSet [bytes "SET", key, value, option.text, argument] := process_commandOf _ _
  unfold runSet
  rw [hprogram, processSet_option]
  cases hread : fromChars sizeBound argument with
  | none => rfl
  | some read =>
      rcases read with ⟨n, rest⟩
      rcases fromChars_eq_some hread with ⟨-, -, -, -, -, hn⟩
      -- The clock is read only behind a value that is a number.
      rw [run_clock, expiryOf_eq option moment.now hn]
      simp only
      by_cases hpast : option.Past moment.now.toNat n
      · rw [if_pos hpast, if_pos hpast]
        rfl
      · rw [if_neg hpast, if_neg hpast]
        rfl

/-- The read number is the leading one, if there is one that fits. -/
theorem fromChars_eq_none_iff {bound : Nat} {text : List Byte} :
    fromChars bound text = none ↔
      text.takeWhile isDecimalDigit = [] ∨ bound ≤ leadingNumber text := by
  unfold fromChars leadingNumber
  simp only
  by_cases hnil : text.takeWhile isDecimalDigit = []
  · rw [if_pos hnil]
    exact iff_of_true rfl (Or.inl hnil)
  · rw [if_neg hnil]
    by_cases hlt : decimalValue (text.takeWhile isDecimalDigit) < bound
    · rw [if_pos hlt]
      refine iff_of_false (fun h => by cases h) ?_
      rintro (h | h)
      · exact hnil h
      · omega
    · rw [if_neg hlt]
      exact iff_of_true rfl (Or.inr (Nat.le_of_not_lt hlt))

theorem fromChars_leadingNumber {bound n : Nat} {text rest : List Byte}
    (h : fromChars bound text = some (n, rest)) : n = leadingNumber text := by
  unfold fromChars at h
  simp only at h
  split at h
  · cases h
  · split at h
    · cases h
      rfl
    · cases h

/-- A number as a whole is its own front. -/
theorem IsNumber.leadingNumber {text : List Byte} {n : Nat} (h : IsNumber text n) :
    leadingNumber text = n := by
  unfold Redis.leadingNumber
  rw [List.takeWhile_eq_self_iff.mpr h.2.1]
  exact h.2.2

end Numbers

section Expiries

variable {option : ExpiryOption} {key value argument : List Byte} {moment : Moment} {s : Store}

theorem runSet_refused (h : RefusesExpiry option moment.now.toNat argument) :
    runSet option key value argument moment s = (invalidExpiryValueResponse, s) := by
  rw [runSet_eq]
  cases hread : fromChars sizeBound argument with
  | none => rfl
  | some read =>
      rcases read with ⟨n, rest⟩
      have hnot : fromChars sizeBound argument ≠ none := by
        rw [hread]
        exact Option.some_ne_none _
      rw [ne_eq, fromChars_eq_none_iff, not_or] at hnot
      simp only [fromChars_leadingNumber hread]
      rcases h with h | h | h
      · exact absurd h hnot.1
      · exact absurd h hnot.2
      · rw [if_pos h]

theorem runSet_stored (h : ¬ RefusesExpiry option moment.now.toNat argument) :
    runSet option key value argument moment s =
      (okResponse, s.withValue key value
        (UInt64.ofNat (option.expiry moment.now.toNat (leadingNumber argument)))) := by
  rw [RefusesExpiry, not_or, not_or] at h
  rw [runSet_eq]
  cases hread : fromChars sizeBound argument with
  | none =>
      rcases fromChars_eq_none_iff.mp hread with hnil | hlarge
      · exact absurd hnil h.1
      · exact absurd hlarge h.2.1
  | some read =>
      rcases read with ⟨n, rest⟩
      simp only [fromChars_leadingNumber hread]
      rw [if_neg h.2.2]

/-- What is stored is exact only if nothing follows the number and nothing wraps
    around. -/
theorem ExactOrNothing.exact (h : ExactOrNothing option key value argument moment s)
    (hstores : ¬ RefusesExpiry option moment.now.toNat argument) :
    (∀ d ∈ argument, isDecimalDigit d = true) ∧
      option.expiry moment.now.toNat (leadingNumber argument) < sizeBound := by
  unfold ExactOrNothing at h
  rw [runSet_stored hstores] at h
  rcases h with ⟨⟨e, he⟩, -⟩ | ⟨n, hnumber, -, expiry, hstore, hexpiry⟩
  · cases he
  · -- A stored expiry has 64 bits, and it is the one that is meant.
    refine ⟨hnumber.2.1, ?_⟩
    rw [hnumber.leadingNumber, ← hexpiry]
    exact expiry.toNat_lt

/-- An error or the exact expiry, unless the expiry is stored and something
    follows the number, or the expiry that is meant does not fit into 64 bits. -/
theorem exactOrNothing_iff (option : ExpiryOption) (key value argument : List Byte)
    (moment : Moment) (s : Store) :
    ExactOrNothing option key value argument moment s ↔
      RefusesExpiry option moment.now.toNat argument ∨
        ((∀ d ∈ argument, isDecimalDigit d = true) ∧
          option.expiry moment.now.toNat (leadingNumber argument) < sizeBound) := by
  constructor
  · intro h
    by_cases hstores : RefusesExpiry option moment.now.toNat argument
    · exact Or.inl hstores
    · exact Or.inr (h.exact hstores)
  · intro h
    by_cases hrefuses : RefusesExpiry option moment.now.toNat argument
    · left
      rw [runSet_refused hrefuses]
      exact ⟨⟨_, rfl⟩, rfl⟩
    · right
      rcases h with h | ⟨hdigits, hfits⟩
      · exact absurd h hrefuses
      have hall := List.takeWhile_eq_self_iff.mpr hdigits
      -- All digits, so the number that is read is the whole argument.
      have hparts := hrefuses
      rw [RefusesExpiry, not_or, not_or, hall] at hparts
      refine ⟨leadingNumber argument, ⟨hparts.1, hdigits, ?_⟩, by omega,
        UInt64.ofNat (option.expiry moment.now.toNat (leadingNumber argument)), ?_,
        UInt64.toNat_ofNat_of_lt' hfits⟩
      · unfold leadingNumber
        rw [hall]
      · rw [runSet_stored hrefuses]

/-- The expiry of `SET k v EX 18446744073709552` wraps around. -/
theorem not_exactOrNothing :
    ¬ ∀ (option : ExpiryOption) (key value argument : List Byte) (moment : Moment) (s : Store),
      ExactOrNothing option key value argument moment s := by
  intro hall
  have h := hall .ex (bytes "k") (bytes "v") (bytes "18446744073709552") (Moment.ordinary 0)
    ⟨∅, none⟩
  have hstores : ¬ RefusesExpiry .ex (Moment.ordinary 0).now.toNat (bytes "18446744073709552") := by
    unfold RefusesExpiry
    decide
  exact absurd (h.exact hstores).2 (by decide)

end Expiries

end Redis

end CodingChallenges
