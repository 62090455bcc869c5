import CodingChallenges.Redis.Expiry
import CodingChallenges.Redis.Increments

/-!
# The Law of Increments

What `INCR` makes of what is stored under its key.

A key that is missing or has expired is to hold the number 1 afterwards, and a
number that is stored as a string is to grow by one and keep its expiry.
Everything else is to be refused. `increment` does so with two exceptions. For a
key that is missing it replies that there is nothing, and stores nothing; its
comment says otherwise, and its branch for an expired key does otherwise. And the
sum is computed with 64 bits, so the largest number becomes the smallest.

An expired key holds an integer afterwards and not a string. It is the number 1 all
the same.

## Main definitions

* `Denotes`: A value is a number.
* `HoldsDecimal`: A key holds a decimal form of a number.
* `IncrementLaw`: What an increment is to do.

## Theorems

* `isValidSigned64BitInt_eq_some_iff`: The texts that are taken for numbers.
* `incrementLaw_iff`: When an increment does what it is to do.
-/

namespace CodingChallenges

namespace Redis

/-- Running an `INCR` alone. -/
def runIncr (key : Key) (moment : Moment) (s : Store) : Answer × Store :=
  (process (incr key)).run performOperation moment s

/-- The value is the number: an integer, or the string of its digits. -/
def Denotes (value : RespType) (n : Int) : Prop :=
  (∃ m : RespInt, value = .int m ∧ m.toInt = n) ∨
    ∃ isBulk, value = .string ⟨signedDigits n, isBulk⟩

/-- The key holds a decimal form of the number, and it has not expired. -/
def HoldsDecimal (moment : Moment) (key : Key) (s : Store) (n : Int) (expiry : Option UInt64) :
    Prop :=
  ∃ str isBulk, live moment.now s.dictionary key = some ⟨.string ⟨str, isBulk⟩, expiry⟩ ∧
    Spells str n

/-- The number has 64 bits, and so has the next one. -/
def HasSuccessor (n : Int) : Prop :=
  -(intBound : Int) ≤ n ∧ n + 1 < intBound

/-- The store with a value under the key. -/
def Store.withEntry (s : Store) (key : Key) (value : RespType) (expiry : Option UInt64) : Store :=
  { s with dictionary := s.dictionary.insert key ⟨value, expiry⟩ }

/-- What an increment is to do. -/
structure IncrementLaw (key : Key) (moment : Moment) (s : Store) : Prop where
  /-- A key that is missing or has expired holds the number 1 afterwards. -/
  starts : live moment.now s.dictionary key = none →
    ∃ value reply, runIncr key moment s = (.response reply, s.withEntry key value none) ∧
      Denotes value 1 ∧ Denotes reply 1
  /-- A number grows by one and keeps its expiry. -/
  counts : ∀ n expiry, HoldsDecimal moment key s n expiry → HasSuccessor n →
    ∃ isBulk reply, runIncr key moment s =
        (.response reply, s.withEntry key (.string ⟨signedDigits (n + 1), isBulk⟩) expiry) ∧
      Denotes reply (n + 1)
  /-- Everything else is refused and left alone. -/
  refuses : live moment.now s.dictionary key ≠ none →
    (∀ n expiry, HoldsDecimal moment key s n expiry → ¬ HasSuccessor n) →
      ∃ e, runIncr key moment s = (.response (.error e), s)

section Texts

/-- A text is taken for a number exactly if it is a decimal form of it, and the number
    has 64 bits. -/
theorem isValidSigned64BitInt_eq_some_iff {text : List Byte} {n : Int64} :
    isValidSigned64BitInt text = some n ↔ Spells text n.toInt := by
  have hlow : -(intBound : Int) ≤ n.toInt := Int64.le_toInt n
  have hhigh : n.toInt < intBound := Int64.toInt_lt n
  constructor
  · intro h
    unfold isValidSigned64BitInt at h
    split at h
    · next m hread =>
        cases h
        rcases (fromCharsSigned_whole_iff (by decide)).mp hread with ⟨hspells, hmlow, hmhigh⟩
        rwa [toInt_ofInt hmlow hmhigh]
    · cases h
  · intro h
    have hread : fromCharsSigned intBound text = some (n.toInt, []) :=
      (fromCharsSigned_whole_iff (by decide)).mpr ⟨h, hlow, hhigh⟩
    unfold isValidSigned64BitInt
    rw [hread]
    simp only [Int64.ofInt_toInt]

/-- Every number of 64 bits that a text spells is read. -/
theorem isValidSigned64BitInt_of_spells {text : List Byte} {n : Int} (h : Spells text n)
    (hlow : -(intBound : Int) ≤ n) (hhigh : n < intBound) :
    isValidSigned64BitInt text = some (Int64.ofInt n) := by
  rw [isValidSigned64BitInt_eq_some_iff, toInt_ofInt hlow hhigh]
  exact h

end Texts

section Runs

variable {key : Key} {moment : Moment} {s : Store}

/-- The lookup, and what is done with what it finds. -/
theorem runIncr_eq : runIncr key moment s =
    ((adjustFound (· + 1) key (lookUp moment key s.dictionary)) >>= fun response =>
      .done (Answer.response response)).run performOperation moment s := by
  have hprogram : process (incr key) = .locked (.find key) fun found =>
      adjustFound (· + 1) key found >>= fun response => .done (Answer.response response) := by
    unfold incr
    rw [process_commandOf]
    rfl
  unfold runIncr
  rw [hprogram]
  rfl

theorem runIncr_missing (h : s.dictionary.lookup key = none) :
    runIncr key moment s = (.response .null, s) := by
  rw [runIncr_eq]
  unfold lookUp
  rw [h]
  rfl

theorem runIncr_expired {value : DictionaryValue RespType}
    (h : s.dictionary.lookup key = some value) (hexpired : hasExpired moment.now value = true) :
    runIncr key moment s = (.response (.int 1), s.withEntry key (.int 1) none) := by
  rw [runIncr_eq]
  unfold lookUp
  rw [h]
  simp only
  rw [if_pos hexpired]
  rfl

variable {str : List Byte} {isBulk : Bool} {value : RespType} {expiry : Option UInt64}

theorem lookup_of_live (h : live moment.now s.dictionary key = some ⟨value, expiry⟩) :
    s.dictionary.lookup key = some ⟨value, expiry⟩ ∧
      hasExpired moment.now (⟨value, expiry⟩ : DictionaryValue RespType) = false := by
  unfold live at h
  rcases Option.filter_eq_some_iff.mp h with ⟨hlookup, hlive⟩
  exact ⟨hlookup, (Bool.not_eq_true' _).mp hlive⟩

theorem lookUp_of_live (h : live moment.now s.dictionary key = some ⟨value, expiry⟩) :
    lookUp moment key s.dictionary = .live value := by
  rcases lookup_of_live h with ⟨hlookup, hlive⟩
  unfold lookUp
  rw [hlookup]
  simp only
  rw [hlive]
  rfl

/-- A number is read, and with its expiry the sum is stored, computed with 64 bits. -/
theorem runIncr_number {n : Int64}
    (h : live moment.now s.dictionary key = some ⟨.string ⟨str, isBulk⟩, expiry⟩)
    (hread : isValidSigned64BitInt str = some n) :
    runIncr key moment s =
      (.response (.string ⟨signedDigits (n + 1).toInt, false⟩),
        s.withEntry key (.string ⟨signedDigits (n + 1).toInt, false⟩) expiry) := by
  have hpeek : (performOperation (.peek key) moment s).1 = expiry := by
    unfold performOperation
    simp only
    rw [(lookup_of_live h).1]
    rfl
  rw [runIncr_eq, lookUp_of_live h]
  unfold adjustFound
  simp only
  rw [hread]
  -- The expiry is read in a section of its own, and nobody comes in between.
  change (_, s.withEntry key _ (performOperation (.peek key) moment s).1) = _
  rw [hpeek]

theorem runIncr_refused (hlive : live moment.now s.dictionary key = some ⟨value, expiry⟩)
    (hother : ∀ str isBulk, value = .string ⟨str, isBulk⟩ → isValidSigned64BitInt str = none) :
    runIncr key moment s = (.response (.error invalidOperation), s) := by
  rw [runIncr_eq, lookUp_of_live hlive]
  cases value with
  | string value =>
      unfold adjustFound
      simp only
      rw [hother value.str value.isBulk rfl]
      rfl
  | _ => rfl

end Runs

section Law

variable {key : Key} {moment : Moment} {s : Store}

/-- The largest number has no successor, so an increment of it is to be refused. -/
theorem IncrementLaw.not_largest (h : IncrementLaw key moment s) {expiry : Option UInt64} :
    ¬ HoldsDecimal moment key s (intBound - 1) expiry := by
  rintro ⟨str, isBulk, hlive, hspells⟩
  have hread : isValidSigned64BitInt str = some (Int64.ofInt (intBound - 1)) :=
    isValidSigned64BitInt_of_spells hspells (by decide) (by decide)
  have hsome : live moment.now s.dictionary key ≠ none := by
    rw [hlive]
    exact Option.some_ne_none _
  have hnone : ∀ n expiry, HoldsDecimal moment key s n expiry → ¬ HasSuccessor n := by
    rintro n expiry' ⟨str', isBulk', hlive', hspells'⟩ ⟨-, hfits⟩
    -- What the key holds spells one number only.
    rw [hlive] at hlive'
    cases hlive'
    have hsame := hspells.unique hspells'
    omega
  rcases h.refuses hsome hnone with ⟨e, he⟩
  rw [runIncr_number hlive hread] at he
  cases he

/-- A missing key is to hold the number 1 afterwards. -/
theorem IncrementLaw.not_missing (h : IncrementLaw key moment s) :
    s.dictionary.lookup key ≠ none := by
  intro hmissing
  have hnone : live moment.now s.dictionary key = none := by
    unfold live
    rw [hmissing]
    rfl
  rcases h.starts hnone with ⟨value, reply, hrun, -, hreply⟩
  rw [runIncr_missing hmissing] at hrun
  -- The reply is that there is nothing.
  cases (Prod.mk.inj hrun).1
  rcases hreply with ⟨m, hm, -⟩ | ⟨isBulk, hstring⟩
  · cases hm
  · cases hstring

/-- An expired key holds the number 1 afterwards. -/
theorem runIncr_starts (hpresent : s.dictionary.lookup key ≠ none)
    (hnone : live moment.now s.dictionary key = none) :
    ∃ value reply, runIncr key moment s = (.response reply, s.withEntry key value none) ∧
      Denotes value 1 ∧ Denotes reply 1 := by
  rcases Option.ne_none_iff_exists'.mp hpresent with ⟨value, hvalue⟩
  unfold live at hnone
  rw [hvalue, Option.filter_some, ite_eq_right_iff] at hnone
  have hexpired : hasExpired moment.now value = true := by
    by_contra hlive
    rw [Bool.not_eq_true] at hlive
    rw [hlive] at hnone
    exact absurd (hnone rfl) (Option.some_ne_none _)
  refine ⟨.int 1, .int 1, runIncr_expired hvalue hexpired, ?_, ?_⟩
  · exact Or.inl ⟨1, rfl, rfl⟩
  · exact Or.inl ⟨1, rfl, rfl⟩

theorem runIncr_counts {n : Int} {expiry : Option UInt64}
    (h : HoldsDecimal moment key s n expiry) (hsucc : HasSuccessor n) :
    ∃ isBulk reply, runIncr key moment s =
        (.response reply, s.withEntry key (.string ⟨signedDigits (n + 1), isBulk⟩) expiry) ∧
      Denotes reply (n + 1) := by
  rcases h with ⟨str, isBulk, hlive, hspells⟩
  have hhigh : n < intBound := by
    have hfits := hsucc.2
    omega
  have hread := isValidSigned64BitInt_of_spells hspells hsucc.1 hhigh
  have hn : (Int64.ofInt n).toInt = n := toInt_ofInt hsucc.1 hhigh
  have hsum : (Int64.ofInt n + 1).toInt = n + 1 := by
    rw [toInt_succ (by rw [hn]; exact hsucc.2), hn]
  have hrun := runIncr_number hlive hread
  rw [hsum] at hrun
  exact ⟨false, _, hrun, Or.inr ⟨false, rfl⟩⟩

theorem runIncr_refuses (hlarge : ∀ expiry, ¬ HoldsDecimal moment key s (intBound - 1) expiry)
    (hsome : live moment.now s.dictionary key ≠ none)
    (hnone : ∀ n expiry, HoldsDecimal moment key s n expiry → ¬ HasSuccessor n) :
    ∃ e, runIncr key moment s = (.response (.error e), s) := by
  rcases Option.ne_none_iff_exists'.mp hsome with ⟨⟨value, expiry⟩, hlive⟩
  refine ⟨invalidOperation, runIncr_refused hlive ?_⟩
  rintro str isBulk rfl
  -- A number that is read has a successor, since it is not the largest one.
  by_contra hread
  rcases Option.ne_none_iff_exists'.mp hread with ⟨n, hn⟩
  have hholds : HoldsDecimal moment key s n.toInt expiry :=
    ⟨str, isBulk, hlive, isValidSigned64BitInt_eq_some_iff.mp hn⟩
  have hlow : -(intBound : Int) ≤ n.toInt := Int64.le_toInt n
  have hhigh : n.toInt < intBound := Int64.toInt_lt n
  have hne : n.toInt ≠ intBound - 1 := by
    intro heq
    rw [heq] at hholds
    exact hlarge expiry hholds
  exact hnone n.toInt expiry hholds ⟨hlow, by omega⟩

/-- An increment does what it is to do unless the key is missing, or holds the largest
    number of 64 bits. -/
theorem incrementLaw_iff (key : Key) (moment : Moment) (s : Store) :
    IncrementLaw key moment s ↔
      s.dictionary.lookup key ≠ none ∧
        ∀ expiry, ¬ HoldsDecimal moment key s (intBound - 1) expiry := by
  constructor
  · intro h
    exact ⟨h.not_missing, fun expiry => h.not_largest⟩
  · rintro ⟨hpresent, hlarge⟩
    exact ⟨runIncr_starts hpresent, fun n expiry => runIncr_counts, runIncr_refuses hlarge⟩

/-- There is no key. -/
theorem not_incrementLaw :
    ¬ ∀ (key : Key) (moment : Moment) (s : Store), IncrementLaw key moment s := by
  intro hall
  exact (hall (bytes "k") (Moment.ordinary 0) ⟨∅, none⟩).not_missing rfl

end Law

end Redis

end CodingChallenges
