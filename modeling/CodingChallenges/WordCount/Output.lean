import CodingChallenges.Library.Fuel
import CodingChallenges.Library.Words

/-!
# Counters

What both versions of the program count, and how they count words.

A flag tells whether a word is under process, and the word is counted when white space comes
behind it. The counters have 64 bits.

## Main definitions

* `Output`: The counters.
* `processWord`: What is done with a character for the sake of the words.

## Theorems

* `processWords_eq`, `processWord_eq`: What is counted in a text.
-/

namespace CodingChallenges

namespace WordCount

/-- The counters, which have 64 bits. -/
structure Output where
  bytes : UInt64 := 0
  lines : UInt64 := 0
  words : UInt64 := 0
  chars : UInt64 := 0
deriving DecidableEq, Repr

/-- A loop that was given too little fuel. -/
inductive Fault where
  | outOfFuel
deriving DecidableEq, Repr

/-- The word that is under process ends with white space, and is counted then. -/
def processWord (isSpace isWordUnderProcess : Bool) (words : UInt64) : Bool × UInt64 :=
  if isSpace && isWordUnderProcess then (false, words + 1)
  else if !isSpace then (true, words)
  else (isWordUnderProcess, words)

/-- The flag and the counter behind a text. -/
def processWords (isSpace : Nat → Bool) (s : Bool × UInt64) (text : List Nat) : Bool × UInt64 :=
  text.foldl (fun s c => processWord (isSpace c) s.1 s.2) s

/-- The words that have ended are counted, and the flag tells whether the text ends inside
    one. -/
theorem processWords_eq (isSpace : Nat → Bool) (inside : Bool) (words : UInt64) (text : List Nat) :
    processWords isSpace (inside, words) text =
      (insideWord isSpace inside text, words + UInt64.ofNat (endedWords isSpace inside text)) := by
  -- The flag is what `insideWord` tells of the text so far.
  induction text generalizing inside words with
  | nil =>
      rw [endedWords]
      exact congrArg _ (UInt64.add_zero words).symm
  | cons c text ih =>
      rw [processWords, List.foldl_cons, ← processWords, processWord, insideWord_cons, endedWords]
      cases hc : isSpace c with
      | false => exact ih true words
      | true =>
          cases inside with
          | false =>
              simp only [Bool.and_false, Bool.false_eq_true, if_false, Bool.not_true, if_true,
                Bool.toNat_false, Nat.zero_add]
              exact ih false words
          | true =>
              simp only [Bool.and_true, if_true, Bool.not_true, Bool.toNat_true]
              rw [ih false (words + 1), UInt64.ofNat_add, ← UInt64.add_assoc]
              rfl

/-- One character more at the front. -/
theorem processWord_eq (isSpace : Nat → Bool) (inside : Bool) (words : UInt64) (c : Nat)
    (text : List Nat) :
    insideWord isSpace (processWord (isSpace c) inside words).1 text =
        insideWord isSpace inside (c :: text) ∧
      (processWord (isSpace c) inside words).2 +
          UInt64.ofNat (endedWords isSpace (processWord (isSpace c) inside words).1 text) =
        words + UInt64.ofNat (endedWords isSpace inside (c :: text)) := by
  have hstep := processWords_eq isSpace (processWord (isSpace c) inside words).1
    (processWord (isSpace c) inside words).2 text
  have hwhole := processWords_eq isSpace inside words (c :: text)
  rw [processWords, List.foldl_cons, ← processWords] at hwhole
  exact Prod.mk.inj (hstep.symm.trans hwhole)

end WordCount

end CodingChallenges
