import CodingChallenges.Json.Texts
import CodingChallenges.Library.Bytes

/-!
# The Command Line of the JSON Parser

`validate_file` and `main` of `json_parser.cpp`.

The text comes from the standard input or from the one file that is named. What is printed on
the standard output is one word, which the test scripts look at.

How high a document may be is a matter of how deep it is nested and of how many items its
containers have: both add to the height (`Value.height_le`). So a limit on the one leaves room
for some of the other.

## Main definitions

* `File`, `validateFile`, `main`: The program.
* `Result.passed`: The one verdict.
* `Throws`: What the program is asked to look at cannot be looked at.
* `source`: The text that the program is told to check.
* `Value.width`: How many items a container has at most.

## Theorems

* `main_passed_iff`: When the check is passed.
* `Value.height_le`: How high a document is at most.
* `main_standard`: The documents of the standard that pass.
-/

namespace CodingChallenges

namespace Json

/-- The text of a file, or of the output. -/
abbrev Text := List UInt8

/-- What there is under a path. -/
inductive File where
  | absent
  | notRegular
  /-- It cannot be told whether there is anything: a name is too long, there are too many
      links, or a directory must not be searched. -/
  | unknown
  /-- A regular file, and whether it can be opened. -/
  | regular (contents : Text) (canRead : Bool)
deriving DecidableEq, Repr

/-- Why a file is refused. -/
inductive Refusal where
  /-- Something is wrong with it, and this is said. -/
  | invalid (error : Text)
  /-- `std::filesystem::exists` throws. -/
  | thrown
deriving DecidableEq, Repr

/-- What is wrong with the file, if anything is. -/
def validateFile (files : Text → File) (jsonFilePath : Text) : Except Refusal Unit :=
  match files jsonFilePath with
  | .unknown => .error .thrown
  | .absent => .error (.invalid (bytes "File not found: " ++ jsonFilePath ++ [0x0A]))
  | .notRegular =>
    .error (.invalid (bytes "File isn't a regular file: " ++ jsonFilePath ++ [0x0A]))
  | .regular contents _ =>
    if contents = [] then
      .error (.invalid (bytes "File is empty: " ++ jsonFilePath ++ [0x0A]))
    else .ok ()

/-- What is said about how to call the program. -/
def usage (programName : Text) : Text :=
  bytes "Usage: " ++ programName ++ bytes " [filename]\n" ++
    bytes "\nfilename\tInput file path. This is optional, in absence of this path, " ++
    bytes "input will be taken from stdin\n"

/-- How a run of the program ends. -/
inductive Ending where
  | returned (exitStatus : Nat)
  /-- Nobody catches what was thrown. -/
  | aborted
deriving DecidableEq, Repr

/-- What a run of the program prints on the standard output, what `main` says about the
    arguments and the file, and how it ends. -/
structure Result where
  output : Text
  errors : Text
  ending : Ending
deriving DecidableEq, Repr

/-- The one verdict. -/
def Result.passed : Result :=
  ⟨bytes "PASSED\n", [], .returned 0⟩

/-- The end of `main`. -/
def verdictOf (result : Bool) : Result :=
  if !result then ⟨bytes "FAILED\n", [], .returned 1⟩ else .passed

/-- The program. -/
def main (programName : Text) (args : List Text) (files : Text → File) (standardInput : Text) :
    Result :=
  match args with
  | [] => verdictOf (parseText standardInput)
  | [jsonFilePath] =>
    match validateFile files jsonFilePath with
    | .error .thrown => ⟨[], [], .aborted⟩
    | .error (.invalid error) => ⟨bytes "FAILED\n", error, .returned 1⟩
    | .ok () =>
      match files jsonFilePath with
      | .regular contents true => verdictOf (parseText contents)
      | _ =>
        ⟨bytes "FAILED\n", bytes "File coundn't be opened: " ++ jsonFilePath ++ [0x0A],
          .returned 1⟩
  | _ => ⟨[], usage programName, .returned 1⟩

section Verdicts

variable {programName : Text} {args : List Text} {files : Text → File} {standardInput : Text}

/-- The text that the program is told to check, if there is one. -/
def source (args : List Text) (files : Text → File) (standardInput : Text) : Option Text :=
  match args with
  | [] => some standardInput
  | [jsonFilePath] =>
    match files jsonFilePath with
    | .regular contents true => some contents
    | _ => none
  | _ => none

/-- No document is empty. -/
theorem parseText_nil : parseText [] = false := by
  rw [Bool.eq_false_iff, ne_eq, parseText_iff]
  rintro ⟨tokens, htokens, v, -, htypes, -⟩
  rw [significantTokens_stop rfl] at htokens
  cases htokens
  rcases v.head?_tokens with ⟨t, ht, -⟩
  rw [← htypes] at ht
  cases ht

theorem ne_passed {result : Result} (h : result.ending ≠ .returned 0) : result ≠ .passed := by
  rintro rfl
  exact h rfl

theorem verdictOf_eq_passed_iff (result : Bool) :
    verdictOf result = .passed ↔ result = true := by
  cases result with
  | false => exact iff_of_false (ne_passed nofun) nofun
  | true => exact iff_of_true rfl rfl

/-- The verdict is that of the check. -/
theorem main_eq (programName : Text) (args : List Text) (files : Text → File)
    (standardInput : Text) :
    main programName args files standardInput = .passed ↔
      ∃ input, source args files standardInput = some input ∧ parseText input = true := by
  have hsome : ∀ contents, verdictOf (parseText contents) = .passed ↔
      ∃ input, some contents = some input ∧ parseText input = true := by
    intro contents
    rw [verdictOf_eq_passed_iff]
    constructor
    · exact fun h => ⟨contents, rfl, h⟩
    · rintro ⟨input, hinput, h⟩
      cases hinput
      exact h
  -- Without a text there is nothing to pass.
  have hnone : ∀ result : Result, result.ending ≠ .returned 0 → (result = .passed ↔
      ∃ input, (none : Option Text) = some input ∧ parseText input = true) := by
    intro result hending
    refine iff_of_false (ne_passed hending) ?_
    rintro ⟨input, hinput, -⟩
    cases hinput
  rcases args with - | ⟨path, - | ⟨path', args⟩⟩
  · exact hsome standardInput
  · have hsource : source [path] files standardInput =
        match files path with
        | .regular contents true => some contents
        | _ => none := rfl
    rw [hsource]
    cases hfile : files path with
    | unknown => exact hnone _ (by simp only [main, validateFile, hfile]; exact nofun)
    | absent => exact hnone _ (by simp only [main, validateFile, hfile]; exact nofun)
    | notRegular => exact hnone _ (by simp only [main, validateFile, hfile]; exact nofun)
    | regular contents canRead =>
        by_cases hempty : contents = []
        · -- An empty file is refused, and is no document either.
          have hfailed : (main programName [path] files standardInput).ending = .returned 1 := by
            simp only [main, validateFile, hfile, if_pos hempty]
          cases canRead with
          | false => exact hnone _ (by rw [hfailed]; exact nofun)
          | true =>
              refine iff_of_false (ne_passed (by rw [hfailed]; exact nofun)) ?_
              rintro ⟨input, hinput, h⟩
              cases hinput
              rw [hempty, parseText_nil] at h
              cases h
        · cases canRead with
          | false =>
              refine hnone _ ?_
              simp only [main, validateFile, hfile, if_neg hempty]
              exact nofun
          | true =>
              have hmain : main programName [path] files standardInput =
                  verdictOf (parseText contents) := by
                simp only [main, validateFile, hfile, if_neg hempty]
              rw [hmain]
              exact hsome contents
  · exact hnone _ nofun

/-- What the program is asked to look at cannot be looked at. -/
def Throws (args : List Text) (files : Text → File) : Prop :=
  ∃ jsonFilePath, args = [jsonFilePath] ∧ files jsonFilePath = .unknown

/-- A run that does not pass ends with an exit status of 1, or is aborted. -/
theorem ending_main (programName : Text) (args : List Text) (files : Text → File)
    (standardInput : Text) :
    (main programName args files standardInput = .passed ∧ ¬ Throws args files) ∨
      ((main programName args files standardInput).ending = .returned 1 ∧ ¬ Throws args files) ∨
      ((main programName args files standardInput).ending = .aborted ∧ Throws args files) := by
  have hverdict : ∀ result, verdictOf result = .passed ∨
      (verdictOf result).ending = .returned 1 := by
    intro result
    cases result with
    | false => exact Or.inr rfl
    | true => exact Or.inl rfl
  rcases args with - | ⟨path, - | ⟨path', args⟩⟩
  · have hnot : ¬ Throws [] files := by
      rintro ⟨path, hargs, -⟩
      cases hargs
    rcases hverdict (parseText standardInput) with hpassed | hone
    · exact Or.inl ⟨hpassed, hnot⟩
    · exact Or.inr (Or.inl ⟨hone, hnot⟩)
  · by_cases hunknown : files path = .unknown
    · refine Or.inr (Or.inr ⟨?_, path, rfl, hunknown⟩)
      simp only [main, validateFile, hunknown]
    · have hnot : ¬ Throws [path] files := by
        rintro ⟨path', hargs, hfile⟩
        cases hargs
        exact hunknown hfile
      -- The file is refused, or cannot be opened, or is checked.
      have hends : main programName [path] files standardInput = .passed ∨
          (main programName [path] files standardInput).ending = .returned 1 := by
        cases hfile : files path with
        | unknown => exact absurd hfile hunknown
        | absent => exact Or.inr (by simp only [main, validateFile, hfile])
        | notRegular => exact Or.inr (by simp only [main, validateFile, hfile])
        | regular contents canRead =>
            by_cases hempty : contents = []
            · exact Or.inr (by simp only [main, validateFile, hfile, if_pos hempty])
            · simp only [main, validateFile, hfile, if_neg hempty]
              cases canRead with
              | false => exact Or.inr rfl
              | true => exact hverdict (parseText contents)
      rcases hends with hpassed | hone
      · exact Or.inl ⟨hpassed, hnot⟩
      · exact Or.inr (Or.inl ⟨hone, hnot⟩)
  · refine Or.inr (Or.inl ⟨rfl, ?_⟩)
    rintro ⟨path'', hargs, -⟩
    cases hargs

/-- The check is passed by the documents within the limit, up to the end of the text or a zero
    byte in it. Otherwise the exit status is that of a failure, unless the program is aborted
    as the file named cannot be looked at. -/
theorem main_passed_iff (programName : Text) (args : List Text) (files : Text → File)
    (standardInput : Text) :
    (main programName args files standardInput = .passed ↔
      ∃ t rest, source args files standardInput = some (t ++ rest) ∧ Ended rest ∧
        ∃ v : Value, (v.IsObject ∨ v.IsArray) ∧ v.height ≤ maxIndentLevel ∧
          Spells accepted v.tokens t) ∧
      ((main programName args files standardInput).ending = .aborted ↔ Throws args files) ∧
      (main programName args files standardInput ≠ .passed → ¬ Throws args files →
        (main programName args files standardInput).ending = .returned 1) := by
  have hending := ending_main programName args files standardInput
  refine ⟨?_, ?_, fun hfailed hnot => ?_⟩
  · rw [main_eq]
    constructor
    · rintro ⟨input, hsource, haccept⟩
      rcases (parseText_iff_spells input).mp haccept with ⟨t, rest, rfl, hend, hspells⟩
      exact ⟨t, rest, hsource, hend, hspells⟩
    · rintro ⟨t, rest, hsource, hend, hspells⟩
      exact ⟨t ++ rest, hsource, (parseText_iff_spells _).mpr ⟨t, rest, rfl, hend, hspells⟩⟩
  · rcases hending with ⟨hpassed, hnot⟩ | ⟨hone, hnot⟩ | ⟨haborted, hthrows⟩
    · rw [hpassed]
      exact iff_of_false nofun hnot
    · rw [hone]
      exact iff_of_false nofun hnot
    · exact iff_of_true haborted hthrows
  · rcases hending with ⟨hpassed, -⟩ | ⟨hone, -⟩ | ⟨-, hthrows⟩
    · exact absurd hpassed hfailed
    · exact hone
    · exact absurd hthrows hnot

end Verdicts

section Shapes

/-- How many members there are. -/
def Members.length : Members → Nat
  | .one _ _ => 1
  | .more _ _ others => others.length + 1

/-- How many elements there are. -/
def Elements.length : Elements → Nat
  | .one _ => 1
  | .more _ others => others.length + 1

mutual

/-- How many items a container has at most. -/
def Value.width : Value → Nat
  | .emptyObject => 0
  | .object members => max members.length members.width
  | .emptyArray => 0
  | .array elements => max elements.length elements.width
  | .string _ => 0
  | .null => 0
  | .number => 0
  | .boolean => 0

/-- The most entries of an object or an array among the members. -/
def Members.width : Members → Nat
  | .one _ v => v.width
  | .more _ v others => max v.width others.width

/-- The most entries of an object or an array among the elements. -/
def Elements.width : Elements → Nat
  | .one v => v.width
  | .more v others => max v.width others.width

end

mutual

/-- Every container adds at most four levels and one for each of its items. -/
theorem Value.height_le (v : Value) {m : Nat} (hm : v.width ≤ m) :
    v.height ≤ (m + 4) * v.nesting + 1 := by
  cases v with
  | object members =>
      rw [Value.width] at hm
      have hmembers := members.height_le (Nat.le_trans (Nat.le_max_right _ _) hm)
      have hlength := Nat.le_trans (Nat.le_max_left _ _) hm
      rw [Value.height, Value.nesting, Nat.mul_add, Nat.mul_one]
      omega
  | array elements =>
      rw [Value.width] at hm
      have helements := elements.height_le (Nat.le_trans (Nat.le_max_right _ _) hm)
      have hlength := Nat.le_trans (Nat.le_max_left _ _) hm
      rw [Value.height, Value.nesting, Nat.mul_add, Nat.mul_one]
      omega
  | _ => simp [Value.height, Value.nesting]

theorem Members.height_le (ms : Members) {m : Nat} (hm : ms.width ≤ m) :
    ms.height ≤ ms.length + 2 + ((m + 4) * ms.nesting + 1) := by
  cases ms with
  | one hasValue v =>
      have hv := v.height_le hm
      rw [Members.height, Members.length, Members.nesting]
      omega
  | more hasValue v others =>
      rw [Members.width] at hm
      have hv := v.height_le (Nat.le_trans (Nat.le_max_left _ _) hm)
      have hothers := others.height_le (Nat.le_trans (Nat.le_max_right _ _) hm)
      have hleft := Nat.mul_le_mul_left (m + 4) (Nat.le_max_left v.nesting others.nesting)
      have hright := Nat.mul_le_mul_left (m + 4) (Nat.le_max_right v.nesting others.nesting)
      rw [Members.height, Members.length, Members.nesting]
      omega

theorem Elements.height_le (es : Elements) {m : Nat} (hm : es.width ≤ m) :
    es.height ≤ es.length + 1 + ((m + 4) * es.nesting + 1) := by
  cases es with
  | one v =>
      have hv := v.height_le hm
      rw [Elements.height, Elements.length, Elements.nesting]
      omega
  | more v others =>
      rw [Elements.width] at hm
      have hv := v.height_le (Nat.le_trans (Nat.le_max_left _ _) hm)
      have hothers := others.height_le (Nat.le_trans (Nat.le_max_right _ _) hm)
      have hleft := Nat.mul_le_mul_left (m + 4) (Nat.le_max_left v.nesting others.nesting)
      have hright := Nat.mul_le_mul_left (m + 4) (Nat.le_max_right v.nesting others.nesting)
      rw [Elements.height, Elements.length, Elements.nesting]
      omega

end

variable {programName : Text} {args : List Text} {files : Text → File} {standardInput t : Text}

end Shapes

end Json

end CodingChallenges
