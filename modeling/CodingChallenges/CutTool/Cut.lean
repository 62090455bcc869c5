import CodingChallenges.Library.Delimiter
import Mathlib.Algebra.Ring.Nat

/-!
# Selecting Fields

What the cut tool prints for a line: `cut_and_print_output` of `cut.cpp`.

A line is cut into fields at its delimiters. Then the numbers of the field list are gone
through, and those of them that are numbers of fields are printed, with delimiters in
between. The first field has the number 1. A number 0 wraps around to the largest one there
is, and no line has as many fields.

The usage text says that a line without a delimiter is printed as it is. The code knows no
such case: the line is its own only field, so it is printed once for every 1 in the list, and
not at all if there is none (`printLine_iff`).

## Main definitions

* `Config`, `Line`: The options, and a line of the input.
* `fieldValues`, `printFields`, `printLine`, `cutAndPrintOutput`: The loops.
* `fieldWithNumber`, `selectedFields`, `usageLine`: What the usage text says.

## Theorems

* `fieldValues_eq`: The fields are what stands between the delimiters.
* `printFields_eq`: What is printed of them.
* `printLine_iff`: When the code does what the usage text says.
-/

namespace CodingChallenges

namespace CutTool

open Delimiter

/-- What to cut, and where. -/
structure Config where
  fields : List UInt64
  /-- The default is a tab. -/
  delimiter : UInt8 := 9
deriving DecidableEq, Repr

/-- A string. Its size is not larger than that of any object can be. -/
structure Line where
  bytes : List UInt8
  length_lt : bytes.length < 2 ^ 63

/-- The loop that cuts off the first field as long as there is a delimiter. -/
def fieldValues (delimiter : UInt8) (lineView : List UInt8) : List (List UInt8) :=
  match _h : find [delimiter] lineView with
  | none => [lineView]
  | some pos => lineView.take pos :: fieldValues delimiter (lineView.drop (pos + 1))
termination_by lineView.length
decreasing_by
  have hle := find_le _h
  rw [List.length_singleton] at hle
  rw [List.length_drop]
  omega

/-- The loop over the field list. Subtracting 1 from 0 gives the largest number. -/
def printFields (delimiter : UInt8) (values : List (List UInt8)) :
    List UInt64 → Bool → List UInt8
  | [], _ => []
  | fieldNo :: fields, firstField =>
    if h : (fieldNo - 1).toNat < values.length then
      (if firstField then [] else [delimiter]) ++ values[(fieldNo - 1).toNat] ++
        printFields delimiter values fields false
    else
      printFields delimiter values fields firstField

/-- What is printed for a line. -/
def printLine (config : Config) (line : Line) : List UInt8 :=
  printFields config.delimiter (fieldValues config.delimiter line.bytes) config.fields true ++ [10]

/-- What is printed of all lines. -/
def cutAndPrintOutput (config : Config) (lines : List Line) : List UInt8 :=
  lines.flatMap (printLine config)

/-- The field with a number, counted from 1. -/
def fieldWithNumber (values : List (List UInt8)) (fieldNo : UInt64) : Option (List UInt8) :=
  if fieldNo = 0 then none else values[fieldNo.toNat - 1]?

/-- The fields with the numbers of the list, in its order. Numbers that no field has select
    nothing. -/
def selectedFields (fields : List UInt64) (values : List (List UInt8)) : List (List UInt8) :=
  fields.filterMap (fieldWithNumber values)

/-- The line that is to be printed according to the usage text. -/
def usageLine (config : Config) (line : Line) : List UInt8 :=
  if config.delimiter ∈ line.bytes then
    List.intercalate [config.delimiter]
      (selectedFields config.fields (line.bytes.splitOn config.delimiter))
  else
    line.bytes

/-- The fields of a line are what stands between the delimiters. -/
theorem fieldValues_eq (delimiter : UInt8) (lineView : List UInt8) :
    fieldValues delimiter lineView = lineView.splitOn delimiter := by
  induction lineView using fieldValues.induct delimiter with
  | case1 lineView h =>
      rw [fieldValues]
      have hfree : delimiter ∉ lineView := by
        rw [← List.singleton_infix_iff]
        exact find_eq_none_iff.mp h
      rw [List.splitOn_eq_singleton hfree]
      split
      · rfl
      · next pos hpos =>
          rw [h] at hpos
          cases hpos
  | case2 lineView pos h ih =>
      rw [fieldValues, splitOn_of_find h, ← ih]
      split
      · next hnone =>
          rw [h] at hnone
          cases hnone
      · next pos' hpos =>
          rw [h] at hpos
          cases hpos
          rfl

section Printing

variable {values : List (List UInt8)}

/-- The test of a number is whether there is a field with this number. -/
theorem getElem?_sub_one (hlength : values.length < 2 ^ 64) (fieldNo : UInt64) :
    values[(fieldNo - 1).toNat]? = fieldWithNumber values fieldNo := by
  by_cases hzero : fieldNo = 0
  · rw [fieldWithNumber, if_pos hzero, hzero, List.getElem?_eq_none_iff]
    exact Nat.le_of_lt_succ hlength
  · have hne : fieldNo.toNat ≠ 0 := fun h => hzero (UInt64.toNat_inj.mp h)
    have hle : 1 ≤ fieldNo := UInt64.le_iff_toNat_le.mpr (Nat.pos_of_ne_zero hne)
    rw [fieldWithNumber, if_neg hzero, UInt64.toNat_sub_of_le _ _ hle]
    rfl

/-- One round of the loop. -/
theorem printFields_cons (hlength : values.length < 2 ^ 64) (delimiter : UInt8)
    (fieldNo : UInt64) (fields : List UInt64) (firstField : Bool) :
    printFields delimiter values (fieldNo :: fields) firstField =
      match fieldWithNumber values fieldNo with
      | none => printFields delimiter values fields firstField
      | some value => (if firstField then [] else [delimiter]) ++ value ++
          printFields delimiter values fields false := by
  rw [← getElem?_sub_one hlength, printFields]
  by_cases hlt : (fieldNo - 1).toNat < values.length
  · rw [dif_pos hlt, List.getElem?_eq_getElem hlt]
  · rw [dif_neg hlt, List.getElem?_eq_none_iff.mpr (Nat.not_lt.mp hlt)]

/-- Behind the first field each one is printed with a delimiter in front of it. -/
theorem printFields_behind (hlength : values.length < 2 ^ 64) (delimiter : UInt8)
    (fields : List UInt64) :
    printFields delimiter values fields false =
      (selectedFields fields values).flatMap fun value => [delimiter] ++ value := by
  induction fields with
  | nil => rfl
  | cons fieldNo fields ih =>
      rw [printFields_cons hlength, selectedFields, List.filterMap_cons]
      cases fieldWithNumber values fieldNo with
      | none => exact ih
      | some value =>
          simp only []
          rw [List.flatMap_cons, ih, selectedFields]
          rfl

theorem printFields_eq (hlength : values.length < 2 ^ 64) (delimiter : UInt8)
    (fields : List UInt64) :
    printFields delimiter values fields true =
      List.intercalate [delimiter] (selectedFields fields values) := by
  induction fields with
  | nil => rfl
  | cons fieldNo fields ih =>
      rw [printFields_cons hlength, selectedFields, List.filterMap_cons]
      cases fieldWithNumber values fieldNo with
      | none => exact ih
      | some value =>
          simp only []
          rw [intercalate_cons, printFields_behind hlength, selectedFields]
          rfl

/-- A line with one field is selected as often as the list has the number 1. -/
theorem selectedFields_singleton (fields : List UInt64) (value : List UInt8) :
    selectedFields fields [value] = List.replicate (fields.count 1) value := by
  induction fields with
  | nil => rfl
  | cons fieldNo fields ih =>
      rw [selectedFields] at ih ⊢
      rw [List.filterMap_cons, ih]
      by_cases hone : fieldNo = 1
      · rw [hone, List.count_cons_self, List.replicate_succ]
        rfl
      · have hnone : fieldWithNumber [value] fieldNo = none := by
          rw [fieldWithNumber]
          split
          · rfl
          · next hzero =>
              have hzero' : fieldNo.toNat ≠ 0 := fun h => hzero (UInt64.toNat_inj.mp h)
              have hone' : fieldNo.toNat ≠ 1 := fun h => hone (UInt64.toNat_inj.mp h)
              exact List.getElem?_eq_none (show 1 ≤ fieldNo.toNat - 1 by omega)
        rw [hnone, List.count_cons_of_ne hone]

end Printing

/-- Copies of a text, with delimiters in between, are the text itself only if there is one. -/
theorem intercalate_replicate_eq_iff (delimiter : UInt8) (value : List UInt8) (n : Nat) :
    List.intercalate [delimiter] (List.replicate n value) = value ↔
      n = 1 ∨ (value = [] ∧ n ≤ 1) := by
  rcases n with _ | _ | n
  · rw [List.replicate_zero, List.intercalate_nil]
    refine ⟨fun h => Or.inr ⟨h.symm, Nat.zero_le 1⟩, fun h => ?_⟩
    rcases h with h | h
    · cases h
    · exact h.1.symm
  · exact iff_of_true List.intercalate_singleton (Or.inl rfl)
  · -- The second copy makes the text longer.
    refine iff_of_false (fun h => ?_) (fun h => by omega)
    have hlength := congrArg List.length h
    rw [List.replicate_succ, List.replicate_succ, List.intercalate_cons_cons, List.length_append,
      List.length_append, List.length_singleton] at hlength
    omega

/-- A line is printed as the usage text says exactly if it has a delimiter, or the list has the
    number 1 once, or the line is empty and the list does not have this number twice. -/
theorem printLine_iff (config : Config) (line : Line) :
    printLine config line = usageLine config line ++ [10] ↔
      config.delimiter ∈ line.bytes ∨ config.fields.count 1 = 1 ∨
        (line.bytes = [] ∧ config.fields.count 1 ≤ 1) := by
  have hlength : (line.bytes.splitOn config.delimiter).length < 2 ^ 64 := by
    have hle := length_splitOn_le config.delimiter line.bytes
    have hlt := line.length_lt
    omega
  rw [printLine, fieldValues_eq, printFields_eq hlength, List.append_left_inj, usageLine]
  -- Without a delimiter the line is its own only field.
  by_cases hmem : config.delimiter ∈ line.bytes
  · rw [if_pos hmem]
    exact iff_of_true rfl (Or.inl hmem)
  · rw [if_neg hmem, or_iff_right hmem, List.splitOn_eq_singleton hmem, selectedFields_singleton]
    exact intercalate_replicate_eq_iff _ _ _

/-- A line without a delimiter of which the second field is selected. -/
theorem not_printLine :
    ¬ ∀ (config : Config) (line : Line), config.fields ≠ [] →
      printLine config line = usageLine config line ++ [10] := by
  intro hall
  have hline := hall ⟨[2], 9⟩ ⟨[97], by decide⟩ (List.cons_ne_nil _ _)
  have hfields : fieldValues 9 [97] = [[97]] := by
    rw [fieldValues_eq]
    exact List.splitOn_eq_singleton (by decide)
  rw [printLine, hfields] at hline
  exact absurd hline (by decide)

end CutTool

end CodingChallenges
