import CodingChallenges.Library.Bytes
import CodingChallenges.Library.Decimal
import CodingChallenges.Library.Lines
import Mathlib.Algebra.Ring.Nat
import Mathlib.Data.List.Destutter
import Mathlib.Algebra.Ring.Int.Defs

/-!
# Repeated Lines

The uniq tool: `print_line` and `process_lines` of `uniq.cpp`.

The loop keeps the line before the current one and the number of times that it has come in
a row. Whenever another line comes, and once more behind the last line, the previous one is
printed if the options ask for it. So what is printed is decided by the runs of equal lines
(`processLines_eq`). The number is an `int`, so there have to be fewer than 2^31 lines.

With the option `-c` the runs can be read again from what is printed, and the lines with them
(`expand_processLines`). Without options the tool has nothing more to do on its own output
(`processLines_processLines`).

## Main definitions

* `Config`: The options.
* `printLine`, `processRest`, `processLines`: What is printed.
* `Selected`, `printRun`: What is printed for a run.
* `countedLine`, `expandLine`: A run with its length in front of it.

## Theorems

* `processLines_eq`: The runs decide what is printed.
* `expand_processLines`: The option `-c` keeps all lines.
* `processLines_plain`: What is printed without options.
* `processLines_processLines`: It is printed as it is.
-/

namespace CodingChallenges

namespace UniqTool

/-- A line, or what is printed. -/
abbrev Text := List UInt8

/-- The options. A path that is not there stands for the standard input or output. -/
structure Config where
  inputFilePath : Option Text := none
  outputFilePath : Option Text := none
  printCount : Bool := false
  printOnlyRepeated : Bool := false
  printOnlyUnique : Bool := false
deriving DecidableEq, Repr

/-- A text behind as many blanks as its field has left. -/
def setWidth (width : Nat) (text : Text) : Text :=
  List.replicate (width - text.length) 32 ++ text

/-- The function `print` of `print_line`. -/
def printed (printCount : Bool) (line : Text) (count : Int32) : Text :=
  (if printCount then setWidth 7 (signedDigits count.toInt) ++ [32] else []) ++ line ++ [10]

/-- What is printed of a run of equal lines. -/
def printLine (config : Config) (line : Text) (count : Int32) : Text :=
  if config.printOnlyRepeated && 1 < count then
    printed config.printCount line count
  else if config.printOnlyUnique && count == 1 then
    printed config.printCount line count
  else if !config.printOnlyRepeated && !config.printOnlyUnique then
    printed config.printCount line count
  else []

/-- The loop over the lines behind the first one, and what is printed behind it. -/
def processRest (config : Config) (previousLine : Text) (count : Int32) : List Text → Text
  | [] => printLine config previousLine count
  | currentLine :: lines =>
    if currentLine = previousLine then
      processRest config currentLine (count + 1) lines
    else
      printLine config previousLine count ++ processRest config currentLine 1 lines

/-- What is written to the output, and what to the standard error stream. -/
structure Printed where
  output : Text
  errors : Text
deriving DecidableEq, Repr

/-- The lines are read one by one, and compared with the one before. -/
def processLines (config : Config) (input : Text) : Printed :=
  match Lines.read 10 input with
  | [] => ⟨[], bytes "Input is empty.\n"⟩
  | line :: lines => ⟨processRest config line 1 lines, []⟩

/-- The options ask for the runs of some length. -/
def Selected (config : Config) (length : Nat) : Prop :=
  (config.printOnlyRepeated = false ∧ config.printOnlyUnique = false) ∨
    (config.printOnlyRepeated = true ∧ 1 < length) ∨ (config.printOnlyUnique = true ∧ length = 1)

instance (config : Config) (length : Nat) : Decidable (Selected config length) :=
  inferInstanceAs (Decidable (_ ∨ _ ∨ _))

/-- What is printed for a run of equal lines. -/
def printRun (config : Config) (run : List Text) : Text :=
  match run with
  | [] => []
  | line :: _ =>
    if Selected config run.length then
      (if config.printCount then setWidth 7 (decimalDigits run.length) ++ [32] else []) ++
        line ++ [10]
    else []

section Loop

variable {config : Config}

/-- The options that `print_line` looks at ask for a run of this length. -/
theorem printLine_eq_ite (line : Text) {count : Int32} {n : Nat} (hcount : count.toInt = n + 1) :
    printLine config line count =
      if Selected config (n + 1) then printed config.printCount line count else [] := by
  have hmore : 1 < count ↔ 1 < n + 1 := by
    rw [Int32.lt_iff_toInt_lt, hcount, show (1 : Int32).toInt = 1 from rfl]
    omega
  have hone : count = 1 ↔ n + 1 = 1 := by
    rw [← Int32.toInt_inj, hcount, show (1 : Int32).toInt = 1 from rfl]
    omega
  unfold printLine Selected
  by_cases hrepeated : config.printOnlyRepeated = true
  · by_cases hunique : config.printOnlyUnique = true
    · by_cases hlength : n = 0
      · simp [hrepeated, hunique, hmore, hone, hlength]
      · simp only [hrepeated, hmore, Nat.lt_add_left_iff_pos, Nat.pos_of_ne_zero hlength,
          decide_true, Bool.and_self, ↓reduceIte, Bool.true_eq_false, hunique, and_self,
          Nat.add_eq_right, true_and, true_or, or_true]
    · simp [hrepeated, hunique, hmore]
  · by_cases hunique : config.printOnlyUnique = true
    · simp [hrepeated, hunique, hone]
    · simp only [hrepeated, Bool.false_and, Bool.false_eq_true, ↓reduceIte, hunique, Bool.not_false,
        Bool.and_self, and_self, Nat.lt_add_left_iff_pos, false_and, Nat.add_eq_right, or_self,
        or_false]

/-- A line is printed as the run that it stands for. -/
theorem printLine_eq (line : Text) {count : Int32} {n : Nat} (hcount : count.toInt = n + 1) :
    printLine config line count = printRun config (List.replicate (n + 1) line) := by
  have hdigits : signedDigits count.toInt = decimalDigits (n + 1) := by
    rw [hcount]
    rfl
  rw [printLine_eq_ite line hcount, List.replicate_succ, printRun, printed, hdigits,
    List.length_cons, List.length_replicate]

/-- From some line on, what is printed are the runs that are left. The current one has come
    `n + 1` times so far. -/
theorem processRest_eq (previousLine : Text) {count : Int32} {n : Nat} {lines : List Text}
    (hcount : count.toInt = n + 1) (hlength : n + 1 + lines.length < 2 ^ 31) :
    processRest config previousLine count lines =
      ((List.replicate (n + 1) previousLine ++ lines).splitBy (· == ·)).flatMap
        (printRun config) := by
  induction lines generalizing previousLine count n with
  | nil =>
      rw [processRest, printLine_eq previousLine hcount, List.append_nil, splitBy_replicate,
        List.flatMap_singleton]
  | cons currentLine lines ih =>
      rw [List.length_cons] at hlength
      rw [processRest]
      by_cases hsame : currentLine = previousLine
      · have hnext : (count + 1).toInt = (n + 1 : Nat) + 1 := by
          rw [Int32.toInt_add, hcount, show (1 : Int32).toInt = 1 from rfl, Int.bmod_eq_of_le] <;>
            omega
        subst hsame
        rw [if_pos rfl, ih currentLine hnext (by omega), List.replicate_succ' (n := n + 1),
          List.append_assoc, List.singleton_append]
      · have hone : (1 : Int32).toInt = (0 : Nat) + 1 := rfl
        rw [if_neg hsame, printLine_eq previousLine hcount, ih currentLine hone (by omega),
          splitBy_replicate_cons n lines hsame, List.flatMap_cons]
        rfl

end Loop

/-- What is printed are the runs of equal lines that the options ask for, each with its first line
    and its length. -/
theorem processLines_eq (config : Config) (input : Text)
    (hlength : (Lines.read 10 input).length < 2 ^ 31) :
    (processLines config input).output =
      ((Lines.read 10 input).splitBy (· == ·)).flatMap (printRun config) := by
  unfold processLines
  cases hread : Lines.read 10 input with
  | nil => rfl
  | cons line lines =>
      rw [hread, List.length_cons] at hlength
      have hone : (1 : Int32).toInt = (0 : Nat) + 1 := rfl
      exact processRest_eq line hone (by omega)

/-- Two lines that are equal, and another. -/
theorem processLines_eq_three :
    (processLines { printCount := true } (bytes "a\na\nb\n")).output =
      ((Lines.read 10 (bytes "a\na\nb\n")).splitBy (· == ·)).flatMap
        (printRun { printCount := true }) :=
  processLines_eq { printCount := true } (bytes "a\na\nb\n") (by decide)

section Counts

/-- A run with its length in front of it. -/
def countedLine (run : List Text) : Text :=
  setWidth 7 (decimalDigits run.length) ++ 32 :: (run.head?.getD [])

/-- As many copies of a line as are counted in front of it. -/
def expandLine (printed : Text) : List Text :=
  match fromChars (2 ^ 31) (printed.dropWhile (· == 32)) with
  | some (count, _ :: line) => List.replicate count line
  | _ => []

/-- The length and the line are read again. -/
theorem fromChars_countedLine {run : List Text} (h : run.length < 2 ^ 31) :
    fromChars (2 ^ 31) ((countedLine run).dropWhile (· == 32)) =
      some (run.length, 32 :: run.head?.getD []) := by
  have hblanks : ∀ c ∈ List.replicate (7 - (decimalDigits run.length).length) (32 : UInt8),
      (c == 32) = true := by
    intro c hc
    rw [List.eq_of_mem_replicate hc]
    rfl
  -- The digits end the blanks, and the blank behind them ends the digits.
  have hdigits : ∀ rest, (decimalDigits run.length ++ rest).dropWhile (· == 32) =
      decimalDigits run.length ++ rest := by
    intro rest
    cases hcons : decimalDigits run.length with
    | nil => exact absurd hcons (decimalDigits_ne_nil _)
    | cons d digits =>
        have hdigit : isDecimalDigit d = true :=
          isDecimalDigit_decimalDigits (hcons ▸ List.mem_cons_self)
        refine List.dropWhile_cons_of_neg fun hblank => ?_
        rw [eq_of_beq hblank] at hdigit
        exact absurd hdigit (by decide)
  rw [countedLine, setWidth, List.append_assoc, List.dropWhile_append_of_pos hblanks, hdigits]
  refine fromChars_decimalDigits h fun c hc => ?_
  cases hc
  rfl

theorem expandLine_countedLine {xs run : List Text} (hrun : run ∈ xs.splitBy (· == ·))
    (h : run.length < 2 ^ 31) : expandLine (countedLine run) = run := by
  rcases eq_replicate_of_mem_splitBy hrun with ⟨n, line, rfl⟩
  rw [expandLine, fromChars_countedLine h]
  simp only [List.replicate_succ, List.length_cons, List.length_replicate, List.head?_cons,
    Option.getD_some]

theorem not_mem_countedLine {input : Text} {run : List Text}
    (hrun : run ∈ (Lines.read 10 input).splitBy (· == ·)) : 10 ∉ countedLine run := by
  intro hmem
  unfold countedLine setWidth at hmem
  simp only [List.mem_append, List.mem_cons] at hmem
  rcases hmem with (hblank | hdigit) | hblank | hline
  · exact absurd (List.eq_of_mem_replicate hblank) (by decide)
  · exact absurd (isDecimalDigit_decimalDigits hdigit) (by decide)
  · exact absurd hblank (by decide)
  · cases run with
    | nil => exact absurd hline List.not_mem_nil
    | cons line run =>
        have hread : line ∈ Lines.read 10 input := by
          rw [← List.flatten_splitBy (· == ·) (Lines.read 10 input)]
          exact List.mem_flatten_of_mem hrun List.mem_cons_self
        exact Lines.not_mem_of_mem_read hread hline

/-- With the option `-c` every run has a line of its own. -/
theorem processLines_counted {config : Config} (hcount : config.printCount = true)
    (hrepeated : config.printOnlyRepeated = false) (hunique : config.printOnlyUnique = false)
    (input : Text) (hlength : (Lines.read 10 input).length < 2 ^ 31) :
    (processLines config input).output =
      Lines.write 10 (((Lines.read 10 input).splitBy (· == ·)).map countedLine) := by
  rw [processLines_eq config input hlength, Lines.write, List.flatMap_map]
  refine List.flatMap_congr fun run hrun => ?_
  have hselected : Selected config run.length := Or.inl ⟨hrepeated, hunique⟩
  cases run with
  | nil => exact absurd hrun (List.nil_notMem_splitBy _ _)
  | cons line run =>
      rw [printRun, if_pos hselected, if_pos hcount, countedLine]
      simp only [List.length_cons, List.append_assoc, List.cons_append, List.nil_append,
        List.head?_cons, Option.getD_some]

/-- The option `-c` keeps all lines: they can be read from what is printed. -/
theorem expand_processLines {config : Config} (hcount : config.printCount = true)
    (hrepeated : config.printOnlyRepeated = false) (hunique : config.printOnlyUnique = false)
    (input : Text) (hlength : (Lines.read 10 input).length < 2 ^ 31) :
    (Lines.read 10 (processLines config input).output).flatMap expandLine =
      Lines.read 10 input := by
  have hfree : ∀ line ∈ ((Lines.read 10 input).splitBy (· == ·)).map countedLine, 10 ∉ line := by
    intro line hline
    rcases List.mem_map.mp hline with ⟨run, hrun, rfl⟩
    exact not_mem_countedLine hrun
  rw [processLines_counted hcount hrepeated hunique input hlength, Lines.read_write hfree,
    List.flatMap_map]
  have hruns : ∀ run ∈ (Lines.read 10 input).splitBy (· == ·),
      expandLine (countedLine run) = run := by
    intro run hrun
    refine expandLine_countedLine hrun ?_
    have hle := (List.sublist_flatten_of_mem hrun).length_le
    rw [List.flatten_splitBy] at hle
    omega
  rw [List.flatMap_congr hruns, List.flatMap_id', List.flatten_splitBy]

theorem expand_processLines_three :
    (Lines.read 10 (processLines { printCount := true } (bytes "a\na\nb")).output).flatMap
      expandLine = Lines.read 10 (bytes "a\na\nb") :=
  expand_processLines rfl rfl rfl (bytes "a\na\nb") (by decide)

end Counts

section Once

variable {config : Config}

/-- Without options every line is printed that is not the one before it. -/
theorem processRest_plain (hcount : config.printCount = false)
    (hrepeated : config.printOnlyRepeated = false) (hunique : config.printOnlyUnique = false)
    (previousLine : Text) (count : Int32) (lines : List Text) :
    processRest config previousLine count lines =
      Lines.write 10 (lines.destutter' (· ≠ ·) previousLine) := by
  have hprint : ∀ line count, printLine config line count = line ++ [10] := by
    intro line count
    simp only [printLine, hrepeated, Bool.false_and, Bool.false_eq_true, ↓reduceIte, hunique,
      Bool.not_false, Bool.and_self, printed, hcount, List.nil_append]
  induction lines generalizing previousLine count with
  | nil => simp [processRest, hprint, Lines.write]
  | cons currentLine lines ih =>
      rw [processRest]
      by_cases hsame : currentLine = previousLine
      · subst hsame
        rw [if_pos rfl, ih, List.destutter'_cons_neg _ (not_not.mpr rfl)]
      · rw [if_neg hsame, ih, hprint, List.destutter'_cons_pos _ (Ne.symm hsame)]
        simp only [Lines.write, ne_eq, List.append_assoc, List.cons_append, List.nil_append,
          List.flatMap_cons]

theorem processLines_plain (hcount : config.printCount = false)
    (hrepeated : config.printOnlyRepeated = false) (hunique : config.printOnlyUnique = false)
    (input : Text) :
    (processLines config input).output =
      Lines.write 10 ((Lines.read 10 input).destutter (· ≠ ·)) := by
  unfold processLines
  cases Lines.read 10 input with
  | nil => rfl
  | cons line lines => exact processRest_plain hcount hrepeated hunique line 1 lines

/-- What is printed without options is printed as it is. -/
theorem processLines_processLines (hcount : config.printCount = false)
    (hrepeated : config.printOnlyRepeated = false) (hunique : config.printOnlyUnique = false)
    (input : Text) :
    (processLines config (processLines config input).output).output =
      (processLines config input).output := by
  have hfree : ∀ line ∈ (Lines.read 10 input).destutter (· ≠ ·), 10 ∉ line :=
    fun line hline => Lines.not_mem_of_mem_read ((List.destutter_sublist _ _).subset hline)
  rw [processLines_plain hcount hrepeated hunique, processLines_plain hcount hrepeated hunique,
    Lines.read_write hfree, List.destutter_idem]

theorem processLines_processLines_three :
    (processLines {} (processLines {} (bytes "a\na\nb")).output).output =
      (processLines {} (bytes "a\na\nb")).output :=
  processLines_processLines rfl rfl rfl (bytes "a\na\nb")

end Once

end UniqTool

end CodingChallenges
