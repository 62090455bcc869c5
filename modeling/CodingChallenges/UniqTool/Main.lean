import CodingChallenges.UniqTool.Uniq
import Mathlib.Tactic.MkIffOfInductiveProp
import Mathlib.Tactic.Tauto

/-!
# The Command Line of the Uniq Tool

`parse_arguments`, `process` and `main` of `uniq.cpp`.

The first argument that is no option is the input file, and the second one the output file.
After the argument `-`, which stands for the standard input, the first one is the output file
already, unless the input file has been named before. So what the arguments mean is decided by
the options among them and by the order of the others (`parseArguments_eq_ok_iff`).

The output file is opened for writing, and emptied, before the first line is read. If it is the
input file, there is nothing left to read.

Files are told by their paths: there are no links.

## Main definitions

* `UsageError`, `parseArguments`: The arguments.
* `FileSystem`, `Result`, `process`, `main`: The files.
* `Kind`, `kindOf`, `asks`, `paths`, `readsStdin`: What the arguments ask for.

## Theorems

* `parseArguments_eq_ok_iff`: What the arguments mean.
* `process_files`: What becomes of the files.
-/

namespace CodingChallenges

namespace UniqTool

/-- Why the arguments are not understood. -/
inductive UsageError where
  | repeatedAndUnique
  | unknownOption (arg : Text)
  | tooManyArguments
deriving DecidableEq, Repr

/-- The text of `print_usage`. -/
def usage (programName : Text) : Text :=
  bytes "Usage: " ++ programName ++ bytes " [OPTIONS] [INPUT_FILE [OUTPUT_FILE]]\n" ++
    bytes "\nOPTIONS:\n" ++
    bytes "  -c, --count       Prefix lines by the number of occurrences\n" ++
    bytes "  -d, --repeated    Only print duplicate (repeated) lines\n" ++
    bytes "  -u, --unique      Only print unique lines\n"

/-- What is printed about it. -/
def UsageError.text (programName : Text) : UsageError → Text
  | .repeatedAndUnique => bytes "Cannot specify both --repeated and --unique options.\n"
  | .unknownOption arg => bytes "Unknown option: " ++ arg ++ [10] ++ usage programName
  | .tooManyArguments => bytes "Too many positional arguments.\n" ++ usage programName

/-- The loop over the arguments. `inputStdin` says that there has been a `-`. -/
def parseArguments : List Text → Bool → Config → Except UsageError Config
  | [], _, config => .ok config
  | arg :: args, inputStdin, config =>
    if arg = bytes "-c" ∨ arg = bytes "--count" then
      parseArguments args inputStdin { config with printCount := true }
    else if arg = bytes "-d" ∨ arg = bytes "--repeated" then
      if config.printOnlyUnique then .error .repeatedAndUnique
      else parseArguments args inputStdin { config with printOnlyRepeated := true }
    else if arg = bytes "-u" ∨ arg = bytes "--unique" then
      if config.printOnlyRepeated then .error .repeatedAndUnique
      else parseArguments args inputStdin { config with printOnlyUnique := true }
    else if arg = bytes "-" then
      parseArguments args true config
    else if (bytes "-").isPrefixOf arg then
      .error (.unknownOption arg)
    else if !inputStdin && config.inputFilePath.isNone then
      parseArguments args inputStdin { config with inputFilePath := some arg }
    else if config.outputFilePath.isNone then
      parseArguments args inputStdin { config with outputFilePath := some arg }
    else
      .error .tooManyArguments

/-- What a file can be opened for. -/
structure FileSystem where
  /-- What is in a file that can be opened for reading. -/
  contents : Text → Option Text
  canWrite : Text → Bool

/-- The file is written from its beginning. -/
def FileSystem.write (files : FileSystem) (path : Text) (text : Text) : FileSystem :=
  { files with contents := Function.update files.contents path (some text) }

/-- What a run of the tool leaves behind. -/
structure Result where
  success : Bool
  printed : Printed
  files : FileSystem

/-- What `process` does once both files are open. -/
def processOpened (config : Config) (files : FileSystem) (standardInput : Text) : Result :=
  match config.outputFilePath with
  | none =>
    let input := config.inputFilePath.elim standardInput fun path => (files.contents path).getD []
    ⟨true, processLines config input, files⟩
  | some output =>
    -- Opening the file for writing has left nothing of it.
    let opened := files.write output []
    let input := config.inputFilePath.elim standardInput fun path => (opened.contents path).getD []
    let result := processLines config input
    ⟨true, ⟨[], result.errors⟩, opened.write output result.output⟩

/-- Both files are opened before anything is read. -/
def process (config : Config) (files : FileSystem) (standardInput : Text) : Result :=
  match config.inputFilePath.filter fun path => (files.contents path).isNone with
  | some path => ⟨false, ⟨[], bytes "Failed to open input file: " ++ path ++ [10]⟩, files⟩
  | none =>
    match config.outputFilePath.filter fun path => !files.canWrite path with
    | some path => ⟨false, ⟨[], bytes "Failed to open output file: " ++ path ++ [10]⟩, files⟩
    | none => processOpened config files standardInput

/-- `main`: without an argument it prints the usage. -/
def main (programName : Text) (args : List Text) (files : FileSystem) (standardInput : Text) :
    Result :=
  if args = [] then ⟨false, ⟨[], usage programName⟩, files⟩
  else
    match parseArguments args false {} with
    | .error e => ⟨false, ⟨[], e.text programName⟩, files⟩
    | .ok config => process config files standardInput

section Arguments

/-- What an argument is. -/
inductive Kind where
  | count
  | repeated
  | unique
  | stdin
  | unknown
  | path
deriving DecidableEq, Repr

/-- What an argument is taken for. -/
def kindOf (arg : Text) : Kind :=
  if arg = bytes "-c" ∨ arg = bytes "--count" then .count
  else if arg = bytes "-d" ∨ arg = bytes "--repeated" then .repeated
  else if arg = bytes "-u" ∨ arg = bytes "--unique" then .unique
  else if arg = bytes "-" then .stdin
  else if (bytes "-").isPrefixOf arg then .unknown
  else .path

/-- Some argument is of a kind. -/
def asks (kind : Kind) (args : List Text) : Bool :=
  args.any fun arg => kindOf arg = kind

/-- The arguments that are no options. -/
def paths (args : List Text) : List Text :=
  args.filter fun arg => kindOf arg = .path

/-- There is a `-` in front of the first path. -/
def readsStdin (args : List Text) : Bool :=
  asks .stdin (args.takeWhile fun arg => kindOf arg ≠ .path)

theorem parseArguments_cons (arg : Text) (args : List Text) (inputStdin : Bool) (config : Config) :
    parseArguments (arg :: args) inputStdin config =
      match kindOf arg with
      | .count => parseArguments args inputStdin { config with printCount := true }
      | .repeated =>
        if config.printOnlyUnique then .error .repeatedAndUnique
        else parseArguments args inputStdin { config with printOnlyRepeated := true }
      | .unique =>
        if config.printOnlyRepeated then .error .repeatedAndUnique
        else parseArguments args inputStdin { config with printOnlyUnique := true }
      | .stdin => parseArguments args true config
      | .unknown => .error (.unknownOption arg)
      | .path =>
        if !inputStdin && config.inputFilePath.isNone then
          parseArguments args inputStdin { config with inputFilePath := some arg }
        else if config.outputFilePath.isNone then
          parseArguments args inputStdin { config with outputFilePath := some arg }
        else .error .tooManyArguments := by
  rw [parseArguments, kindOf]
  split_ifs <;> rfl

/-- The arguments can be understood. -/
@[mk_iff]
structure Fits (args : List Text) : Prop where
  known : asks .unknown args = false
  compatible : asks .repeated args = true → asks .unique args = false
  places : (paths args).length + (readsStdin args).toNat ≤ 2

/-- What the arguments mean. -/
def configOf (args : List Text) : Config where
  inputFilePath := if readsStdin args then none else (paths args)[0]?
  outputFilePath := if readsStdin args then (paths args)[0]? else (paths args)[1]?
  printCount := asks .count args
  printOnlyRepeated := asks .repeated args
  printOnlyUnique := asks .unique args

section Fronts

variable (front : List Text) (arg : Text)

@[simp] theorem asks_concat (kind : Kind) :
    asks kind (front ++ [arg]) = (asks kind front || decide (kindOf arg = kind)) := by
  simp only [asks, List.any_append, List.any_cons, List.any_nil, Bool.or_false]

@[simp] theorem paths_concat :
    paths (front ++ [arg]) = paths front ++ if kindOf arg = .path then [arg] else [] := by
  by_cases hkind : kindOf arg = .path
  · simp only [paths, List.filter_append, hkind, decide_true, List.filter_cons_of_pos,
      List.filter_nil, ↓reduceIte]
  · simp only [paths, List.filter_append, hkind, decide_false, Bool.false_eq_true,
      not_false_eq_true, List.filter_cons_of_neg, List.filter_nil, List.append_nil, ↓reduceIte]

theorem paths_eq_nil_iff {front : List Text} :
    paths front = [] ↔ front.takeWhile (fun arg => kindOf arg ≠ .path) = front := by
  rw [List.takeWhile_eq_self_iff, paths, List.filter_eq_nil_iff]
  simp only [decide_eq_true_eq, ne_eq, decide_not, Bool.not_eq_eq_eq_not, Bool.not_true,
    decide_eq_false_iff_not]

/-- A `-` counts as long as there has been no path. -/
theorem readsStdin_concat :
    readsStdin (front ++ [arg]) =
      if paths front = [] then (asks .stdin front || decide (kindOf arg = .stdin))
      else readsStdin front := by
  unfold readsStdin
  rw [List.takeWhile_append]
  by_cases hnil : paths front = []
  · rw [if_pos hnil, if_pos (congrArg List.length (paths_eq_nil_iff.mp hnil))]
    by_cases hkind : kindOf arg = .path
    · simp only [ne_eq, decide_not, hkind, decide_true, Bool.not_true, Bool.false_eq_true,
        not_false_eq_true, List.takeWhile_cons_of_neg, List.append_nil, reduceCtorEq, decide_false,
        Bool.or_false]
    · simp only [ne_eq, decide_not, hkind, decide_false, Bool.not_false, List.takeWhile_cons_of_pos,
        List.takeWhile_nil, asks_concat]
  · rw [if_neg hnil, if_neg]
    intro hlength
    exact hnil (paths_eq_nil_iff.mpr ((List.takeWhile_prefix _).eq_of_length hlength))

/-- Without a path so far there is no difference. -/
theorem readsStdin_of_nil {front : List Text} (h : paths front = []) :
    readsStdin front = asks .stdin front := by
  rw [readsStdin, paths_eq_nil_iff.mp h]

theorem asks_of_readsStdin {front : List Text} (h : readsStdin front = true) :
    asks .stdin front = true := by
  rw [readsStdin, asks, List.any_eq_true] at h
  rcases h with ⟨arg, harg, hkind⟩
  exact List.any_eq_true.mpr ⟨arg, (List.takeWhile_prefix _).subset harg, hkind⟩

theorem readsStdin_concat_of_ne (h : kindOf arg ≠ .stdin) :
    readsStdin (front ++ [arg]) = readsStdin front := by
  rw [readsStdin_concat]
  split_ifs with hnil
  · rw [decide_eq_false h, Bool.or_false, readsStdin_of_nil hnil]
  · rfl

/-- One more argument that can be understood. -/
theorem fits_concat_iff :
    Fits (front ++ [arg]) ↔ Fits front ∧
      match kindOf arg with
      | .count => True
      | .repeated => asks .unique front = false
      | .unique => asks .repeated front = false
      | .stdin => True
      | .unknown => False
      | .path => (paths front).length + (readsStdin front).toNat ≤ 1 := by
  by_cases hstdin : kindOf arg = .stdin
  · -- A `-` behind a path changes nothing, and in front of all paths it takes a place.
    have hle := Bool.toNat_le (asks .stdin front)
    simp only [fits_iff, asks_concat, paths_concat, readsStdin_concat, hstdin]
    by_cases hnil : paths front = []
    · simp only [reduceCtorEq, decide_false, Bool.or_false, hnil, ↓reduceIte, List.append_nil,
        List.length_nil, decide_true, Bool.or_true, Bool.toNat_true, zero_add, Nat.reduceLeDiff,
        and_true, readsStdin_of_nil hnil, and_congr_right_iff, iff_self_and]
      intros
      omega
    · simp only [reduceCtorEq, decide_false, Bool.or_false, ↓reduceIte, List.append_nil, hnil,
        and_true]
  · simp only [fits_iff, asks_concat, paths_concat, readsStdin_concat_of_ne front arg hstdin]
    cases hkind : kindOf arg with
    | stdin => exact absurd hkind hstdin
    | count =>
        simp only [reduceCtorEq, decide_false, Bool.or_false, ↓reduceIte, List.append_nil, and_true]
    | repeated =>
        simp only [reduceCtorEq, decide_false, Bool.or_false, decide_true, Bool.or_true,
          forall_const, ↓reduceIte, List.append_nil]
        tauto
    | unique =>
        cases asks .repeated front with
        | false =>
            simp only [reduceCtorEq, decide_false, Bool.or_false, Bool.or_self, Bool.false_eq_true,
              decide_true, Bool.or_true, Bool.true_eq_false, imp_self, ↓reduceIte, List.append_nil,
              true_and, IsEmpty.forall_iff, and_true]
        | true =>
            simp only [reduceCtorEq, decide_false, Bool.or_false, decide_true, Bool.or_true,
              Bool.true_eq_false, imp_false, not_true_eq_false, ↓reduceIte, List.append_nil,
              false_and, and_false, forall_const]
    | unknown =>
        simp only [decide_true, Bool.or_true, Bool.true_eq_false, reduceCtorEq, decide_false,
          Bool.or_false, ↓reduceIte, List.append_nil, false_and, and_false]
    | path =>
        have hone : (paths front).length + 1 + (readsStdin front).toNat ≤ 2 ↔
            (paths front).length + (readsStdin front).toNat ≤ 1 := by omega
        have htwo : (paths front).length + (readsStdin front).toNat ≤ 1 →
            (paths front).length + (readsStdin front).toNat ≤ 2 := by omega
        simp only [reduceCtorEq, decide_false, Bool.or_false, ↓reduceIte, List.length_append,
          List.length_cons, List.length_nil, zero_add, hone]
        tauto

@[simp] theorem configOf_printOnlyRepeated :
    (configOf front).printOnlyRepeated = asks .repeated front := rfl

@[simp] theorem configOf_printOnlyUnique :
    (configOf front).printOnlyUnique = asks .unique front := rfl

/-- There is a place for one more path. -/
theorem place_iff :
    (paths front).length + (readsStdin front).toNat ≤ 1 ↔
      (!asks .stdin front && (configOf front).inputFilePath.isNone) = true ∨
        (configOf front).outputFilePath.isNone = true := by
  by_cases hnil : paths front = []
  · have hle := Bool.toNat_le (readsStdin front)
    simp only [hnil, List.length_nil, zero_add, hle, configOf, lt_self_iff_false, not_false_eq_true,
      getElem?_neg, ite_self, Nat.not_lt_zero, Option.isNone_none, Bool.and_true,
      Bool.not_eq_eq_eq_not, Bool.not_true, or_true]
  · rcases List.exists_cons_of_ne_nil hnil with ⟨first, rest, hpaths⟩
    by_cases hreads : readsStdin front = true
    · simp [configOf, hpaths, hreads, asks_of_readsStdin hreads]
    · cases rest with
      | nil => simp [configOf, hpaths, hreads]
      | cons second rest => simp [configOf, hpaths, hreads]

theorem configOf_concat :
    configOf (front ++ [arg]) =
      match kindOf arg with
      | .count => { configOf front with printCount := true }
      | .repeated => { configOf front with printOnlyRepeated := true }
      | .unique => { configOf front with printOnlyUnique := true }
      | .stdin => configOf front
      | .unknown => configOf front
      | .path =>
        if !asks .stdin front && (configOf front).inputFilePath.isNone then
          { configOf front with inputFilePath := some arg }
        else if (configOf front).outputFilePath.isNone then
          { configOf front with outputFilePath := some arg }
        else configOf front := by
  by_cases hstdin : kindOf arg = .stdin
  · by_cases hnil : paths front = []
    · simp only [configOf, paths_concat, hnil, hstdin, reduceCtorEq, ↓reduceIte, List.append_nil,
        List.length_nil, lt_self_iff_false, not_false_eq_true, getElem?_neg, ite_self,
        Nat.not_lt_zero, asks_concat, decide_false, Bool.or_false]
    · simp only [configOf, readsStdin_concat, hnil, ↓reduceIte, paths_concat, hstdin, reduceCtorEq,
        List.append_nil, asks_concat, decide_false, Bool.or_false]
  · simp only [configOf, asks_concat, paths_concat, readsStdin_concat_of_ne front arg hstdin]
    cases hkind : kindOf arg with
    | stdin => exact absurd hkind hstdin
    | count =>
        simp only [reduceCtorEq, ↓reduceIte, List.append_nil, decide_true, Bool.or_true,
          decide_false, Bool.or_false]
    | repeated =>
        simp only [reduceCtorEq, ↓reduceIte, List.append_nil, decide_false, Bool.or_false,
          decide_true, Bool.or_true]
    | unique =>
        simp only [reduceCtorEq, ↓reduceIte, List.append_nil, decide_false, Bool.or_false,
          decide_true, Bool.or_true]
    | unknown => simp only [reduceCtorEq, ↓reduceIte, List.append_nil, decide_false, Bool.or_false]
    | path =>
        have hstdinOf := @asks_of_readsStdin front
        have hnilOf := @readsStdin_of_nil front
        -- The first two paths have a place, or only one if the standard input is read.
        by_cases hnil : paths front = []
        · by_cases hasked : asks .stdin front = true
          · simp [hnil, hnilOf hnil, hasked]
          · simp [hnil, hnilOf hnil, hasked]
        · rcases List.exists_cons_of_ne_nil hnil with ⟨first, rest, hpaths⟩
          by_cases hreads : readsStdin front = true
          · simp [hpaths, hreads, hstdinOf hreads]
          · cases rest with
            | nil => simp [hpaths, hreads]
            | cons second rest => simp [hpaths, hreads]

theorem Fits.of_append {front back : List Text} (h : Fits (front ++ back)) : Fits front := by
  induction back using List.reverseRecOn with
  | nil => rwa [List.append_nil] at h
  | append_singleton back arg ih =>
      rw [← List.append_assoc, fits_concat_iff] at h
      exact ih h.1

end Fronts

/-- How the loop goes on behind the arguments that it has read. -/
theorem parseArguments_append {front args : List Text} {config : Config} (h : Fits front) :
    parseArguments args (asks .stdin front) (configOf front) = .ok config ↔
      Fits (front ++ args) ∧ config = configOf (front ++ args) := by
  induction args generalizing front with
  | nil =>
      rw [List.append_nil, parseArguments]
      simp only [eq_comm, Except.ok.injEq, h, true_and]
  | cons arg args ih =>
      rw [List.append_cons, parseArguments_cons]
      have hnext := @ih (front ++ [arg])
      have hmono := @Fits.of_append (front ++ [arg]) args
      simp only [fits_concat_iff, asks_concat, configOf_concat] at hnext hmono
      cases hkind : kindOf arg with
      | count =>
          simp only [h, hkind, and_self, reduceCtorEq, decide_false, Bool.or_false,
            configOf_printOnlyRepeated, configOf_printOnlyUnique, List.append_assoc,
            List.cons_append, List.nil_append, forall_const] at hnext ⊢
          exact hnext
      | repeated =>
          simp only [h, hkind, true_and, reduceCtorEq, decide_false, Bool.or_false,
            configOf_printOnlyUnique, List.append_assoc, List.cons_append,
            List.nil_append] at hnext hmono ⊢
          by_cases hunique : asks .unique front = true
          · simp only [hunique, Bool.true_eq_false, imp_false, ↓reduceIte, reduceCtorEq, false_iff,
              not_and] at hmono ⊢
            exact fun hfits => absurd hfits hmono
          · rw [Bool.not_eq_true] at hunique
            simp only [hunique, forall_const, Bool.false_eq_true, ↓reduceIte] at hnext ⊢
            exact hnext
      | unique =>
          simp only [h, hkind, true_and, reduceCtorEq, decide_false, Bool.or_false,
            configOf_printOnlyRepeated, List.append_assoc, List.cons_append,
            List.nil_append] at hnext hmono ⊢
          by_cases hrepeated : asks .repeated front = true
          · simp only [hrepeated, Bool.true_eq_false, imp_false, ↓reduceIte, reduceCtorEq,
              false_iff, not_and] at hmono ⊢
            exact fun hfits => absurd hfits hmono
          · rw [Bool.not_eq_true] at hrepeated
            simp only [hrepeated, forall_const, Bool.false_eq_true, ↓reduceIte] at hnext ⊢
            exact hnext
      | stdin =>
          simp only [h, hkind, and_self, decide_true, Bool.or_true, List.append_assoc,
            List.cons_append, List.nil_append, forall_const] at hnext ⊢
          exact hnext
      | unknown =>
          simp only [List.append_assoc, List.cons_append, List.nil_append, hkind, and_false,
            imp_false, reduceCtorEq, false_iff, not_and] at hmono ⊢
          exact fun hfits => absurd hfits hmono
      | path =>
          simp only [hkind, place_iff] at hnext hmono
          simp only [h, Bool.and_eq_true, Bool.not_eq_eq_eq_not, Bool.not_true,
            Option.isNone_iff_eq_none, true_and, reduceCtorEq, decide_false, Bool.or_false,
            configOf_printOnlyRepeated, configOf_printOnlyUnique, List.append_assoc,
            List.cons_append, List.nil_append] at hnext hmono ⊢
          split_ifs at hnext ⊢ with hinput houtput
          · exact hnext (Or.inl hinput)
          · exact hnext (Or.inr houtput)
          · have hnot : ¬ Fits (front ++ arg :: args) := fun hfits =>
              (hmono hfits).elim hinput houtput
            simp only [hnot, false_and]

/-- What the arguments mean. They are understood if all options among them are known, if not both
    repeated lines and unique ones are asked for, and if there are places for all paths. -/
theorem parseArguments_eq_ok_iff (args : List Text) (config : Config) :
    parseArguments args false {} = .ok config ↔ Fits args ∧ config = configOf args := by
  have hnil : Fits [] := ⟨rfl, fun h => absurd h Bool.false_ne_true, Nat.zero_le 2⟩
  have h : parseArguments args (asks .stdin []) (configOf []) = .ok config ↔
      Fits ([] ++ args) ∧ config = configOf ([] ++ args) := parseArguments_append hnil
  rwa [List.nil_append] at h

end Arguments

section Files

/-- What is left to be read of the input once the output file is open. -/
def InputOf (config : Config) (files : FileSystem) (standardInput input : Text) : Prop :=
  match config.inputFilePath with
  | none => input = standardInput
  | some path =>
    if config.outputFilePath = some path then input = [] else files.contents path = some input

theorem write_contents_of_ne (files : FileSystem) {path other : Text} (text : Text)
    (h : other ≠ path) : (files.write path text).contents other = files.contents other :=
  Function.update_of_ne h _ _

@[simp] theorem write_contents_self (files : FileSystem) (path text : Text) :
    (files.write path text).contents path = some text :=
  Function.update_self _ _ _

/-- What is read once both files are open. -/
theorem inputOf_opened {config : Config} {files : FileSystem} (standardInput : Text)
    (hopen : ∀ path, config.inputFilePath = some path → ∃ text, files.contents path = some text) :
    InputOf config files standardInput
      (config.inputFilePath.elim standardInput fun path =>
        ((config.outputFilePath.elim files fun output => files.write output []).contents path).getD
          []) := by
  unfold InputOf
  cases hinput : config.inputFilePath with
  | none => rfl
  | some path =>
      rcases hopen path hinput with ⟨text, htext⟩
      cases houtput : config.outputFilePath with
      | none =>
          simp only [reduceCtorEq, ↓reduceIte, htext, Option.elim_none, Option.elim_some,
            Option.getD_some]
      | some output =>
          by_cases hsame : output = path
          · simp only [hsame, ↓reduceIte, Option.elim_some, write_contents_self, Option.getD_some]
          · simp only [Option.some.injEq, hsame, ↓reduceIte, htext, Option.elim_some,
              write_contents_of_ne files [] (Ne.symm hsame), Option.getD_some]

/-- A run that fails leaves the files as they are and prints no lines. One that does not
    leaves all files but the output as they are, and writes there what becomes of the input. -/
theorem process_files (config : Config) (files : FileSystem) (standardInput : Text) :
    let result := process config files standardInput
    if result.success then
      ∃ input, InputOf config files standardInput input ∧
        match config.outputFilePath with
        | none =>
          result.printed.output = (processLines config input).output ∧ result.files = files
        | some path =>
          result.printed.output = [] ∧
            result.files.contents path = some (processLines config input).output ∧
            ∀ other ≠ path, result.files.contents other = files.contents other
    else result.printed.output = [] ∧ result.files = files := by
  unfold process
  split
  · simp only [Bool.false_eq_true, ↓reduceIte, and_self]
  · next hread =>
      split
      · simp only [Bool.false_eq_true, ↓reduceIte, and_self]
      · have hopen : ∀ path, config.inputFilePath = some path →
            ∃ text, files.contents path = some text := by
          intro path hpath
          have hsome := Option.filter_eq_none_iff.mp hread path hpath
          simpa only [Option.isNone_iff_eq_none, Option.ne_none_iff_exists'] using hsome
        have hinput := inputOf_opened standardInput hopen
        unfold processOpened
        cases houtput : config.outputFilePath with
        | none =>
            rw [houtput] at hinput
            exact ⟨_, hinput, rfl, rfl⟩
        | some path =>
            rw [houtput] at hinput
            refine ⟨_, hinput, rfl, write_contents_self _ _ _, fun other hother => ?_⟩
            rw [write_contents_of_ne _ _ hother, write_contents_of_ne _ _ hother]

end Files

end UniqTool

end CodingChallenges
