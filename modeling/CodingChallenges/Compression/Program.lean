import CodingChallenges.Compression.Main
import CodingChallenges.Library.Bytes
import CodingChallenges.Library.Outcomes
import Mathlib.Logic.Function.Basic

/-!
# The Command Line of the Compression Tool

What `main` of `main.cpp` does with its arguments and with the files they name.

The output file is opened before the input file is read, and opening it leaves nothing of it. So
a file that is its own output is lost: there is nothing to be read any more. Any other run leaves
the output file as it was, or empty, or with all that was to be written (`main_files`).

An argument that is no option is never passed over, and the loop looks at it for ever.

Files are told by their paths: there are no links.

## Main definitions

* `Config`, `parseArguments`: The arguments.
* `FileSystem`, `Result`, `main`: The files.
* `Direction`, `Asks`: What the tool is asked to do.
* `FileSystem.Opens`: Both files can be opened.

## Theorems

* `main_files`: What becomes of the files.
* `main_converts_iff`: When the tool is done, and what it has written then.
-/

namespace CodingChallenges

namespace Compression

/-- The bytes of a file, or of the output. -/
abbrev Text := List UInt8

/-- What the arguments ask for. -/
structure Config where
  inputFilePath : Text := []
  outputFilePath : Text := []
  shouldDecode : Bool := false
deriving DecidableEq, Repr

/-- `operator<<`. -/
def Config.text (config : Config) : Text :=
  bytes "Input file path: " ++ config.inputFilePath ++
    bytes "\nOutput file path: " ++ config.outputFilePath ++
    bytes "\nShould decode?: " ++ bytes (if config.shouldDecode then "true" else "false")

/-- The text of `print_usage`. -/
def usage (programName : Text) : Text :=
  bytes "Usage: " ++ programName ++ bytes " -d|-e filename -o outputfilename\n" ++
    bytes "\n  -d|-e filename\tDecode/encode the given file" ++
    bytes "\n  -o outputfilename\tName of the file where output needs to be stored\n"

/-- The loop over the arguments, for so many rounds. Behind the last argument stands a null
    pointer. -/
def parseArguments : Nat → List Text → Config → Except Failure Config
  | _, [], config => .ok config
  | 0, _ :: _, _ => .error .outOfFuel
  | fuel + 1, argument :: args, config =>
    if argument = bytes "-d" ∨ argument = bytes "-e" then
      match args with
      | [] => .error .nullPointer
      | path :: args =>
        parseArguments fuel args
          { config with
            shouldDecode := config.shouldDecode || argument = bytes "-d"
            inputFilePath := path }
    else if argument = bytes "-o" then
      match args with
      | [] => .error .nullPointer
      | path :: args => parseArguments fuel args { config with outputFilePath := path }
    else
      parseArguments fuel (argument :: args) config

/-- What is in the files, and which of them can be opened. None has the empty path. -/
structure FileSystem where
  contents : Text → Option Text
  canRead : Text → Bool
  canWrite : Text → Bool
  contents_nil : contents [] = none
  canWrite_nil : canWrite [] = false

/-- The file is written from its beginning. -/
def FileSystem.write (files : FileSystem) (path : Text) (h : files.canWrite path = true)
    (text : Text) : FileSystem :=
  { files with
    contents := Function.update files.contents path (some text)
    contents_nil := by
      rw [Function.update_of_ne, files.contents_nil]
      intro hpath
      rw [← hpath, files.canWrite_nil] at h
      exact Bool.noConfusion h }

/-- How a run of the tool ends. -/
inductive Ending where
  | returned (code : Nat)
  | failed (failure : Failure)
  /-- There is no file for `file_size` to look at, and it throws. -/
  | noFileSize
deriving DecidableEq, Repr

/-- What a run of the tool leaves behind. The errors are those of `main` itself. -/
structure Result where
  ending : Ending
  output : Text
  errors : Text
  files : FileSystem

/-- A failure inside of a part of the tool. -/
def stopped (failure : Failure) : Ending × Text :=
  (.failed failure, [])

/-- The branch for encoding, with what can be read from the input file. -/
def encodeFile (addresses : Nat → Nat) (inputFilePath : Text) (fileSize : Nat)
    (inputFile : InputStream) : Except (Ending × Text) Text :=
  let (buffer, inputFile) := inputFile.read fileSize
  if inputFile.good = false then
    .error (.returned 1, bytes "Failure during reading input file " ++ inputFilePath ++ [10])
  else
    (encode addresses buffer).mapError stopped

/-- The branch for decoding. -/
def decodeFile (inputFile : InputStream) : Except (Ending × Text) Text := do
  let (header, inputFile) ← (CompressionHeader.read inputFile).mapError stopped
  if inputFile.good = false then
    .error (.returned 1, bytes "Failure while reading compressed file header\n")
  else
    let (payloadBuffer, inputFile) ←
      (readVector (bytesOfBits header.payloadLengthBits) inputFile).mapError stopped
    if inputFile.good = false then
      .error (.returned 1, bytes "Failure while reading compressed file payload\n")
    else
      let huffmanTree ←
        (deserialize .null header.serializedTree header.serializedTreeTotalBits).mapError stopped
      (huffmanTree.deserializePayload payloadBuffer header.payloadLengthBits
        header.originalFileBytes).mapError stopped

/-- What is to be written, from what can be read of the input file. -/
def written (addresses : Nat → Nat) (config : Config) (fileSize : Nat) (inputFile : InputStream) :
    Except (Ending × Text) Text :=
  if config.shouldDecode then decodeFile inputFile
  else encodeFile addresses config.inputFilePath fileSize inputFile

/-- `main` behind the arguments. -/
def process (addresses : Nat → Nat) (config : Config) (files : FileSystem) : Result :=
  let output := config.text ++ [10]
  match files.contents config.inputFilePath with
  | none => ⟨.noFileSize, output, [], files⟩
  | some file =>
    if files.canRead config.inputFilePath = false then
      ⟨.returned 1, output,
        bytes "Cannot open input file " ++ config.inputFilePath ++ [10], files⟩
    else if h : files.canWrite config.outputFilePath = true then
      -- Opening the file for writing has left nothing of it.
      let opened := files.write config.outputFilePath h []
      let inputFile := InputStream.ofFile ((opened.contents config.inputFilePath).getD [])
      match written addresses config file.length inputFile with
      | .error (ending, errors) => ⟨ending, output, errors, opened⟩
      | .ok text => ⟨.returned 0, output, [], opened.write config.outputFilePath h text⟩
    else
      ⟨.returned 1, output,
        bytes "Cannot open output file " ++ config.outputFilePath ++ [10], files⟩

/-- `main`: there have to be four arguments. -/
def main (addresses : Nat → Nat) (fuel : Nat) (programName : Text) (args : List Text)
    (files : FileSystem) : Result :=
  if args.length ≠ 4 then ⟨.returned 1, usage programName, [], files⟩
  else
    match parseArguments fuel args {} with
    | .error failure => ⟨.failed failure, [], [], files⟩
    | .ok config => process addresses config files

/-- What the tool is asked to do. -/
inductive Direction where
  | encode
  | decode
deriving DecidableEq, Repr

/-- The option for each direction. -/
def Direction.option : Direction → Text
  | .encode => bytes "-e"
  | .decode => bytes "-d"

/-- What is written, from what is in the input file. -/
def Direction.convert (addresses : Nat → Nat) : Direction → Text → Except Failure Text
  | .encode => Compression.encode addresses
  | .decode => Compression.decode

/-- An option is looked at with the argument behind it. -/
def IsOption (argument : Text) : Prop :=
  argument = bytes "-d" ∨ argument = bytes "-e" ∨ argument = bytes "-o"

/-- What an option and the argument behind it change. -/
def Config.set (config : Config) (option path : Text) : Config :=
  if option = bytes "-o" then { config with outputFilePath := path }
  else
    { config with
      shouldDecode := config.shouldDecode || option = bytes "-d"
      inputFilePath := path }

section Arguments

variable {option path argument : Text} {args : List Text} {fuel : Nat}

theorem parseArguments_option (h : IsOption option) (config : Config) :
    parseArguments (fuel + 1) (option :: path :: args) config =
      parseArguments fuel args (config.set option path) := by
  rw [parseArguments, Config.set]
  rcases h with rfl | rfl | rfl
  · rw [if_pos (Or.inl rfl), if_neg (by decide)]
  · rw [if_pos (Or.inr rfl), if_neg (by decide)]
  · rw [if_neg (by decide), if_pos rfl, if_pos rfl]

/-- The loop does not get past an argument that is no option. -/
theorem parseArguments_stuck (h : ¬ IsOption argument) (config : Config) :
    parseArguments fuel (argument :: args) config = .error .outOfFuel := by
  induction fuel with
  | zero => rfl
  | succ fuel ih =>
      unfold parseArguments
      rw [if_neg fun hoption => h (hoption.imp_right Or.inl),
        if_neg fun hoption => h (Or.inr (Or.inr hoption)), ih]

/-- Two options, or a loop without an end. -/
theorem parseArguments_four (fuel : Nat) (option path option' path' : Text) :
    (IsOption option ∧ IsOption option' ∧
      parseArguments (fuel + 2) [option, path, option', path'] {} =
        .ok ((Config.set {} option path).set option' path')) ∨
      parseArguments (fuel + 2) [option, path, option', path'] {} = .error .outOfFuel := by
  by_cases h : IsOption option
  · rw [parseArguments_option h]
    by_cases h' : IsOption option'
    · rw [parseArguments_option h', parseArguments]
      exact Or.inl ⟨h, h', rfl⟩
    · exact Or.inr (parseArguments_stuck h' _)
  · exact Or.inr (parseArguments_stuck h _)

theorem isOption_iff :
    IsOption option ↔ option = bytes "-o" ∨ ∃ direction : Direction, option = direction.option := by
  constructor
  · rintro (h | h | h)
    · exact Or.inr ⟨.decode, h⟩
    · exact Or.inr ⟨.encode, h⟩
    · exact Or.inl h
  · rintro (h | ⟨direction, h⟩)
    · exact Or.inr (Or.inr h)
    · cases direction with
      | encode => exact Or.inr (Or.inl h)
      | decode => exact Or.inl h

theorem Config.set_output (config : Config) (path : Text) :
    config.set (bytes "-o") path = { config with outputFilePath := path } :=
  if_pos rfl

theorem Config.set_direction (config : Config) (direction : Direction) (path : Text) :
    config.set direction.option path =
      { config with
        shouldDecode := config.shouldDecode || direction = .decode
        inputFilePath := path } := by
  cases direction with
  | encode => rfl
  | decode => rfl

end Arguments

section Files

variable {addresses : Nat → Nat} {path file text : Text}

theorem decodeFile_ofFile : decodeFile (.ofFile file) = .ok text ↔ decode file = .ok text := by
  unfold decodeFile decode
  simp only [bind_eq_ok, mapError_eq_ok]
  refine exists_congr fun result => and_congr_right fun _ => ?_
  by_cases hheader : result.2.good = false
  · rw [if_pos hheader, if_pos hheader]
    exact iff_of_false nofun nofun
  · rw [if_neg hheader, if_neg hheader]
    simp only [bind_eq_ok, mapError_eq_ok]
    refine exists_congr fun result => and_congr_right fun _ => ?_
    by_cases hpayload : result.2.good = false
    · rw [if_pos hpayload, if_pos hpayload]
      exact iff_of_false nofun nofun
    · rw [if_neg hpayload, if_neg hpayload]
      simp only [bind_eq_ok, mapError_eq_ok]

theorem encodeFile_ofFile :
    encodeFile addresses path file.length (.ofFile file) = .ok text ↔
      encode addresses file = .ok text := by
  have hread : (InputStream.ofFile file).read file.length = (file, ⟨[], true⟩) := by
    have happend : InputStream.read file.length ⟨file ++ [], true⟩ = (file, ⟨[], true⟩) :=
      InputStream.read_append rfl
    rwa [List.append_nil] at happend
  rw [encodeFile, hread]
  exact mapError_eq_ok

/-- In an empty file there is nothing to be read, and without a byte there is no tree. -/
theorem encodeFile_nil (fileSize : Nat) :
    encodeFile addresses path fileSize (.ofFile []) ≠ .ok text := by
  intro h
  cases fileSize with
  | zero =>
      have hempty : encode addresses [] = .ok text := encodeFile_ofFile.mp h
      rw [encode, bind_eq_ok] at hempty
      rcases hempty with ⟨huffmanTree, hconstruct, -⟩
      have hleaves : ∀ indices : List UInt8,
          leafNodes addresses (computeFrequency []) indices ([], 0) = ([], 0) := by
        intro indices
        induction indices with
        | nil => rfl
        | cons index indices ih => exact ih
      rw [construct, hleaves] at hconstruct
      cases hconstruct
  | succ n =>
      have hread : (InputStream.ofFile []).read (n + 1) = ([], ⟨[], false⟩) :=
        InputStream.read_nil (Nat.succ_pos n) true
      rw [encodeFile, hread] at h
      cases h

theorem decodeFile_nil : decodeFile (.ofFile []) ≠ .ok text := by
  have hread : decode [] = .error .exit := by decide +kernel
  rw [Ne, decodeFile_ofFile, hread]
  exact nofun

/-- A failure is not taken for success. -/
theorem stopped_ne {α : Type} {x : Except Failure α} {e : Ending × Text}
    (h : x.mapError stopped = .error e) : e.1 ≠ .returned 0 := by
  cases x with
  | error failure =>
      cases h
      exact nofun
  | ok a => cases h

theorem encodeFile_ne {fileSize : Nat} {inputFile : InputStream} {e : Ending × Text}
    (h : encodeFile addresses path fileSize inputFile = .error e) : e.1 ≠ .returned 0 := by
  unfold encodeFile at h
  dsimp only at h
  split at h
  · cases h
    exact nofun
  · exact stopped_ne h

theorem decodeFile_ne {inputFile : InputStream} {e : Ending × Text}
    (h : decodeFile inputFile = .error e) : e.1 ≠ .returned 0 := by
  unfold decodeFile at h
  rcases bind_eq_error.mp h with hstopped | ⟨⟨header, inputFile⟩, -, h⟩
  · exact stopped_ne hstopped
  · dsimp only at h
    by_cases hheader : inputFile.good = false
    · rw [if_pos hheader] at h
      cases h
      exact nofun
    · rw [if_neg hheader] at h
      rcases bind_eq_error.mp h with hstopped | ⟨⟨payloadBuffer, inputFile⟩, -, h⟩
      · exact stopped_ne hstopped
      · dsimp only at h
        by_cases hpayload : inputFile.good = false
        · rw [if_pos hpayload] at h
          cases h
          exact nofun
        · rw [if_neg hpayload] at h
          rcases bind_eq_error.mp h with hstopped | ⟨huffmanTree, -, hstopped⟩
          · exact stopped_ne hstopped
          · exact stopped_ne hstopped

theorem written_ne {config : Config} {fileSize : Nat} {inputFile : InputStream}
    {e : Ending × Text} (h : written addresses config fileSize inputFile = .error e) :
    e.1 ≠ .returned 0 := by
  unfold written at h
  split at h
  · exact decodeFile_ne h
  · exact encodeFile_ne h

/-- What `config` asks for. -/
def Config.direction (config : Config) : Direction :=
  if config.shouldDecode then .decode else .encode

theorem written_ofFile {config : Config} :
    written addresses config file.length (.ofFile file) = .ok text ↔
      config.direction.convert addresses file = .ok text := by
  unfold written Config.direction
  split
  · exact decodeFile_ofFile
  · exact encodeFile_ofFile

theorem toOption_written {config : Config} :
    (written addresses config file.length (.ofFile file)).toOption =
      (config.direction.convert addresses file).toOption := by
  cases hconvert : config.direction.convert addresses file with
  | ok text =>
      rw [written_ofFile.mpr hconvert]
      rfl
  | error failure =>
      cases hwritten : written addresses config file.length (.ofFile file) with
      | error e => rfl
      | ok text =>
          rw [written_ofFile.mp hwritten] at hconvert
          cases hconvert

theorem written_nil {config : Config} (fileSize : Nat) :
    written addresses config fileSize (.ofFile []) ≠ .ok text := by
  unfold written
  split
  · exact decodeFile_nil
  · exact encodeFile_nil fileSize

/-- Writing a file once more leaves what was written last. -/
theorem FileSystem.write_write (files : FileSystem) (h : files.canWrite path = true)
    (text' : Text) : (files.write path h text).write path h text' = files.write path h text' := by
  simp only [FileSystem.write, Function.update_idem]

theorem FileSystem.contents_write (files : FileSystem) (h : files.canWrite path = true)
    (path' : Text) :
    (files.write path h text).contents path' =
      if path' = path then some text else files.contents path' := by
  exact Function.update_apply _ _ _ _

/-- What opening the output file leaves of the input file. -/
def Config.left (config : Config) (file : Text) : Text :=
  if config.inputFilePath = config.outputFilePath then [] else file

/-- Both files can be opened, and this is what is in the first. -/
def FileSystem.Opens (files : FileSystem) (input output file : Text) : Prop :=
  files.contents input = some file ∧ files.canRead input = true ∧ files.canWrite output = true

theorem process_opened {config : Config} {files : FileSystem}
    (h : files.Opens config.inputFilePath config.outputFilePath file)
    (hwrite : files.canWrite config.outputFilePath = true) :
    process addresses config files =
      match written addresses config file.length (.ofFile (config.left file)) with
      | .error (ending, errors) =>
        ⟨ending, config.text ++ [10], errors, files.write config.outputFilePath hwrite []⟩
      | .ok text =>
        ⟨.returned 0, config.text ++ [10], [], files.write config.outputFilePath hwrite text⟩ := by
  rcases h with ⟨hfile, hread, -⟩
  have hleft : ((files.write config.outputFilePath hwrite []).contents
      config.inputFilePath).getD [] = config.left file := by
    rw [FileSystem.contents_write, hfile, Config.left]
    split
    · rfl
    · rfl
  unfold process
  rw [hfile]
  dsimp only
  rw [if_neg (by rw [hread]; exact nofun), dif_pos hwrite, hleft]
  cases written addresses config file.length (.ofFile (config.left file)) with
  | error e => rfl
  | ok text => simp only [files.write_write hwrite]

/-- A run that does not open the output file changes nothing. -/
theorem process_unopened {config : Config} {files : FileSystem}
    (h : ∀ file, ¬ files.Opens config.inputFilePath config.outputFilePath file) :
    (process addresses config files).ending ≠ .returned 0 ∧
      (process addresses config files).files = files := by
  unfold process
  cases hfile : files.contents config.inputFilePath with
  | none => exact ⟨nofun, rfl⟩
  | some file =>
      dsimp only
      by_cases hread : files.canRead config.inputFilePath = false
      · rw [if_pos hread]
        exact ⟨nofun, rfl⟩
      · rw [if_neg hread, dif_neg fun hwrite =>
          h file ⟨hfile, Bool.eq_true_of_not_eq_false hread, hwrite⟩]
        exact ⟨nofun, rfl⟩

/-- A run is done with an input file that is not its own output, and that can be converted. -/
theorem process_iff {config : Config} {files files' : FileSystem} :
    (process addresses config files).ending = .returned 0 ∧
        (process addresses config files).files = files' ↔
      ∃ (file text : Text) (h : files.Opens config.inputFilePath config.outputFilePath file),
        config.inputFilePath ≠ config.outputFilePath ∧
        config.direction.convert addresses file = .ok text ∧
        files' = files.write config.outputFilePath h.2.2 text := by
  by_cases hopens : ∃ file, files.Opens config.inputFilePath config.outputFilePath file
  · rcases hopens with ⟨file, hopens⟩
    have hfile : ∀ file', files.contents config.inputFilePath = some file' → file' = file := by
      intro file' hfile'
      exact Option.some.inj (hfile'.symm.trans hopens.1)
    rw [process_opened hopens hopens.2.2]
    by_cases hpath : config.inputFilePath = config.outputFilePath
    · -- Nothing is left of the file.
      rw [Config.left, if_pos hpath]
      cases hwritten : written addresses config file.length (.ofFile []) with
      | ok text => exact absurd hwritten (written_nil _)
      | error e =>
          exact iff_of_false (fun hdone => written_ne hwritten hdone.1)
            fun ⟨_, _, _, hne, _⟩ => hne hpath
    · rw [Config.left, if_neg hpath]
      constructor
      · intro hdone
        cases hwritten : written addresses config file.length (.ofFile file) with
        | error e =>
            rw [hwritten] at hdone
            exact absurd hdone.1 (written_ne hwritten)
        | ok text =>
            rw [hwritten] at hdone
            exact ⟨file, text, hopens, hpath, written_ofFile.mp hwritten, hdone.2.symm⟩
      · rintro ⟨file', text, hopens', -, hconvert, rfl⟩
        obtain rfl := hfile file' hopens'.1
        rw [written_ofFile.mpr hconvert]
        exact ⟨rfl, rfl⟩
  · have hnot := fun file hfile => hopens ⟨file, hfile⟩
    exact iff_of_false (fun hdone => (process_unopened hnot).1 hdone.1)
      fun ⟨file, _, hfile, _⟩ => hnot file hfile

end Files

section Main

variable {addresses : Nat → Nat} {fuel : Nat} {programName : Text} {args : List Text}
  {files files' : FileSystem}

theorem direction_decode (direction : Direction) (input output : Text) :
    (⟨input, output, direction = .decode⟩ : Config).direction = direction := by
  cases direction with
  | encode => rfl
  | decode => rfl

/-- What the arguments have to be for the tool to get anywhere. -/
def Asks (args : List Text) (direction : Direction) (input output : Text) : Prop :=
  args = [direction.option, input, bytes "-o", output] ∨
    args = [bytes "-o", output, direction.option, input]

theorem main_asks {direction : Direction} {input output : Text}
    (h : Asks args direction input output) :
    main addresses (fuel + 2) programName args files =
      process addresses ⟨input, output, direction = .decode⟩ files := by
  have hdirection : IsOption direction.option := isOption_iff.mpr (Or.inr ⟨direction, rfl⟩)
  have houtput : IsOption (bytes "-o") := isOption_iff.mpr (Or.inl rfl)
  rcases h with rfl | rfl
  · rw [main, if_neg (by simp only [List.length_cons, List.length_nil, zero_add, Nat.reduceAdd,
      ne_eq, not_true_eq_false,
      not_false_eq_true]), parseArguments_option hdirection, parseArguments_option houtput,
      parseArguments, Config.set_direction, Config.set_output]
    simp only [Bool.false_or]
  · rw [main, if_neg (by simp only [List.length_cons, List.length_nil, zero_add, Nat.reduceAdd,
      ne_eq, not_true_eq_false,
      not_false_eq_true]), parseArguments_option houtput, parseArguments_option hdirection,
      parseArguments, Config.set_output, Config.set_direction]
    simp only [Bool.false_or]

/-- The tool asks for both files, and for each of them once, or it opens no output file. -/
theorem main_cases (addresses : Nat → Nat) (fuel : Nat) (programName : Text) (args : List Text)
    (files : FileSystem) :
    (∃ direction input output, Asks args direction input output) ∨
      (main addresses (fuel + 2) programName args files).ending ≠ .returned 0 ∧
        (main addresses (fuel + 2) programName args files).files = files := by
  by_cases hlength : args.length ≠ 4
  · rw [main, if_pos hlength]
    exact Or.inr ⟨nofun, rfl⟩
  · obtain ⟨option, path, option', path', rfl⟩ :
        ∃ option path option' path', args = [option, path, option', path'] := by
      match args, hlength with
      | [option, path, option', path'], _ => exact ⟨option, path, option', path', rfl⟩
      | [], h => exact absurd nofun h
      | [_], h => exact absurd nofun h
      | [_, _], h => exact absurd nofun h
      | [_, _, _], h => exact absurd nofun h
      | _ :: _ :: _ :: _ :: _ :: _, h => exact absurd nofun h
    rw [main, if_neg hlength]
    rcases parseArguments_four fuel option path option' path' with
      ⟨h, h', hparse⟩ | hparse
    · rw [hparse]
      rcases isOption_iff.mp h with rfl | ⟨direction, rfl⟩
      · rcases isOption_iff.mp h' with rfl | ⟨direction', rfl⟩
        · -- The input file has no name.
          rw [Config.set_output, Config.set_output]
          refine Or.inr (process_unopened fun file hopens => ?_)
          exact absurd (files.contents_nil.symm.trans hopens.1) nofun
        · exact Or.inl ⟨direction', path', path, Or.inr rfl⟩
      · rcases isOption_iff.mp h' with rfl | ⟨direction', rfl⟩
        · exact Or.inl ⟨direction, path, path', Or.inl rfl⟩
        · -- The output file has no name.
          rw [Config.set_direction, Config.set_direction]
          refine Or.inr (process_unopened fun file hopens => ?_)
          exact absurd (files.canWrite_nil.symm.trans hopens.2.2) nofun
    · rw [hparse]
      exact Or.inr ⟨nofun, rfl⟩

/-- The tool is done if it is given a file to read and another one to write, and if it can make
    the one of the other. -/
theorem main_converts_iff :
    (main addresses (fuel + 2) programName args files).ending = .returned 0 ∧
        (main addresses (fuel + 2) programName args files).files = files' ↔
      ∃ (direction : Direction) (input output file text : Text)
        (h : files.canWrite output = true),
        Asks args direction input output ∧ input ≠ output ∧
        files.contents input = some file ∧ files.canRead input = true ∧
        direction.convert addresses file = .ok text ∧ files' = files.write output h text := by
  constructor
  · intro hdone
    rcases main_cases addresses fuel programName args files with
      ⟨direction, input, output, hasks⟩ | ⟨hending, -⟩
    · rw [main_asks hasks, process_iff, direction_decode] at hdone
      rcases hdone with ⟨file, text, hopens, hne, hconvert, hfiles⟩
      exact ⟨direction, input, output, file, text, hopens.2.2, hasks, hne, hopens.1, hopens.2.1,
        hconvert, hfiles⟩
    · exact absurd hdone.1 hending
  · rintro ⟨direction, input, output, file, text, hwrite, hasks, hne, hfile, hread, hconvert,
      hfiles⟩
    rw [main_asks hasks, process_iff, direction_decode]
    exact ⟨file, text, ⟨hfile, hread, hwrite⟩, hne, hconvert, hfiles⟩

/-- All files but one are left alone. The output file is opened only if the input file can be
    read, and then it has what the other was converted to, if that is possible at all, and
    nothing if it is not, or if it was the input file itself. -/
theorem main_files :
    (∃ (direction : Direction) (input output file : Text) (h : files.canWrite output = true),
        Asks args direction input output ∧ files.Opens input output file ∧
        (main addresses (fuel + 2) programName args files).files =
          files.write output h (if input = output then []
            else (direction.convert addresses file).toOption.getD [])) ∨
      (∀ direction input output file, Asks args direction input output →
          ¬ files.Opens input output file) ∧
        (main addresses (fuel + 2) programName args files).files = files := by
  by_cases hopens : ∃ direction input output file, Asks args direction input output ∧
      files.Opens input output file
  · rcases hopens with ⟨direction, input, output, file, hasks, hopens⟩
    refine Or.inl ⟨direction, input, output, file, hopens.2.2, hasks, hopens, ?_⟩
    rw [main_asks hasks, process_opened hopens hopens.2.2]
    by_cases hpath : input = output
    · rw [if_pos hpath, Config.left, if_pos hpath]
      cases hwritten : written addresses ⟨input, output, direction = .decode⟩ file.length
          (.ofFile []) with
      | ok text => exact absurd hwritten (written_nil _)
      | error e => rfl
    · have hoption : (written addresses ⟨input, output, direction = .decode⟩ file.length
          (.ofFile file)).toOption = (direction.convert addresses file).toOption := by
        rw [toOption_written, direction_decode]
      rw [if_neg hpath, Config.left, if_neg hpath, ← hoption]
      cases written addresses ⟨input, output, direction = .decode⟩ file.length
          (.ofFile file) with
      | ok text => rfl
      | error e => rfl
  · have hnot : ∀ direction input output file, Asks args direction input output →
        ¬ files.Opens input output file := fun direction input output file hasks hfile =>
      hopens ⟨direction, input, output, file, hasks, hfile⟩
    refine Or.inr ⟨hnot, ?_⟩
    rcases main_cases addresses fuel programName args files with
      ⟨direction, input, output, hasks⟩ | ⟨-, hfiles⟩
    · rw [main_asks hasks]
      exact (process_unopened fun file => hnot direction input output file hasks).2
    · exact hfiles

end Main

end Compression

end CodingChallenges
