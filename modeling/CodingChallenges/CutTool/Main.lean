import CodingChallenges.CutTool.Cut
import CodingChallenges.Library.Bytes
import CodingChallenges.Library.Decimal
import CodingChallenges.Library.Lines
import CodingChallenges.Library.Outcomes
import Mathlib.Data.List.Forall2

/-!
# The Command Line of the Cut Tool

`extract_fields`, `read_lines` and `main` of `cut.cpp`.

The arguments are gone through in pairs and single ones: the options `-f` and `-d` have their text
in the same argument or take the next one, and everything else is the name of the input file. The
numbers of all field lists are collected, while of delimiters and file names the last one counts.
So what the arguments mean does not depend on the order of options of different kinds
(`parseArguments_ok_iff`).

An option at the end of the arguments that has nothing behind it takes the null pointer that the
arguments end with, and a string made of it is no string.

## Main definitions

* `convertToInt64`, `splitByDelimiterAndExtractFields`, `removeQuotes`, `extractFields`: Reading a
  field list.
* `Options`, `Failure`, `parseArguments`: Reading the arguments.
* `Input`, `readLines`, `main`: The tool.
* `Lists`: What a field list is.
* `Item`, `itemsOf`, `optionsOf`: What the arguments ask for.
* `cutText`: What is printed of a text.

## Theorems

* `extractFields_eq_some_iff`: The field lists that are read.
* `parseArguments_ok_iff`: What the arguments mean.
* `main_iff`: What the tool prints.
* `cut_cut`: Selecting among what was selected.
-/

namespace CodingChallenges

namespace CutTool

open Delimiter

/-- An argument, or what is printed. -/
abbrev Text := List UInt8

/-- A number that takes up the whole text. -/
def convertToInt64 (text : Text) : Option UInt64 :=
  match fromChars (2 ^ 64) text with
  | some (value, []) => some (UInt64.ofNat value)
  | _ => none

/-- The loop over the numbers of a field list. An error clears the list, but nobody looks at it
    any more. -/
def splitByDelimiterAndExtractFields (delimiter : UInt8) (field : Text) (fields : List UInt64) :
    Option (List UInt64) :=
  match _h : find [delimiter] field with
  | none => (convertToInt64 field).map fun value => fields ++ [value]
  | some pos =>
    match convertToInt64 (field.take pos) with
    | none => none
    | some value =>
      splitByDelimiterAndExtractFields delimiter (field.drop (pos + 1)) (fields ++ [value])
termination_by field.length
decreasing_by
  have hle := find_le _h
  rw [List.length_singleton] at hle
  rw [List.length_drop]
  omega

/-- The text begins with the character. -/
def startsWith (source : Text) (target : UInt8) : Bool :=
  source.head? = some target

/-- Nothing is found in an empty text, and this is one less than its size. -/
def endsWith (source : Text) (target : UInt8) : Bool :=
  source = [] || source.getLast? = some target

/-- A single quotation mark stands for the first and the last one. -/
def removeQuotes (field : Text) : Text :=
  if startsWith field 34 && endsWith field 34 || startsWith field 39 && endsWith field 39 then
    (field.drop 1).take (field.length - 2)
  else
    field

/-- The list is split at commas if it has one, else at spaces. -/
def extractFields (field : Text) (fields : List UInt64) : Option (List UInt64) :=
  if removeQuotes field = [] then none
  else if 44 ∈ removeQuotes field then
    splitByDelimiterAndExtractFields 44 (removeQuotes field) fields
  else
    splitByDelimiterAndExtractFields 32 (removeQuotes field) fields

/-- All that the arguments decide. -/
structure Options extends Config where
  inputFile : Text := []
deriving DecidableEq, Repr

/-- Why nothing is printed. -/
inductive Failure where
  | tooFewArguments
  | fieldList
  | longDelimiter
  /-- A string was made of a null pointer. -/
  | nullArgument
  | noFields
  | cannotOpen (path : Text)
deriving DecidableEq, Repr

/-- The delimiter that is given with an option. Without quotes it may be empty, and then the
    delimiter stays as it is. -/
def extractDelimiter (text : Text) (options : Options) : Except Failure Options :=
  match removeQuotes text with
  | [] => .ok options
  | [c] => .ok { options with delimiter := c }
  | _ => .error .longDelimiter

/-- The fields of a list are added to the options. -/
def withFields (text : Text) (options : Options) : Except Failure Options :=
  match extractFields text options.fields with
  | some fields => .ok { options with fields := fields }
  | none => .error .fieldList

/-- The loop over the arguments. -/
def parseArguments : List Text → Options → Except Failure Options
  | [], options => .ok options
  | arg :: args, options =>
    if arg = bytes "-f" then
      match args with
      | [] => .error .nullArgument
      | field :: args => withFields field options >>= parseArguments args
    else if (bytes "-f").isPrefixOf arg then
      withFields (arg.drop 2) options >>= parseArguments args
    else if arg = bytes "-d" then
      match args with
      | [] => .error .nullArgument
      | delimiter :: args => extractDelimiter delimiter options >>= parseArguments args
    else if (bytes "-d").isPrefixOf arg then
      extractDelimiter (arg.drop 2) options >>= parseArguments args
    else
      parseArguments args { options with inputFile := arg }

/-- What a stream gives until its end. All of it is kept in memory. -/
structure Input where
  text : Text
  length_lt : text.length < 2 ^ 63

/-- `std::getline` until the input ends. -/
def readLines (input : Input) : List Line :=
  (Lines.read 10 input.text).attach.map fun line =>
    ⟨line.1, Nat.lt_of_le_of_lt (Lines.length_le_of_mem_read line.2) input.length_lt⟩

/-- The text of `print_usage`. -/
def printUsage (programName : Text) : Text :=
  bytes "Usage: " ++ programName ++ bytes " OPTION... FILE\n\n" ++
    bytes "  -d DELIMITER\tUse delimiter instead of TAB for field delimiter\n" ++
    bytes "  -f FIELD_LIST\tSelect only these fields. " ++
    bytes "Field list should contain numbers in range [1...].\n" ++
    bytes "               \tIn case no delimiters are present, print the whole line.\n"

/-- What a run of the tool leaves behind. -/
structure Result where
  output : Text
  errors : Text
  exitCode : Nat
deriving DecidableEq, Repr

/-- What is printed about a failure, unless the tool crashes. -/
def Failure.result (programName : Text) : Failure → Option Result
  | .tooFewArguments => some ⟨printUsage programName, [], 1⟩
  | .fieldList => some ⟨[], bytes "Some error occured during parsing fields\n", 1⟩
  | .longDelimiter => some ⟨[], bytes "Delimiter should be 1 character only\n", 1⟩
  | .nullArgument => none
  | .noFields => some ⟨[], bytes "One or more fields are required\n", 1⟩
  | .cannotOpen path => some ⟨[], bytes "Cannot open input file " ++ path ++ [10], 1⟩

/-- The text that is read, if it can be opened. -/
def inputOf (inputFile : Text) (files : Text → Option Input) (standardInput : Input) :
    Option Input :=
  if inputFile = [] ∨ inputFile = bytes "-" then some standardInput else files inputFile

/-- The output, up to the first failure. -/
def run (args : List Text) (files : Text → Option Input) (standardInput : Input) :
    Except Failure Text :=
  if args.length ≤ 1 then .error .tooFewArguments
  else do
    let options ← parseArguments args { fields := [] }
    if options.fields = [] then .error .noFields
    else
      match inputOf options.inputFile files standardInput with
      | none => .error (.cannotOpen options.inputFile)
      | some input => .ok (cutAndPrintOutput options.toConfig (readLines input))

/-- `main`: a failure decides what is printed, and where. -/
def main (programName : Text) (args : List Text) (files : Text → Option Input)
    (standardInput : Input) : Option Result :=
  match run args files standardInput with
  | .ok output => some ⟨output, [], 0⟩
  | .error failure => failure.result programName

/-- A field list: numbers in between commas or blanks, with quotation marks around it or not. -/
def Lists (text : Text) (numbers : List UInt64) : Prop :=
  ∃ separator ∈ [(44 : UInt8), 32], ∃ pieces, pieces ≠ [] ∧
    removeQuotes text = List.intercalate [separator] pieces ∧
    List.Forall₂ (fun piece number => piece ≠ [] ∧ (∀ d ∈ piece, isDecimalDigit d = true) ∧
      decimalValue piece = UInt64.toNat number) pieces numbers

/-- What an argument, or two of them, are for. -/
inductive Item where
  | fields (text : Text)
  | delimiter (text : Text)
  | file (path : Text)
deriving DecidableEq, Repr

/-- The arguments, unless the last one is an option without its text. -/
def itemsOf : List Text → Option (List Item)
  | [] => some []
  | arg :: args =>
    if arg = bytes "-f" then
      match args with
      | [] => none
      | text :: args => (itemsOf args).map fun items => .fields text :: items
    else if (bytes "-f").isPrefixOf arg then
      (itemsOf args).map fun items => .fields (arg.drop 2) :: items
    else if arg = bytes "-d" then
      match args with
      | [] => none
      | text :: args => (itemsOf args).map fun items => .delimiter text :: items
    else if (bytes "-d").isPrefixOf arg then
      (itemsOf args).map fun items => .delimiter (arg.drop 2) :: items
    else
      (itemsOf args).map fun items => .file arg :: items

/-- The text of the option can be understood. -/
def Item.Fits : Item → Prop
  | .fields text => ∃ numbers, Lists text numbers
  | .delimiter text => (removeQuotes text).length ≤ 1
  | .file _ => True

/-- The numbers of a field list. -/
def Item.numbers : Item → List UInt64
  | .fields text => (extractFields text []).getD []
  | _ => []

/-- The delimiter that is asked for. -/
def Item.delimiter? : Item → Option UInt8
  | .delimiter text => (removeQuotes text).head?
  | _ => none

/-- The path an item stands for. -/
def Item.path? : Item → Option Text
  | .file path => some path
  | _ => none

/-- What all of them ask for, on top of some options: the fields in all lists, and the last
    delimiter and file. -/
def optionsOf (options : Options) (items : List Item) : Options where
  fields := options.fields ++ items.flatMap Item.numbers
  delimiter := (items.filterMap Item.delimiter?).getLast?.getD options.delimiter
  inputFile := (items.filterMap Item.path?).getLast?.getD options.inputFile

/-- The options that are there without any argument. -/
abbrev defaults : Options := { fields := [] }

/-- What a list of numbers has at a place, counted from 1. -/
def numberAt (fields : List UInt64) (place : UInt64) : Option UInt64 :=
  if place = 0 then none else fields[place.toNat - 1]?

/-- The fields of a line with the numbers of the list. -/
def cutLine (config : Config) (line : Text) : Text :=
  List.intercalate [config.delimiter]
    (selectedFields config.fields (line.splitOn config.delimiter))

/-- The fields with the numbers of the list, line by line. -/
def cutText (config : Config) (text : Text) : Text :=
  (Lines.read 10 text).flatMap fun line => cutLine config line ++ [10]

section Lists

theorem convertToInt64_eq_some_iff {text : Text} {number : UInt64} :
    convertToInt64 text = some number ↔
      text ≠ [] ∧ (∀ d ∈ text, isDecimalDigit d = true) ∧ decimalValue text = number.toNat := by
  constructor
  · intro h
    unfold convertToInt64 at h
    split at h
    · next value hread =>
        rcases fromChars_whole_iff.mp hread with ⟨hne, hdigits, hvalue, hlt⟩
        injection h with h
        subst h
        exact ⟨hne, hdigits, hvalue.trans (UInt64.toNat_ofNat_of_lt' hlt).symm⟩
    · cases h
  · intro h
    rcases h with ⟨hne, hdigits, hvalue⟩
    have hread : fromChars (2 ^ 64) text = some (number.toNat, []) :=
      fromChars_whole_iff.mpr ⟨hne, hdigits, hvalue, number.toNat_lt⟩
    unfold convertToInt64
    rw [hread]
    exact congrArg some UInt64.ofNat_toNat

/-- The loop reads what stands between the delimiters, piece by piece. -/
theorem splitByDelimiterAndExtractFields_eq (delimiter : UInt8) (field : Text)
    (fields : List UInt64) :
    splitByDelimiterAndExtractFields delimiter field fields =
      ((field.splitOn delimiter).mapM convertToInt64).map fun numbers => fields ++ numbers := by
  induction field, fields using splitByDelimiterAndExtractFields.induct delimiter with
  | case1 field fields h =>
      have hfree : delimiter ∉ field := by
        rw [← List.singleton_infix_iff]
        exact find_eq_none_iff.mp h
      rw [splitByDelimiterAndExtractFields, List.splitOn_eq_singleton hfree, List.mapM_cons,
        List.mapM_nil]
      split
      · cases convertToInt64 field <;> rfl
      · next pos hpos =>
          rw [h] at hpos
          cases hpos
  | case2 field fields pos h hnone =>
      rw [splitByDelimiterAndExtractFields, splitOn_of_find h, List.mapM_cons, hnone]
      split
      · next hfind =>
          rw [h] at hfind
          cases hfind
      · next pos' hpos =>
          rw [h] at hpos
          cases hpos
          simp only [hnone]
          rfl
  | case3 field fields pos h value hvalue ih =>
      rw [splitByDelimiterAndExtractFields, splitOn_of_find h, List.mapM_cons, hvalue]
      split
      · next hfind =>
          rw [h] at hfind
          cases hfind
      · next pos' hpos =>
          rw [h] at hpos
          cases hpos
          simp only [hvalue]
          rw [ih]
          cases ((field.drop (pos + 1)).splitOn delimiter).mapM convertToInt64 with
          | none => rfl
          | some numbers => exact congrArg some (List.append_assoc _ _ _)

theorem mapM_eq_some_iff {α β : Type} {f : α → Option β} {as : List α} {bs : List β} :
    as.mapM f = some bs ↔ List.Forall₂ (fun a b => f a = some b) as bs := by
  induction as generalizing bs with
  | nil =>
      rw [List.mapM_nil, List.forall₂_nil_left_iff]
      exact ⟨fun h => (Option.some.inj h).symm, fun h => congrArg some h.symm⟩
  | cons a as ih =>
      rw [List.mapM_cons, List.forall₂_cons_left_iff]
      constructor
      · intro h
        rcases Option.bind_eq_some_iff.mp h with ⟨b, hb, hrest⟩
        rcases Option.bind_eq_some_iff.mp hrest with ⟨bs', hbs', hsame⟩
        exact ⟨b, bs', hb, ih.mp hbs', (Option.some.inj hsame).symm⟩
      · rintro ⟨b, bs', hb, hbs', rfl⟩
        rw [hb, ih.mpr hbs']
        rfl

theorem forall₂_convertToInt64 {pieces : List Text} {numbers : List UInt64} :
    List.Forall₂ (fun piece number => convertToInt64 piece = some number) pieces numbers ↔
      List.Forall₂ (fun piece number => piece ≠ [] ∧ (∀ d ∈ piece, isDecimalDigit d = true) ∧
        decimalValue piece = UInt64.toNat number) pieces numbers := by
  simp only [convertToInt64_eq_some_iff]

/-- A field list is taken apart at the separator that is looked for. -/
theorem Lists.pieces {field : Text} {numbers : List UInt64} (h : Lists field numbers) :
    removeQuotes field ≠ [] ∧
      ((removeQuotes field).splitOn (if 44 ∈ removeQuotes field then 44 else 32)).mapM
        convertToInt64 = some numbers := by
  rcases h with ⟨separator, hseparator, pieces, hne, hfield, hpieces⟩
  have hread := mapM_eq_some_iff.mpr (forall₂_convertToInt64.mpr hpieces)
  have hmem : ∀ piece ∈ pieces, piece ≠ [] ∧ ∀ d ∈ piece, isDecimalDigit d = true := by
    intro piece hpiece
    rcases List.mem_iff_get.mp hpiece with ⟨i, rfl⟩
    have hi : i.val < numbers.length := by
      rw [← hpieces.length_eq]
      exact i.isLt
    have hboth := hpieces.get i.isLt hi
    exact ⟨hboth.1, hboth.2.1⟩
  -- Digits are no separators.
  have hfree : ∀ c ∈ [(44 : UInt8), 32], ∀ piece ∈ pieces, c ∉ piece := by
    intro c hc piece hpiece hin
    have hdigit := (hmem piece hpiece).2 c hin
    rcases List.mem_pair.mp hc with rfl | rfl
    · exact absurd hdigit (by decide)
    · exact absurd hdigit (by decide)
  have hsplit : (removeQuotes field).splitOn separator = pieces := by
    rw [hfield]
    exact List.splitOn_intercalate separator (fun piece hpiece => hfree _ hseparator piece hpiece)
      hne
  constructor
  · -- Not even the first piece is empty.
    intro hempty
    rw [hempty, List.splitOn_nil] at hsplit
    exact (hmem [] (hsplit ▸ List.mem_singleton_self _)).1 rfl
  · have hsame : (removeQuotes field).splitOn (if 44 ∈ removeQuotes field then 44 else 32) =
        pieces := by
      rcases List.mem_pair.mp hseparator with rfl | rfl
      · by_cases hcomma : 44 ∈ removeQuotes field
        · rw [if_pos hcomma]
          exact hsplit
        · -- There is only one piece, which has no blank in it either.
          rw [List.splitOn_eq_singleton hcomma] at hsplit
          have hblank : 32 ∉ removeQuotes field :=
            hfree 32 (by decide) _ (hsplit ▸ List.mem_singleton_self _)
          rw [if_neg hcomma, List.splitOn_eq_singleton hblank]
          exact hsplit
      · have hcomma : 44 ∉ removeQuotes field := by
          intro hin
          rw [hfield] at hin
          rcases mem_intercalate hin with hin | ⟨piece, hpiece, hin⟩
          · exact absurd hin (by decide)
          · exact hfree 44 (by decide) piece hpiece hin
        rw [if_neg hcomma]
        exact hsplit
    rw [hsame]
    exact hread

/-- The field lists that are read, and what is read. -/
theorem extractFields_eq_some_iff {field : Text} {fields fields' : List UInt64} :
    extractFields field fields = some fields' ↔
      ∃ numbers, Lists field numbers ∧ fields' = fields ++ numbers := by
  have hextract : extractFields field fields =
      if removeQuotes field = [] then none
      else (((removeQuotes field).splitOn (if 44 ∈ removeQuotes field then 44 else 32)).mapM
        convertToInt64).map fun numbers => fields ++ numbers := by
    unfold extractFields
    simp only [splitByDelimiterAndExtractFields_eq]
    split_ifs <;> rfl
  rw [hextract]
  constructor
  · intro h
    split at h
    · cases h
    · rcases Option.map_eq_some_iff.mp h with ⟨numbers, hnumbers, rfl⟩
      refine ⟨numbers, ⟨if 44 ∈ removeQuotes field then 44 else 32, ?_, _, ?_,
        (List.intercalate_splitOn _).symm,
        forall₂_convertToInt64.mp (mapM_eq_some_iff.mp hnumbers)⟩, rfl⟩
      · split_ifs
        · exact List.mem_cons_self
        · exact List.mem_cons_of_mem _ List.mem_cons_self
      · exact List.splitOn_ne_nil _ _
  · rintro ⟨numbers, hlists, rfl⟩
    rw [if_neg hlists.pieces.1, hlists.pieces.2]
    rfl

end Lists

section Arguments

/-- What an item does to the options. -/
def Item.apply : Item → Options → Except Failure Options
  | .fields text, options => withFields text options
  | .delimiter text, options => extractDelimiter text options
  | .file path, options => .ok { options with inputFile := path }

theorem optionsOf_nil (options : Options) : optionsOf options [] = options := by
  simp only [optionsOf, List.flatMap_nil, List.append_nil, List.filterMap_nil, List.getLast?_nil,
    Option.getD_none]

theorem optionsOf_cons (options : Options) (item : Item) (items : List Item) :
    optionsOf options (item :: items) = optionsOf (optionsOf options [item]) items := by
  have hlast : ∀ {α : Type} (f : Item → Option α) (a : α),
      ((item :: items).filterMap f).getLast?.getD a =
        (items.filterMap f).getLast?.getD (([item].filterMap f).getLast?.getD a) := by
    intro α f a
    cases hf : f item with
    | none =>
        simp only [hf, List.filterMap_cons_none, List.getLast?_filterMap, List.filterMap_nil,
          List.getLast?_nil, Option.getD_none]
    | some b =>
        rw [List.filterMap_cons_some hf, List.filterMap_cons_some hf, List.getLast?_cons]
        rfl
  unfold optionsOf
  rw [hlast, hlast]
  simp only [List.flatMap_cons, List.getLast?_filterMap, List.reverse_cons, List.reverse_nil,
    List.nil_append, List.findSome?_singleton, List.flatMap_nil, List.append_nil, List.append_assoc]

/-- An item is accepted if it fits, and then does what it is for. -/
theorem Item.apply_eq_ok_iff {item : Item} {options options' : Options} :
    item.apply options = .ok options' ↔ item.Fits ∧ options' = optionsOf options [item] := by
  cases item with
  | fields text =>
      change withFields text options = .ok options' ↔ (∃ numbers, Lists text numbers) ∧ _
      unfold withFields
      constructor
      · intro h
        split at h
        · next fields hfields =>
            rcases extractFields_eq_some_iff.mp hfields with ⟨numbers, hlists, rfl⟩
            injection h with h
            subst h
            have hnumbers : extractFields text [] = some numbers :=
              extractFields_eq_some_iff.mpr ⟨numbers, hlists, rfl⟩
            refine ⟨⟨numbers, hlists⟩, ?_⟩
            simp only [optionsOf, List.flatMap_cons, Item.numbers, hnumbers, Option.getD_some,
              List.flatMap_nil, List.append_nil, delimiter?, List.getLast?_filterMap,
              List.reverse_cons, List.reverse_nil, List.nil_append, List.findSome?_singleton,
              Option.getD_none, path?]
        · cases h
      · rintro ⟨⟨numbers, hlists⟩, rfl⟩
        have hnumbers : extractFields text [] = some numbers :=
          extractFields_eq_some_iff.mpr ⟨numbers, hlists, rfl⟩
        rw [extractFields_eq_some_iff.mpr ⟨numbers, hlists, rfl⟩]
        simp only [optionsOf, List.flatMap_cons, Item.numbers, hnumbers, Option.getD_some,
          List.flatMap_nil, List.append_nil, delimiter?, List.getLast?_filterMap, List.reverse_cons,
          List.reverse_nil, List.nil_append, List.findSome?_singleton, Option.getD_none, path?]
  | delimiter text =>
      change extractDelimiter text options = .ok options' ↔ (removeQuotes text).length ≤ 1 ∧ _
      unfold extractDelimiter
      cases hquotes : removeQuotes text with
      | nil =>
          rw [Except.ok.injEq, eq_comm]
          simp [optionsOf, Item.numbers, Item.delimiter?, Item.path?, hquotes]
      | cons c rest =>
          cases rest with
          | nil =>
              rw [Except.ok.injEq, eq_comm]
              simp [optionsOf, Item.numbers, Item.delimiter?, Item.path?, hquotes]
          | cons c' rest => simp only [reduceCtorEq, List.length_cons, Nat.reduceLeDiff, false_and]
  | file path =>
      simp [Item.apply, Item.Fits, optionsOf, Item.numbers, Item.delimiter?, Item.path?, eq_comm]

/-- The first item, and those behind it. -/
theorem bind_apply_eq_ok_iff {item : Item} {args : List Text} {options options' : Options}
    (ih : ∀ options, parseArguments args options = .ok options' ↔ ∃ items,
      itemsOf args = some items ∧ (∀ item ∈ items, item.Fits) ∧
        options' = optionsOf options items) :
    (item.apply options >>= parseArguments args) = .ok options' ↔
      ∃ items, ((itemsOf args).map fun items => item :: items) = some items ∧
        (∀ item ∈ items, item.Fits) ∧ options' = optionsOf options items := by
  rw [bind_eq_ok]
  constructor
  · rintro ⟨options₁, hfirst, hrest⟩
    rcases Item.apply_eq_ok_iff.mp hfirst with ⟨hfits, rfl⟩
    rcases (ih _).mp hrest with ⟨items, hitems, hall, rfl⟩
    refine ⟨item :: items, by rw [hitems]; rfl, List.forall_mem_cons.mpr ⟨hfits, hall⟩, ?_⟩
    exact (optionsOf_cons options item items).symm
  · rintro ⟨items', hitems', hall, rfl⟩
    rcases Option.map_eq_some_iff.mp hitems' with ⟨items, hitems, rfl⟩
    rw [List.forall_mem_cons] at hall
    refine ⟨optionsOf options [item], Item.apply_eq_ok_iff.mpr ⟨hall.1, rfl⟩, ?_⟩
    exact (ih _).mpr ⟨items, hitems, hall.2, optionsOf_cons options item items⟩

/-- The arguments are understood exactly if no option lacks its text and all texts fit, and then
    they mean what the items ask for. -/
theorem parseArguments_ok_iff (args : List Text) (options options' : Options) :
    parseArguments args options = .ok options' ↔ ∃ items, itemsOf args = some items ∧
      (∀ item ∈ items, item.Fits) ∧ options' = optionsOf options items := by
  induction args using itemsOf.induct generalizing options with
  | case1 =>
      rw [parseArguments, itemsOf]
      constructor
      · intro h
        injection h with h
        exact ⟨[], rfl, fun item hitem => absurd hitem List.not_mem_nil,
          h.symm.trans (optionsOf_nil options).symm⟩
      · rintro ⟨items, hitems, -, rfl⟩
        cases hitems
        rw [optionsOf_nil]
  | case2 =>
      rw [parseArguments, itemsOf]
      simp only [↓reduceIte, reduceCtorEq, false_and, exists_const]
  | case3 text args ih =>
      rw [parseArguments, itemsOf, if_pos rfl, if_pos rfl]
      exact @bind_apply_eq_ok_iff (.fields text) _ _ _ ih
  | case4 arg args hne hpre ih =>
      rw [parseArguments.eq_def, itemsOf.eq_def]
      dsimp only
      rw [if_neg hne, if_neg hne, if_pos hpre, if_pos hpre]
      exact @bind_apply_eq_ok_iff (.fields (arg.drop 2)) _ _ _ ih
  | case5 hne hpre =>
      rw [parseArguments, itemsOf, if_neg hne, if_neg hne, if_neg hpre, if_neg hpre]
      simp only [↓reduceIte, reduceCtorEq, false_and, exists_const]
  | case6 text args hne hpre ih =>
      rw [parseArguments, itemsOf, if_neg hne, if_neg hne, if_neg hpre, if_neg hpre, if_pos rfl,
        if_pos rfl]
      exact @bind_apply_eq_ok_iff (.delimiter text) _ _ _ ih
  | case7 arg args hne hpre hne' hpre' ih =>
      rw [parseArguments.eq_def, itemsOf.eq_def]
      dsimp only
      rw [if_neg hne, if_neg hne, if_neg hpre, if_neg hpre, if_neg hne', if_neg hne',
        if_pos hpre', if_pos hpre']
      exact @bind_apply_eq_ok_iff (.delimiter (arg.drop 2)) _ _ _ ih
  | case8 arg args hne hpre hne' hpre' ih =>
      rw [parseArguments.eq_def, itemsOf.eq_def]
      dsimp only
      rw [if_neg hne, if_neg hne, if_neg hpre, if_neg hpre, if_neg hne', if_neg hne',
        if_neg hpre', if_neg hpre']
      exact @bind_apply_eq_ok_iff (.file arg) _ _ _ ih

end Arguments

section Output

theorem printLine_eq (config : Config) (line : Line) :
    printLine config line = cutLine config line.bytes ++ [10] := by
  have hlength : (line.bytes.splitOn config.delimiter).length < 2 ^ 64 := by
    have hle := length_splitOn_le config.delimiter line.bytes
    have hlt := line.length_lt
    omega
  rw [printLine, fieldValues_eq, printFields_eq hlength, cutLine]

theorem cutAndPrintOutput_readLines (config : Config) (input : Input) :
    cutAndPrintOutput config (readLines input) = cutText config input.text := by
  unfold cutAndPrintOutput readLines cutText
  rw [List.flatMap_map]
  simp only [printLine_eq]
  conv_rhs => rw [← List.attach_map_subtype_val (Lines.read 10 input.text), List.flatMap_map]

/-- There are numbers exactly if there is a field list. -/
theorem fields_optionsOf_eq_nil_iff {items : List Item} (hfits : ∀ item ∈ items, item.Fits) :
    (optionsOf defaults items).fields = [] ↔ ∀ text, Item.fields text ∉ items := by
  unfold optionsOf
  rw [List.nil_append, List.flatMap_eq_nil_iff]
  constructor
  · intro hall text hmem
    rcases hfits _ hmem with ⟨numbers, hlists⟩
    have hnumbers : extractFields text [] = some numbers :=
      extractFields_eq_some_iff.mpr ⟨numbers, hlists, rfl⟩
    have hnil := hall _ hmem
    rw [Item.numbers, hnumbers, Option.getD_some] at hnil
    rcases hlists with ⟨-, -, pieces, hne, -, hpieces⟩
    rw [hnil, List.forall₂_nil_right_iff] at hpieces
    exact hne hpieces
  · intro hnone item hmem
    cases item with
    | fields text => exact absurd hmem (hnone text)
    | delimiter text => rfl
    | file path => rfl

/-- The tool succeeds exactly if there are two arguments or more, which can be understood and have
    a field list among them, and there is a text to read. Then it prints the fields with the
    numbers of all lists, line by line. -/
theorem main_iff (programName : Text) (args : List Text) (files : Text → Option Input)
    (standardInput : Input) (output : Text) :
    main programName args files standardInput = some ⟨output, [], 0⟩ ↔
      2 ≤ args.length ∧ ∃ items input, itemsOf args = some items ∧ (∀ item ∈ items, item.Fits) ∧
        (∃ text, .fields text ∈ items) ∧
        inputOf (optionsOf defaults items).inputFile files standardInput = some input ∧
        output = cutText (optionsOf defaults items).toConfig input.text := by
  have hrun : main programName args files standardInput = some ⟨output, [], 0⟩ ↔
      run args files standardInput = .ok output := by
    unfold main
    cases run args files standardInput with
    | ok text => simp only [Option.some.injEq, Result.mk.injEq, and_self, and_true, Except.ok.injEq]
    | error failure => cases failure <;> simp [Failure.result]
  rw [hrun, run]
  by_cases hfew : args.length ≤ 1
  · rw [if_pos hfew]
    simp only [reduceCtorEq, exists_and_left, false_iff, not_and, not_exists, forall_exists_index]
    omega
  · rw [if_neg hfew, bind_eq_ok]
    constructor
    · rintro ⟨options, hoptions, hend⟩
      rcases (parseArguments_ok_iff args _ options).mp hoptions with ⟨items, hitems, hfits, rfl⟩
      split_ifs at hend with hnone
      rw [fields_optionsOf_eq_nil_iff hfits] at hnone
      push Not at hnone
      split at hend
      · cases hend
      · next input hinput =>
          injection hend with hend
          refine ⟨by omega, items, input, hitems, hfits, hnone, hinput, ?_⟩
          rw [← hend, cutAndPrintOutput_readLines]
    · rintro ⟨-, items, input, hitems, hfits, hsome, hinput, rfl⟩
      refine ⟨_, (parseArguments_ok_iff args _ _).mpr ⟨items, hitems, hfits, rfl⟩, ?_⟩
      have hne : (optionsOf defaults items).fields ≠ [] := by
        rw [Ne, fields_optionsOf_eq_nil_iff hfits]
        push Not
        exact hsome
      rw [if_neg hne, hinput]
      exact congrArg Except.ok (cutAndPrintOutput_readLines _ input)

end Output

section Composition

theorem fieldWithNumber_isSome {values : List Text} {number : UInt64} (hne : number ≠ 0)
    (hle : number.toNat ≤ values.length) : (fieldWithNumber values number).isSome = true := by
  have hpos : number.toNat ≠ 0 := fun h => hne (UInt64.toNat_inj.mp h)
  rw [fieldWithNumber, if_neg hne, List.getElem?_eq_getElem (by omega)]
  rfl

/-- If all elements have an image, the places stay the same. -/
theorem getElem?_filterMap {α β : Type} {f : α → Option β} {as : List α}
    (h : ∀ a ∈ as, (f a).isSome = true) (k : Nat) : (as.filterMap f)[k]? = (as[k]?).bind f := by
  induction as generalizing k with
  | nil => rfl
  | cons a as ih =>
      rw [List.forall_mem_cons] at h
      rcases Option.isSome_iff_exists.mp h.1 with ⟨b, hb⟩
      rw [List.filterMap_cons_some hb]
      cases k with
      | zero =>
          simp only [List.length_cons, Nat.zero_lt_succ, getElem?_pos, List.getElem_cons_zero,
            Option.bind_some, hb]
      | succ k => simpa only [List.getElem?_cons_succ] using ih h.2 k

theorem selectedFields_selectedFields {fields fields' : List UInt64} {values : List Text}
    (h : ∀ number ∈ fields, (fieldWithNumber values number).isSome = true) :
    selectedFields fields' (selectedFields fields values) =
      selectedFields (fields'.filterMap (numberAt fields)) values := by
  unfold selectedFields
  rw [List.filterMap_filterMap]
  refine List.filterMap_congr fun place _ => ?_
  unfold fieldWithNumber numberAt
  by_cases hzero : place = 0
  · rw [if_pos hzero, if_pos hzero]
    rfl
  · rw [if_neg hzero, if_neg hzero]
    exact getElem?_filterMap h _

variable {delimiter : UInt8} {fields fields' : List UInt64} {line : Text}

theorem splitOn_cutLine (hne : fields ≠ [])
    (h : ∀ number ∈ fields, (fieldWithNumber (line.splitOn delimiter) number).isSome = true) :
    (cutLine ⟨fields, delimiter⟩ line).splitOn delimiter =
      selectedFields fields (line.splitOn delimiter) := by
  refine List.splitOn_intercalate delimiter (fun value hvalue => ?_) ?_
  · rcases List.mem_filterMap.mp hvalue with ⟨number, -, hnumber⟩
    unfold fieldWithNumber at hnumber
    split at hnumber
    · cases hnumber
    · exact (of_mem_splitOn (List.mem_of_getElem? hnumber)).1
  · -- The first number has a field already.
    cases fields with
    | nil => exact absurd rfl hne
    | cons number rest =>
        rcases Option.isSome_iff_exists.mp (h number List.mem_cons_self) with ⟨value, hvalue⟩
        unfold selectedFields
        rw [List.filterMap_cons_some hvalue]
        exact List.cons_ne_nil _ _

theorem newline_notMem_cutLine (hdelimiter : delimiter ≠ 10) (hline : 10 ∉ line) :
    10 ∉ cutLine ⟨fields, delimiter⟩ line := by
  intro hmem
  rcases mem_intercalate hmem with hmem | ⟨value, hvalue, hmem⟩
  · exact hdelimiter (List.mem_singleton.mp hmem).symm
  · rcases List.mem_filterMap.mp hvalue with ⟨number, -, hnumber⟩
    unfold fieldWithNumber at hnumber
    split at hnumber
    · cases hnumber
    · exact hline ((of_mem_splitOn (List.mem_of_getElem? hnumber)).2 hmem)

/-- Selecting fields from what was selected is selecting once, if every line has all of the fields
    that are selected first: the numbers that come second are places in the first list. -/
theorem cut_cut {input output : Input} (hdelimiter : delimiter ≠ 10) (hne : fields ≠ [])
    (hfields : ∀ line ∈ Lines.read 10 input.text, ∀ number ∈ fields,
      number ≠ 0 ∧ number.toNat ≤ (line.splitOn delimiter).length)
    (houtput : output.text = cutAndPrintOutput ⟨fields, delimiter⟩ (readLines input)) :
    cutAndPrintOutput ⟨fields', delimiter⟩ (readLines output) =
      cutAndPrintOutput ⟨fields'.filterMap (numberAt fields), delimiter⟩ (readLines input) := by
  rw [cutAndPrintOutput_readLines] at houtput ⊢
  rw [cutAndPrintOutput_readLines, houtput]
  have hwritten : cutText ⟨fields, delimiter⟩ input.text =
      Lines.write 10 ((Lines.read 10 input.text).map (cutLine ⟨fields, delimiter⟩)) := by
    rw [cutText, Lines.write, List.flatMap_map]
  have hfree : ∀ line ∈ (Lines.read 10 input.text).map (cutLine ⟨fields, delimiter⟩),
      10 ∉ line := by
    intro line hline
    rcases List.mem_map.mp hline with ⟨line', hline', rfl⟩
    exact newline_notMem_cutLine hdelimiter (Lines.not_mem_of_mem_read hline')
  rw [hwritten, cutText, cutText, Lines.read_write hfree, List.flatMap_map]
  refine List.flatMap_congr fun line hline => ?_
  have hsome : ∀ number ∈ fields,
      (fieldWithNumber (line.splitOn delimiter) number).isSome = true := fun number hnumber =>
    fieldWithNumber_isSome (hfields line hline number hnumber).1
      (hfields line hline number hnumber).2
  have hcut : cutLine ⟨fields', delimiter⟩ (cutLine ⟨fields, delimiter⟩ line) =
      cutLine ⟨fields'.filterMap (numberAt fields), delimiter⟩ line := by
    rw [cutLine, splitOn_cutLine hne hsome, selectedFields_selectedFields hsome, cutLine]
  rw [hcut]

/-- Of the third and the first field of a line, the second one. -/
theorem cut_cut_three :
    cutAndPrintOutput ⟨[2], 44⟩ (readLines ⟨bytes "c,a\n", by decide⟩) =
      cutAndPrintOutput ⟨[2].filterMap (numberAt [3, 1]), 44⟩
        (readLines ⟨bytes "a,b,c\n", by decide⟩) := by
  have hread : Lines.read 10 (bytes "a,b,c\n") = [bytes "a,b,c"] := by decide
  refine cut_cut (by decide) (by decide) ?_ ?_
  · rw [hread, List.forall_mem_singleton, List.forall_mem_cons, List.forall_mem_singleton]
    decide
  · rw [cutAndPrintOutput_readLines]
    decide

end Composition

end CutTool

end CodingChallenges
