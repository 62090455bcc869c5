import CodingChallenges.Library.Bytes
import CodingChallenges.Library.Lines
import CodingChallenges.SortTool.HeapSort
import CodingChallenges.SortTool.MergeSort
import CodingChallenges.SortTool.QuickSort
import CodingChallenges.SortTool.RadixSort
import CodingChallenges.SortTool.RandomSort
import CodingChallenges.UniqTool.Uniq
import Mathlib.Data.List.Dedup
import Mathlib.Data.List.Destutter

/-!
# The Sort Tool

`parse_arguments`, `read_lines`, `read_input` and `main` of `sort.cpp`.

Which of the algorithms sorts the lines makes no difference to what is printed: there is only
one order that the strings can be in (`main_sorts`). The random sort is left out there, and so are
lines with the byte 255 for the radix sort, which does not stay within its vectors then.

The option `-u` leaves out a line that is equal to the one before it. So the tool prints what the
uniq tool makes of its output without the option, whatever the algorithm has done with the lines
(`main_unique`).

## Main definitions

* `SortAlgorithm`, `Options`, `parseArguments`: The arguments.
* `readInput`: The lines.
* `sortLines`, `main`: What is done with them.

## Theorems

* `sortLines_returns`: All algorithms put the lines in the same order.
* `main_sorts`: What is printed.
* `main_unique`: What the option `-u` does.
-/

namespace CodingChallenges

namespace SortTool

/-- The algorithms that can be chosen. -/
inductive SortAlgorithm where
  | quickSort
  | radixSort
  | mergeSort
  | heapSort
  | randomSort
deriving DecidableEq, Repr

/-- The name that is printed. -/
def sortAlgoToString : SortAlgorithm → Text
  | .quickSort => bytes "QUICK SORT"
  | .radixSort => bytes "MSD RADIX SORT"
  | .mergeSort => bytes "MERGE SORT"
  | .heapSort => bytes "HEAP SORT"
  | .randomSort => bytes "RANDOM SORT"

/-- The options. An empty path stands for the standard input. -/
structure Options where
  isUnique : Bool := false
  sortType : SortAlgorithm := .quickSort
  filePath : Text := []
deriving DecidableEq, Repr

/-- What is printed of the options on the standard error stream. -/
def Options.text (options : Options) : Text :=
  bytes "Is unique: " ++ (if options.isUnique then bytes "true" else bytes "false") ++ [10] ++
    bytes "Sort algorithm: " ++ sortAlgoToString options.sortType ++ [10] ++
    bytes "File path: " ++ options.filePath

/-- The text of `print_usage`. -/
def usage (programName : Text) : Text :=
  bytes "Usage: " ++ programName ++ bytes " [OPTIONS] [FILE]\n" ++
    bytes "\n\n -u\tOutput unique values (removes duplicates)\n" ++
    bytes " -q\tUse Quick Sort. This is default.\n" ++
    bytes " -r\tUse MSD Radix Sort\n" ++
    bytes " -m\tUse Merge Sort\n" ++
    bytes " -h\tUse Heap Sort\n" ++
    bytes " -R\tUse Random Sort\n" ++
    bytes " FILE\tFile from where input strings are to be read. Expects one string per line. If " ++
    bytes "absent, takes input from stdin.\n"

/-- One round of the loop over the arguments. -/
def parseArgument (options : Options) (arg : Text) : Options :=
  if arg = bytes "-u" then { options with isUnique := true }
  else if arg = bytes "-q" then { options with sortType := .quickSort }
  else if arg = bytes "-r" then { options with sortType := .radixSort }
  else if arg = bytes "-m" then { options with sortType := .mergeSort }
  else if arg = bytes "-h" then { options with sortType := .heapSort }
  else if arg = bytes "-R" then { options with sortType := .randomSort }
  else { options with filePath := arg }

/-- The arguments, from the left to the right. -/
def parseArguments (args : List Text) : Options :=
  args.foldl parseArgument {}

/-- The lines of the input. There are none in a file that cannot be opened. -/
def readInput (options : Options) (file : Text → Option Text) (standardInput : Text) :
    List Text :=
  if options.filePath = [] then Lines.read 10 standardInput
  else
    match file options.filePath with
    | none => []
    | some text => Lines.read 10 text

/-- The algorithm that is asked for. What the random sort leaves behind is a parameter. -/
def sortLines (random : List Text → List Text) (fuel : Nat) :
    SortAlgorithm → List Text → Except Fault (List Text)
  | .heapSort, lines => heapSort fuel lines
  | .mergeSort, lines => mergeSort id fuel lines
  | .quickSort, lines => quickSort fuel lines
  | .radixSort, lines => radixSort fuel lines
  | .randomSort, lines => .ok (random lines)

/-- The lines that are printed. -/
def printed (options : Options) (lines : List Text) : List Text :=
  if options.isUnique then printUnique lines else lines

/-- What the program leaves behind. -/
structure Result where
  exitCode : Nat
  output : Text
  errors : Text
deriving DecidableEq, Repr

/-- `main`: without an argument it prints the usage. -/
def main (random : List Text → List Text) (fuel : Nat) (programName : Text) (args : List Text)
    (file : Text → Option Text) (standardInput : Text) : Except Fault Result :=
  if args = [] then
    return ⟨1, usage programName, []⟩
  else
    let options := parseArguments args
    let lines := readInput options file standardInput
    if lines = [] then
      return ⟨1, [],
        options.text ++ [10] ++ bytes "Error reading file: " ++ options.filePath ++ [10]⟩
    else do
      let sorted ← sortLines random fuel options.sortType lines
      return ⟨0, Lines.write 10 (printed options sorted), options.text ++ [10]⟩

section Orders

/-- The lines in their order. -/
def inOrder (lines : List Text) : List Text :=
  lines.mergeSort (atMost id)

theorem pairwise_inOrder (lines : List Text) : (inOrder lines).Pairwise (· ≤ ·) :=
  (List.pairwise_mergeSort atMost_trans atMost_total lines).imp of_decide_eq_true

/-- There is only one order that the lines can be in. -/
theorem eq_inOrder {result lines : List Text} (hperm : result.Perm lines)
    (hsorted : result.Pairwise (· ≤ ·)) : result = inOrder lines :=
  (hperm.trans (List.mergeSort_perm lines _).symm).eq_of_pairwise
    (fun _ _ _ _ => le_antisymm) hsorted (pairwise_inOrder lines)

/-- The lines that the algorithm can sort. -/
def Sortable (algorithm : SortAlgorithm) (lines : List Text) : Prop :=
  match algorithm with
  | .quickSort => lines.length < 2 ^ 31
  | .mergeSort => lines.length < 2 ^ 31
  | .heapSort => True
  | .radixSort => lines.length < 2 ^ 32 ∧ ∀ line ∈ lines, 255 ∉ line
  | .randomSort => False

section Algorithms

variable {lines : List Text}

theorem quickSort_inOrder (h : lines.length < 2 ^ 31) :
    Returns (fun fuel => quickSort fuel lines) (inOrder lines) := by
  rcases @quickSortRange_returns Text _ lines 0 lines.length (Nat.le_refl _) (Or.inl h) with
    ⟨result, hreturns, hrearranged, hsorted⟩
  rw [← hrearranged.length_eq] at hsorted
  rw [← eq_inOrder hrearranged.perm hsorted.pairwise]
  refine hreturns.congr fun fuel => ?_
  rw [quickSort, toInt_eq (by omega) (by omega)]
  rfl

theorem mergeSort_inOrder (h : lines.length < 2 ^ 31) :
    Returns (fun fuel => mergeSort id fuel lines) (inOrder lines) := by
  rcases @mergeSortRange_returns Text Text _ id lines _ 0 lines.length (Nat.le_refl _)
    (List.length_replicate (n := lines.length) (a := default)) with
    ⟨result, auxiliary, hreturns, -, hsorted⟩
  have hresult : result = inOrder lines := by
    have hall := hsorted.sorted
    rwa [segment_zero_length, ← hsorted.length, segment_zero_length] at hall
  rw [← hresult]
  refine (hreturns.andThen (f := fun s => .ok s.1) rfl).congr fun fuel => ?_
  rw [mergeSort, toInt_eq (by omega) (by omega)]
  rfl

theorem heapSort_inOrder : Returns (fun fuel => heapSort fuel lines) (inOrder lines) := by
  have hleaves : HeapFrom (lines.length / 2 + 1) lines.length lines := by
    intro c hc hle
    omega
  rcases buildHeap_returns rfl hleaves with ⟨heap, hbuild, hperm, hheap⟩
  have hlength := hperm.length_eq
  have hnone : SortedFrom lines.length heap := by
    intro i j hlt hj x hx y hy
    rw [List.getElem?_eq_none (by omega)] at hy
    cases hy
  rcases extract_returns (by omega) hheap hnone with ⟨result, hextract, hperm', hsorted⟩
  have hrange : result.Pairwise (· ≤ ·) :=
    SortedRange.pairwise fun i j _ hlt _ x hx y hy => hsorted i j hlt (by omega) x hx y hy
  rw [← eq_inOrder (hperm'.trans hperm) hrange]
  exact hbuild.bind hextract

theorem radixSort_inOrder (hne : lines ≠ []) (hlength : lines.length < 2 ^ 32)
    (hbytes : ∀ line ∈ lines, 255 ∉ line) :
    Returns (fun fuel => radixSort fuel lines) (inOrder lines) := by
  have hbounds : InBounds lines := by
    intro fuel hfault
    have hends := radixSort_ends hne fuel
    rw [hfault] at hends
    cases hends with
    | outOfRange hmember hlast =>
        rcases List.mem_cons.mp hmember with rfl | hmember
        · exact absurd hlast List.not_mem_nil
        · exact hbytes _ hmember hlast
  rcases radixSort_eq_ok hne hlength hbounds with ⟨n, hn⟩
  refine ⟨n, fun fuel hfuel => ?_⟩
  rcases hn fuel hfuel with ⟨result, hresult, -, hperm, hsorted⟩
  rw [← eq_inOrder hperm hsorted]
  exact hresult

end Algorithms

/-- All algorithms put the lines in the same order. -/
theorem sortLines_returns (random : List Text → List Text) {algorithm : SortAlgorithm}
    {lines : List Text} (hne : lines ≠ []) (h : Sortable algorithm lines) :
    Returns (fun fuel => sortLines random fuel algorithm lines) (inOrder lines) := by
  cases algorithm with
  | quickSort => exact quickSort_inOrder h
  | mergeSort => exact mergeSort_inOrder h
  | heapSort => exact heapSort_inOrder
  | radixSort => exact radixSort_inOrder hne h.1 h.2
  | randomSort => exact absurd h not_false

end Orders

section Printing

/-- The loop that prints the lines leaves out the one that is equal to the one before it. -/
theorem printBehind_eq (previous : Text) (lines : List Text) :
    previous :: printBehind previous lines = lines.destutter' (· ≠ ·) previous := by
  induction lines generalizing previous with
  | nil => rfl
  | cons line lines ih =>
      by_cases hsame : line = previous
      · subst hsame
        rw [printBehind_self, ih, List.destutter'_cons_neg _ (not_not.mpr rfl)]
      · rw [printBehind_of_ne lines hsame, printUnique, ih,
          List.destutter'_cons_pos _ (Ne.symm hsame)]

theorem printUnique_eq (lines : List Text) : printUnique lines = lines.destutter (· ≠ ·) := by
  cases lines with
  | nil => rfl
  | cons line lines => exact printBehind_eq line lines

/-- Of lines in order each is printed once. -/
theorem printUnique_inOrder (lines : List Text) :
    printUnique (inOrder lines) = inOrder lines.dedup := by
  have hsorted := pairwise_inOrder lines
  have htogether : Together id (inOrder lines) := fun x _ y _ hkey => hkey
  have hnodup : (printUnique (inOrder lines)).Nodup := nodup_printUnique hsorted htogether
  have hmem : ∀ line, line ∈ printUnique (inOrder lines) ↔ line ∈ lines.dedup := by
    intro line
    rw [mem_printUnique, inOrder, List.mem_mergeSort, List.mem_dedup]
  refine eq_inOrder ((List.perm_ext_iff_of_nodup hnodup lines.nodup_dedup).mpr hmem) ?_
  rw [printUnique_eq]
  exact hsorted.sublist (List.destutter_sublist _ _)

end Printing

/-- The lines that the tool reads. -/
def linesOf (args : List Text) (file : Text → Option Text) (standardInput : Text) : List Text :=
  readInput (parseArguments args) file standardInput

theorem not_mem_readInput {options : Options} {file : Text → Option Text}
    {standardInput line : Text} (h : line ∈ readInput options file standardInput) : 10 ∉ line := by
  unfold readInput at h
  split at h
  · exact Lines.not_mem_of_mem_read h
  · split at h
    · cases h
    · exact Lines.not_mem_of_mem_read h

/-- Without lines nothing is printed. -/
theorem main_of_nil (random : List Text → List Text) (programName : Text) {args : List Text}
    {file : Text → Option Text} {standardInput : Text} (hargs : args ≠ [])
    (hnil : linesOf args file standardInput = []) :
    Returns (fun fuel => main random fuel programName args file standardInput)
      ⟨1, [], (parseArguments args).text ++ [10] ++ bytes "Error reading file: " ++
        (parseArguments args).filePath ++ [10]⟩ := by
  refine (returns_ok _).congr fun fuel => ?_
  rw [main, if_neg hargs]
  simp only [linesOf] at hnil ⊢
  rw [if_pos hnil]
  rfl

theorem main_returns (random : List Text → List Text) (programName : Text) {args : List Text}
    {file : Text → Option Text} {standardInput : Text} {sorted : List Text} (hargs : args ≠ [])
    (hne : linesOf args file standardInput ≠ [])
    (hsorts : Returns (fun fuel => sortLines random fuel (parseArguments args).sortType
      (linesOf args file standardInput)) sorted) :
    Returns (fun fuel => main random fuel programName args file standardInput)
      ⟨0, Lines.write 10 (printed (parseArguments args) sorted),
        (parseArguments args).text ++ [10]⟩ := by
  refine (hsorts.andThen (f := fun sorted => .ok (⟨0, Lines.write 10
    (printed (parseArguments args) sorted), (parseArguments args).text ++ [10]⟩ : Result))
      rfl).congr fun fuel => ?_
  rw [main, if_neg hargs]
  simp only [linesOf] at hne ⊢
  rw [if_neg hne]
  rfl

/-- What is printed are the lines in their order, with the option `-u` each of them once. -/
theorem main_sorts (random : List Text → List Text) (programName : Text) {args : List Text}
    {file : Text → Option Text} {standardInput : Text} (hargs : args ≠ [])
    (hne : linesOf args file standardInput ≠ [])
    (h : Sortable (parseArguments args).sortType (linesOf args file standardInput)) :
    Returns (fun fuel => main random fuel programName args file standardInput)
      ⟨0, Lines.write 10 (inOrder
        (if (parseArguments args).isUnique then (linesOf args file standardInput).dedup
        else linesOf args file standardInput)), (parseArguments args).text ++ [10]⟩ := by
  have hprinted : printed (parseArguments args) (inOrder (linesOf args file standardInput)) =
      inOrder (if (parseArguments args).isUnique then (linesOf args file standardInput).dedup
        else linesOf args file standardInput) := by
    unfold printed
    split_ifs
    · exact printUnique_inOrder _
    · rfl
  rw [← hprinted]
  exact main_returns random programName hargs hne (sortLines_returns random hne h)

theorem main_sorts_three :
    Returns (fun fuel => main id fuel (bytes "sort") [bytes "-m", bytes "-u"] (fun _ => none)
      (bytes "b\na\nb\n"))
      ⟨0, Lines.write 10 (inOrder [bytes "a", bytes "b"]),
        (parseArguments [bytes "-m", bytes "-u"]).text ++ [10]⟩ :=
  @main_sorts id (bytes "sort") [bytes "-m", bytes "-u"] (fun _ => none) _ (by decide) (by decide)
    (show (linesOf [bytes "-m", bytes "-u"] (fun _ => none) (bytes "b\na\nb\n")).length < 2 ^ 31 by
      decide)

section Unique

theorem parseArguments_unique (options : Options) (args : List Text) :
    args.foldl parseArgument { options with isUnique := true } =
      { args.foldl parseArgument options with isUnique := true } := by
  induction args generalizing options with
  | nil => rfl
  | cons arg args ih =>
      have hstep : parseArgument { options with isUnique := true } arg =
          { parseArgument options arg with isUnique := true } := by
        unfold parseArgument
        split_ifs <;> rfl
      rw [List.foldl_cons, List.foldl_cons, hstep, ih]

/-- The option `-u` may stand anywhere. -/
theorem parseArguments_insert (front back : List Text) :
    parseArguments (front ++ bytes "-u" :: back) =
      { parseArguments (front ++ back) with isUnique := true } := by
  unfold parseArguments
  rw [List.foldl_append, List.foldl_append, List.foldl_cons]
  exact parseArguments_unique _ back

/-- The lines that are printed with the option, and what the uniq tool makes of the others. -/
theorem write_printUnique {options : Options} {lines : List Text}
    (hfree : ∀ line ∈ lines, 10 ∉ line) :
    Lines.write 10 (printUnique lines) =
      (UniqTool.processLines {} (Lines.write 10 (printed options lines))).output := by
  have hfree' : ∀ line ∈ printed options lines, 10 ∉ line := by
    intro line hline
    unfold printed at hline
    split_ifs at hline
    · exact hfree line ((mem_printUnique line lines).mp hline)
    · exact hfree line hline
  have hagain : (printed options lines).destutter (· ≠ ·) = lines.destutter (· ≠ ·) := by
    unfold printed
    split_ifs
    · rw [printUnique_eq, List.destutter_idem]
    · rfl
  rw [UniqTool.processLines_plain rfl rfl rfl, Lines.read_write hfree', hagain, printUnique_eq]

theorem linesOf_insert (front back : List Text) (file : Text → Option Text)
    (standardInput : Text) :
    linesOf (front ++ bytes "-u" :: back) file standardInput =
      linesOf (front ++ back) file standardInput := by
  rw [linesOf, parseArguments_insert]
  rfl

/-- The algorithm leaves the lines behind in some order. -/
theorem exists_sorted_lines {random : List Text → List Text} {algorithm : SortAlgorithm}
    {lines : List Text} (hrandom : ∀ lines, (random lines).Perm lines) (hne : lines ≠ [])
    (h : algorithm = .randomSort ∨ Sortable algorithm lines) :
    ∃ sorted, Returns (fun fuel => sortLines random fuel algorithm lines) sorted ∧
      sorted.Perm lines := by
  rcases h with rfl | h
  · exact ⟨random lines, returns_ok _, hrandom lines⟩
  · exact ⟨inOrder lines, sortLines_returns random hne h, List.mergeSort_perm lines _⟩

/-- With the option `-u` anywhere among the arguments, the tool prints what the uniq tool makes of
    its output without it. -/
theorem main_unique {random : List Text → List Text} (hrandom : ∀ lines, (random lines).Perm lines)
    (programName : Text) {front back : List Text} {file : Text → Option Text}
    {standardInput : Text} (hargs : front ++ back ≠ [])
    (h : (parseArguments (front ++ back)).sortType = .randomSort ∨
      Sortable (parseArguments (front ++ back)).sortType
        (linesOf (front ++ back) file standardInput)) :
    ∃ plain unique,
      Returns (fun fuel => main random fuel programName (front ++ back) file standardInput) plain ∧
        Returns (fun fuel => main random fuel programName (front ++ bytes "-u" :: back) file
          standardInput) unique ∧
        unique.output = (UniqTool.processLines {} plain.output).output := by
  have hargs' : front ++ bytes "-u" :: back ≠ [] := by simp
  have hlines := linesOf_insert front back file standardInput
  by_cases hne : linesOf (front ++ back) file standardInput = []
  · have hempty := main_of_nil random programName hargs hne
    have hempty' := main_of_nil random programName hargs' (hlines.trans hne)
    exact ⟨_, _, hempty, hempty', rfl⟩
  · rcases exists_sorted_lines hrandom hne h with ⟨sorted, hreturns, hperm⟩
    have hfree : ∀ line ∈ sorted, 10 ∉ line := by
      intro line hline
      have hmem : line ∈ readInput (parseArguments (front ++ back)) file standardInput :=
        hperm.mem_iff.mp hline
      exact not_mem_readInput hmem
    have hreturns' : Returns (fun fuel => sortLines random fuel
        (parseArguments (front ++ bytes "-u" :: back)).sortType
          (linesOf (front ++ bytes "-u" :: back) file standardInput)) sorted := by
      rw [hlines, parseArguments_insert]
      exact hreturns
    refine ⟨_, _, main_returns random programName hargs hne hreturns,
      main_returns random programName hargs' (by rw [hlines]; exact hne) hreturns', ?_⟩
    rw [parseArguments_insert]
    exact write_printUnique hfree

/-- The heap sort, and the option behind it. -/
theorem main_unique_three :
    ∃ plain unique,
      Returns (fun fuel => main id fuel (bytes "sort") [bytes "-h"] (fun _ => none)
        (bytes "b\na\nb\n")) plain ∧
        Returns (fun fuel => main id fuel (bytes "sort") [bytes "-h", bytes "-u"] (fun _ => none)
          (bytes "b\na\nb\n")) unique ∧
        unique.output = (UniqTool.processLines {} plain.output).output :=
  @main_unique id (fun lines => List.Perm.refl lines) (bytes "sort") [bytes "-h"] [] (fun _ => none)
    (bytes "b\na\nb\n") (by decide) (Or.inr trivial)

end Unique

end SortTool

end CodingChallenges
