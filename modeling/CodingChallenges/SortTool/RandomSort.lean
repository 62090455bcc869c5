import CodingChallenges.SortTool.Vector
import Mathlib.Data.List.Duplicate
import Mathlib.Data.List.Sort
import Mathlib.Order.Defs.LinearOrder

/-!
# Random Sort

`random_sort` of `RandomSort.cpp`, and the loop of `main` that leaves out duplicates.

The lines are sorted by a hash of theirs that a random seed goes into. This puts equal
lines together, as they have equal hashes, and the loop that prints the lines only leaves
out a line that is equal to the one before it. But different lines may have equal hashes too:
whatever `std::hash` is, only 32 bits of it are left. Among such lines `std::sort` keeps no
order, so one of them may come between two copies of another.

What `std::hash` computes is a parameter, and of `std::sort` it is only known that the result
is a permutation in which no line is before one that compares as less.

## Main definitions

* `hashCombine`: What the lines are compared by.
* `StdSorted`, `RandomSorted`: What the sort may leave behind.
* `printUnique`: The loop that prints the lines.
* `EachOnce`: Every line is printed once.

## Theorems

* `nodup_printUnique`: Equal lines that lie together are printed once.
* `exists_printed_twice`: Where a line lies between two copies of another.
* `randomSort_unique_iff`: When every line is printed once.
-/

namespace CodingChallenges

namespace SortTool

section Algorithm

variable {α : Type}

/-- What `std::sort` may leave behind: the elements with equal keys are in any order. -/
structure StdSorted (less : α → α → Prop) (array result : List α) : Prop where
  perm : result.Perm array
  ordered : result.Pairwise fun a b => ¬ less b a

/-- The sum has 64 bits, but the variable that takes it has the 32 bits of a seed. -/
def hashCombine (hasher : Text → UInt64) (seed : UInt32) (input : Text) : UInt64 :=
  let sum := hasher input + (0x9e3779b9 : UInt64) + (seed <<< 6).toUInt64 + (seed >>> 2).toUInt64
  (seed.toUInt64 ^^^ sum).toUInt32.toUInt64

/-- The result of `std::sort` by the combined hashes. -/
def RandomSorted (hasher : Text → UInt64) (seed : UInt32) (array result : List Text) : Prop :=
  StdSorted (fun a b => hashCombine hasher seed a < hashCombine hasher seed b) array result

variable [DecidableEq α]

/-- A line is printed if it is not the one before it. -/
def printBehind (previous : α) : List α → List α
  | [] => []
  | line :: lines =>
    -- The line becomes the previous one whether it is printed or not.
    if line ≠ previous then line :: printBehind line lines else printBehind line lines

/-- What is printed with the option `-u`. Without lines `main` has returned before. -/
def printUnique : List α → List α
  | [] => []
  | line :: lines => line :: printBehind line lines

/-- Each of the lines is printed once, and nothing else. -/
def EachOnce (lines printed : List α) : Prop :=
  printed.Nodup ∧ ∀ line, line ∈ printed ↔ line ∈ lines

end Algorithm

section Printing

variable {α : Type} [DecidableEq α]

theorem printBehind_self (line : α) (lines : List α) :
    printBehind line (line :: lines) = printBehind line lines :=
  if_neg (not_not.mpr rfl)

theorem printBehind_of_ne {previous line : α} (lines : List α) (h : line ≠ previous) :
    printBehind previous (line :: lines) = printUnique (line :: lines) :=
  if_pos h

theorem mem_printBehind (previous line : α) (lines : List α) :
    line = previous ∨ line ∈ printBehind previous lines ↔ line = previous ∨ line ∈ lines := by
  induction lines generalizing previous with
  | nil => rfl
  | cons next lines ih =>
      rw [List.mem_cons, ← ih next]
      by_cases hnext : next = previous
      · rw [hnext, printBehind_self, or_self_left]
      · rw [printBehind_of_ne lines hnext, printUnique, List.mem_cons]

/-- Every line is printed, and nothing else. -/
theorem mem_printUnique (line : α) (lines : List α) : line ∈ printUnique lines ↔ line ∈ lines := by
  cases lines with
  | nil => rfl
  | cons first lines =>
      rw [printUnique, List.mem_cons, List.mem_cons]
      exact mem_printBehind first line lines

/-- Behind a line the loop goes on from it, and the line itself has been printed. -/
theorem printBehind_append (previous line : α) (front back : List α) :
    ∃ printed, printBehind previous (front ++ line :: back) = printed ++ printBehind line back ∧
      line ∈ previous :: printed := by
  induction front generalizing previous with
  | nil =>
      rw [List.nil_append]
      by_cases hline : line = previous
      · refine ⟨[], ?_, List.mem_cons.mpr (Or.inl hline)⟩
        rw [hline, printBehind_self, List.nil_append]
      · refine ⟨[line], ?_, List.mem_cons_of_mem _ List.mem_cons_self⟩
        rw [printBehind_of_ne back hline]
        rfl
  | cons next front ih =>
      rcases ih next with ⟨printed, hprinted, hmem⟩
      rw [List.cons_append]
      by_cases hnext : next = previous
      · subst hnext
        rw [printBehind_self]
        exact ⟨printed, hprinted, hmem⟩
      · rw [printBehind_of_ne _ hnext, printUnique, hprinted]
        exact ⟨next :: printed, rfl, List.mem_cons_of_mem _ hmem⟩

/-- A line between two copies of another has both of them printed. -/
theorem not_nodup_printUnique {x y : α} (front back : List α) (hne : y ≠ x) :
    ¬ (printUnique (front ++ x :: y :: x :: back)).Nodup := by
  have hbehind : x ∈ printBehind x (y :: x :: back) := by
    rw [printBehind_of_ne _ hne, printUnique, printBehind_of_ne _ hne.symm, printUnique]
    exact List.mem_cons_of_mem _ List.mem_cons_self
  intro hnodup
  -- The first copy is printed, as a line in front of it or itself, and the second one behind it.
  cases front with
  | nil => exact (List.nodup_cons.mp hnodup).1 hbehind
  | cons first front =>
      rcases printBehind_append first x front (y :: x :: back) with ⟨printed, hprinted, hmem⟩
      rw [List.cons_append, printUnique, hprinted, ← List.cons_append] at hnodup
      exact (List.nodup_append.mp hnodup).2.2 x hmem x hbehind rfl

end Printing

section Sorting

variable {α κ : Type} {key : α → κ}

/-- No line has the key of one of which there are copies. -/
def Together (key : α → κ) (lines : List α) : Prop :=
  ∀ x, List.Duplicate x lines → ∀ y ∈ lines, key y = key x → y = x

theorem Together.tail {line : α} {lines : List α} (h : Together key (line :: lines)) :
    Together key lines := by
  intro x hx y hy hkey
  exact h x (hx.duplicate_cons line) y (List.mem_cons_of_mem _ hy) hkey

variable [DecidableEq α]

theorem Together.perm {lines lines' : List α} (h : Together key lines) (hperm : lines'.Perm lines) :
    Together key lines' := by
  intro x hx y hy hkey
  rw [List.duplicate_iff_two_le_count, hperm.count_eq, ← List.duplicate_iff_two_le_count] at hx
  exact h x hx y (hperm.mem_iff.mp hy) hkey

/-- Two copies of a line and another line, taken out. -/
theorem exists_rest {lines : List α} {x y : α} (hx : List.Duplicate x lines) (hy : y ∈ lines)
    (hne : y ≠ x) : ∃ rest, lines.Perm (x :: y :: x :: rest) := by
  have hcount := List.duplicate_iff_two_le_count.mp hx
  have hx' : x ∈ lines.erase x := by
    rw [← List.count_pos_iff, List.count_erase_self]
    omega
  have hy' : y ∈ (lines.erase x).erase x :=
    (List.mem_erase_of_ne hne).mpr ((List.mem_erase_of_ne hne).mpr hy)
  have hrest := (List.perm_cons_erase hx').trans ((List.perm_cons_erase hy').cons x)
  refine ⟨((lines.erase x).erase x).erase y, ?_⟩
  exact (List.perm_cons_erase hx.mem).trans ((hrest.trans (List.Perm.swap y x _)).cons x)

variable [LinearOrder κ]

omit [DecidableEq α] in
theorem exists_sorted (key : α → κ) (lines : List α) :
    ∃ result : List α, result.Perm lines ∧ result.Pairwise fun a b => key a ≤ key b := by
  have htrans : ∀ a b c, decide (key a ≤ key b) = true → decide (key b ≤ key c) = true →
      decide (key a ≤ key c) = true := by
    intro a b c hab hbc
    exact decide_eq_true (le_trans (of_decide_eq_true hab) (of_decide_eq_true hbc))
  have htotal : ∀ a b, (decide (key a ≤ key b) || decide (key b ≤ key a)) = true := by
    intro a b
    rw [Bool.or_eq_true, decide_eq_true_iff, decide_eq_true_iff]
    exact le_total (key a) (key b)
  have hsorted := List.pairwise_mergeSort htrans htotal lines
  exact ⟨_, List.mergeSort_perm lines _, hsorted.imp of_decide_eq_true⟩

/-- Copies that lie together are printed once. -/
theorem nodup_printUnique {lines : List α} (hsorted : lines.Pairwise fun a b => key a ≤ key b)
    (h : Together key lines) : (printUnique lines).Nodup := by
  -- The first line is compared with the one behind it only, so their order has to do the rest.
  induction lines with
  | nil => exact List.nodup_nil
  | cons x lines ih =>
      rw [List.pairwise_cons] at hsorted
      have hrest := ih hsorted.2 h.tail
      cases lines with
      | nil => exact List.nodup_singleton x
      | cons y lines =>
          by_cases hsame : y = x
          · rw [printUnique, hsame, printBehind_self]
            rw [hsame] at hrest
            exact hrest
          · rw [printUnique, printBehind_of_ne lines hsame, List.nodup_cons]
            refine ⟨fun hmem => hsame ?_, hrest⟩
            -- A second copy of the line comes behind the next one, so all have one key.
            have hagain := (mem_printUnique x _).mp hmem
            have hbehind : x ∈ lines := (List.mem_cons.mp hagain).resolve_left (Ne.symm hsame)
            have hle := hsorted.1 y List.mem_cons_self
            have hge := (List.pairwise_cons.mp hsorted.2).1 x hbehind
            exact h x hagain.duplicate_cons_self y (List.mem_cons_of_mem _ List.mem_cons_self)
              (le_antisymm hge hle)

/-- Otherwise there is an order in which they do not. -/
theorem exists_printed_twice {lines : List α} (h : ¬ Together key lines) :
    ∃ result, StdSorted (fun a b => key a < key b) lines result ∧ ¬ (printUnique result).Nodup := by
  unfold Together at h
  push Not at h
  rcases h with ⟨x, hx, y, hy, hkey, hne⟩
  -- Two copies of the one line and the other are taken out and put between the rest.
  rcases exists_rest hx hy hne with ⟨rest, hrest⟩
  rcases exists_sorted key (rest.filter (key · < key x)) with ⟨low, hlow, hlowSorted⟩
  rcases exists_sorted key (rest.filter fun a => !decide (key a < key x)) with
    ⟨high, hhigh, hhighSorted⟩
  have hbelow : ∀ a ∈ low, key a < key x := by
    intro a ha
    exact of_decide_eq_true (List.mem_filter.mp (hlow.mem_iff.mp ha)).2
  have habove : ∀ a ∈ high, key x ≤ key a := by
    intro a ha
    have hmem := (List.mem_filter.mp (hhigh.mem_iff.mp ha)).2
    rw [Bool.not_eq_true', decide_eq_false_iff_not] at hmem
    exact le_of_not_gt hmem
  have hmiddle : ∀ a ∈ x :: y :: x :: high, key x ≤ key a := by
    intro a ha
    simp only [List.mem_cons] at ha
    rcases ha with rfl | rfl | rfl | ha
    · exact le_refl _
    · exact le_of_eq hkey.symm
    · exact le_refl _
    · exact habove a ha
  refine ⟨low ++ x :: y :: x :: high, ⟨?_, ?_⟩, not_nodup_printUnique low high hne⟩
  · have hsplit := (hlow.append hhigh).trans (List.filter_append_perm _ rest)
    have hfront := List.perm_append_comm_assoc low [x, y, x] high
    exact hfront.trans ((hsplit.append_left [x, y, x]).trans hrest.symm)
  · simp only [not_lt]
    refine List.pairwise_append.mpr ⟨hlowSorted, ?_, fun a ha b hb =>
      le_trans (le_of_lt (hbelow a ha)) (hmiddle b hb)⟩
    simp only [List.pairwise_cons]
    refine ⟨fun a ha => hmiddle a (List.mem_cons_of_mem _ ha), ?_, habove, hhighSorted⟩
    intro a ha
    rw [hkey]
    exact hmiddle a (List.mem_cons_of_mem _ (List.mem_cons_of_mem _ ha))

end Sorting

/-- Whatever the hash and the seed are: every line is printed once in every order that the
    sort may leave behind exactly if no line of which there are copies has the hash of
    another. -/
theorem randomSort_unique_iff (hasher : Text → UInt64) (seed : UInt32) (lines : List Text) :
    (∀ result, RandomSorted hasher seed lines result → EachOnce lines (printUnique result)) ↔
      ∀ x, List.Duplicate x lines → ∀ y ∈ lines,
        hashCombine hasher seed y = hashCombine hasher seed x → y = x := by
  have hcondition : Together (fun line => (hashCombine hasher seed line).toNat) lines ↔
      ∀ x, List.Duplicate x lines → ∀ y ∈ lines,
        hashCombine hasher seed y = hashCombine hasher seed x → y = x := by
    simp only [Together, UInt64.toNat_inj]
  simp only [← hcondition, RandomSorted, UInt64.lt_iff_toNat_lt]
  constructor
  · intro h
    by_contra hnot
    -- Two lines with one hash are put in the order that prints one of them twice.
    rcases exists_printed_twice hnot with ⟨result, hsorted, htwice⟩
    exact htwice (h result hsorted).1
  · intro h result hsorted
    refine ⟨nodup_printUnique (hsorted.ordered.imp le_of_not_gt) (h.perm hsorted.perm), ?_⟩
    intro line
    rw [mem_printUnique, hsorted.perm.mem_iff]

/-- The values of `std::hash` for `bxtr` and for `ehna`, which end in the same 32 bits. -/
def collidingHash (line : Text) : UInt64 :=
  if line = [98, 120, 116, 114] then 0x48c39fa5a24ceaa5 else 0xfd7ee762a24ceaa5

/-- `bxtr` is printed twice if the lines stay as they were. -/
theorem not_randomSort_unique :
    ¬ ∀ (hasher : Text → UInt64) (seed : UInt32) (lines result : List Text),
      RandomSorted hasher seed lines result → EachOnce lines (printUnique result) := by
  intro h
  have honce := h collidingHash 0
    [[98, 120, 116, 114], [101, 104, 110, 97], [98, 120, 116, 114]]
    [[98, 120, 116, 114], [101, 104, 110, 97], [98, 120, 116, 114]]
    ⟨List.Perm.refl _, by decide⟩
  exact absurd honce.1 (by decide)

end SortTool

end CodingChallenges
