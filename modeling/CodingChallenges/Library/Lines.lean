import Mathlib.Data.List.SplitBy

/-!
# Lines

A text as a list of lines, each of which ends in a newline.

A reader that asks for one line after the other does not see whether the last one has a
newline behind it. So the lines that are written to a text are read again, but a text that
is read and written again may have one newline more than before.

Equal lines that stand together are a run. The runs are the groups of `List.splitBy`.

## Main definitions

* `Lines.readFrom`, `Lines.read`: The lines that a reader gets.
* `Lines.write`: A newline behind every line.

## Theorems

* `Lines.read_write`: Lines that are written are read again.
* `Lines.not_mem_of_mem_read`, `Lines.length_le_of_mem_read`: No line has a newline in it, or is
  longer than the text.
* `splitBy_replicate_cons`: The first run ends where another element comes.
* `eq_replicate_of_mem_splitBy`: A run has one element, as often as it is long.
-/

namespace CodingChallenges

namespace Lines

variable {α : Type} [DecidableEq α] {newline : α}

/-- The lines from here on, given what the current one has so far. A last line need not end in a
    newline, but it is not empty. -/
def readFrom (newline : α) : List α → List α → List (List α)
  | line, [] => if line = [] then [] else [line]
  | line, c :: rest =>
    if c = newline then line :: readFrom newline [] rest
    else readFrom newline (line ++ [c]) rest

/-- The lines of a text. -/
def read (newline : α) (text : List α) : List (List α) :=
  readFrom newline [] text

/-- The text of some lines. -/
def write (newline : α) (lines : List (List α)) : List α :=
  lines.flatMap fun line => line ++ [newline]

/-- A line is read up to its newline. -/
theorem readFrom_append_cons {front : List α} (h : newline ∉ front) (line rest : List α) :
    readFrom newline line (front ++ newline :: rest) = (line ++ front) :: read newline rest := by
  induction front generalizing line with
  | nil => simp only [List.nil_append, readFrom, ↓reduceIte, List.append_nil, read]
  | cons c front ih =>
      rw [List.mem_cons, not_or] at h
      rw [List.cons_append, readFrom, if_neg (Ne.symm h.1), ih h.2, List.append_assoc,
        List.singleton_append]

theorem read_write {lines : List (List α)} (h : ∀ line ∈ lines, newline ∉ line) :
    read newline (write newline lines) = lines := by
  induction lines with
  | nil => rfl
  | cons line lines ih =>
      rw [List.forall_mem_cons] at h
      have hcons : write newline (line :: lines) = line ++ newline :: write newline lines := by
        simp only [write, List.flatMap_cons, List.append_assoc, List.cons_append, List.nil_append]
      rw [hcons, read, readFrom_append_cons h.1, ih h.2, List.nil_append]

theorem not_mem_of_mem_readFrom {line rest line' : List α} (h : newline ∉ line)
    (hmem : line' ∈ readFrom newline line rest) : newline ∉ line' := by
  induction rest generalizing line with
  | nil =>
      rw [readFrom] at hmem
      split at hmem
      · cases hmem
      · rw [List.mem_singleton.mp hmem]
        exact h
  | cons c rest ih =>
      rw [readFrom] at hmem
      by_cases hc : c = newline
      · rw [if_pos hc, List.mem_cons] at hmem
        rcases hmem with rfl | hmem
        · exact h
        · exact ih List.not_mem_nil hmem
      · rw [if_neg hc] at hmem
        refine ih ?_ hmem
        rw [List.mem_append, List.mem_singleton, not_or]
        exact ⟨h, Ne.symm hc⟩

/-- No line has a newline in it. -/
theorem not_mem_of_mem_read {text line : List α} (hmem : line ∈ read newline text) :
    newline ∉ line :=
  not_mem_of_mem_readFrom List.not_mem_nil hmem

theorem length_le_of_mem_readFrom {line rest line' : List α}
    (hmem : line' ∈ readFrom newline line rest) : line'.length ≤ line.length + rest.length := by
  induction rest generalizing line with
  | nil =>
      rw [readFrom] at hmem
      split at hmem
      · cases hmem
      · rw [List.mem_singleton.mp hmem]
        exact Nat.le_add_right _ _
  | cons c rest ih =>
      rw [readFrom] at hmem
      rw [List.length_cons]
      by_cases hc : c = newline
      · rw [if_pos hc, List.mem_cons] at hmem
        rcases hmem with rfl | hmem
        · exact Nat.le_add_right _ _
        · have hle := ih hmem
          rw [List.length_nil] at hle
          omega
      · rw [if_neg hc] at hmem
        have hle := ih hmem
        rw [List.length_append, List.length_singleton] at hle
        omega

/-- No line is longer than the text. -/
theorem length_le_of_mem_read {text line : List α} (hmem : line ∈ read newline text) :
    line.length ≤ text.length := by
  have hle := length_le_of_mem_readFrom hmem
  rw [List.length_nil, Nat.zero_add] at hle
  exact hle

end Lines

section Runs

variable {α : Type} [BEq α] [LawfulBEq α]

/-- Copies of one element are a single run. -/
theorem splitBy_replicate (n : Nat) (x : α) :
    (List.replicate (n + 1) x).splitBy (· == ·) = [List.replicate (n + 1) x] := by
  refine List.splitBy_of_isChain (List.cons_ne_nil _ _) ?_
  exact List.isChain_replicate_of_rel _ (beq_self_eq_true x)

/-- The first run ends where another element comes. -/
theorem splitBy_replicate_cons {x y : α} (n : Nat) (rest : List α) (h : y ≠ x) :
    (List.replicate (n + 1) x ++ y :: rest).splitBy (· == ·) =
      List.replicate (n + 1) x :: (y :: rest).splitBy (· == ·) := by
  have hlast : ∀ z ∈ (List.replicate (n + 1) x).getLast?, (z == y) = false := by
    intro z hz
    rw [List.eq_of_mem_replicate (List.mem_of_mem_getLast? hz)]
    exact beq_eq_false_iff_ne.mpr (Ne.symm h)
  rw [List.splitBy_append_cons rest hlast, splitBy_replicate, List.singleton_append]

/-- A run has one element, as often as it is long. -/
theorem eq_replicate_of_mem_splitBy {xs run : List α} (h : run ∈ xs.splitBy (· == ·)) :
    ∃ n x, run = List.replicate (n + 1) x := by
  have hequal : run.IsChain Eq :=
    (List.isChain_of_mem_splitBy h).imp fun a b hab => eq_of_beq hab
  cases run with
  | nil => exact absurd h (List.nil_notMem_splitBy _ xs)
  | cons x run =>
      refine ⟨run.length, x, ?_⟩
      rw [List.eq_replicate_iff]
      refine ⟨rfl, fun y hy => ?_⟩
      rcases List.mem_cons.mp hy with rfl | hy
      · rfl
      · exact ((List.pairwise_cons.mp hequal.pairwise).1 y hy).symm

end Runs

end CodingChallenges
