import CodingChallenges.Library.Traces

/-!
# Queues

First in, first out.

What a queue holds is what was added to it but for what was taken from its front.
So a queue is its history here: everything that was added, in order, and how much of
it has been taken. An implementation that keeps only the contents follows a queue if
its contents are those of the queue after each step.

## Main definitions

* `Fifo`: What was added, and how much of it was taken.
* `Fifo.contents`: What is in the queue.
* `Fifo.add`, `Fifo.take`: The operations.

## Theorems

* `Fifo.contents_add`, `Fifo.contents_take`: What they do to the contents.
* `Fifo.take_add`, `Fifo.take_take`: What they do to what has been taken.
-/

namespace CodingChallenges

/-- A queue: what was added to it, and how much of that was taken. -/
structure Fifo (α : Type*) where
  added : List α
  taken : Nat
  taken_le : taken ≤ added.length

namespace Fifo

variable {α : Type*}

/-- Nothing was added. -/
def empty : Fifo α :=
  ⟨[], 0, Nat.le_refl 0⟩

/-- What is in the queue. -/
def contents (q : Fifo α) : List α :=
  q.added.drop q.taken

/-- Items are added behind the others. -/
def add (q : Fifo α) (items : List α) : Fifo α where
  added := q.added ++ items
  taken := q.taken
  taken_le := by
    rw [List.length_append]
    exact Nat.le_trans q.taken_le (Nat.le_add_right _ _)

/-- Taking so many items from the front, or all there are. -/
def take (q : Fifo α) (count : Nat) : Fifo α where
  added := q.added
  taken := min (q.taken + count) q.added.length
  taken_le := Nat.min_le_right _ _

theorem contents_empty : (empty : Fifo α).contents = [] :=
  rfl

theorem contents_add (q : Fifo α) (items : List α) :
    (q.add items).contents = q.contents ++ items :=
  List.drop_append_of_le_length q.taken_le

theorem contents_take (q : Fifo α) (count : Nat) :
    (q.take count).contents = q.contents.drop count := by
  unfold contents take
  simp only
  rw [List.drop_drop]
  rcases Nat.le_total (q.taken + count) q.added.length with hle | hle
  · rw [Nat.min_eq_left hle]
  · rw [Nat.min_eq_right hle, List.drop_length, List.drop_eq_nil_of_le hle]

/-- What has been taken does not change when something is added. -/
theorem take_add (q : Fifo α) (items : List α) :
    (q.add items).added.take q.taken = q.added.take q.taken :=
  List.take_append_of_le_length q.taken_le

/-- What is taken next is what is in front. -/
theorem take_take (q : Fifo α) (count : Nat) :
    (q.take count).added.take (q.take count).taken =
      q.added.take q.taken ++ q.contents.take count := by
  unfold contents take
  simp only
  rw [← List.take_add]
  rcases Nat.le_total (q.taken + count) q.added.length with hle | hle
  · rw [Nat.min_eq_left hle]
  · rw [Nat.min_eq_right hle, List.take_length, List.take_of_length_le hle]

end Fifo

end CodingChallenges
