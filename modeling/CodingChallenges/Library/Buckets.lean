import CodingChallenges.Library.ArrayRange

/-!
# Buckets

How elements with small numbers as keys are put in order by counting.

The elements with one key make a bucket. In the result the buckets come one after the
other, and each begins behind as many elements as have a smaller key. An element that is
read is written to its bucket, behind those that are already there, so a bucket has
its elements in the order in which they were read.

Whether the elements of a bucket are in this order or another, the buckets together have
all elements, and their positions tell how the keys of two elements compare.

## Main definitions

* `below`: Where a bucket begins.
* `Distributed`: The elements read so far are in their buckets, in their order.
* `InBuckets`: The elements are in their buckets, in any order.

## Theorems

* `Distributed.write`: An element is written to its bucket.
* `InBuckets.perm`: The buckets together have all elements.
* `InBuckets.locate`: An element is in the bucket of its key.
* `InBuckets.key_le`: Of two elements the first has the smaller key, or they share a bucket.
-/

namespace CodingChallenges

variable {α : Type} {key : α → Nat}

/-- How many elements have a smaller key: where the bucket of a key begins. -/
def below (key : α → Nat) (j : Nat) (l : List α) : Nat :=
  l.countP (key · < j)

theorem below_zero (key : α → Nat) (l : List α) : below key 0 l = 0 := by
  rw [below, List.countP_eq_zero]
  intro x _ hx
  exact Nat.not_lt_zero _ (of_decide_eq_true hx)

theorem below_succ (key : α → Nat) (j : Nat) (l : List α) :
    below key (j + 1) l = below key j l + l.countP (key · = j) := by
  induction l with
  | nil => rfl
  | cons x l ih =>
      rw [below, below] at *
      rw [List.countP_cons, List.countP_cons, List.countP_cons, ih]
      simp only [decide_eq_true_eq]
      split_ifs <;> omega

theorem below_mono (key : α → Nat) {i j : Nat} (h : i ≤ j) (l : List α) :
    below key i l ≤ below key j l := by
  refine List.countP_mono_left fun x _ hx => ?_
  exact decide_eq_true (Nat.lt_of_lt_of_le (of_decide_eq_true hx) h)

theorem below_eq_length {n : Nat} {l : List α} (h : ∀ x ∈ l, key x < n) :
    below key n l = l.length := by
  rw [below, List.countP_eq_length]
  intro x hx
  exact decide_eq_true (h x hx)

/-- Where an element is written is within its bucket. -/
theorem below_add_countP_lt (key : α → Nat) (read rest : List α) (x : α) :
    below key (key x) (read ++ x :: rest) + read.countP (key · = key x) <
      below key (key x + 1) (read ++ x :: rest) := by
  rw [below_succ, List.countP_append, List.countP_cons, if_pos (decide_eq_true rfl)]
  omega

/-- Every position is in a bucket. -/
theorem exists_below (key : α → Nat) {n p : Nat} {l : List α} (h : p < below key n l) :
    ∃ j, j < n ∧ below key j l ≤ p ∧ p < below key (j + 1) l := by
  induction n with
  | zero =>
      rw [below_zero] at h
      exact absurd h (Nat.not_lt_zero p)
  | succ n ih =>
      by_cases hlt : p < below key n l
      · rcases ih hlt with ⟨j, hj, hbegin, hend⟩
        exact ⟨j, by omega, hbegin, hend⟩
      · exact ⟨n, Nat.lt_succ_self n, Nat.le_of_not_lt hlt, h⟩

/-- The elements read so far stand at the beginnings of their buckets, in their order. -/
def Distributed (key : α → Nat) (l read result : List α) : Prop :=
  ∀ j, segment (below key j l) (below key j l + read.countP (key · = j)) result =
    read.filter (key · = j)

namespace Distributed

variable {l read rest result : List α} {x : α}

theorem nil (key : α → Nat) (l result : List α) : Distributed key l [] result :=
  fun _ => segment_of_le (Nat.le_refl _) result

/-- The next element is written to its bucket. -/
theorem write (h : Distributed key l read result) (hl : l = read ++ x :: rest)
    (hlength : l.length ≤ result.length) :
    Distributed key l (read ++ [x])
      (result.set (below key (key x) l + read.countP (key · = key x)) x) := by
  subst hl
  have hposition := below_add_countP_lt key read rest x
  have hend : below key (key x + 1) (read ++ x :: rest) ≤ (read ++ x :: rest).length :=
    List.countP_le_length
  intro j
  have hnext := below_succ key j (read ++ x :: rest)
  have hread : read.countP (key · = j) ≤ (read ++ x :: rest).countP (key · = j) := by
    rw [List.countP_append]
    omega
  by_cases hj : key x = j
  · subst hj
    have hwritten : (result.set (below key (key x) (read ++ x :: rest) +
        read.countP (key · = key x)) x)[below key (key x) (read ++ x :: rest) +
        read.countP (key · = key x)]? = some x :=
      List.getElem?_set_self (by omega)
    have hcount : (read ++ [x]).countP (key · = key x) = read.countP (key · = key x) + 1 := by
      rw [List.countP_append, List.countP_singleton, if_pos (decide_eq_true rfl)]
    rw [hcount, ← Nat.add_assoc, segment_concat hwritten (Nat.le_add_right _ _),
      segment_congr fun i _ hlt => List.getElem?_set_ne (by omega), h (key x), List.filter_append,
      List.filter_cons, if_pos (decide_eq_true rfl), List.filter_nil]
  · have hcount : (read ++ [x]).countP (key · = j) = read.countP (key · = j) := by
      rw [List.countP_append, List.countP_singleton, if_neg (mt of_decide_eq_true hj), Nat.add_zero]
    have hfilter : (read ++ [x]).filter (key · = j) = read.filter (key · = j) := by
      rw [List.filter_append, List.filter_cons_of_neg (by exact mt of_decide_eq_true hj),
        List.filter_nil, List.append_nil]
    rw [hcount, hfilter, ← h j]
    -- The position is in another bucket.
    refine segment_congr fun i hle hlt => List.getElem?_set_ne ?_
    rcases Nat.lt_or_gt_of_ne hj with hless | hless
    · have hapart := below_mono key (show key x + 1 ≤ j from hless) (read ++ x :: rest)
      omega
    · have hapart := below_mono key (show j + 1 ≤ key x from hless) (read ++ x :: rest)
      omega

/-- When all elements are read the buckets are full. -/
theorem bucket (h : Distributed key l l result) (j : Nat) :
    segment (below key j l) (below key (j + 1) l) result = l.filter (key · = j) := by
  rw [below_succ]
  exact h j

end Distributed

/-- The buckets begin at an index, and have their elements. -/
def InBuckets (key : α → Nat) (l : List α) (lo : Nat) (a : List α) : Prop :=
  ∀ j, (segment (lo + below key j l) (lo + below key (j + 1) l) a).Perm (l.filter (key · = j))

namespace InBuckets

variable {l a : List α} {lo n : Nat}

/-- The elements of the first buckets. -/
theorem perm_below (h : InBuckets key l lo a) (j : Nat) :
    (segment lo (lo + below key j l) a).Perm (l.filter (key · < j)) := by
  induction j with
  | zero =>
      rw [below_zero, Nat.add_zero, segment_of_le (Nat.le_refl lo), List.filter_eq_nil_iff.mpr]
      intro x _ hx
      exact Nat.not_lt_zero _ (of_decide_eq_true hx)
  | succ j ih =>
      have hle := below_mono key (Nat.le_succ j) l
      have hbefore : (l.filter (key · < j + 1)).filter (key · < j) = l.filter (key · < j) := by
        rw [List.filter_filter]
        refine List.filter_congr fun x _ => ?_
        rw [← Bool.decide_and, decide_eq_decide]
        omega
      have hbucket : (l.filter (key · < j + 1)).filter (fun x => !decide (key x < j)) =
          l.filter (key · = j) := by
        rw [List.filter_filter]
        refine List.filter_congr fun x _ => ?_
        rw [← decide_not, ← Bool.decide_and, decide_eq_decide]
        omega
      have hsplit := List.filter_append_perm (key · < j) (l.filter (key · < j + 1))
      rw [hbefore, hbucket] at hsplit
      rw [← segment_append (Nat.le_add_right lo (below key j l)) (Nat.add_le_add_left hle lo)]
      exact (ih.append (h j)).trans hsplit

/-- The buckets together have all elements. -/
theorem perm (h : InBuckets key l lo a) (hkeys : ∀ x ∈ l, key x < n) :
    (segment lo (lo + l.length) a).Perm l := by
  have hall := h.perm_below n
  have hfilter : l.filter (key · < n) = l :=
    List.filter_eq_self.mpr fun x hx => decide_eq_true (hkeys x hx)
  rwa [below_eq_length hkeys, hfilter] at hall

/-- What stands in a bucket has its key. -/
theorem key_eq (h : InBuckets key l lo a) {j p : Nat} (hbegin : lo + below key j l ≤ p)
    (hend : p < lo + below key (j + 1) l) {x : α} (hx : a[p]? = some x) :
    x ∈ l ∧ key x = j := by
  have hmem := mem_segment.mpr ⟨p, hbegin, hend, hx⟩
  have hbucket := List.mem_filter.mp ((h j).mem_iff.mp hmem)
  exact ⟨hbucket.1, of_decide_eq_true hbucket.2⟩

/-- An element is in the bucket of its key. -/
theorem locate (h : InBuckets key l lo a) (hkeys : ∀ x ∈ l, key x < n) {p : Nat}
    (hlo : lo ≤ p) (hhi : p < lo + l.length) {x : α} (hx : a[p]? = some x) :
    lo + below key (key x) l ≤ p ∧ p < lo + below key (key x + 1) l := by
  rw [← below_eq_length hkeys] at hhi
  rcases exists_below key (show p - lo < below key n l by omega) with
    ⟨j, _, hbegin, hend⟩
  rw [(h.key_eq (j := j) (by omega) (by omega) hx).2]
  omega

/-- The keys are in order. -/
theorem key_le (h : InBuckets key l lo a) (hkeys : ∀ x ∈ l, key x < n) {p q : Nat}
    (hlo : lo ≤ p) (hlt : p < q) (hhi : q < lo + l.length) {x y : α} (hx : a[p]? = some x)
    (hy : a[q]? = some y) : key x ≤ key y := by
  have hp := h.locate hkeys hlo (by omega) hx
  have hq := h.locate hkeys (by omega) hhi hy
  by_contra hless
  have hapart := below_mono key (show key y + 1 ≤ key x from Nat.lt_of_not_le hless) l
  omega

end InBuckets

end CodingChallenges
