import Mathlib.Order.Defs.LinearOrder
import Mathlib.Data.List.Basic

/-!
# Ranges of an Array

What a sorting algorithm does to a part of an array.

An algorithm that works in place exchanges elements within a range. So the array keeps
its length and its elements, what stands outside of the range stays where it is, and what
holds of all elements of the range still does. The last of these is why a part that
was sorted by itself keeps its place between the parts next to it.

## Main definitions

* `swapAt`: Two elements are exchanged.
* `segment`: The elements of a range.
* `Everywhere`, `SortedRange`: What holds of the elements of a range, and in which order
  they are.
* `Rearranged`: The elements of a range were moved within it.

## Theorems

* `segment_cons`, `segment_concat`, `segment_append`: How a range is put together.
* `Everywhere.swapAt_back`, `Everywhere.swapAt_front`: An exchange that makes a range longer.
* `rearranged_swapAt`: An exchange moves elements within a range.
* `Rearranged.everywhere`: What holds of all elements of the range still does.
* `SortedRange.join`: Two sorted parts with an element between them.
* `SortedRange.iff_pairwise`: A range is sorted if its elements are in order.
* `SortedRange.iff_middle`: Two sorted parts with anything between them.
* `Rearranged.eq_of_sorted`: There is only one way to sort a range.
-/

namespace CodingChallenges

variable {α : Type}

/-- The array with two elements exchanged, if both indices are within it. -/
def swapAt (a : List α) (i j : Nat) : List α :=
  match a[i]?, a[j]? with
  | some x, some y => (a.set i y).set j x
  | _, _ => a

/-- The elements of the range. -/
def segment (lo hi : Nat) (a : List α) : List α :=
  (a.take hi).drop lo

/-- The property holds of all elements of the range. -/
def Everywhere (lo hi : Nat) (P : α → Prop) (a : List α) : Prop :=
  ∀ i, lo ≤ i → i < hi → ∀ x ∈ a[i]?, P x

/-- The elements of the range are in order. -/
def SortedRange [LE α] (lo hi : Nat) (a : List α) : Prop :=
  ∀ i j, lo ≤ i → i < j → j < hi → ∀ x ∈ a[i]?, ∀ y ∈ a[j]?, x ≤ y

/-- The second array comes from the first by moving elements within the range. -/
structure Rearranged (lo hi : Nat) (a b : List α) : Prop where
  perm : b.Perm a
  outside : ∀ i, i < lo ∨ hi ≤ i → b[i]? = a[i]?

theorem swapAt_eq {a : List α} {i j : Nat} (hi : i < a.length) (hj : j < a.length) :
    swapAt a i j = (a.set i a[j]).set j a[i] := by
  rw [swapAt, List.getElem?_eq_getElem hi, List.getElem?_eq_getElem hj]

theorem swapAt_perm (a : List α) (i j : Nat) : (swapAt a i j).Perm a := by
  by_cases hi : i < a.length
  · by_cases hj : j < a.length
    · rw [swapAt_eq hi hj]
      exact List.set_set_perm hi hj
    · rw [swapAt, List.getElem?_eq_none (Nat.le_of_not_lt hj)]
      cases a[i]? <;> exact List.Perm.refl a
  · rw [swapAt, List.getElem?_eq_none (Nat.le_of_not_lt hi)]

theorem length_swapAt (a : List α) (i j : Nat) : (swapAt a i j).length = a.length :=
  (swapAt_perm a i j).length_eq

theorem getElem?_swapAt {a : List α} {i j : Nat} (hi : i < a.length) (hj : j < a.length) (k : Nat) :
    (swapAt a i j)[k]? = if k = j then a[i]? else if k = i then a[j]? else a[k]? := by
  rw [swapAt_eq hi hj, List.getElem?_set, List.getElem?_set, List.length_set]
  -- The index that is set last wins, which matters only if both are the same.
  by_cases hkj : j = k
  · subst hkj
    rw [if_pos rfl, if_pos hj, if_pos rfl, List.getElem?_eq_getElem hi]
  · rw [if_neg hkj, if_neg (Ne.symm hkj)]
    by_cases hki : i = k
    · subst hki
      rw [if_pos rfl, if_pos hi, if_pos rfl, List.getElem?_eq_getElem hj]
    · rw [if_neg hki, if_neg (Ne.symm hki)]

theorem getElem?_segment (lo hi : Nat) (a : List α) (i : Nat) :
    (segment lo hi a)[i]? = if lo + i < hi then a[lo + i]? else none := by
  rw [segment, List.getElem?_drop, List.getElem?_take]

theorem mem_segment {lo hi : Nat} {a : List α} {x : α} :
    x ∈ segment lo hi a ↔ ∃ i, lo ≤ i ∧ i < hi ∧ a[i]? = some x := by
  rw [List.mem_iff_getElem?]
  constructor
  · rintro ⟨i, hi'⟩
    rw [getElem?_segment] at hi'
    by_cases hlt : lo + i < hi
    · rw [if_pos hlt] at hi'
      exact ⟨lo + i, Nat.le_add_right lo i, hlt, hi'⟩
    · rw [if_neg hlt] at hi'
      cases hi'
  · rintro ⟨i, hle, hlt, hx⟩
    refine ⟨i - lo, ?_⟩
    rw [getElem?_segment, Nat.add_sub_cancel' hle, if_pos hlt, hx]

theorem length_segment (lo : Nat) {hi : Nat} {a : List α} (h : hi ≤ a.length) :
    (segment lo hi a).length = hi - lo := by
  rw [segment, List.length_drop, List.length_take, Nat.min_eq_left h]

theorem segment_of_le {lo hi : Nat} (h : hi ≤ lo) (a : List α) : segment lo hi a = [] := by
  apply List.drop_eq_nil_of_le
  rw [List.length_take]
  omega

theorem segment_zero_length (a : List α) : segment 0 a.length a = a := by
  rw [segment, List.take_length, List.drop_zero]

theorem segment_congr {lo hi : Nat} {a b : List α} (h : ∀ i, lo ≤ i → i < hi → b[i]? = a[i]?) :
    segment lo hi b = segment lo hi a := by
  apply List.ext_getElem?
  intro i
  rw [getElem?_segment, getElem?_segment]
  by_cases hi : lo + i < hi
  · rw [if_pos hi, if_pos hi, h (lo + i) (Nat.le_add_right lo i) hi]
  · rw [if_neg hi, if_neg hi]

theorem take_segment {lo mid hi : Nat} (h : mid ≤ hi) (a : List α) :
    (segment lo hi a).take (mid - lo) = segment lo mid a := by
  rw [segment, segment, ← List.drop_take, List.take_take, Nat.min_eq_left h]

theorem drop_segment {lo mid hi : Nat} (h : lo ≤ mid) (a : List α) :
    (segment lo hi a).drop (mid - lo) = segment mid hi a := by
  rw [segment, segment, List.drop_drop, Nat.add_sub_cancel' h]

/-- An exchange outside of the range. -/
theorem segment_swapAt {lo hi i j : Nat} {a : List α} (hi' : i < a.length) (hj : j < a.length)
    (hiOut : i < lo ∨ hi ≤ i) (hjOut : j < lo ∨ hi ≤ j) :
    segment lo hi (swapAt a i j) = segment lo hi a := by
  refine segment_congr fun k hle hlt => ?_
  rw [getElem?_swapAt hi' hj, if_neg (by omega), if_neg (by omega)]

theorem segment_append {lo mid hi : Nat} (hlo : lo ≤ mid) (hhi : mid ≤ hi) (a : List α) :
    segment lo mid a ++ segment mid hi a = segment lo hi a := by
  rw [← take_segment hhi, ← drop_segment hlo, List.take_append_drop]

theorem segment_cons {lo hi : Nat} {a : List α} {x : α} (hx : a[lo]? = some x) (h : lo < hi) :
    segment lo hi a = x :: segment (lo + 1) hi a := by
  have hone : segment lo (lo + 1) a = [x] := by
    apply List.ext_getElem?
    intro i
    rw [getElem?_segment]
    cases i with
    | zero =>
        rw [if_pos (by omega)]
        exact hx
    | succ i => rw [if_neg (by omega), List.getElem?_cons_succ, List.getElem?_nil]
  rw [← segment_append (Nat.le_succ lo) h, hone, List.singleton_append]

theorem segment_concat {lo hi : Nat} {a : List α} {x : α} (hx : a[hi]? = some x) (h : lo ≤ hi) :
    segment lo (hi + 1) a = segment lo hi a ++ [x] := by
  rw [← segment_append h (Nat.le_succ hi), segment_cons hx (Nat.lt_succ_self hi),
    segment_of_le (Nat.le_refl (hi + 1))]

/-- Two arrays that agree outside of a range have the same elements if they do within it. -/
theorem perm_iff_segment_perm {lo hi : Nat} {a b : List α} (hle : lo ≤ hi)
    (houtside : ∀ i, i < lo ∨ hi ≤ i → b[i]? = a[i]?) :
    b.Perm a ↔ (segment lo hi b).Perm (segment lo hi a) := by
  -- The array is the part in front of the range, the range, and the part behind it.
  have hbefore : b.take lo = a.take lo := by
    apply List.ext_getElem?
    intro i
    rw [List.getElem?_take, List.getElem?_take]
    by_cases hi : i < lo
    · rw [if_pos hi, if_pos hi, houtside i (Or.inl hi)]
    · rw [if_neg hi, if_neg hi]
  have hbehind : b.drop hi = a.drop hi := by
    apply List.ext_getElem?
    intro i
    rw [List.getElem?_drop, List.getElem?_drop, houtside _ (Or.inr (Nat.le_add_right hi i))]
  have hsplit : ∀ l : List α, l = l.take lo ++ (segment lo hi l ++ l.drop hi) := by
    intro l
    have htake : l.take lo = (l.take hi).take lo := by
      rw [List.take_take, Nat.min_eq_left hle]
    rw [segment, htake, ← List.append_assoc, List.take_append_drop, List.take_append_drop]
  calc b.Perm a
      ↔ (a.take lo ++ (segment lo hi b ++ a.drop hi)).Perm
          (a.take lo ++ (segment lo hi a ++ a.drop hi)) := by
        rw [← hsplit a, ← hbefore, ← hbehind, ← hsplit b]
    _ ↔ (segment lo hi b).Perm (segment lo hi a) := by
        rw [List.perm_append_left_iff, List.perm_append_right_iff]

namespace Everywhere

variable {lo hi lo' hi' : Nat} {P Q : α → Prop} {a b : List α}

theorem imp (h : Everywhere lo hi P a) (himp : ∀ x, P x → Q x) : Everywhere lo hi Q a :=
  fun i hle hlt x hx => himp x (h i hle hlt x hx)

theorem congr (h : Everywhere lo hi P a) (heq : ∀ i, lo ≤ i → i < hi → b[i]? = a[i]?) :
    Everywhere lo hi P b := by
  intro i hle hlt x hx
  rw [heq i hle hlt] at hx
  exact h i hle hlt x hx

/-- An element that comes to the end of a range from behind it. -/
theorem swapAt_back {i j : Nat} {x : α} (h : Everywhere lo i P a) (hle : i ≤ j)
    (hx : a[j]? = some x) (hP : P x) : Everywhere lo (i + 1) P (swapAt a i j) := by
  have hj := (List.getElem?_eq_some_iff.mp hx).1
  intro k hk hk' z hz
  rw [getElem?_swapAt (by omega) hj] at hz
  -- Only the last index of the longer range has a new element.
  by_cases hsame : k = i
  · have hz' : a[j]? = some z := by
      by_cases hij : i = j
      · rwa [hsame, if_pos hij, hij] at hz
      · rwa [hsame, if_neg hij, if_pos rfl] at hz
    rw [hx] at hz'
    cases hz'
    exact hP
  · rw [if_neg (by omega), if_neg hsame] at hz
    exact h k hk (by omega) z hz

/-- An element that comes to the front of a range from before it. -/
theorem swapAt_front {i j : Nat} {x : α} (h : Everywhere (j + 1) hi P a) (hle : i ≤ j)
    (hj : j < a.length) (hx : a[i]? = some x) (hP : P x) : Everywhere j hi P (swapAt a i j) := by
  intro k hk hk' z hz
  rw [getElem?_swapAt (by omega) hj] at hz
  by_cases hsame : k = j
  · rw [if_pos hsame, hx] at hz
    cases hz
    exact hP
  · rw [if_neg hsame, if_neg (by omega)] at hz
    exact h k (by omega) hk' z hz

end Everywhere

namespace Rearranged

variable {lo hi lo' hi' : Nat} {P : α → Prop} {a b c : List α}

theorem refl (lo hi : Nat) (a : List α) : Rearranged lo hi a a :=
  ⟨List.Perm.refl a, fun _ _ => rfl⟩

theorem trans (hab : Rearranged lo hi a b) (hbc : Rearranged lo hi b c) : Rearranged lo hi a c :=
  ⟨hbc.perm.trans hab.perm, fun i hi => (hbc.outside i hi).trans (hab.outside i hi)⟩

theorem mono (h : Rearranged lo hi a b) (hlo : lo' ≤ lo) (hhi : hi ≤ hi') :
    Rearranged lo' hi' a b :=
  ⟨h.perm, fun i hi => h.outside i (by omega)⟩

theorem length_eq (h : Rearranged lo hi a b) : b.length = a.length :=
  h.perm.length_eq

/-- The elements of the range are the same. -/
theorem segment_perm (h : Rearranged lo hi a b) : (segment lo hi b).Perm (segment lo hi a) := by
  by_cases hle : lo ≤ hi
  · exact (perm_iff_segment_perm hle h.outside).mp h.perm
  · rw [segment_of_le (Nat.le_of_not_le hle), segment_of_le (Nat.le_of_not_le hle)]

/-- What holds of all elements of the range still does. -/
theorem everywhere (hab : Rearranged lo hi a b) (h : Everywhere lo hi P a) :
    Everywhere lo hi P b := by
  intro i hle hlt x hx
  have hx' := hab.segment_perm.mem_iff.mp (mem_segment.mpr ⟨i, hle, hlt, hx⟩)
  rcases mem_segment.mp hx' with ⟨j, hle', hlt', hj⟩
  exact h j hle' hlt' x hj

end Rearranged

/-- An exchange moves elements within a range that has both. -/
theorem rearranged_swapAt {a : List α} {lo hi i j : Nat} (hi' : i < a.length) (hj : j < a.length)
    (hlo : lo ≤ i ∧ lo ≤ j) (hhi : i < hi ∧ j < hi) : Rearranged lo hi a (swapAt a i j) := by
  refine ⟨swapAt_perm a i j, fun k hk => ?_⟩
  rw [getElem?_swapAt hi' hj, if_neg (by omega), if_neg (by omega)]

namespace SortedRange

theorem of_le [LE α] {lo hi : Nat} {a : List α} (h : hi ≤ lo + 1) : SortedRange lo hi a := by
  intro i j hle hlt hlt'
  omega

theorem congr [LE α] {lo hi : Nat} {a b : List α} (h : SortedRange lo hi a)
    (heq : ∀ i, lo ≤ i → i < hi → b[i]? = a[i]?) : SortedRange lo hi b := by
  intro i j hle hlt hlt' x hx y hy
  rw [heq i hle (by omega)] at hx
  rw [heq j (by omega) hlt'] at hy
  exact h i j hle hlt hlt' x hx y hy

/-- Two sorted parts with an element between them that no element before it exceeds and
    that exceeds no element behind it. -/
theorem join [Preorder α] {lo mid hi : Nat} {a : List α} {pivot : α} (hmid : a[mid]? = some pivot)
    (hleft : SortedRange lo mid a) (hright : SortedRange (mid + 1) hi a)
    (hbelow : Everywhere lo mid (· ≤ pivot) a) (habove : Everywhere (mid + 1) hi (pivot ≤ ·) a) :
    SortedRange lo hi a := by
  intro i j hle hlt hlt' x hx y hy
  have hx' : i < mid → x ≤ pivot := fun h => hbelow i hle h x hx
  have hy' : mid < j → pivot ≤ y := fun h => habove j h hlt' y hy
  -- Both indices are on one side, one of them is in the middle, or they are on two sides.
  rcases Nat.lt_trichotomy j mid with hj | hj | hj
  · exact hleft i j hle hlt hj x hx y hy
  · rw [hj, hmid] at hy
    cases hy
    exact hx' (by omega)
  · rcases Nat.lt_trichotomy i mid with hi | hi | hi
    · exact le_trans (hx' hi) (hy' hj)
    · rw [hi, hmid] at hx
      cases hx
      exact hy' hj
    · exact hright i j hi hlt hlt' x hx y hy

/-- A range is sorted if its elements are in order. -/
theorem iff_pairwise [LE α] {lo hi : Nat} {a : List α} :
    SortedRange lo hi a ↔ (segment lo hi a).Pairwise (· ≤ ·) := by
  rw [List.pairwise_iff_getElem]
  constructor
  · intro h i j hi' hj hlt
    have hx := List.getElem?_eq_getElem hi'
    have hy := List.getElem?_eq_getElem hj
    rw [getElem?_segment] at hx hy
    have hlast : lo + j < hi := by
      by_contra hge
      rw [if_neg hge] at hy
      cases hy
    rw [if_pos (by omega)] at hx hy
    exact h (lo + i) (lo + j) (Nat.le_add_right lo i) (Nat.add_lt_add_left hlt lo) hlast _ hx _ hy
  · intro h i j hle hlt hlt' x hx y hy
    have hx' : (segment lo hi a)[i - lo]? = some x := by
      rw [getElem?_segment, Nat.add_sub_cancel' hle, if_pos (by omega), hx]
    have hy' : (segment lo hi a)[j - lo]? = some y := by
      rw [getElem?_segment, Nat.add_sub_cancel' (by omega), if_pos hlt', hy]
    rcases List.getElem?_eq_some_iff.mp hx' with ⟨hi', hxeq⟩
    rcases List.getElem?_eq_some_iff.mp hy' with ⟨hj, hyeq⟩
    have hle' := h (i - lo) (j - lo) hi' hj (by omega)
    rwa [hxeq, hyeq] at hle'

/-- An array that is sorted everywhere is sorted. -/
theorem pairwise [LE α] {a : List α} (h : SortedRange 0 a.length a) : a.Pairwise (· ≤ ·) := by
  rw [← segment_zero_length a]
  exact iff_pairwise.mp h

/-- A middle between two parts that are sorted: everything depends on the middle. -/
theorem iff_middle [Preorder α] {lo left right hi : Nat} {a : List α} {pivot : α}
    (hlo : lo ≤ left) (hhi : right ≤ hi) (hleft : SortedRange lo left a)
    (hright : SortedRange right hi a) (hbelow : Everywhere lo left (· ≤ pivot) a)
    (habove : Everywhere left hi (pivot ≤ ·) a) :
    SortedRange lo hi a ↔ (segment left right a).Pairwise (· ≤ ·) ∧
      ∀ x ∈ segment left right a, Everywhere right hi (x ≤ ·) a := by
  rw [← iff_pairwise]
  constructor
  · intro h
    refine ⟨fun i j hle hlt hlt' => h i j (by omega) hlt (by omega), fun x hx j hle hlt y hy => ?_⟩
    rcases mem_segment.mp hx with ⟨i, hle', hlt', hx'⟩
    exact h i j (by omega) (by omega) hlt x hx' y hy
  -- The part that the first index lies in decides what is known of the second one.
  · rintro ⟨hsorted, hbehind⟩ i j hle hlt hlt' x hx y hy
    by_cases hi' : i < left
    · by_cases hj : j < left
      · exact hleft i j hle hlt hj x hx y hy
      · exact le_trans (hbelow i hle hi' x hx) (habove j (by omega) hlt' y hy)
    · by_cases hi'' : i < right
      · by_cases hj : j < right
        · exact hsorted i j (by omega) hlt hj x hx y hy
        · exact hbehind x (mem_segment.mpr ⟨i, by omega, hi'', hx⟩) j (by omega) hlt' y hy
      · exact hright i j (by omega) hlt hlt' x hx y hy

end SortedRange

/-- There is only one way to sort a range. -/
theorem Rearranged.eq_of_sorted [PartialOrder α] {lo hi : Nat} {a b b' : List α}
    (h : Rearranged lo hi a b) (h' : Rearranged lo hi a b') (hsorted : SortedRange lo hi b)
    (hsorted' : SortedRange lo hi b') : b = b' := by
  have hsegment : segment lo hi b = segment lo hi b' :=
    (h.segment_perm.trans h'.segment_perm.symm).eq_of_pairwise (fun x y _ _ => le_antisymm)
      (SortedRange.iff_pairwise.mp hsorted) (SortedRange.iff_pairwise.mp hsorted')
  apply List.ext_getElem?
  intro i
  -- Within the range the two are the same list, and outside of it they are the old array.
  by_cases hin : lo ≤ i ∧ i < hi
  · have hget := congrArg (·[i - lo]?) hsegment
    simp only [getElem?_segment, Nat.add_sub_cancel' hin.1, if_pos hin.2] at hget
    exact hget
  · rw [h.outside i (by omega), h'.outside i (by omega)]

end CodingChallenges
