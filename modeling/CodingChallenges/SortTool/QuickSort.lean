import CodingChallenges.SortTool.Vector

/-!
# Quick Sort

`partition` and `quick_sort` of `QuickSort.cpp`.

Two indices scan a range from its ends towards each other, over elements below the pivot
and above it, and exchange the elements at which they stop. The pivot is the first
element of the range. It stops the scan from the right, and an element that came from the
left in an exchange does so later. The scan from the left is stopped by the end of the
range, and later by such an element.

Elements that equal the pivot stop both scans. They may end up on either side, which is why
each side is bounded by the pivot only in the weak sense.

## Main definitions

* `scanLeft`, `scanRight`, `partitionLoop`, `partition`: One step.
* `quickSortRange`, `quickSort`: The algorithm.
* `Divided`: The pivot stands between the elements it bounds.

## Theorems

* `scanLeft_returns`, `scanRight_returns`: Where the scans stop.
* `partition_returns`: A step returns, within the range, with the range partitioned.
* `quickSortRange_returns`: A range is sorted.
* `quickSortRange_ne_ok`: A range up to the largest index of an `int` is not.
* `quickSort_sorts`: A vector is sorted.
-/

namespace CodingChallenges

namespace SortTool

section Algorithm

variable {α : Type} [LinearOrder α]

/-- `while (array[++left] < array[start_index])`, left at `end_index`. -/
def scanLeft (array : List α) (startIndex endIndex : Int) : Nat → Int → Except Fault Int
  | 0, _ => .error .outOfFuel
  | fuel + 1, left => do
    let x ← readAt array (left + 1)
    let pivot ← readAt array startIndex
    if x < pivot then
      if left + 1 = endIndex then return left + 1
      else scanLeft array startIndex endIndex fuel (left + 1)
    else return left + 1

/-- `while (array[start_index] < array[--right])`, left at `start_index`. -/
def scanRight (array : List α) (startIndex : Int) : Nat → Int → Except Fault Int
  | 0, _ => .error .outOfFuel
  | fuel + 1, right => do
    let pivot ← readAt array startIndex
    let x ← readAt array (right - 1)
    if pivot < x then
      if right - 1 = startIndex then return right - 1
      else scanRight array startIndex fuel (right - 1)
    else return right - 1

/-- The loop of `partition`: the vector behind it and `right`. -/
def partitionLoop (startIndex endIndex : Int) :
    Nat → List α → Int → Int → Except Fault (List α × Int)
  | 0, _, _, _ => .error .outOfFuel
  | fuel + 1, array, left, right => do
    let left ← scanLeft array startIndex endIndex fuel left
    let right ← scanRight array startIndex fuel right
    if right ≤ left then return (array, right)
    else
      let array ← swap array left right
      partitionLoop startIndex endIndex fuel array left right

/-- The pivot goes between the two parts. -/
def partition (fuel : Nat) (array : List α) (startIndex endIndex : Int) :
    Except Fault (List α × Int) := do
  let (array, right) ← partitionLoop startIndex endIndex fuel array startIndex
    (toInt (endIndex + 1))
  let array ← swap array startIndex right
  return (array, right)

/-- Both parts are sorted on their own. -/
def quickSortRange : Nat → List α → Int → Int → Except Fault (List α)
  | 0, _, _, _ => .error .outOfFuel
  | fuel + 1, array, startIndex, endIndex => do
    if endIndex ≤ startIndex then return array
    else
      let (array, partitionIndex) ← partition fuel array startIndex endIndex
      let array ← quickSortRange fuel array startIndex (partitionIndex - 1)
      quickSortRange fuel array (partitionIndex + 1) endIndex

/-- The size is converted to `int`. Less one, that of an empty vector is -1. -/
def quickSort (fuel : Nat) (array : List α) : Except Fault (List α) :=
  quickSortRange fuel array 0 (toInt (array.length - 1))

end Algorithm

variable {α : Type} [LinearOrder α] {a : List α} {pivot : α}

/-- One round of the scan from the left. -/
theorem scanLeft_succ {lo left : Nat} (last : Int) {x : α} (hpivot : a[lo]? = some pivot)
    (hx : a[left + 1]? = some x) (fuel : Nat) :
    scanLeft a lo last (fuel + 1) left =
      if x < pivot then
        if ((left + 1 : Nat) : Int) = last then .ok ((left + 1 : Nat) : Int)
        else scanLeft a lo last fuel ((left + 1 : Nat) : Int)
      else .ok ((left + 1 : Nat) : Int) := by
  have hread : readAt a ((left : Int) + 1) = .ok x := readAt_natCast hx
  rw [scanLeft, hread, readAt_natCast hpivot]
  rfl

/-- One round of the scan from the right. -/
theorem scanRight_succ {lo right : Nat} {x : α} (hpivot : a[lo]? = some pivot)
    (hx : a[right]? = some x) (fuel : Nat) :
    scanRight a lo (fuel + 1) ((right + 1 : Nat) : Int) =
      if pivot < x then
        if (right : Int) = lo then .ok (right : Int) else scanRight a lo fuel right
      else .ok (right : Int) := by
  have hindex : ((right + 1 : Nat) : Int) - 1 = right := by omega
  rw [scanRight, hindex, readAt_natCast hx, readAt_natCast hpivot]
  rfl

/-- The scan from the left stops within the range, behind elements below the pivot, and
    unless it is at the end of the range, at one that is not. -/
theorem scanLeft_returns {lo last left : Nat} (hpivot : a[lo]? = some pivot)
    (hlast : last < a.length) (hleft : left < last) :
    ∃ left' : Nat, Returns (fun fuel => scanLeft a lo last fuel left) (left' : Int) ∧
      left < left' ∧ left' ≤ last ∧ Everywhere (left + 1) left' (· < pivot) a ∧
      (left' = last ∨ ∀ x ∈ a[left']?, pivot ≤ x) := by
  induction hn : last - left generalizing left with
  | zero => omega
  | succ n ih =>
      have hlt : left + 1 < a.length := by omega
      obtain ⟨x, hx⟩ : ∃ x, a[left + 1]? = some x := ⟨_, List.getElem?_eq_getElem hlt⟩
      have hround := scanLeft_succ last hpivot hx
      have hnone : Everywhere (left + 1) (left + 1) (· < pivot) a := by
        intro i hle hlt
        omega
      by_cases hbelow : x < pivot
      · simp only [if_pos hbelow] at hround
        -- The scan stops at the end of the range even if the element there is below the pivot.
        by_cases hend : left + 1 = last
        · simp only [if_pos (congrArg Nat.cast hend)] at hround
          exact ⟨left + 1, ((returns_ok _).congr hround).succ, by omega, by omega, hnone,
            Or.inl hend⟩
        · simp only [if_neg (mt Int.natCast_inj.mp hend)] at hround
          rcases @ih (left + 1) (by omega) (by omega) with
            ⟨left', hreturns, hlt', hle, heverywhere, hstop⟩
          refine ⟨left', (hreturns.congr hround).succ, by omega, hle, ?_, hstop⟩
          intro i hi hi' y hy
          by_cases hfirst : i = left + 1
          · rw [hfirst, hx] at hy
            cases hy
            exact hbelow
          · exact heverywhere i (by omega) hi' y hy
      · simp only [if_neg hbelow] at hround
        refine ⟨left + 1, ((returns_ok _).congr hround).succ, by omega, by omega, hnone,
          Or.inr fun y hy => ?_⟩
        rw [hx] at hy
        cases hy
        exact le_of_not_gt hbelow

/-- The scan from the right stops within the range, in front of elements above the pivot, at
    one that is not: at the pivot itself, if there is no other. -/
theorem scanRight_returns {lo right : Nat} (hpivot : a[lo]? = some pivot) (hlo : lo < right)
    (hright : right ≤ a.length) :
    ∃ right' : Nat, Returns (fun fuel => scanRight a lo fuel right) (right' : Int) ∧
      lo ≤ right' ∧ right' < right ∧ Everywhere (right' + 1) right (pivot < ·) a ∧
      ∀ x ∈ a[right']?, x ≤ pivot := by
  induction right with
  | zero => omega
  | succ right ih =>
      obtain ⟨x, hx⟩ : ∃ x, a[right]? = some x := ⟨_, List.getElem?_eq_getElem (by omega)⟩
      have hround := scanRight_succ hpivot hx
      by_cases habove : pivot < x
      -- The pivot stops the scan, so that it never gets to the other end of the range.
      · have hne : right ≠ lo := by
          rintro rfl
          rw [hpivot] at hx
          cases hx
          exact lt_irrefl _ habove
        simp only [if_pos habove, if_neg (mt Int.natCast_inj.mp hne)] at hround
        rcases ih (by omega) (by omega) with ⟨right', hreturns, hle, hlt, heverywhere, hstop⟩
        refine ⟨right', (hreturns.congr hround).succ, hle, by omega, ?_, hstop⟩
        intro i hi hi' y hy
        by_cases hlast : i = right
        · rw [hlast, hx] at hy
          cases hy
          exact habove
        · exact heverywhere i hi (by omega) y hy
      · simp only [if_neg habove] at hround
        refine ⟨right, ((returns_ok _).congr hround).succ, by omega, by omega, ?_, fun y hy => ?_⟩
        · intro i hi hi'
          omega
        · rw [hx] at hy
          cases hy
          exact le_of_not_gt habove

/-- The range is divided at an index: nothing before it exceeds the pivot, and the pivot
    exceeds nothing behind it. -/
structure Divided (lo hi : Nat) (pivot : α) (right : Nat) (b : List α) : Prop where
  bounds : lo ≤ right ∧ right < hi
  below : Everywhere (lo + 1) (right + 1) (· ≤ pivot) b
  above : Everywhere (right + 1) hi (pivot ≤ ·) b

/-- The loop returns with the range divided, if it was on both sides of the two indices. -/
theorem partitionLoop_returns {lo last left right : Nat} (hpivot : a[lo]? = some pivot)
    (hlast : last < a.length) (hlo : lo ≤ left) (hleft : left < last) (hlt : left < right)
    (hright : right ≤ last + 1) (hbelow : Everywhere (lo + 1) (left + 1) (· ≤ pivot) a)
    (habove : Everywhere right (last + 1) (pivot ≤ ·) a) :
    ∃ (b : List α) (right' : Nat),
      Returns (fun fuel => partitionLoop lo last fuel a left right) (b, (right' : Int)) ∧
      Rearranged (lo + 1) (last + 1) a b ∧ Divided lo (last + 1) pivot right' b := by
  induction hn : right - left using Nat.strongRecOn generalizing a left right with
  | _ n ih =>
      rcases scanLeft_returns hpivot hlast hleft with
        ⟨left', hscanLeft, hltLeft, hleLast, hleft', hstopLeft⟩
      rcases scanRight_returns hpivot (Nat.lt_of_le_of_lt hlo hlt) (by omega) with
        ⟨right', hscanRight, hleLo, hltRight, hright', hstopRight⟩
      -- What the scans passed over is on its side.
      have hbelow' : Everywhere (lo + 1) left' (· ≤ pivot) a := by
        intro i hi hi' x hx
        by_cases hold : i < left + 1
        · exact hbelow i hi hold x hx
        · exact le_of_lt (hleft' i (by omega) hi' x hx)
      have habove' : Everywhere (right' + 1) (last + 1) (pivot ≤ ·) a := by
        intro i hi hi' x hx
        by_cases hold : i < right
        · exact le_of_lt (hright' i hi hold x hx)
        · exact habove i (by omega) hi' x hx
      by_cases hcross : right' ≤ left'
      · refine ⟨a, right',
          (hscanLeft.bind (hscanRight.bind ((returns_ok _).congr fun fuel => ?_))).succ,
          Rearranged.refl _ _ a, ⟨by omega, ?_, habove'⟩⟩
        · exact if_pos (Int.ofNat_le.mpr hcross)
        · intro i hi hi' x hx
          by_cases hsame : i = right'
          · rw [hsame] at hx
            exact hstopRight x hx
          · exact hbelow' i hi (by omega) x hx
      · have hleftLt : left' < a.length := by omega
        have hrightLt : right' < a.length := by omega
        have hget := getElem?_swapAt hleftLt hrightLt
        have hlength := length_swapAt a left' right'
        have hswap : swap a left' right' = .ok (swapAt a left' right') :=
          swap_natCast hleftLt hrightLt
        have hpivot' : (swapAt a left' right')[lo]? = some pivot := by
          rw [hget, if_neg (by omega), if_neg (by omega), hpivot]
        -- The exchanged elements are on their side now.
        have hbelow'' : Everywhere (lo + 1) (left' + 1) (· ≤ pivot) (swapAt a left' right') :=
          hbelow'.swapAt_back (by omega) (List.getElem?_eq_getElem hrightLt)
            (hstopRight _ (List.getElem?_eq_getElem hrightLt))
        have habove'' : Everywhere right' (last + 1) (pivot ≤ ·) (swapAt a left' right') := by
          refine habove'.swapAt_front (by omega) hrightLt (List.getElem?_eq_getElem hleftLt) ?_
          rcases hstopLeft with hend | hstop
          · omega
          · exact hstop _ (List.getElem?_eq_getElem hleftLt)
        rcases ih (right' - left') (by omega) hpivot' (by omega) (by omega) (by omega) (by omega)
          (by omega) hbelow'' habove'' rfl with ⟨b, right'', hreturns, hrearranged, hdivided⟩
        have hexchange : Rearranged (lo + 1) (last + 1) a (swapAt a left' right') :=
          rearranged_swapAt hleftLt hrightLt (by omega) (by omega)
        refine ⟨b, right'', (hscanLeft.bind (hscanRight.bind (hreturns.congr fun fuel => ?_))).succ,
          hexchange.trans hrearranged, hdivided⟩
        have hif : ¬(right' : Int) ≤ left' := by omega
        simp only [if_neg hif, hswap, ok_bind]

/-- A step returns with the pivot between the elements it bounds. -/
theorem partition_returns {lo last : Nat} (hlo : lo < last) (hlast : last < a.length)
    (hsize : last + 1 < 2 ^ 31) :
    ∃ (b : List α) (mid : Nat) (pivot : α),
      Returns (fun fuel => partition fuel a lo last) (b, (mid : Int)) ∧
      Rearranged lo (last + 1) a b ∧ lo ≤ mid ∧ mid ≤ last ∧ b[mid]? = some pivot ∧
      Everywhere lo mid (· ≤ pivot) b ∧ Everywhere (mid + 1) (last + 1) (pivot ≤ ·) b := by
  obtain ⟨pivot, hpivot⟩ : ∃ x, a[lo]? = some x := ⟨_, List.getElem?_eq_getElem (by omega)⟩
  have hconvert : toInt ((last : Int) + 1) = ((last + 1 : Nat) : Int) := by
    rw [toInt_eq (by omega) (by omega)]
    rfl
  have hnone : ∀ lo' hi' : Nat, hi' ≤ lo' → ∀ P : α → Prop, Everywhere lo' hi' P a := by
    intro lo' hi' hle P i hi hi''
    omega
  rcases partitionLoop_returns hpivot hlast (Nat.le_refl lo) hlo (Nat.lt_succ_of_lt hlo)
    (Nat.le_refl (last + 1)) (hnone _ _ (Nat.le_refl _) _) (hnone _ _ (Nat.le_refl _) _) with
    ⟨b, mid, hloop, hrearranged, hdivided⟩
  have hlength := hrearranged.length_eq
  have hbounds := hdivided.bounds
  have hloLt : lo < b.length := by omega
  have hmidLt : mid < b.length := by omega
  have hpivot' : b[lo]? = some pivot := by
    rw [hrearranged.outside lo (by omega), hpivot]
  have hget := getElem?_swapAt hloLt hmidLt
  have hswap : swap b lo mid = .ok (swapAt b lo mid) := swap_natCast hloLt hmidLt
  have hexchange : Rearranged lo (last + 1) b (swapAt b lo mid) :=
    rearranged_swapAt hloLt hmidLt (by omega) (by omega)
  refine ⟨swapAt b lo mid, mid, pivot, ?_,
    (hrearranged.mono (by omega) (Nat.le_refl _)).trans hexchange, hbounds.1, by omega, ?_, ?_, ?_⟩
  · have hstep : ∀ fuel, partition fuel a lo last =
        partitionLoop lo last fuel a lo ((last + 1 : Nat) : Int) >>= fun result =>
          swap result.1 lo result.2 >>= fun array => .ok (array, result.2) := by
      intro fuel
      rw [partition, hconvert]
      rfl
    exact (hloop.andThen (by simp only [hswap, ok_bind])).congr hstep
  · rw [hget, if_pos rfl, hpivot']
  · -- What comes to the beginning of the range was not above the pivot either.
    intro i hi hi' x hx
    rw [hget, if_neg (by omega)] at hx
    by_cases hfirst : i = lo
    · rw [if_pos hfirst] at hx
      by_cases hsame : mid = lo
      · omega
      · exact hdivided.below mid (by omega) (by omega) x hx
    · rw [if_neg hfirst] at hx
      exact hdivided.below i (by omega) (by omega) x hx
  · refine hdivided.above.congr fun i hi hi' => ?_
    rw [hget, if_neg (by omega), if_neg (by omega)]

/-- A range is sorted, and what is outside of it stays. -/
theorem quickSortRange_returns {lo hi : Nat} (hhi : hi ≤ a.length)
    (hsize : hi < 2 ^ 31 ∨ hi ≤ lo + 1) :
    ∃ b : List α, Returns (fun fuel => quickSortRange fuel a lo ((hi : Int) - 1)) b ∧
      Rearranged lo hi a b ∧ SortedRange lo hi b := by
  induction hn : hi - lo using Nat.strongRecOn generalizing a lo hi with
  | _ n ih =>
      by_cases hshort : hi ≤ lo + 1
      · refine ⟨a, ((returns_ok _).congr fun fuel => ?_).succ, Rearranged.refl lo hi a,
          SortedRange.of_le hshort⟩
        exact if_pos (by omega)
      · obtain ⟨last, rfl⟩ : ∃ last, hi = last + 1 := ⟨hi - 1, by omega⟩
        have hend : ((last + 1 : Nat) : Int) - 1 = last := by omega
        rcases partition_returns (a := a) (show lo < last by omega) hhi (by omega) with
          ⟨b, mid, pivot, hpartition, hrearranged, hloMid, hmidHi, hmid, hbelow, habove⟩
        have hlength := hrearranged.length_eq
        -- Each side is sorted by itself, and the pivot still bounds it.
        rcases ih (mid - lo) (by omega) (show mid ≤ b.length by omega) (by omega) rfl with
          ⟨b', hleft, hleftRearranged, hleftSorted⟩
        have hlength' := hleftRearranged.length_eq
        rcases ih (last + 1 - (mid + 1)) (by omega) (show last + 1 ≤ b'.length by omega) (by omega)
          rfl with ⟨result, hright, hrightRearranged, hrightSorted⟩
        have hmid' : result[mid]? = some pivot := by
          rw [hrightRearranged.outside mid (by omega), hleftRearranged.outside mid (by omega), hmid]
        have hleftSame : ∀ i, lo ≤ i → i < mid → result[i]? = b'[i]? :=
          fun i _ hi => hrightRearranged.outside i (by omega)
        have hrightSame : ∀ i, mid + 1 ≤ i → i < last + 1 → b'[i]? = b[i]? :=
          fun i hi _ => hleftRearranged.outside i (by omega)
        refine ⟨result, ?_, ?_, SortedRange.join hmid' (hleftSorted.congr hleftSame) hrightSorted
          ((hleftRearranged.everywhere hbelow).congr hleftSame)
          (hrightRearranged.everywhere (habove.congr hrightSame))⟩
        · have hrounds := hpartition.bind (f := fun s fuel =>
              quickSortRange fuel s.1 lo (s.2 - 1) >>= fun array =>
                quickSortRange fuel array (s.2 + 1) last)
            (hleft.bind (f := fun array fuel => quickSortRange fuel array ((mid : Int) + 1) last)
              (by rwa [hend] at hright))
          refine (hrounds.congr fun fuel => ?_).succ
          rw [hend]
          exact if_neg (by omega)
        · exact (hrearranged.trans (hleftRearranged.mono (Nat.le_refl _) (by omega))).trans
            (hrightRearranged.mono (by omega) (Nat.le_refl _))

/-- If the end of the range is the largest `int`, the number behind it is negative, and the scan
    from the right leaves the vector at once. -/
theorem quickSortRange_ne_ok {lo last : Nat} (hlo : lo < last) (hlast : last + 1 = 2 ^ 31)
    (fuel : Nat) (b : List α) : quickSortRange fuel a lo last ≠ .ok b := by
  intro h
  have hconvert : toInt ((last : Int) + 1) = -2 ^ 31 := by
    rw [show (last : Int) + 1 = 2 ^ 31 by omega]
    rfl
  cases fuel with
  | zero => cases h
  -- The call is followed down to the first access of the scan from the right.
  | succ fuel =>
      rw [quickSortRange, if_neg (by omega)] at h
      rcases bind_eq_ok.mp h with ⟨_, hpartition, _⟩
      rw [partition, hconvert] at hpartition
      rcases bind_eq_ok.mp hpartition with ⟨_, hloop, _⟩
      cases fuel with
      | zero => cases hloop
      | succ fuel =>
          rw [partitionLoop] at hloop
          rcases bind_eq_ok.mp hloop with ⟨_, _, hscan⟩
          rcases bind_eq_ok.mp hscan with ⟨_, hright, _⟩
          cases fuel with
          | zero => cases hright
          | succ fuel =>
              rw [scanRight] at hright
              rcases bind_eq_ok.mp hright with ⟨_, _, hread⟩
              rcases bind_eq_ok.mp hread with ⟨_, hnegative, _⟩
              rw [readAt, if_pos (by omega)] at hnegative
              cases hnegative

/-- Every vector of fewer than 2^31 strings is sorted: the algorithm ends, every index it uses
    is within the vector, and the result has the same strings in order. -/
theorem quickSort_sorts (array : List Text) (h : array.length < 2 ^ 31) :
    ∃ result, Returns (fun fuel => quickSort fuel array) result ∧ result.Perm array ∧
      result.Pairwise (· ≤ ·) := by
  rcases @quickSortRange_returns Text _ array 0 array.length (Nat.le_refl _) (Or.inl h) with
    ⟨result, hreturns, hrearranged, hsorted⟩
  refine ⟨result, hreturns.congr fun fuel => ?_, hrearranged.perm, ?_⟩
  · rw [quickSort, toInt_eq (by omega) (by omega)]
    rfl
  · rw [← hrearranged.length_eq] at hsorted
    exact hsorted.pairwise

theorem quickSort_sorts_three :
    Returns (fun fuel => quickSort fuel ([[98], [97, 99], [97]] : List Text))
      [[97], [97, 99], [98]] := by
  rcases quickSort_sorts [[98], [97, 99], [97]] (by decide) with
    ⟨result, hreturns, hperm, hsorted⟩
  have hperm' : result.Perm [[97], [97, 99], [98]] := hperm.trans (by decide)
  have hresult := hperm'.eq_of_pairwise (fun x y _ _ => le_antisymm) hsorted (by decide)
  rwa [hresult] at hreturns

end SortTool

end CodingChallenges
