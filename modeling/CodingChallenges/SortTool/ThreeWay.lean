import CodingChallenges.SortTool.QuickSort
import Mathlib.Data.List.Rotate

/-!
# Three-Way Quicksort

`quick_sort_3_way` of `QuickSort.cpp`.

The range is read from the front. An element below the pivot is exchanged with the first
that is equal to it, an element above it with the last one that is not read yet, which is
then read next. In the end the elements that are equal to the pivot should be in the
middle.

But the pivot is not a copy of the first element. It is a reference to its place, and when
the first smaller element is exchanged with it, the reference is to this one from then on.
So the middle has copies of two elements: those of the old pivot that were read before, and
those of the new one that are read later. They wait there in a line: a copy of the new
pivot joins its end, and a smaller element makes its first member go to the end. Nobody sorts
them afterwards.

## Main definitions

* `threeWayLoop`, `quickSort3Way`: The algorithm.
* `backFirst`: What is left to read when the next element is taken from the back.
* `firstSmaller`: The first element below the pivot that is read.
* `lineUp`: The line in the middle.
* `KeepsOrder`: The line is in order, and nothing that comes behind it is below its members.
* `FirstScan`: What holds between two rounds while the pivot is the first element.
* `Scan`: What holds between two rounds once there is a new pivot.
* `LeftBehind`: What the loop leaves behind.
* `PartsSorted`: The parts before and behind the middle are sorted.

## Theorems

* `Scan.returns`, `FirstScan.returns`: The loop with either pivot.
* `FirstScan.sortedRange`, `Scan.sortedRange_iff`: When the range is sorted behind the loop.
* `quickSort3Way_sorts_iff`: When the range is sorted.
-/

namespace CodingChallenges

namespace SortTool

section Algorithm

variable {α : Type} [LinearOrder α]

/-- The loop that divides the range. The first element of the range is read anew in each
    round, as it is in the source through the reference. -/
def threeWayLoop (startIndex : Int) :
    Nat → List α → Int → Int → Int → Except Fault (List α × Int × Int)
  | 0, _, _, _, _ => .error .outOfFuel
  | fuel + 1, array, left, right, index =>
    if index ≤ right then do
      let element ← readAt array index
      let startElement ← readAt array startIndex
      if element < startElement then
        -- The first time this writes to the place that the reference is to.
        let array ← swap array left index
        threeWayLoop startIndex fuel array (left + 1) right (index + 1)
      else if startElement < element then
        let array ← swap array index right
        threeWayLoop startIndex fuel array left (right - 1) index
      else threeWayLoop startIndex fuel array left right (index + 1)
    else .ok (array, left, right)

/-- What equals the pivot is left out of both calls. -/
def quickSort3Way (fuel : Nat) (array : List α) (startIndex endIndex : Int) :
    Except Fault (List α) :=
  if endIndex ≤ startIndex then .ok array
  else threeWayLoop startIndex fuel array startIndex endIndex startIndex >>= fun s =>
    quickSortRange fuel s.1 startIndex (s.2.1 - 1) >>= fun array =>
      quickSortRange fuel array (s.2.2 + 1) endIndex

end Algorithm

section BackFirst

variable {α : Type} {a : List α} {left right index : Nat}

/-- The last element comes to the front. -/
def backFirst (unread : List α) : List α :=
  unread.getLast?.toList ++ unread.dropLast

theorem backFirst_concat (unread : List α) (z : α) : backFirst (unread ++ [z]) = z :: unread := by
  rw [backFirst, List.getLast?_concat, List.dropLast_concat, Option.toList_some,
    List.singleton_append]

theorem length_backFirst (unread : List α) : (backFirst unread).length = unread.length := by
  rcases List.eq_nil_or_concat unread with rfl | ⟨zs, z, rfl⟩
  · rfl
  · rw [List.concat_eq_append, backFirst_concat, List.length_cons, List.length_append,
      List.length_singleton]

/-- What is left to read when the element that was read is exchanged with the last one. -/
theorem segment_backFirst (hindex : index ≤ right) (hright : right < a.length) :
    segment index right (swapAt a index right) = backFirst (segment (index + 1) (right + 1) a) := by
  have hget := getElem?_swapAt (show index < a.length by omega) hright
  by_cases hlast : index = right
  · rw [segment_of_le (by omega), segment_of_le (by omega)]
    rfl
  · have hz : a[right]? = some a[right] := List.getElem?_eq_getElem hright
    have hfront : (swapAt a index right)[index]? = some a[right] := by
      rw [hget, if_neg hlast, if_pos rfl, hz]
    have hrest : segment (index + 1) right (swapAt a index right) = segment (index + 1) right a :=
      segment_swapAt (by omega) hright (by omega) (by omega)
    rw [segment_cons hfront (by omega), hrest, segment_concat hz (by omega), backFirst_concat]

/-- The line when its first member goes to the end. -/
theorem segment_rotate (hleft : left < index) (hindex : index < a.length) :
    segment (left + 1) (index + 1) (swapAt a left index) = (segment left index a).rotate 1 := by
  have hget := getElem?_swapAt (show left < a.length by omega) hindex
  have hm : a[left]? = some a[left] := List.getElem?_eq_getElem (by omega)
  have hend : (swapAt a left index)[index]? = some a[left] := by
    rw [hget, if_pos rfl, hm]
  have hrest : segment (left + 1) index (swapAt a left index) = segment (left + 1) index a :=
    segment_swapAt (by omega) hindex (by omega) (by omega)
  rw [segment_concat hend hleft, hrest, segment_cons hm hleft, List.rotate_cons_succ,
    List.rotate_zero]

end BackFirst

section Conditions

variable {α : Type} [LinearOrder α]

/-- The first element below the pivot that is read, with the number of copies of the pivot
    before it and what is not read yet. -/
def firstSmaller (pivot : α) (copies : Nat) : List α → Option (Nat × α × List α)
  | [] => none
  | y :: unread =>
    if y < pivot then some (copies, y, unread)
    else if pivot < y then firstSmaller pivot copies (backFirst unread)
    else firstSmaller pivot (copies + 1) unread
termination_by unread => unread.length
decreasing_by
  all_goals simp only [length_backFirst, List.length_cons, Nat.lt_succ_self]

/-- The line in the middle, when all elements are read. -/
def lineUp (pivot : α) (line : List α) : List α → List α
  | [] => line
  | y :: unread =>
    if y < pivot then lineUp pivot (line.rotate 1) unread
    else if pivot < y then lineUp pivot line (backFirst unread)
    else lineUp pivot (line ++ [y]) unread
termination_by unread => unread.length
decreasing_by
  all_goals simp only [length_backFirst, List.length_cons, Nat.lt_succ_self]

/-- There is no element below the first one, or between the first one and the first smaller one
    that is read there is none, and the line in the middle is in order. -/
def KeepsOrder : List α → Prop
  | [] => True
  | first :: rest =>
    match firstSmaller first 1 rest with
    | none => True
    | some (copies, pivot, unread) =>
      (∀ z ∈ rest, pivot < z → first ≤ z) ∧
      (lineUp pivot (List.replicate copies first) unread).Pairwise (· ≤ ·)

end Conditions

variable {α : Type} [LinearOrder α] {a b : List α} {x y pivot : α} {lo hi left right index : Nat}

/-- One round of the loop with an element below the pivot. -/
theorem threeWayLoop_below (hpivot : a[lo]? = some pivot) (hy : a[index]? = some y)
    (hindex : index < right) (hleft : left ≤ index) (hbelow : y < pivot) (fuel : Nat) :
    threeWayLoop lo (fuel + 1) a left ((right : Int) - 1) index =
      threeWayLoop lo fuel (swapAt a left index) (left + 1 : Nat) ((right : Int) - 1)
        (index + 1 : Nat) := by
  have hlt := (List.getElem?_eq_some_iff.mp hy).1
  rw [threeWayLoop, if_pos (by omega), readAt_natCast hy, ok_bind, readAt_natCast hpivot, ok_bind,
    if_pos hbelow, swap_natCast (by omega) hlt, ok_bind]
  rfl

/-- One round of the loop with an element above the pivot. -/
theorem threeWayLoop_above (hpivot : a[lo]? = some pivot) (hy : a[index]? = some y)
    (hindex : index ≤ right) (hright : right < a.length) (habove : pivot < y) (fuel : Nat) :
    threeWayLoop lo (fuel + 1) a left (((right + 1 : Nat) : Int) - 1) index =
      threeWayLoop lo fuel (swapAt a index right) left ((right : Int) - 1) index := by
  have hlast : ((right + 1 : Nat) : Int) - 1 = right := by omega
  rw [threeWayLoop, hlast, if_pos (by omega), readAt_natCast hy, ok_bind, readAt_natCast hpivot,
    ok_bind, if_neg (lt_asymm habove), if_pos habove, swap_natCast (by omega) hright, ok_bind]

/-- One round of the loop with a copy of the pivot. -/
theorem threeWayLoop_equal (hpivot : a[lo]? = some pivot) (hy : a[index]? = some pivot)
    (hindex : index < right) (fuel : Nat) :
    threeWayLoop lo (fuel + 1) a left ((right : Int) - 1) index =
      threeWayLoop lo fuel a left ((right : Int) - 1) (index + 1 : Nat) := by
  rw [threeWayLoop, if_pos (by omega), readAt_natCast hy, ok_bind, readAt_natCast hpivot, ok_bind,
    if_neg (lt_irrefl pivot), if_neg (lt_irrefl pivot)]
  rfl

/-- What holds between two rounds once there is a new pivot: what comes before the line is below
    the pivot, and what was read and comes behind is above it. -/
structure Scan (lo hi left index right : Nat) (pivot : α) (a : List α) : Prop where
  bounds : lo < left ∧ left < index ∧ index ≤ right ∧ right ≤ hi ∧ hi ≤ a.length
  start : a[lo]? = some pivot
  below : Everywhere (lo + 1) left (· < pivot) a
  above : Everywhere right hi (pivot < ·) a

namespace Scan

theorem step_below (h : Scan lo hi left index right pivot a) (hindex : index < right)
    (hy : a[index]? = some y) (hbelow : y < pivot) :
    Scan lo hi (left + 1) (index + 1) right pivot (swapAt a left index) := by
  have hbounds := h.bounds
  have hget := getElem?_swapAt (show left < a.length by omega) (show index < a.length by omega)
  refine ⟨?_, ?_, h.below.swapAt_back (by omega) hy hbelow, h.above.congr fun i hle hlt => ?_⟩
  · rw [length_swapAt]
    omega
  · rw [hget, if_neg (by omega), if_neg (by omega)]
    exact h.start
  · rw [hget, if_neg (by omega), if_neg (by omega)]

theorem step_above (h : Scan lo hi left index (right + 1) pivot a) (hindex : index ≤ right)
    (hy : a[index]? = some y) (habove : pivot < y) :
    Scan lo hi left index right pivot (swapAt a index right) := by
  have hbounds := h.bounds
  have hget := getElem?_swapAt (show index < a.length by omega) (show right < a.length by omega)
  refine ⟨?_, ?_, h.below.congr fun i hle hlt => ?_,
    h.above.swapAt_front hindex (by omega) hy habove⟩
  · rw [length_swapAt]
    omega
  · rw [hget, if_neg (by omega), if_neg (by omega)]
    exact h.start
  · rw [hget, if_neg (by omega), if_neg (by omega)]

/-- The rest of the range is divided, and the line is as it should be. -/
theorem returns (h : Scan lo hi left index right pivot a) :
    ∃ (b : List α) (left' right' : Nat),
      Returns (fun fuel => threeWayLoop lo fuel a left ((right : Int) - 1) index)
        (b, (left' : Int), (right' : Int) - 1) ∧
      Rearranged (lo + 1) hi a b ∧ Scan lo hi left' right' right' pivot b ∧
      segment left' right' b = lineUp pivot (segment left index a) (segment index right a) := by
  induction hn : right - index generalizing a left index right with
  | zero =>
      have hbounds := h.bounds
      have hend : index = right := by omega
      refine ⟨a, left, right, ((returns_ok _).congr fun fuel => ?_).succ, Rearranged.refl _ _ _,
        hend ▸ h, ?_⟩
      · exact if_neg (by omega)
      · rw [hend, segment_of_le (Nat.le_refl right), lineUp]
  | succ n ih =>
      have hbounds := h.bounds
      have hlt : index < a.length := by omega
      have hy : a[index]? = some a[index] := List.getElem?_eq_getElem hlt
      have hunread := segment_cons hy (show index < right by omega)
      rcases lt_trichotomy a[index] pivot with hbelow | hequal | habove
      · -- The first member of the line goes to its end.
        have hstep := h.step_below (by omega) hy hbelow
        rcases ih hstep (by omega) with ⟨b, left', right', hreturns, hrearranged, hscan, hline⟩
        have hrest : segment (index + 1) right (swapAt a left index) =
            segment (index + 1) right a :=
          segment_swapAt (by omega) hlt (by omega) (by omega)
        refine ⟨b, left', right',
          (hreturns.congr (threeWayLoop_below h.start hy (by omega) (by omega) hbelow)).succ,
          (rearranged_swapAt (by omega) hlt (by omega) (by omega)).trans hrearranged, hscan, ?_⟩
        rw [hline, segment_rotate (by omega) hlt, hrest, hunread, lineUp, if_pos hbelow]
      · -- A copy of the pivot joins the line.
        rw [hequal] at hy hunread
        have hstep : Scan lo hi left (index + 1) right pivot a :=
          ⟨by omega, h.start, h.below, h.above⟩
        rcases ih hstep (by omega) with ⟨b, left', right', hreturns, hrearranged, hscan, hline⟩
        refine ⟨b, left', right',
          (hreturns.congr (threeWayLoop_equal h.start hy (by omega))).succ, hrearranged, hscan, ?_⟩
        rw [hline, segment_concat hy (by omega), hunread, lineUp, if_neg (lt_irrefl pivot),
          if_neg (lt_irrefl pivot)]
      · -- The element that is read next comes from the back.
        obtain ⟨last, rfl⟩ : ∃ last, right = last + 1 := ⟨right - 1, by omega⟩
        have hstep := h.step_above (by omega) hy habove
        rcases ih hstep (by omega) with ⟨b, left', right', hreturns, hrearranged, hscan, hline⟩
        have hsame : segment left index (swapAt a index last) = segment left index a :=
          segment_swapAt hlt (by omega) (by omega) (by omega)
        refine ⟨b, left', right',
          (hreturns.congr (threeWayLoop_above h.start hy (by omega) (by omega) habove)).succ,
          (rearranged_swapAt hlt (by omega) (by omega) (by omega)).trans hrearranged, hscan, ?_⟩
        rw [hline, segment_backFirst (by omega) (by omega), hsame, hunread, lineUp,
          if_neg (lt_asymm habove), if_pos habove]

end Scan

/-- What holds between two rounds while the pivot is the first element: what was read and not
    exchanged is a copy of it. -/
structure FirstScan (lo hi index right copies : Nat) (first : α) (a : List α) : Prop where
  bounds : lo < index ∧ index ≤ right ∧ right ≤ hi ∧ hi ≤ a.length
  start : a[lo]? = some first
  copies : segment lo index a = List.replicate copies first
  above : Everywhere right hi (first < ·) a

/-- What the loop leaves behind, depending on the first smaller element. -/
def LeftBehind (lo hi left right : Nat) (first : α) (b : List α) :
    Option (Nat × α × List α) → Prop
  | none => ∃ copies, left = lo ∧ FirstScan lo hi right right copies first b
  | some (copies, pivot, unread) =>
    0 < copies ∧ pivot < first ∧ Scan lo hi left right right pivot b ∧
      segment left right b = lineUp pivot (List.replicate copies first) unread

namespace FirstScan

variable {copies : Nat} {first : α}

/-- An element below the pivot becomes the pivot. -/
theorem step_below (h : FirstScan lo hi index right copies first a) (hindex : index < right)
    (hy : a[index]? = some y) (hbelow : y < first) :
    Scan lo hi (lo + 1) (index + 1) right y (swapAt a lo index) := by
  have hbounds := h.bounds
  have hget := getElem?_swapAt (show lo < a.length by omega) (show index < a.length by omega)
  refine ⟨?_, ?_, fun i hle hlt => by omega, fun i hle hlt z hz => ?_⟩
  · rw [length_swapAt]
    omega
  · rw [hget, if_neg (by omega), if_pos rfl, hy]
  · rw [hget, if_neg (by omega), if_neg (by omega)] at hz
    exact lt_trans hbelow (h.above i hle hlt z hz)

theorem step_equal (h : FirstScan lo hi index right copies first a) (hindex : index < right)
    (hy : a[index]? = some first) : FirstScan lo hi (index + 1) right (copies + 1) first a := by
  have hbounds := h.bounds
  refine ⟨by omega, h.start, ?_, h.above⟩
  rw [segment_concat hy (by omega), h.copies, List.replicate_succ']

theorem step_above (h : FirstScan lo hi index (right + 1) copies first a) (hindex : index ≤ right)
    (hy : a[index]? = some y) (habove : first < y) :
    FirstScan lo hi index right copies first (swapAt a index right) := by
  have hbounds := h.bounds
  have hget := getElem?_swapAt (show index < a.length by omega) (show right < a.length by omega)
  refine ⟨?_, ?_, ?_, h.above.swapAt_front hindex (by omega) hy habove⟩
  · rw [length_swapAt]
    omega
  · rw [hget, if_neg (by omega), if_neg (by omega)]
    exact h.start
  · rw [← h.copies]
    exact segment_swapAt (by omega) (by omega) (by omega) (by omega)

/-- There are copies, as the first element is one. -/
theorem copies_pos (h : FirstScan lo hi index right copies first a) : 0 < copies := by
  have hbounds := h.bounds
  have hlength := congrArg List.length h.copies
  rw [length_segment lo (by omega), List.length_replicate] at hlength
  omega

/-- The range is divided. -/
theorem returns (h : FirstScan lo hi index right copies first a) :
    ∃ (b : List α) (left' right' : Nat),
      Returns (fun fuel => threeWayLoop lo fuel a lo ((right : Int) - 1) index)
        (b, (left' : Int), (right' : Int) - 1) ∧
      Rearranged lo hi a b ∧
      LeftBehind lo hi left' right' first b
        (firstSmaller first copies (segment index right a)) := by
  induction hn : right - index generalizing a index right copies with
  | zero =>
      have hbounds := h.bounds
      have hend : index = right := by omega
      refine ⟨a, lo, right, ((returns_ok _).congr fun fuel => ?_).succ, Rearranged.refl _ _ _, ?_⟩
      · exact if_neg (by omega)
      · rw [hend, segment_of_le (Nat.le_refl right), firstSmaller]
        exact ⟨copies, rfl, hend ▸ h⟩
  | succ n ih =>
      have hbounds := h.bounds
      have hlt : index < a.length := by omega
      have hy : a[index]? = some a[index] := List.getElem?_eq_getElem hlt
      have hunread := segment_cons hy (show index < right by omega)
      rcases lt_trichotomy a[index] first with hbelow | hequal | habove
      · -- From here on this element is the pivot, and the copies are the line.
        rcases (h.step_below (by omega) hy hbelow).returns with
          ⟨b, left', right', hreturns, hrearranged, hscan, hline⟩
        have hrest : segment (index + 1) right (swapAt a lo index) = segment (index + 1) right a :=
          segment_swapAt (by omega) hlt (by omega) (by omega)
        refine ⟨b, left', right',
          (hreturns.congr (threeWayLoop_below h.start hy (by omega) (by omega) hbelow)).succ,
          (rearranged_swapAt (by omega) hlt (by omega) (by omega)).trans
            (hrearranged.mono (by omega) (Nat.le_refl hi)), ?_⟩
        rw [hunread, firstSmaller, if_pos hbelow]
        refine ⟨h.copies_pos, hbelow, hscan, ?_⟩
        rw [hline, segment_rotate (by omega) hlt, h.copies, List.rotate_replicate, hrest]
      · -- One copy more of the pivot.
        rw [hequal] at hy hunread
        rcases ih (h.step_equal (by omega) hy) (by omega) with
          ⟨b, left', right', hreturns, hrearranged, hleft⟩
        refine ⟨b, left', right',
          (hreturns.congr (threeWayLoop_equal h.start hy (by omega))).succ, hrearranged, ?_⟩
        rw [hunread, firstSmaller, if_neg (lt_irrefl first), if_neg (lt_irrefl first)]
        exact hleft
      · -- The element that is read next comes from the back.
        obtain ⟨last, rfl⟩ : ∃ last, right = last + 1 := ⟨right - 1, by omega⟩
        rcases ih (h.step_above (by omega) hy habove) (by omega) with
          ⟨b, left', right', hreturns, hrearranged, hleft⟩
        refine ⟨b, left', right',
          (hreturns.congr (threeWayLoop_above h.start hy (by omega) (by omega) habove)).succ,
          (rearranged_swapAt hlt (by omega) (by omega) (by omega)).trans hrearranged, ?_⟩
        rw [hunread, firstSmaller, if_neg (lt_asymm habove), if_pos habove]
        rwa [segment_backFirst (by omega) (by omega)] at hleft

end FirstScan

/-- The line has what was there at first, and copies of the pivot. -/
theorem mem_lineUp {line unread : List α} (h : x ∈ lineUp pivot line unread) :
    x ∈ line ∨ x = pivot := by
  induction line, unread using lineUp.induct pivot with
  | case1 line =>
      rw [lineUp] at h
      exact Or.inl h
  | case2 line y unread hbelow ih =>
      rw [lineUp, if_pos hbelow] at h
      exact (ih h).imp_left List.mem_rotate.mp
  | case3 line y unread hbelow habove ih =>
      rw [lineUp, if_neg hbelow, if_pos habove] at h
      exact ih h
  | case4 line y unread hbelow habove ih =>
      rw [lineUp, if_neg hbelow, if_neg habove] at h
      have hequal : y = pivot := le_antisymm (le_of_not_gt habove) (le_of_not_gt hbelow)
      rcases ih h with hmember | hsame
      · rcases List.mem_append.mp hmember with hmember | hmember
        · exact Or.inl hmember
        · exact Or.inr ((List.mem_singleton.mp hmember).trans hequal)
      · exact Or.inr hsame

theorem mem_lineUp_of_mem {line unread : List α} (h : x ∈ line) :
    x ∈ lineUp pivot line unread := by
  induction line, unread using lineUp.induct pivot with
  | case1 line =>
      rw [lineUp]
      exact h
  | case2 line y unread hbelow ih =>
      rw [lineUp, if_pos hbelow]
      exact ih (List.mem_rotate.mpr h)
  | case3 line y unread hbelow habove ih =>
      rw [lineUp, if_neg hbelow, if_pos habove]
      exact ih h
  | case4 line y unread hbelow habove ih =>
      rw [lineUp, if_neg hbelow, if_neg habove]
      exact ih (List.mem_append_left _ h)

/-- The parts before and behind the middle are sorted, each by itself. -/
structure PartsSorted (lo left right hi : Nat) (b result : List α) : Prop where
  rearranged : Rearranged lo hi b result
  middle : ∀ i, left ≤ i → i < right → result[i]? = b[i]?
  before : SortedRange lo left result
  behind : SortedRange right hi result
  everywhere_before : ∀ P : α → Prop, Everywhere lo left P b → Everywhere lo left P result
  everywhere_behind : ∀ P : α → Prop, Everywhere right hi P b → Everywhere right hi P result

/-- The two calls of quicksort. -/
theorem partsSorted_returns (hlo : lo ≤ left) (hmiddle : left ≤ right) (hright : right ≤ hi)
    (hhi : hi ≤ b.length) (hsize : hi < 2 ^ 31) :
    ∃ result, Returns (fun fuel => quickSortRange fuel b lo ((left : Int) - 1) >>= fun array =>
        quickSortRange fuel array right ((hi : Int) - 1)) result ∧
      PartsSorted lo left right hi b result := by
  rcases @quickSortRange_returns α _ b lo left (by omega) (by omega) with
    ⟨b', hbefore, hrearranged, hsorted⟩
  have hlength := hrearranged.length_eq
  rcases @quickSortRange_returns α _ b' right hi (by omega) (Or.inl hsize) with
    ⟨result, hbehind, hrearranged', hsorted'⟩
  have hsame : ∀ i, lo ≤ i → i < left → result[i]? = b'[i]? :=
    fun i _ hi => hrearranged'.outside i (by omega)
  have hsame' : ∀ i, right ≤ i → i < hi → b'[i]? = b[i]? :=
    fun i hi _ => hrearranged.outside i (by omega)
  refine ⟨result, hbefore.bind (f := fun array fuel => quickSortRange fuel array right _) hbehind,
    ⟨(hrearranged.mono (Nat.le_refl lo) (by omega)).trans
      (hrearranged'.mono (by omega) (Nat.le_refl hi)), fun i hle hlt => ?_, hsorted.congr hsame,
      hsorted', fun P h => (hrearranged.everywhere h).congr hsame,
      fun P h => hrearranged'.everywhere (h.congr hsame')⟩⟩
  rw [hrearranged'.outside i (by omega), hrearranged.outside i (by omega)]

theorem LeftBehind.bounds {first : α} {found : Option (Nat × α × List α)}
    (h : LeftBehind lo hi left right first b found) : lo ≤ left ∧ left ≤ right ∧ right ≤ hi := by
  cases found with
  | none =>
      rcases h with ⟨copies, rfl, hscan⟩
      have hbounds := hscan.bounds
      omega
  | some found =>
      have hbounds := h.2.2.1.bounds
      omega

/-- If no element is below the first one, its copies are in the middle, and the range is
    sorted. -/
theorem FirstScan.sortedRange {copies : Nat} {first : α} {result : List α}
    (h : FirstScan lo hi right right copies first b)
    (hparts : PartsSorted lo lo right hi b result) : SortedRange lo hi result := by
  have hbounds := h.bounds
  have hsegment : segment lo right result = List.replicate copies first := by
    rw [segment_congr hparts.middle, h.copies]
  have hmiddle : ∀ x ∈ segment lo right result, x = first := by
    intro x hx
    rw [hsegment] at hx
    exact List.eq_of_mem_replicate hx
  have habove := hparts.everywhere_behind _ h.above
  have hfrom : Everywhere lo hi (first ≤ ·) result := by
    intro i hle hlt z hz
    by_cases hin : i < right
    · exact le_of_eq (hmiddle z (mem_segment.mpr ⟨i, hle, hin, hz⟩)).symm
    · exact le_of_lt (habove i (by omega) hlt z hz)
  refine (SortedRange.iff_middle (Nat.le_refl lo) (by omega) hparts.before hparts.behind
    (fun i hle hlt => absurd hlt (Nat.not_lt_of_le hle)) hfrom).mpr ⟨?_, fun x hx => ?_⟩
  · rw [hsegment]
    exact List.pairwise_replicate.mpr (Or.inr (le_refl first))
  · rw [hmiddle x hx]
    exact habove.imp fun z => le_of_lt

/-- With a new pivot the range is sorted if the line is, and fits between the parts. -/
theorem Scan.sortedRange_iff {copies : Nat} {first : α} {rest unread result : List α}
    (h : Scan lo hi left right right pivot b) (hless : pivot < first) (hpos : 0 < copies)
    (hline : segment left right b = lineUp pivot (List.replicate copies first) unread)
    (hparts : PartsSorted lo left right hi b result)
    (hmembers : ∀ z, z ∈ segment lo hi result ↔ z ∈ first :: rest) :
    SortedRange lo hi result ↔ (∀ z ∈ rest, pivot < z → first ≤ z) ∧
      (lineUp pivot (List.replicate copies first) unread).Pairwise (· ≤ ·) := by
  have hbounds := h.bounds
  rw [← segment_congr hparts.middle] at hline
  have hmiddle : ∀ x ∈ segment left right result, x = first ∨ x = pivot := by
    intro x hx
    rw [hline] at hx
    exact (mem_lineUp hx).imp_left List.eq_of_mem_replicate
  have hmember : first ∈ segment left right result := by
    rw [hline]
    exact mem_lineUp_of_mem (List.mem_replicate.mpr ⟨by omega, rfl⟩)
  have hbelow : Everywhere lo left (· ≤ pivot) result := by
    refine hparts.everywhere_before _ fun i hle hlt z hz => ?_
    by_cases hstart : i = lo
    · rw [hstart, h.start] at hz
      cases hz
      exact le_refl _
    · exact le_of_lt (h.below i (by omega) hlt z hz)
  have habove := hparts.everywhere_behind _ h.above
  have hfrom : Everywhere left hi (pivot ≤ ·) result := by
    intro i hle hlt z hz
    by_cases hin : i < right
    · rcases hmiddle z (mem_segment.mpr ⟨i, hle, hin, hz⟩) with rfl | rfl
      · exact le_of_lt hless
      · exact le_refl z
    · exact le_of_lt (habove i (by omega) hlt z hz)
  rw [SortedRange.iff_middle (by omega) (by omega) hparts.before hparts.behind hbelow hfrom,
    hline, and_comm]
  refine and_congr_left fun _ => ?_
  rw [← hline]
  constructor
  · -- An element above the pivot is in the line or behind it.
    intro h z hz hpivot
    rcases mem_segment.mp ((hmembers z).mpr (List.mem_cons_of_mem _ hz)) with ⟨i, hle, hlt, hz'⟩
    by_cases hbefore : i < left
    · exact absurd hpivot (not_lt_of_ge (hbelow i hle hbefore z hz'))
    · by_cases hin : i < right
      · rcases hmiddle z (mem_segment.mpr ⟨i, by omega, hin, hz'⟩) with rfl | rfl
        · exact le_refl z
        · exact absurd hpivot (lt_irrefl z)
      · exact h first hmember i (by omega) hlt z hz'
  · -- Behind the line there are only elements above the pivot.
    intro h x hx i hle hlt z hz
    have hpivot := habove i hle hlt z hz
    rcases hmiddle x hx with rfl | rfl
    · rcases List.mem_cons.mp ((hmembers z).mp (mem_segment.mpr ⟨i, by omega, hlt, hz⟩)) with
        rfl | hrest
      · exact le_refl z
      · exact h z hrest hpivot
    · exact le_of_lt hpivot

theorem LeftBehind.sortedRange_iff {first : α} {rest result : List α}
    (h : LeftBehind lo hi left right first b (firstSmaller first 1 rest))
    (hparts : PartsSorted lo left right hi b result)
    (hmembers : ∀ z, z ∈ segment lo hi result ↔ z ∈ first :: rest) :
    SortedRange lo hi result ↔ KeepsOrder (first :: rest) := by
  rw [KeepsOrder]
  cases hfirst : firstSmaller first 1 rest with
  | none =>
      rw [hfirst] at h
      rcases h with ⟨copies, rfl, hscan⟩
      exact iff_of_true (hscan.sortedRange hparts) trivial
  | some found =>
      rw [hfirst] at h
      rcases h with ⟨hpos, hless, hscan, hline⟩
      exact hscan.sortedRange_iff hless hpos hline hparts hmembers

/-- The range is divided and its parts are sorted. -/
theorem quickSort3Way_returns (lo : Nat) (hhi : hi ≤ a.length)
    (hsize : hi < 2 ^ 31 ∨ hi ≤ lo + 1) :
    ∃ result, Returns (fun fuel => quickSort3Way fuel a lo ((hi : Int) - 1)) result ∧
      Rearranged lo hi a result ∧
      (SortedRange lo hi result ↔ KeepsOrder (segment lo hi a)) := by
  by_cases hshort : hi ≤ lo + 1
  · refine ⟨a, (returns_ok _).congr fun fuel => if_pos (by omega), Rearranged.refl lo hi a,
      iff_of_true (SortedRange.of_le hshort) ?_⟩
    have hlength := length_segment lo hhi
    match hsegment : segment lo hi a with
    | [] => exact trivial
    | [x] =>
        rw [KeepsOrder, firstSmaller]
        trivial
    | x :: y :: l =>
        rw [hsegment, List.length_cons, List.length_cons] at hlength
        omega
  · have hstart : a[lo]? = some a[lo] := List.getElem?_eq_getElem (by omega)
    have hone : segment lo (lo + 1) a = [a[lo]] := by
      rw [segment_cons hstart (Nat.lt_succ_self lo), segment_of_le (Nat.le_refl _)]
    -- The first round reads the first element itself.
    have hscan : FirstScan lo hi (lo + 1) hi 1 a[lo] a :=
      ⟨by omega, hstart, hone, fun i hle hlt => absurd hlt (Nat.not_lt_of_le hle)⟩
    rcases hscan.returns with ⟨b, left, right, hloop, hrearranged, hleft⟩
    have hlength := hrearranged.length_eq
    have hbounds := hleft.bounds
    rcases partsSorted_returns hbounds.1 hbounds.2.1 hbounds.2.2 (show hi ≤ b.length by omega)
      (by omega) with
      ⟨result, hreturns, hparts⟩
    have hall := hrearranged.trans hparts.rearranged
    refine ⟨result, ?_, hall, ?_⟩
    · have hfirst : Returns (fun fuel => threeWayLoop lo fuel a lo ((hi : Int) - 1) lo)
          (b, (left : Int), (right : Int) - 1) :=
        (hloop.congr (threeWayLoop_equal hstart hstart (by omega))).succ
      have hnext : (right : Int) - 1 + 1 = right := by omega
      have hrounds := hfirst.bind (f := fun s fuel => quickSortRange fuel s.1 lo (s.2.1 - 1) >>=
        fun array => quickSortRange fuel array (s.2.2 + 1) ((hi : Int) - 1))
        (by simpa only [hnext] using hreturns)
      exact hrounds.congr fun fuel => if_neg (by omega)
    · have hsegment := segment_cons hstart (show lo < hi by omega)
      rw [hsegment]
      refine hleft.sortedRange_iff hparts fun z => ?_
      rw [← hsegment]
      exact hall.segment_perm.mem_iff

/-- The range is rearranged, and nothing outside of it. It is sorted, as it is by quicksort,
    exactly when the line in the middle keeps the order, and unless quicksort itself fails as the
    range ends at the largest `int`. -/
theorem quickSort3Way_sorts_iff (array : List Text) (lo hi : Nat) (hhi : hi ≤ array.length)
    (hint : hi ≤ 2 ^ 31) :
    (hi < 2 ^ 31 → ∃ result,
      Returns (fun fuel => quickSort3Way fuel array lo ((hi : Int) - 1)) result ∧
        Rearranged lo hi array result) ∧
    ((∃ result, Returns (fun fuel => quickSort3Way fuel array lo ((hi : Int) - 1)) result ∧
        Rearranged lo hi array result ∧ SortedRange lo hi result ∧
        Returns (fun fuel => quickSortRange fuel array lo ((hi : Int) - 1)) result) ↔
      (hi < 2 ^ 31 ∨ hi ≤ lo + 1) ∧ KeepsOrder (segment lo hi array)) := by
  refine ⟨fun hsize => ?_, fun h => ?_, fun h => ?_⟩
  · rcases quickSort3Way_returns lo hhi (Or.inl hsize) with ⟨result, hreturns, hrearranged, _⟩
    exact ⟨result, hreturns, hrearranged⟩
  · -- Quicksort returned, so the range does not end at the largest `int`.
    rcases h with ⟨result, hreturns, hrearranged, hsorted, hagrees⟩
    have hsize : hi < 2 ^ 31 ∨ hi ≤ lo + 1 := by
      by_contra hlong
      rcases hagrees with ⟨n, hn⟩
      have hlast : (hi : Int) - 1 = ((hi - 1 : Nat) : Int) := by omega
      refine quickSortRange_ne_ok (by omega) (by omega) n result (hlast ▸ hn n (Nat.le_refl n))
    rcases quickSort3Way_returns lo hhi hsize with ⟨result', hreturns', _, hsorted'⟩
    rw [hreturns'.unique hreturns] at hsorted'
    exact ⟨hsize, hsorted'.mp hsorted⟩
  · -- Both results are sorted, and there is only one way to sort the range.
    rcases quickSort3Way_returns lo hhi h.1 with ⟨result, hreturns, hrearranged, hsorted⟩
    rcases @quickSortRange_returns Text _ array lo hi hhi h.1 with
      ⟨result', hreturns', hrearranged', hsorted'⟩
    refine ⟨result, hreturns, hrearranged, hsorted.mpr h.2, ?_⟩
    rw [hrearranged.eq_of_sorted hrearranged' (hsorted.mpr h.2) hsorted']
    exact hreturns'

theorem quickSort3Way_sorts_iff_four : ∃ result,
    Returns (fun fuel => quickSort3Way fuel ([[98], [97], [99], [98]] : List Text) 0 3) result ∧
      SortedRange 0 4 result := by
  have hfirst : firstSmaller ([98] : Text) 1 [[97], [99], [98]] = some (1, [97], [[99], [98]]) := by
    decide +kernel
  have hline : lineUp ([97] : Text) [[98]] [[99], [98]] = [[98]] := by
    decide +kernel
  have hkeeps : KeepsOrder ([[98], [97], [99], [98]] : List Text) := by
    rw [KeepsOrder, hfirst]
    refine ⟨by decide, ?_⟩
    rw [List.replicate_one, hline]
    exact List.pairwise_singleton _ _
  have hsorts := quickSort3Way_sorts_iff [[98], [97], [99], [98]] 0 4 (by decide) (by decide)
  rcases hsorts.2.mpr ⟨by decide, hkeeps⟩ with ⟨result, hreturns, _, hsorted, _⟩
  exact ⟨result, hreturns, hsorted⟩

/-- The second copy of the new pivot is in line behind the old one. -/
theorem not_quickSort3Way_sorts : ¬∀ (array : List Text) (lo hi : Nat), hi ≤ array.length →
    ∃ result, Returns (fun fuel => quickSort3Way fuel array lo ((hi : Int) - 1)) result ∧
      Rearranged lo hi array result ∧ SortedRange lo hi result ∧
      Returns (fun fuel => quickSortRange fuel array lo ((hi : Int) - 1)) result := by
  intro h
  rcases h [[98], [97], [97]] 0 3 (by decide) with ⟨result, hreturns, _, hsorted, _⟩
  have hresult : Returns (fun fuel => quickSort3Way fuel ([[98], [97], [97]] : List Text) (0 : Nat)
      (((3 : Nat) : Int) - 1)) [[97], [98], [97]] := by
    refine ⟨8, fun m hm => ?_⟩
    obtain ⟨n, rfl⟩ := Nat.exists_eq_add_of_le' hm
    rfl
  rw [hreturns.unique hresult] at hsorted
  exact absurd (hsorted 1 2 (by decide) (by decide) (by decide) [98] rfl [97] rfl) (by decide)

end SortTool

end CodingChallenges
