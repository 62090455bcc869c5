import CodingChallenges.SortTool.Vector

/-!
# Merge Sort

`merge` and `merge_sort` of `MergeSort.cpp`.

That a sort is stable cannot be seen in the strings themselves, as equal strings are the
same. So the elements of the vector are of any type here, and what the algorithm compares
is a key of theirs, the string. For a vector of plain strings the key is the string itself.

The two halves of a range are sorted one after the other and then merged: they are copied
to the auxiliary vector, and from there the smaller of the two first elements that are left
is written back, the one of the left half when neither is smaller. What is left of the
halves, merged, comes behind what is already written.

## Main definitions

* `copyRange`, `mergeStep`, `merge`, `mergeSortRange`, `mergeSort`: The algorithm.
* `Merged`: What holds between two rounds of the loop that merges.
* `StablySorted`: A range is the stable sort of what it was.

## Theorems

* `filter_mergeSort`: Elements with the same key keep their order.
* `Merged.step`: One round of the loop that merges.
* `merge_returns`: Two halves are merged.
* `mergeSortRange_returns`: A range is sorted.
* `mergeSort_stable`: A vector is sorted, and elements with the same key keep their order.
-/

namespace CodingChallenges

namespace SortTool

section Algorithm

variable {α κ : Type} [LinearOrder κ]

/-- A round of the loop that copies the range to the auxiliary vector. -/
def copyElement (array : List α) (index : Int) (auxiliary : List α) : Except Fault (List α) := do
  let x ← readAt array index
  writeAt auxiliary index x

/-- The range is copied to the auxiliary array. -/
def copyRange (array : List α) (startIndex endIndex : Int) (auxiliary : List α) :
    Except Fault (List α) :=
  forRange (copyElement array) startIndex (endIndex + 1 - startIndex).toNat auxiliary

/-- The variables of the loop that merges. -/
structure Merging (α : Type) where
  array : List α
  left : Int
  right : Int

/-- The next element of the left half is written. -/
def takeLeft (auxiliary : List α) (index : Int) (s : Merging α) : Except Fault (Merging α) := do
  let x ← readAt auxiliary s.left
  let array ← writeAt s.array index x
  return { array, left := s.left + 1, right := s.right }

/-- The next element of the right half is written. -/
def takeRight (auxiliary : List α) (index : Int) (s : Merging α) : Except Fault (Merging α) := do
  let x ← readAt auxiliary s.right
  let array ← writeAt s.array index x
  return { array, left := s.left, right := s.right + 1 }

/-- One round of the loop that merges. -/
def mergeStep (key : α → κ) (auxiliary : List α) (midpointIndex endIndex index : Int)
    (s : Merging α) : Except Fault (Merging α) :=
  if midpointIndex < s.left then takeRight auxiliary index s
  else if endIndex < s.right then takeLeft auxiliary index s
  else do
    let right ← readAt auxiliary s.right
    let left ← readAt auxiliary s.left
    if key right < key left then takeRight auxiliary index s else takeLeft auxiliary index s

/-- The vector and the auxiliary vector. -/
def merge (key : α → κ) (array auxiliary : List α) (startIndex midpointIndex endIndex : Int) :
    Except Fault (List α × List α) := do
  let auxiliary ← copyRange array startIndex endIndex auxiliary
  let s ← forRange (mergeStep key auxiliary midpointIndex endIndex) startIndex
    (endIndex + 1 - startIndex).toNat { array, left := startIndex, right := midpointIndex + 1 }
  return (s.array, auxiliary)

/-- Both halves are sorted, then merged. -/
def mergeSortRange (key : α → κ) :
    Nat → List α → List α → Int → Int → Except Fault (List α × List α)
  | 0, _, _, _, _ => .error .outOfFuel
  | fuel + 1, array, auxiliary, startIndex, endIndex =>
    if endIndex ≤ startIndex then .ok (array, auxiliary)
    else
      -- The difference is positive, so it is rounded down in the source too.
      let midpointIndex := startIndex + (endIndex - startIndex) / 2
      mergeSortRange key fuel array auxiliary startIndex midpointIndex >>= fun s =>
        mergeSortRange key fuel s.1 s.2 (midpointIndex + 1) endIndex >>= fun s =>
          merge key s.1 s.2 startIndex midpointIndex endIndex

/-- The size is converted to `int`. Less one, that of an empty vector is -1. -/
def mergeSort [Inhabited α] (key : α → κ) (fuel : Nat) (array : List α) :
    Except Fault (List α) := do
  let s ← mergeSortRange key fuel array (List.replicate array.length default) 0
    (toInt (array.length - 1))
  return s.1

end Algorithm

variable {α κ : Type} [LinearOrder κ] {key : α → κ} {a b auxiliary : List α}

/-- The order of the elements by their keys. -/
def atMost (key : α → κ) (x y : α) : Bool :=
  decide (key x ≤ key y)

theorem atMost_trans (x y z : α) (hxy : atMost key x y = true) (hyz : atMost key y z = true) :
    atMost key x z = true :=
  decide_eq_true (le_trans (of_decide_eq_true hxy) (of_decide_eq_true hyz))

theorem atMost_total (x y : α) : (atMost key x y || atMost key y x) = true := by
  rw [Bool.or_eq_true]
  exact (le_total (key x) (key y)).imp decide_eq_true decide_eq_true

/-- Elements with the same key keep their order. -/
theorem filter_mergeSort {p : α → Bool} {k : κ} (hp : ∀ x, p x = true → key x = k) (l : List α) :
    (l.mergeSort (atMost key)).filter p = l.filter p := by
  have hsame : (l.filter p).Pairwise (atMost key · ·) := by
    refine List.pairwise_of_forall_mem_list ?_
    intro x hx y hy
    have hx' := hp x (List.mem_filter.mp hx).2
    have hy' := hp y (List.mem_filter.mp hy).2
    exact decide_eq_true (le_of_eq (hx'.trans hy'.symm))
  have hsublist := (List.sublist_mergeSort atMost_trans atMost_total hsame
    List.filter_sublist).filter p
  rw [List.filter_filter] at hsublist
  simp only [Bool.and_self] at hsublist
  have hlength := ((List.mergeSort_perm l (atMost key)).filter p).length_eq
  exact (hsublist.eq_of_length hlength.symm).symm

/-- A list of at least two elements is divided, sorted and merged. -/
theorem mergeSort_halves (le : α → α → Bool) {l : List α} (h : 2 ≤ l.length) :
    l.mergeSort le = List.merge ((l.take ((l.length + 1) / 2)).mergeSort le)
      ((l.drop ((l.length + 1) / 2)).mergeSort le) le := by
  match l with
  | [] => exact absurd h (Nat.not_succ_le_zero 1)
  | [x] => exact absurd h (Nat.not_succ_le_self 1)
  | x :: y :: l =>
      rw [List.mergeSort]
      simp only [List.MergeSort.Internal.splitInTwo_fst, List.MergeSort.Internal.splitInTwo_snd]

/-- What holds between two rounds of the loop that merges: how far the halves are read, that
    nothing outside of the range is written, and that what is left of the halves, merged, comes
    behind what is written. -/
structure Merged (key : α → κ) (a auxiliary : List α) (lo mid hi index left right : Nat)
    (b : List α) : Prop where
  bounds : lo ≤ left ∧ left ≤ mid ∧ mid ≤ right ∧ right ≤ hi
  count : left + right = index + mid
  length : b.length = a.length
  outside : ∀ i, i < lo ∨ index ≤ i → b[i]? = a[i]?
  merged : segment lo index b ++
      List.merge (segment left mid auxiliary) (segment right hi auxiliary) (atMost key) =
    List.merge (segment lo mid auxiliary) (segment mid hi auxiliary) (atMost key)

namespace Merged

variable {lo mid hi index left right : Nat}

/-- The first element of what is left is written. -/
theorem write {left' right' : Nat} {x : α}
    (h : Merged key a auxiliary lo mid hi index left right b) (hindex : index < b.length)
    (hbounds : lo ≤ left' ∧ left' ≤ mid ∧ mid ≤ right' ∧ right' ≤ hi)
    (hcount : left' + right' = left + right + 1)
    (hnext : List.merge (segment left mid auxiliary) (segment right hi auxiliary) (atMost key) =
      x :: List.merge (segment left' mid auxiliary) (segment right' hi auxiliary) (atMost key)) :
    Merged key a auxiliary lo mid hi (index + 1) left' right' (b.set index x) := by
  have hbounds' := h.bounds
  have hcount' := h.count
  refine ⟨hbounds, by omega, ?_, fun i hi => ?_, ?_⟩
  · rw [List.length_set]
    exact h.length
  · rw [List.getElem?_set_ne (by omega)]
    exact h.outside i (by omega)
  · have hwritten : (b.set index x)[index]? = some x := List.getElem?_set_self hindex
    have hbefore : segment lo index (b.set index x) = segment lo index b :=
      segment_congr fun i _ hi => List.getElem?_set_ne (by omega)
    rw [segment_concat hwritten (by omega), hbefore, List.append_assoc, List.singleton_append,
      ← hnext]
    exact h.merged

/-- The next element of the left half is written, if it is the first of what is left. -/
theorem takeLeft {x : α} (h : Merged key a auxiliary lo mid hi index left right b)
    (hindex : index < b.length) (hleft : left < mid) (hx : auxiliary[left]? = some x)
    (hnext : List.merge (segment left mid auxiliary) (segment right hi auxiliary) (atMost key) =
      x :: List.merge (segment (left + 1) mid auxiliary) (segment right hi auxiliary)
        (atMost key)) :
    ∃ b', SortTool.takeLeft auxiliary index { array := b, left, right } =
        .ok { array := b', left := (left + 1 : Nat), right } ∧
      Merged key a auxiliary lo mid hi (index + 1) (left + 1) right b' := by
  have hbounds := h.bounds
  refine ⟨b.set index x, ?_, h.write hindex (by omega) (by omega) hnext⟩
  rw [SortTool.takeLeft, readAt_natCast hx, ok_bind, writeAt_natCast x hindex]
  rfl

/-- The next element of the right half is written, if it is the first of what is left. -/
theorem takeRight {x : α} (h : Merged key a auxiliary lo mid hi index left right b)
    (hindex : index < b.length) (hright : right < hi) (hx : auxiliary[right]? = some x)
    (hnext : List.merge (segment left mid auxiliary) (segment right hi auxiliary) (atMost key) =
      x :: List.merge (segment left mid auxiliary) (segment (right + 1) hi auxiliary)
        (atMost key)) :
    ∃ b', SortTool.takeRight auxiliary index { array := b, left, right } =
        .ok { array := b', left, right := (right + 1 : Nat) } ∧
      Merged key a auxiliary lo mid hi (index + 1) left (right + 1) b' := by
  have hbounds := h.bounds
  refine ⟨b.set index x, ?_, h.write hindex (by omega) (by omega) hnext⟩
  rw [SortTool.takeRight, readAt_natCast hx, ok_bind, writeAt_natCast x hindex]
  rfl

/-- One round writes the first element of what is left of the halves, merged. -/
theorem step (h : Merged key a auxiliary lo mid hi index left right b) (hindex : index < hi)
    (hhi : hi ≤ a.length) (hauxiliary : auxiliary.length = a.length) :
    ∃ (b' : List α) (left' right' : Nat),
      mergeStep key auxiliary ((mid : Int) - 1) ((hi : Int) - 1) index
        { array := b, left, right } = .ok { array := b', left := left', right := right' } ∧
      Merged key a auxiliary lo mid hi (index + 1) left' right' b' := by
  have hbounds := h.bounds
  have hcount := h.count
  have hlength := h.length
  have hlt : index < b.length := by omega
  have hleft : left < mid → ∃ x, auxiliary[left]? = some x :=
    fun _ => ⟨_, List.getElem?_eq_getElem (by omega)⟩
  have hright : right < hi → ∃ x, auxiliary[right]? = some x :=
    fun _ => ⟨_, List.getElem?_eq_getElem (by omega)⟩
  -- As the range is not written to its end, something is left of one of the halves.
  rw [mergeStep]
  dsimp only
  by_cases hleftEnd : left < mid
  · rcases hleft hleftEnd with ⟨x, hx⟩
    have hsegment := segment_cons hx hleftEnd
    rw [if_neg (by omega)]
    by_cases hrightEnd : right < hi
    · rcases hright hrightEnd with ⟨y, hy⟩
      have hsegment' := segment_cons hy hrightEnd
      rw [if_neg (by omega), readAt_natCast hy, ok_bind, readAt_natCast hx, ok_bind]
      by_cases hless : key y < key x
      · -- The right element is written only if it is smaller, which keeps the sort stable.
        have hnot : ¬atMost key x y = true := fun hle => not_lt_of_ge (of_decide_eq_true hle) hless
        rcases h.takeRight hlt hrightEnd hy (by
          rw [hsegment, hsegment', List.cons_merge_cons_neg _ _ _ hnot]) with ⟨b', hstep, hmerged⟩
        exact ⟨b', left, right + 1, (if_pos hless).trans hstep, hmerged⟩
      · have hle : atMost key x y = true := decide_eq_true (le_of_not_gt hless)
        rcases h.takeLeft hlt hleftEnd hx (by
          rw [hsegment, hsegment', List.cons_merge_cons_pos _ _ _ hle]) with ⟨b', hstep, hmerged⟩
        exact ⟨b', left + 1, right, (if_neg hless).trans hstep, hmerged⟩
    · rw [if_pos (by omega)]
      rcases h.takeLeft hlt hleftEnd hx (by
        rw [segment_of_le (by omega : hi ≤ right), List.merge_right, List.merge_right, hsegment])
        with ⟨b', hstep, hmerged⟩
      exact ⟨b', left + 1, right, hstep, hmerged⟩
  · rcases hright (by omega) with ⟨y, hy⟩
    rw [if_pos (by omega)]
    rcases h.takeRight hlt (by omega) hy (by
      rw [segment_of_le (by omega : mid ≤ left), List.nil_merge, List.nil_merge,
        segment_cons hy (by omega)]) with ⟨b', hstep, hmerged⟩
    exact ⟨b', left, right + 1, hstep, hmerged⟩

end Merged

/-- The range is copied. -/
theorem copyRange_returns {lo hi : Nat} (hlo : lo ≤ hi) (hhi : hi ≤ a.length)
    (hauxiliary : auxiliary.length = a.length) :
    ∃ auxiliary', copyRange a lo ((hi : Int) - 1) auxiliary = .ok auxiliary' ∧
      auxiliary'.length = a.length ∧ ∀ i, lo ≤ i → i < hi → auxiliary'[i]? = a[i]? := by
  rcases forRange_write (copyElement a) (fun i => a[i]?) hlo
    (by omega : hi ≤ auxiliary.length) (by
      intro i copy hle hlt hlength
      have hlt' : i < a.length := by omega
      refine ⟨a[i], List.getElem?_eq_getElem hlt', ?_⟩
      rw [copyElement, readAt_natCast (List.getElem?_eq_getElem hlt'), ok_bind,
        writeAt_natCast _ (by omega)]) with ⟨auxiliary', hloop, hlength, _, hcopied⟩
  refine ⟨auxiliary', ?_, hlength.trans hauxiliary, hcopied⟩
  rw [copyRange, rounds_eq]
  exact hloop

/-- Two halves of a range are merged, and what is outside of the range stays. -/
theorem merge_returns (key : α → κ) {lo mid hi : Nat} (hlo : lo ≤ mid) (hmid : mid ≤ hi)
    (hhi : hi ≤ a.length) (hauxiliary : auxiliary.length = a.length) :
    ∃ b auxiliary', merge key a auxiliary lo ((mid : Int) - 1) ((hi : Int) - 1) =
        .ok (b, auxiliary') ∧ b.length = a.length ∧ auxiliary'.length = a.length ∧
      (∀ i, i < lo ∨ hi ≤ i → b[i]? = a[i]?) ∧
      segment lo hi b = List.merge (segment lo mid a) (segment mid hi a) (atMost key) := by
  have hright : (mid : Int) - 1 + 1 = mid := by omega
  rcases copyRange_returns (hlo.trans hmid) hhi hauxiliary with ⟨copy, hcopy, hlength, hcopied⟩
  have hstart : Merged key a copy lo mid hi lo lo mid a := by
    refine ⟨by omega, rfl, rfl, fun i _ => rfl, ?_⟩
    rw [segment_of_le (Nat.le_refl lo), List.nil_append]
  rcases forRange_invariant (mergeStep key copy ((mid : Int) - 1) ((hi : Int) - 1))
    (fun index s => ∃ (b : List α) (left right : Nat), s = { array := b, left, right } ∧
      Merged key a copy lo mid hi index left right b)
    lo (hi - lo) ⟨a, lo, mid, rfl, hstart⟩
    (by
      rintro i s hle hlt ⟨b, left, right, rfl, hmerged⟩
      rcases hmerged.step (by omega) hhi hlength with ⟨b', left', right', hstep, hmerged'⟩
      exact ⟨_, hstep, b', left', right', rfl, hmerged'⟩) with
    ⟨s, hloop, b, left, right, rfl, hmerged⟩
  have hend : lo + (hi - lo) = hi := by omega
  rw [hend] at hmerged
  have hbounds := hmerged.bounds
  have hcount := hmerged.count
  refine ⟨b, copy, ?_, hmerged.length, hlength, hmerged.outside, ?_⟩
  · rw [merge, hcopy, ok_bind, rounds_eq, hright, hloop]
    rfl
  · -- Nothing is left of the halves.
    have hall := hmerged.merged
    rw [segment_of_le (by omega : mid ≤ left), segment_of_le (by omega : hi ≤ right),
      List.nil_merge, List.append_nil] at hall
    rw [hall, segment_congr fun i hle hlt => hcopied i hle (by omega),
      segment_congr fun i hle hlt => hcopied i (by omega) hlt]

/-- The range is the stable sort of what it was, and what is outside of it is the same. -/
structure StablySorted (key : α → κ) (lo hi : Nat) (a b : List α) : Prop where
  length : b.length = a.length
  outside : ∀ i, i < lo ∨ hi ≤ i → b[i]? = a[i]?
  sorted : segment lo hi b = (segment lo hi a).mergeSort (atMost key)

/-- A range is sorted: its halves are, and then they are merged. -/
theorem mergeSortRange_returns {lo hi : Nat} (hhi : hi ≤ a.length)
    (hauxiliary : auxiliary.length = a.length) :
    ∃ b auxiliary',
      Returns (fun fuel => mergeSortRange key fuel a auxiliary lo ((hi : Int) - 1))
        (b, auxiliary') ∧
      auxiliary'.length = a.length ∧ StablySorted key lo hi a b := by
  induction hn : hi - lo using Nat.strongRecOn generalizing a auxiliary lo hi with
  | _ n ih =>
      by_cases hshort : hi ≤ lo + 1
      · refine ⟨a, auxiliary, ((returns_ok _).congr fun fuel => if_pos (by omega)).succ, hauxiliary,
          rfl, fun i _ => rfl, ?_⟩
        have hlength := length_segment lo hhi
        match hsegment : segment lo hi a with
        | [] => exact List.mergeSort_nil.symm
        | [x] => exact (List.mergeSort_singleton x).symm
        | x :: y :: l =>
            rw [hsegment, List.length_cons, List.length_cons] at hlength
            omega
      · obtain ⟨mid, hmid⟩ : ∃ mid, mid = lo + (hi - lo + 1) / 2 := ⟨_, rfl⟩
        have hmidpoint : (lo : Int) + ((hi : Int) - 1 - lo) / 2 = (mid : Int) - 1 := by omega
        have hnext : (mid : Int) - 1 + 1 = mid := by omega
        rcases ih (mid - lo) (by omega) (by omega : mid ≤ a.length) hauxiliary rfl with
          ⟨b, auxiliary₁, hleft, hlength₁, hsortedLeft⟩
        have hlengthLeft := hsortedLeft.length
        rcases ih (hi - mid) (by omega) (by omega : hi ≤ b.length)
          (hlength₁.trans hlengthLeft.symm) rfl with ⟨c, auxiliary₂, hright, hlength₂, hsortedRight⟩
        have hlengthRight := hsortedRight.length
        rcases merge_returns key (by omega : lo ≤ mid) (by omega : mid ≤ hi)
          (by omega : hi ≤ c.length) (by omega : auxiliary₂.length = c.length) with
          ⟨d, auxiliary₃, hmerge, hlength₃, hlength₄, houtside, hmerged⟩
        refine ⟨d, auxiliary₃, ?_, by omega, by omega, fun i hi' => ?_, ?_⟩
        · have hrounds := hleft.bind (f := fun s fuel =>
              mergeSortRange key fuel s.1 s.2 mid ((hi : Int) - 1) >>= fun s =>
                merge key s.1 s.2 lo ((mid : Int) - 1) ((hi : Int) - 1))
            (hright.andThen hmerge)
          refine (hrounds.congr fun fuel => ?_).succ
          rw [mergeSortRange, if_neg (by omega)]
          dsimp only
          rw [hmidpoint, hnext]
        · rw [houtside i hi', hsortedRight.outside i (by omega), hsortedLeft.outside i (by omega)]
        · -- The halves are those of the list that is sorted.
          have hlength := length_segment lo hhi
          have hhalf : (hi - lo + 1) / 2 = mid - lo := by omega
          have hleftHalf : segment lo mid c = (segment lo mid a).mergeSort (atMost key) := by
            rw [segment_congr fun i _ hlt => hsortedRight.outside i (by omega), hsortedLeft.sorted]
          have hrightHalf : segment mid hi c = (segment mid hi a).mergeSort (atMost key) := by
            rw [hsortedRight.sorted, segment_congr fun i hle _ => hsortedLeft.outside i (by omega)]
          have hhalves := mergeSort_halves (atMost key) (l := segment lo hi a) (by omega)
          rw [hlength, hhalf, take_segment (by omega), drop_segment (by omega)] at hhalves
          rw [hmerged, hleftHalf, hrightHalf, hhalves]

/-- Every vector of fewer than 2^31 strings is sorted: the algorithm ends, every index it uses
    is within the vector or the auxiliary one, and the result has the same elements, in the
    order of their keys, those with the same key in the order they had. -/
theorem mergeSort_stable {α : Type} [Inhabited α] (key : α → Text) (array : List α)
    (h : array.length < 2 ^ 31) :
    ∃ result, Returns (fun fuel => mergeSort key fuel array) result ∧ result.Perm array ∧
      result.Pairwise (fun x y => key x ≤ key y) ∧
      ∀ k, result.filter (key · = k) = array.filter (key · = k) := by
  rcases @mergeSortRange_returns α Text _ key array _ 0 array.length (Nat.le_refl _)
    (List.length_replicate (n := array.length) (a := default)) with
    ⟨result, auxiliary, hreturns, hlength, hsorted⟩
  have hresult : result = array.mergeSort (atMost key) := by
    have hall := hsorted.sorted
    rwa [segment_zero_length, ← hsorted.length, segment_zero_length] at hall
  refine ⟨result, (hreturns.andThen (f := fun s => .ok s.1) rfl).congr fun fuel => ?_, ?_, ?_, ?_⟩
  · rw [mergeSort, toInt_eq (by omega) (by omega)]
    rfl
  · rw [hresult]
    exact List.mergeSort_perm array (atMost key)
  · rw [hresult]
    exact (List.pairwise_mergeSort atMost_trans atMost_total array).imp of_decide_eq_true
  · intro k
    rw [hresult]
    exact filter_mergeSort (fun x => of_decide_eq_true) array

/-- The two equal strings keep their order. -/
theorem mergeSort_stable_three : ∃ result,
    Returns (fun fuel => mergeSort Prod.snd fuel
      ([(0, [98]), (1, [97]), (2, [98])] : List (Nat × Text))) result ∧
    result.filter (·.2 = [98]) = [(0, [98]), (2, [98])] := by
  rcases mergeSort_stable Prod.snd ([(0, [98]), (1, [97]), (2, [98])] : List (Nat × Text))
    (by decide) with ⟨result, hreturns, _, _, hfilter⟩
  exact ⟨result, hreturns, (hfilter [98]).trans (by decide)⟩

end SortTool

end CodingChallenges
