import CodingChallenges.SortTool.RadixPass

/-!
# Radix Sort

The recursion of `radix_sort` in `RadixSort.cpp`.

Behind a pass each bucket is sorted by the next byte, except the first, whose strings have
ended. So after the call for a byte the strings of the range are in order from this byte
on, whatever stands before it, and after the call for the first byte they are in order.

A call for a byte is only made if there is a string that has this byte, or ends in front
of it. So it is not made for ever.

The numbers of the buckets have 32 bits. If all of the strings begin with the same byte and
there are 2^32 of them, the bucket seems to be empty, and the strings stay as they are.

## Main definitions

* `sortBucket`, `radixSortRange`, `radixSort`: The algorithm.
* `InBounds`: Every access is within its vector.
* `SortedBehind`: A range is in order from a byte on.
* `Bucketed`: What holds between two rounds of the loop over the buckets.
* `RadixSorted`: What a call leaves behind.

## Theorems

* `Bucketed.step`: A bucket is sorted.
* `Bucketed.radixSorted`: When all buckets are, so is the range.
* `radixSortRange_ends`: What a call may end with.
* `radixSort_inBounds`: When every access is within its vector.
* `radixSort_sorts`: Fewer than 2^32 strings are sorted.
-/

namespace CodingChallenges

namespace SortTool

/-- A round of the loop over the buckets. -/
def sortBucket
    (sort : List Text → List Text → Int → Int → Except Fault (List Text × List Text))
    (count : List Nat) (startIndex index : Int) (s : List Text × List Text) :
    Except Fault (List Text × List Text) := do
  let first ← readAt count index
  let next ← readAt count (index + 1)
  if first < next then sort s.1 s.2 (startIndex + first) (startIndex + next - 1)
  else return s

/-- The vector and the auxiliary vector. -/
def radixSortRange : Nat → List Text → List Text → Int → Int → Nat →
    Except Fault (List Text × List Text)
  | 0, _, _, _, _, _ => .error .outOfFuel
  | fuel + 1, array, auxiliary, startIndex, endIndex, kthIndex => do
    let pass ← radixPass array auxiliary startIndex endIndex kthIndex
    -- The numbers are where the buckets end, so the first bucket is left out.
    forRange (sortBucket
        (fun array auxiliary first last =>
          radixSortRange fuel array auxiliary first last (kthIndex + 1))
        pass.count startIndex)
      0 asciiRange (pass.array, pass.auxiliary)

/-- The size less one is a number of 64 bits, for an empty vector the largest. -/
def radixSort (fuel : Nat) (array : List Text) : Except Fault (List Text) := do
  let s ← radixSortRange fuel array (List.replicate array.length []) 0
    (((array.length : Int) - 1) % 2 ^ 64) 0
  return s.1

/-- Every access is within its vector, however far the algorithm gets. -/
def InBounds (array : List Text) : Prop :=
  ∀ fuel, radixSort fuel array ≠ .error .outOfRange

theorem drop_of_bucket_zero {k : Nat} {s : Text} (h : bucket k s = 0) : s.drop k = [] := by
  rw [bucket] at h
  cases hs : s[k]? with
  | none => exact List.drop_eq_nil_of_le (List.getElem?_eq_none_iff.mp hs)
  | some c =>
      rw [hs] at h
      cases h

theorem drop_of_bucket_ne_zero {k : Nat} {s : Text} (h : bucket k s ≠ 0) :
    ∃ c : UInt8, c.toNat + 1 = bucket k s ∧ s.drop k = c :: s.drop (k + 1) := by
  rw [bucket] at *
  cases hs : s[k]? with
  | none =>
      rw [hs] at h
      exact absurd rfl h
  | some c =>
      rcases List.getElem?_eq_some_iff.mp hs with ⟨hlt, hc⟩
      refine ⟨c, rfl, ?_⟩
      rw [List.drop_eq_getElem_cons hlt, hc]

theorem length_of_bucket {k : Nat} {s : Text} (h : bucket k s ≠ 0) : k + 1 ≤ s.length := by
  rcases drop_of_bucket_ne_zero h with ⟨c, _, hdrop⟩
  have hlength := congrArg List.length hdrop
  rw [List.length_drop, List.length_cons] at hlength
  omega

theorem drop_le_of_lt {k : Nat} {s t : Text} (h : bucket k s < bucket k t) :
    s.drop k ≤ t.drop k := by
  by_cases hzero : bucket k s = 0
  · rw [drop_of_bucket_zero hzero]
    exact le_of_not_gt (List.not_lt_nil _)
  · rcases drop_of_bucket_ne_zero hzero with ⟨c, hc, hdrop⟩
    rcases drop_of_bucket_ne_zero (by omega : bucket k t ≠ 0) with ⟨c', hc', hdrop'⟩
    have hlt : c < c' := by
      rw [UInt8.lt_iff_toNat_lt]
      omega
    rw [hdrop, hdrop']
    exact le_of_lt (List.Lex.rel hlt)

theorem drop_le_of_eq {k : Nat} {s t : Text} (h : bucket k s = bucket k t)
    (hrest : bucket k s ≠ 0 → s.drop (k + 1) ≤ t.drop (k + 1)) : s.drop k ≤ t.drop k := by
  by_cases hzero : bucket k s = 0
  · rw [drop_of_bucket_zero hzero]
    exact le_of_not_gt (List.not_lt_nil _)
  · rcases drop_of_bucket_ne_zero hzero with ⟨c, hc, hdrop⟩
    rcases drop_of_bucket_ne_zero (by omega : bucket k t ≠ 0) with ⟨c', hc', hdrop'⟩
    have hsame : c = c' := UInt8.toNat_inj.mp (by omega)
    rw [hdrop, hdrop', hsame]
    rcases le_iff_lt_or_eq.mp (hrest hzero) with hlt | heq
    · exact le_of_lt (List.Lex.cons hlt)
    · rw [heq]

/-- The strings of the range are in order from a byte on. -/
def SortedBehind (k lo hi : Nat) (a : List Text) : Prop :=
  ∀ i j, lo ≤ i → i < j → j < hi → ∀ x ∈ a[i]?, ∀ y ∈ a[j]?, x.drop k ≤ y.drop k

variable {a b b' auxiliary : List Text} {k lo hi : Nat}

theorem SortedBehind.congr (h : SortedBehind k lo hi a)
    (heq : ∀ i, lo ≤ i → i < hi → b[i]? = a[i]?) : SortedBehind k lo hi b := by
  intro i j hle hlt hlt' x hx y hy
  rw [heq i hle (by omega)] at hx
  rw [heq j (by omega) hlt'] at hy
  exact h i j hle hlt hlt' x hx y hy

/-- The strings of the range are in their buckets, and in each of the first buckets they are in
    order from the next byte on and do not have the byte 255 there. -/
structure BucketsSorted (k lo hi index : Nat) (a b : List Text) : Prop where
  outside : ∀ i, i < lo ∨ hi ≤ i → b[i]? = a[i]?
  buckets : InBuckets (bucket k) (segment lo hi a) lo b
  behind : ∀ j, j ≠ 0 → j ≤ index →
    SortedBehind (k + 1) (lo + below (bucket k) j (segment lo hi a))
      (lo + below (bucket k) (j + 1) (segment lo hi a)) b
  bytes : ∀ t ∈ segment lo hi a, bucket k t ≠ 0 → bucket k t ≤ index → 255 ∉ t.drop (k + 1)

namespace BucketsSorted

variable {index : Nat}

/-- The next bucket is sorted, and the others are left alone. -/
theorem step (h : BucketsSorted k lo hi index a b) (hlo : lo ≤ hi) (hhi : hi ≤ a.length)
    (hrearranged : Rearranged (lo + below (bucket k) (index + 1) (segment lo hi a))
      (lo + below (bucket k) (index + 2) (segment lo hi a)) b b')
    (hsorted : SortedBehind (k + 1) (lo + below (bucket k) (index + 1) (segment lo hi a))
      (lo + below (bucket k) (index + 2) (segment lo hi a)) b')
    (hbytes : ∀ t ∈ segment (lo + below (bucket k) (index + 1) (segment lo hi a))
      (lo + below (bucket k) (index + 2) (segment lo hi a)) b, 255 ∉ t.drop (k + 1)) :
    BucketsSorted k lo hi (index + 1) a b' := by
  have hend : below (bucket k) (index + 2) (segment lo hi a) ≤ (segment lo hi a).length :=
    List.countP_le_length
  rw [length_segment lo hhi] at hend
  have hother : ∀ j, j ≠ index + 1 → ∀ i, lo + below (bucket k) j (segment lo hi a) ≤ i →
      i < lo + below (bucket k) (j + 1) (segment lo hi a) → b'[i]? = b[i]? := by
    -- The buckets do not overlap.
    intro j hj i hle hlt
    refine hrearranged.outside i ?_
    rcases Nat.lt_or_gt_of_ne hj with hless | hless
    · have hapart := below_mono (bucket k) (show j + 1 ≤ index + 1 from hless) (segment lo hi a)
      omega
    · have hapart := below_mono (bucket k) (show index + 2 ≤ j from hless) (segment lo hi a)
      omega
  refine ⟨fun i hi' => ?_, fun j => ?_, fun j hzero hj => ?_, fun t ht hzero hle => ?_⟩
  · rw [hrearranged.outside i (by omega)]
    exact h.outside i hi'
  · by_cases hj : j = index + 1
    · rw [hj]
      exact hrearranged.segment_perm.trans (h.buckets (index + 1))
    · rw [segment_congr (hother j hj)]
      exact h.buckets j
  · by_cases hnext : j = index + 1
    · rw [hnext]
      exact hsorted
    · exact (h.behind j hzero (by omega)).congr (hother j hnext)
  · by_cases hnext : bucket k t = index + 1
    · refine hbytes t ((h.buckets (index + 1)).mem_iff.mpr ?_)
      exact List.mem_filter.mpr ⟨ht, decide_eq_true hnext⟩
    · exact h.bytes t ht hzero (by omega)

/-- When all buckets are sorted the range is. -/
theorem sorted (h : BucketsSorted k lo hi 256 a b) (hlo : lo ≤ hi) (hhi : hi ≤ a.length)
    (hkeys : ∀ t ∈ segment lo hi a, bucket k t < 256) :
    (∀ t ∈ segment lo hi a, 255 ∉ t.drop k) ∧ Rearranged lo hi a b ∧ SortedBehind k lo hi b := by
  have hlength := length_segment lo hhi
  refine ⟨fun t ht => ?_, ⟨?_, h.outside⟩, fun p q hp hlt hq x hx y hy => ?_⟩
  · -- Neither the byte itself is 255, nor one behind it.
    by_cases hzero : bucket k t = 0
    · rw [drop_of_bucket_zero hzero]
      exact List.not_mem_nil
    · rcases drop_of_bucket_ne_zero hzero with ⟨c, hc, hdrop⟩
      have hlast := hkeys t ht
      rw [hdrop, List.mem_cons, not_or]
      refine ⟨fun hsame => ?_, h.bytes t ht hzero (by omega)⟩
      rw [← hsame] at hc
      exact absurd (hc.trans_lt hlast) (by decide)
  · have hperm := h.buckets.perm hkeys
    rw [hlength, Nat.add_sub_cancel' hlo] at hperm
    exact (perm_iff_segment_perm hlo h.outside).mpr hperm
  · -- Two strings differ at the byte, or they are in the same bucket.
    have hle := h.buckets.key_le hkeys hp hlt (by omega) hx hy
    have hx' := h.buckets.locate hkeys hp (by omega) hx
    have hy' := h.buckets.locate hkeys (by omega) (by omega) hy
    rcases Nat.lt_or_eq_of_le hle with hless | hsame
    · exact drop_le_of_lt hless
    · refine drop_le_of_eq hsame fun hzero => ?_
      rw [← hsame] at hy'
      exact h.behind (bucket k x) hzero (bucket_le k x) p q hx'.1 hlt hy'.2 x hx y hy

end BucketsSorted

/-- What a call leaves behind: no other strings than there were, and if the range is not too
    long for the numbers, its strings in order. -/
structure RadixSorted (strings : List Text) (k lo hi : Nat) (a : List Text)
    (s : List Text × List Text) : Prop where
  length : s.1.length = a.length ∧ s.2.length = a.length
  members : ∀ t, t ∈ s.1 ∨ t ∈ s.2 → t ∈ strings
  sorted : hi - lo < 2 ^ 32 →
    (∀ t ∈ segment lo hi a, 255 ∉ t.drop k) ∧ Rearranged lo hi a s.1 ∧ SortedBehind k lo hi s.1

/-- How a call fails: there is a string with the byte 255, or one that is too long for the
    fuel. -/
inductive Fails (strings : List Text) (k fuel : Nat) : Fault → Prop
  | outOfRange {t : Text} (hmember : t ∈ strings) (h : 255 ∈ t) : Fails strings k fuel .outOfRange
  | outOfFuel {t : Text} (hmember : t ∈ strings) (h : k + fuel ≤ t.length) :
    Fails strings k fuel .outOfFuel

/-- A call for the next byte, within a call. -/
theorem Fails.outer {strings : List Text} {fuel : Nat} {fault : Fault}
    (h : Fails strings (k + 1) fuel fault) : Fails strings k (fuel + 1) fault := by
  cases h with
  | outOfRange hmember h => exact .outOfRange hmember h
  | outOfFuel hmember h => exact .outOfFuel hmember (by omega)

/-- What holds between two rounds of the loop over the buckets. -/
structure Bucketed (strings : List Text) (k lo hi index : Nat) (a : List Text)
    (s : List Text × List Text) : Prop where
  length : s.1.length = a.length ∧ s.2.length = a.length
  members : ∀ t, t ∈ s.1 ∨ t ∈ s.2 → t ∈ strings
  sorted : hi - lo < 2 ^ 32 → BucketsSorted k lo hi index a s.1

/-- A call sorts, or fails. -/
def Sorts (strings : List Text) (k fuel : Nat)
    (sort : List Text → List Text → Int → Int → Except Fault (List Text × List Text)) : Prop :=
  ∀ (a auxiliary : List Text) (lo hi : Nat), lo < hi → hi ≤ a.length →
    auxiliary.length = a.length → (∀ t, t ∈ a ∨ t ∈ auxiliary → t ∈ strings) →
    (∃ t ∈ strings, k ≤ t.length) →
    Ends (Fails strings k fuel) (RadixSorted strings k lo hi a)
      (sort a auxiliary lo ((hi : Int) - 1))

/-- The next bucket is sorted, if the call for the next byte sorts. -/
theorem Bucketed.step {strings : List Text} {fuel index : Nat} {s : List Text × List Text}
    {sort : List Text → List Text → Int → Int → Except Fault (List Text × List Text)}
    (hsort : Sorts strings (k + 1) fuel sort) (h : Bucketed strings k lo hi index a s)
    (hindex : index < 256) (hlo : lo ≤ hi) (hhi : hi ≤ a.length)
    (hstrings : ∀ t ∈ a, t ∈ strings) :
    Ends (Fails strings k (fuel + 1)) (Bucketed strings k lo hi (index + 1) a)
      (sortBucket sort
        (table fun j => below (bucket k) (j + 1) (segment lo hi a) % 2 ^ 32) lo index s) := by
  have hnext : (index : Int) + 1 = ((index + 1 : Nat) : Int) := rfl
  have hlength := h.length
  have hend : below (bucket k) (index + 2) (segment lo hi a) ≤ (segment lo hi a).length :=
    List.countP_le_length
  have hcount : below (bucket k) (index + 2) (segment lo hi a) =
      below (bucket k) (index + 1) (segment lo hi a) +
        (segment lo hi a).countP (bucket k · = index + 1) :=
    below_succ (bucket k) (index + 1) (segment lo hi a)
  rw [length_segment lo hhi] at hend
  rw [sortBucket, hnext, readAt_table (by omega), ok_bind, readAt_table (by omega), ok_bind]
  obtain ⟨first, hfirst⟩ : ∃ n, n = below (bucket k) (index + 1) (segment lo hi a) % 2 ^ 32 :=
    ⟨_, rfl⟩
  obtain ⟨next, hnext'⟩ : ∃ n, n = below (bucket k) (index + 2) (segment lo hi a) % 2 ^ 32 :=
    ⟨_, rfl⟩
  have hsame : hi - lo < 2 ^ 32 → first = below (bucket k) (index + 1) (segment lo hi a) ∧
      next = below (bucket k) (index + 2) (segment lo hi a) := by
    intro hsmall
    rw [hfirst, hnext']
    exact ⟨Nat.mod_eq_of_lt (by omega), Nat.mod_eq_of_lt (by omega)⟩
  rw [← hfirst, ← hnext']
  have hmod := Nat.mod_le (below (bucket k) (index + 2) (segment lo hi a)) (2 ^ 32)
  by_cases hless : first < next
  · -- The bucket has a string, which has the byte.
    have hbucket : 0 < (segment lo hi a).countP (bucket k · = index + 1) := by
      by_contra hempty
      rw [Nat.eq_zero_of_not_pos hempty, Nat.add_zero] at hcount
      rw [hfirst, hnext', hcount] at hless
      exact Nat.lt_irrefl _ hless
    rcases List.countP_pos_iff.mp hbucket with ⟨t, ht, hbucket'⟩
    have hdeep : k + 1 ≤ t.length := by
      refine length_of_bucket ?_
      rw [of_decide_eq_true hbucket']
      exact Nat.succ_ne_zero index
    have hmember : t ∈ a := List.mem_of_mem_take (List.mem_of_mem_drop ht)
    have hcall := hsort s.1 s.2 (lo + first) (lo + next) (by omega) (by omega) (by omega) h.members
      ⟨t, hstrings t hmember, hdeep⟩
    rw [if_pos hless]
    refine Ends.imp hcall (fun fault => Fails.outer) fun s' hs' => ?_
    have hlength' := hs'.length
    refine ⟨by omega, hs'.members, fun hsmall => ?_⟩
    rcases hs'.sorted (by omega) with ⟨hbytes, hrearranged, hbehind⟩
    rw [(hsame hsmall).1, (hsame hsmall).2] at hbytes hrearranged hbehind
    exact (h.sorted hsmall).step hlo hhi hrearranged hbehind hbytes
  · -- If the numbers have not wrapped around, the bucket is empty.
    rw [if_neg hless]
    refine ⟨hlength, h.members, fun hsmall => ?_⟩
    have hempty := hsame hsmall
    refine (h.sorted hsmall).step hlo hhi (Rearranged.refl _ _ _) (fun p q hp hlt hq => ?_) ?_
    · omega
    · rw [segment_of_le (by omega)]
      exact fun t ht => absurd ht List.not_mem_nil

/-- What a call may end with. -/
theorem radixSortRange_ends (strings : List Text) (fuel k : Nat) :
    Sorts strings k fuel (fun array auxiliary first last =>
      radixSortRange fuel array auxiliary first last k) := by
  induction fuel generalizing k with
  | zero =>
      -- The call was made for a string that is long enough.
      intro a auxiliary lo hi _ _ _ _ hdeep
      rcases hdeep with ⟨t, hmember, hlength⟩
      exact Fails.outOfFuel hmember hlength
  | succ fuel ih =>
      intro a auxiliary lo hi hlo hhi hauxiliary hstrings hdeep
      refine Ends.bind (Ends.imp (radixPass_ends k (Nat.le_of_lt hlo) hhi (by omega))
        (fun fault hfault => ?_) fun p hp => hp) fun p hp => ?_
      · -- The last bucket is that of the byte 255.
        rcases hfault with ⟨rfl, t, ht, hlast⟩
        rcases drop_of_bucket_ne_zero (by omega : bucket k t ≠ 0) with ⟨c, hc, hdrop⟩
        have hc' : c = 255 := UInt8.toNat_inj.mp (Nat.succ.inj (hc.trans hlast))
        have hmember : t ∈ a := List.mem_of_mem_take (List.mem_of_mem_drop ht)
        refine Fails.outOfRange (hstrings t (Or.inl hmember)) (List.mem_of_mem_drop (i := k) ?_)
        rw [hdrop, hc']
        exact List.mem_cons_self
      · have hlength := hp.length
        have hmembers : ∀ t, t ∈ p.array ∨ t ∈ p.auxiliary → t ∈ strings :=
          fun t ht => hstrings t (hp.members t ht)
        have hstart : Bucketed strings k lo hi 0 a (p.array, p.auxiliary) := by
          refine ⟨⟨hlength.1, hlength.2.trans hauxiliary⟩, hmembers, fun hsmall => ?_⟩
          refine ⟨hp.outside, fun j => ?_, fun j hzero hj => absurd (Nat.le_zero.mp hj) hzero,
            fun t _ hzero hle => absurd (Nat.le_zero.mp hle) hzero⟩
          rw [hp.buckets (Nat.le_of_lt hsmall) j]
        have hloop := forRange_ends
          (sortBucket (fun array auxiliary first last =>
            radixSortRange fuel array auxiliary first last (k + 1)) p.count lo)
          (Fails strings k (fuel + 1)) (fun index => Bucketed strings k lo hi index a) 0 asciiRange
          hstart fun index s _ hindex hs => by
            rw [hp.count_eq]
            exact hs.step (ih (k + 1)) (by rw [asciiRange] at hindex; omega) (Nat.le_of_lt hlo) hhi
              fun t ht => hstrings t (Or.inl ht)
        refine Ends.imp hloop (fun fault hfault => hfault) fun s hs => ?_
        exact ⟨hs.length, hs.members, fun hsmall =>
          (hs.sorted hsmall).sorted (Nat.le_of_lt hlo) hhi hp.keys⟩

variable {array : List Text}

/-- What the algorithm may end with. -/
theorem radixSort_ends (hne : array ≠ []) (fuel : Nat) :
    Ends (Fails ([] :: array) 0 fuel)
      (fun result => array.length < 2 ^ 32 →
        (∀ t ∈ array, 255 ∉ t) ∧ result.Perm array ∧ result.Pairwise (· ≤ ·))
      (radixSort fuel array) := by
  have hlength := List.length_pos_iff.mpr hne
  obtain ⟨hi, hhi⟩ : ∃ hi : Nat, ((array.length : Int) - 1) % 2 ^ 64 = (hi : Int) - 1 :=
    ⟨(((array.length : Int) - 1) % 2 ^ 64).toNat + 1, by omega⟩
  have hsorts := radixSortRange_ends ([] :: array) fuel 0 array (List.replicate array.length [])
    0 hi (by omega) (by omega) List.length_replicate (by
      intro t ht
      rcases ht with ht | ht
      · exact List.mem_cons_of_mem _ ht
      · rw [List.eq_of_mem_replicate ht]
        exact List.mem_cons_self) ⟨[], List.mem_cons_self, Nat.le_refl 0⟩
  rw [radixSort, hhi]
  refine Ends.bind hsorts fun s hs hsmall => ?_
  have hall : hi = array.length := by omega
  rcases hs.sorted (by omega) with ⟨hbytes, hrearranged, hsorted⟩
  rw [hall, segment_zero_length] at hbytes
  rw [hall, ← hrearranged.length_eq] at hsorted
  refine ⟨hbytes, hrearranged.perm, SortedRange.pairwise fun i j hi hlt hj x hx y hy => ?_⟩
  exact hsorted i j hi hlt hj x hx y hy

/-- With enough fuel fewer than 2^32 strings are sorted, if every access is within its vector. -/
theorem radixSort_eq_ok (hne : array ≠ []) (hlength : array.length < 2 ^ 32)
    (h : InBounds array) :
    ∃ n, ∀ fuel, n ≤ fuel → ∃ result, radixSort fuel array = .ok result ∧
      (∀ t ∈ array, 255 ∉ t) ∧ result.Perm array ∧ result.Pairwise (· ≤ ·) := by
  refine ⟨array.flatten.length + 1, fun fuel hfuel => ?_⟩
  have hends := radixSort_ends hne fuel
  cases hresult : radixSort fuel array with
  | ok result =>
      rw [hresult] at hends
      exact ⟨result, rfl, hends hlength⟩
  | error fault =>
      rw [hresult] at hends
      cases hends with
      | outOfRange => exact absurd hresult (h fuel)
      | @outOfFuel t hmember hlong =>
          rcases List.mem_cons.mp hmember with rfl | hmember
          · exact absurd hlong (by rw [List.length_nil]; omega)
          · have hle := (List.sublist_flatten_of_mem hmember).length_le
            omega

/-- No string may have the byte 255. For fewer than 2^32 strings this is exactly when every
    access is within its vector, and for more it is enough. -/
theorem radixSort_inBounds (array : List Text) (hne : array ≠ []) :
    ((∀ t ∈ array, 255 ∉ t) → InBounds array) ∧
    (array.length < 2 ^ 32 → (InBounds array ↔ ∀ t ∈ array, 255 ∉ t)) := by
  have hsafe : (∀ t ∈ array, 255 ∉ t) → InBounds array := by
    intro hbytes fuel hfault
    have hends := radixSort_ends hne fuel
    rw [hfault] at hends
    cases hends with
    | outOfRange hmember hlast =>
        rcases List.mem_cons.mp hmember with rfl | hmember
        · exact absurd hlast List.not_mem_nil
        · exact hbytes _ hmember hlast
  refine ⟨hsafe, fun hlength => ⟨fun h => ?_, hsafe⟩⟩
  rcases radixSort_eq_ok hne hlength h with ⟨n, hn⟩
  rcases hn n (Nat.le_refl n) with ⟨_, _, hbytes, _⟩
  exact hbytes

theorem radixSort_inBounds_two : ¬InBounds [[97], [98, 255]] := fun h =>
  absurd (((radixSort_inBounds [[97], [98, 255]] (by decide)).2 (by decide)).mp h) (by decide)

/-- The number of the byte 255 would be behind the end of the vector `count`. -/
theorem not_inBounds : ¬∀ array : List Text, array ≠ [] → InBounds array := fun h =>
  h [[255]] (by decide) 1 rfl

/-- Fewer than 2^32 strings are sorted, if every access is within its vector: the algorithm
    ends, and the result has the same strings in order. -/
theorem radixSort_sorts (array : List Text) (hne : array ≠ []) (hlength : array.length < 2 ^ 32)
    (h : InBounds array) :
    ∃ result, Returns (fun fuel => radixSort fuel array) result ∧ result.Perm array ∧
      result.Pairwise (· ≤ ·) := by
  rcases radixSort_eq_ok hne hlength h with ⟨n, hn⟩
  rcases hn n (Nat.le_refl n) with ⟨result, _, _, hperm, hsorted⟩
  refine ⟨result, ⟨n, fun fuel hfuel => ?_⟩, hperm, hsorted⟩
  -- With any other fuel the result is the same, as there is only one way to sort the strings.
  rcases hn fuel hfuel with ⟨result', hresult, _, hperm', hsorted'⟩
  have hsame := (hperm'.trans hperm.symm).eq_of_pairwise (fun x y _ _ => le_antisymm) hsorted'
    hsorted
  exact hresult.trans (congrArg _ hsame)

theorem radixSort_sorts_three : Returns (fun fuel => radixSort fuel [[98], [97, 99], [97]])
    [[97], [97, 99], [98]] := by
  have hin : InBounds [[98], [97, 99], [97]] := by
    intro fuel hfault
    have hends := @radixSort_ends [[98], [97, 99], [97]] (by decide) fuel
    have hbytes : ∀ t ∈ ([[], [98], [97, 99], [97]] : List Text), 255 ∉ t := by decide
    rw [hfault] at hends
    cases hends with
    | outOfRange hmember hlast => exact hbytes _ hmember hlast
  rcases radixSort_sorts [[98], [97, 99], [97]] (by decide) (by decide) hin with
    ⟨result, hreturns, hperm, hsorted⟩
  have hperm' : result.Perm [[97], [97, 99], [98]] := hperm.trans (by decide)
  have hresult := hperm'.eq_of_pairwise (fun x y _ _ => le_antisymm) hsorted (by decide)
  rwa [hresult] at hreturns

/-- A loop over buckets that all seem to be empty. -/
theorem sortBucket_empty {f : Nat → Nat} (hf : ∀ j, f j = 0) (startIndex : Int)
    (sort : List Text → List Text → Int → Int → Except Fault (List Text × List Text))
    (s : List Text × List Text) :
    forRange (sortBucket sort (table f) startIndex) 0 asciiRange s = .ok s := by
  rcases forRange_invariant (sortBucket sort (table f) startIndex) (fun _ s' => s' = s) 0
    asciiRange rfl (by
      rintro i s' _ hi rfl
      rw [asciiRange] at hi
      have hnext : (i : Int) + 1 = ((i + 1 : Nat) : Int) := rfl
      refine ⟨s', ?_, rfl⟩
      rw [sortBucket, hnext, readAt_table (by omega), ok_bind, readAt_table (by omega), ok_bind, hf,
        hf, if_neg (Nat.lt_irrefl 0)]
      rfl) with ⟨s', hloop, rfl⟩
  exact hloop

/-- If all of the strings begin alike and there are as many as numbers of 32 bits, they stay as
    they are. -/
theorem radixSort_eq_self {j : Nat} (hlength : array.length = 2 ^ 32) (hj : j < 256)
    (hbucket : ∀ t ∈ array, bucket 0 t = j) (fuel : Nat) :
    radixSort (fuel + 1) array = .ok array := by
  have hbegin : below (bucket 0) j array = 0 := by
    rw [below, List.countP_eq_zero]
    intro t ht hless
    rw [hbucket t ht] at hless
    exact Nat.lt_irrefl j (of_decide_eq_true hless)
  have hbehind : ∀ j', j < j' → below (bucket 0) j' array = array.length :=
    fun j' hj' => below_eq_length fun t ht => (hbucket t ht).trans_lt hj'
  -- The number is 0 in front of the bucket, and 2^32 behind it.
  have hwrapped : ∀ j', below (bucket 0) (j' + 1) array % 2 ^ 32 = 0 := by
    intro j'
    by_cases hlt : j < j' + 1
    · rw [hbehind (j' + 1) hlt, hlength, Nat.mod_self]
    · have hle := below_mono (bucket 0) (by omega : j' + 1 ≤ j) array
      rw [Nat.le_zero.mp (hle.trans (Nat.le_of_eq hbegin)), Nat.zero_mod]
  have hlast : ((array.length : Int) - 1) % 2 ^ 64 = (array.length : Int) - 1 := by omega
  have hauxiliary : array.length - 0 ≤ (List.replicate array.length ([] : Text)).length :=
    Nat.le_of_eq List.length_replicate.symm
  have hpass := radixPass_ends 0 (Nat.zero_le array.length) (Nat.le_refl _) hauxiliary
  rw [radixSort, radixSortRange, hlast]
  cases hp : radixPass array (List.replicate array.length []) (0 : Nat)
      ((array.length : Int) - 1) 0 with
  | error fault =>
      rw [hp, segment_zero_length] at hpass
      rcases hpass with ⟨_, t, ht, hbucket'⟩
      rw [hbucket t ht] at hbucket'
      omega
  | ok p =>
      rw [hp] at hpass
      have hcount := hpass.count_eq
      have harray := hpass.buckets (by omega) j
      have hsame : p.array.length = array.length := hpass.length.1
      rw [segment_zero_length] at hcount harray
      rw [hbegin, hbehind (j + 1) (Nat.lt_succ_self j), Nat.zero_add, Nat.zero_add, ← hsame,
        segment_zero_length, List.filter_eq_self.mpr fun t ht => decide_eq_true (hbucket t ht)]
        at harray
      rw [ok_bind, hcount, sortBucket_empty hwrapped, harray]
      rfl

/-- There may be too many strings: these are not sorted. -/
theorem not_radixSort_sorts : ¬∀ array : List Text, array ≠ [] → InBounds array →
    ∃ result, Returns (fun fuel => radixSort fuel array) result ∧ result.Perm array ∧
      result.Pairwise (· ≤ ·) := by
  intro h
  -- With the first one there are as many strings as the counter has values. The others have a
  -- name, so that nothing computes them.
  obtain ⟨rest, hrest⟩ : ∃ rest : List Text, rest = List.replicate (2 ^ 32 - 1) [97, 97] :=
    ⟨_, rfl⟩
  have hlength : ([97, 98] :: rest).length = 2 ^ 32 := by
    have hlength' : rest.length = 2 ^ 32 - 1 := by
      rw [hrest]
      exact List.length_replicate
    rw [List.length_cons]
    omega
  have hbucket : ∀ t ∈ [97, 98] :: rest, bucket 0 t = 98 := by
    intro t ht
    rcases List.mem_cons.mp ht with rfl | ht
    · rfl
    · rw [hrest] at ht
      rw [List.eq_of_mem_replicate ht]
      rfl
  have hself := radixSort_eq_self hlength (by decide) hbucket
  have hin : InBounds ([97, 98] :: rest) := by
    intro fuel hfault
    cases fuel with
    | zero => cases hfault
    | succ fuel =>
        rw [hself fuel] at hfault
        cases hfault
  rcases h ([97, 98] :: rest) (List.cons_ne_nil _ _) hin with ⟨result, hreturns, _, hsorted⟩
  have hreturns' : Returns (fun fuel => radixSort fuel ([97, 98] :: rest)) ([97, 98] :: rest) := by
    refine ⟨1, fun fuel hfuel => ?_⟩
    rw [← Nat.sub_add_cancel hfuel]
    exact hself (fuel - 1)
  -- The array is returned as it was, with its largest string in front.
  rw [hreturns.unique hreturns', List.pairwise_cons] at hsorted
  have hmember : ([97, 97] : Text) ∈ rest := by
    rw [hrest]
    exact List.mem_replicate.mpr ⟨by omega, rfl⟩
  exact absurd (hsorted.1 _ hmember) (by decide)

end SortTool

end CodingChallenges
