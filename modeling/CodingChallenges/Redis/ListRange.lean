import CodingChallenges.Redis.Expiry

/-!
# Ranges of a List

Which elements of a list `LRANGE` returns.

Offsets have 64 bits. They are checked to be numbers and handed to `get_list`, which
takes offsets of 32 bits, so the upper half is cut off on the way. Whatever
`get_list` makes of them is right. So the elements that are returned are those the
client asked for as long as cutting off does not move the bounds, or moves them only
where there are no elements.

## Main definitions

* `between`: The elements of a list from one index to another.
* `requested`: The elements that the two offsets ask for.
* `narrow`: What is left of an offset.
* `NarrowsWell`: Cutting the offsets off makes no difference.

## Theorems

* `slice_eq_requested`: `get_list` is right about offsets of 32 bits.
* `lrange_iff`: When `LRANGE` returns what was asked for.
-/

namespace CodingChallenges

namespace Redis

/-- The elements of a list with an index from `lo` to `hi`, in order. -/
def between {α : Type} (list : List α) (lo hi : Int) : List α :=
  ((List.range list.length).filter fun (i : Nat) => decide (lo ≤ i ∧ (i : Int) ≤ hi)).filterMap
    fun i => list[i]?

/-- A negative offset counts from the end. -/
def fromFront (size : Nat) (offset : Int) : Int :=
  if offset < 0 then size + offset else offset

/-- The elements that the two offsets ask for. -/
def requested {α : Type} (list : List α) (start stop : Int) : List α :=
  between list (fromFront list.length start) (fromFront list.length stop)

/-- There are elements of a list of the size between the bounds. -/
def Meets (size : Nat) (lo hi : Int) : Prop :=
  max 0 lo ≤ min hi (size - 1)

/-- What is left of an offset of 64 bits in 32 bits. -/
def narrow (offset : Int) : Int :=
  offset.bmod (2 ^ 32)

/-- Cutting the offsets off makes no difference for a list of the size. -/
def NarrowsWell (size : Nat) (start stop : Int) : Prop :=
  -- If there is something to return, then a bound in front of all elements stays there,
  -- and so does one behind all of them.
  (Meets size (fromFront size start) (fromFront size stop) →
    (start < -2 ^ 31 → fromFront size (narrow start) ≤ 0) ∧
      (2 ^ 31 ≤ stop → size - 1 ≤ fromFront size (narrow stop))) ∧
  (¬ Meets size (fromFront size start) (fromFront size stop) →
    ¬ Meets size (fromFront size (narrow start)) (fromFront size (narrow stop)))

section Between

/-- The number of indices from `lo` to `hi` that a list of the size has. -/
def countBetween (size : Nat) (lo hi : Int) : Nat :=
  (min hi (size - 1) + 1 - max 0 lo).toNat

theorem countBetween_eq_zero_iff {size : Nat} {lo hi : Int} :
    countBetween size lo hi = 0 ↔ ¬ Meets size lo hi := by
  unfold countBetween Meets
  omega

/-- The indices from `lo` to `hi` are a run of them. -/
theorem filter_range (size : Nat) (lo hi : Int) :
    (List.range size).filter (fun (i : Nat) => decide (lo ≤ i ∧ (i : Int) ≤ hi)) =
      List.range' (max 0 lo).toNat (countBetween size lo hi) := by
  by_cases hmeets : Meets size lo hi
  · -- Nothing in front of the run and nothing behind it is in the bounds.
    have hfirst : (max 0 lo).toNat + countBetween size lo hi ≤ size := by
      unfold countBetween Meets at *
      omega
    have hsplit : List.range size = List.range' 0 (max 0 lo).toNat ++
        (List.range' (max 0 lo).toNat (countBetween size lo hi) ++
          List.range' ((max 0 lo).toNat + countBetween size lo hi)
            (size - ((max 0 lo).toNat + countBetween size lo hi))) := by
      rw [List.range'_append_1, List.range_eq_range']
      have happend := List.range'_append_1 (s := 0) (m := (max 0 lo).toNat)
        (n := countBetween size lo hi + (size - ((max 0 lo).toNat + countBetween size lo hi)))
      rw [Nat.zero_add] at happend
      rw [happend]
      congr 1
      omega
    have hbefore : (List.range' 0 (max 0 lo).toNat).filter
        (fun (i : Nat) => decide (lo ≤ i ∧ (i : Int) ≤ hi)) = [] := by
      rw [List.filter_eq_nil_iff]
      intro i hmem
      rw [List.mem_range'_1] at hmem
      rw [decide_eq_true_eq]
      omega
    have hafter : (List.range' ((max 0 lo).toNat + countBetween size lo hi)
          (size - ((max 0 lo).toNat + countBetween size lo hi))).filter
        (fun (i : Nat) => decide (lo ≤ i ∧ (i : Int) ≤ hi)) = [] := by
      rw [List.filter_eq_nil_iff]
      intro i hmem
      rw [List.mem_range'_1] at hmem
      rw [decide_eq_true_eq]
      unfold countBetween Meets at *
      omega
    have hwithin : (List.range' (max 0 lo).toNat (countBetween size lo hi)).filter
        (fun (i : Nat) => decide (lo ≤ i ∧ (i : Int) ≤ hi)) =
          List.range' (max 0 lo).toNat (countBetween size lo hi) := by
      rw [List.filter_eq_self]
      intro i hmem
      rw [List.mem_range'_1] at hmem
      rw [decide_eq_true_eq]
      unfold countBetween Meets at *
      omega
    rw [hsplit, List.filter_append, List.filter_append, hbefore, hwithin, hafter, List.nil_append,
      List.append_nil]
  · rw [countBetween_eq_zero_iff.mpr hmeets, List.range'_zero, List.filter_eq_nil_iff]
    intro i hmem
    rw [List.mem_range] at hmem
    rw [decide_eq_true_eq]
    unfold Meets at hmeets
    omega

variable {α : Type} {list : List α} {lo hi : Int}

theorem between_eq : between list lo hi =
    (List.range' (max 0 lo).toNat (countBetween list.length lo hi)).filterMap
      fun i => list[i]? := by
  unfold between
  rw [filter_range]

/-- Every index in the run is that of an element. -/
theorem length_between : (between list lo hi).length = countBetween list.length lo hi := by
  have hall : ∀ i ∈ List.range' (max 0 lo).toNat (countBetween list.length lo hi),
      (list[i]?).isSome = true := by
    intro i hmem
    rw [List.mem_range'_1] at hmem
    unfold countBetween at hmem
    have hindex : i < list.length := by omega
    rw [List.getElem?_eq_getElem hindex]
    rfl
  rw [between_eq, List.length_filterMap_eq_countP, List.countP_eq_length.mpr hall,
    List.length_range']

end Between

section Offsets

/-- Nothing is cut off from an offset of 32 bits. -/
theorem narrow_of_bounds {offset : Int} (hlow : -2 ^ 31 ≤ offset) (hhigh : offset < 2 ^ 31) :
    narrow offset = offset :=
  Int.bmod_eq_of_le (by omega) (by omega)

theorem toInt_toInt (offset : Int64) : (toInt offset).toInt = narrow offset.toInt :=
  Int64.toInt_toInt32 offset

variable {size : Nat}

/-- An offset of 32 bits from the end of a list that is not too long is one from its
    front. -/
theorem toInt_fromEnd (h : size < 2 ^ 31) (offset : Int32) :
    (fromEnd size offset).toInt = fromFront size offset.toInt := by
  have hlow := Int32.le_toInt offset
  have hzero : (0 : Int32).toInt = 0 := rfl
  unfold fromEnd fromFront
  simp only [Int32.lt_iff_toInt_lt, hzero]
  split
  · rw [Int32.toInt_add, Int32.toInt_ofNat_of_lt h]
    exact Int.bmod_eq_of_le (by omega) (by omega)
  · rfl

end Offsets

section Slices

variable {list : RespArray}

/-- The loop of `get_list` runs over the indices between the bounds. -/
theorem slice_eq_requested (hlength : list.length < 2 ^ 31) (startOffset endOffset : Int32) :
    slice list startOffset endOffset = requested list startOffset.toInt endOffset.toInt := by
  unfold requested
  rw [between_eq, ← toInt_fromEnd hlength, ← toInt_fromEnd hlength]
  unfold slice countBetween
  generalize fromEnd list.length startOffset = first
  generalize fromEnd list.length endOffset = last
  have hzero : (0 : Int32).toInt = 0 := rfl
  have hsize := Int32.toInt_ofNat_of_lt hlength
  simp only [Int32.lt_iff_toInt_lt, Int32.le_iff_toInt_le]
  split
  · next hguard =>
      -- The guard holds only if there is nothing between the bounds.
      have hcount : (min last.toInt (list.length - 1) + 1 - max 0 first.toInt).toNat = 0 := by
        omega
      rw [hcount]
      rfl
  · next hguard =>
      rw [not_or, Int.not_lt, Int.not_le] at hguard
      have hpos : first < Int32.ofNat list.length := Int32.lt_iff_toInt_lt.mpr hguard.2
      rw [toInt_max, toInt_min, toInt_sub_one hpos, hzero, hsize]

/-- Two pairs of bounds select the same elements if they select none, or if the
    bounds are the same where there are elements. -/
theorem between_congr {α : Type} {list : List α} {lo hi lo' hi' : Int}
    (hcount : countBetween list.length lo hi = countBetween list.length lo' hi')
    (hfirst : Meets list.length lo hi → max 0 lo = max 0 lo') :
    between list lo hi = between list lo' hi' := by
  rw [between_eq, between_eq, ← hcount]
  by_cases hmeets : Meets list.length lo hi
  · rw [hfirst hmeets]
  · rw [countBetween_eq_zero_iff.mpr hmeets, List.range'_zero, List.range'_zero]

/-- A first offset that is cut off is not in front of the one that is not. -/
theorem narrow_first {size : Nat} (hsize : size < 2 ^ 31) {start : Int} (hlow : start < 2 ^ 31) :
    max 0 (fromFront size start) ≤ max 0 (fromFront size (narrow start)) ∧
      (max 0 (fromFront size start) = max 0 (fromFront size (narrow start)) ↔
        (start < -2 ^ 31 → fromFront size (narrow start) ≤ 0)) := by
  by_cases hfar : start < -2 ^ 31
  · have hneg : fromFront size start < 0 := by
      unfold fromFront
      omega
    omega
  · rw [narrow_of_bounds (by omega) hlow]
    omega

/-- A last one is not behind it. -/
theorem narrow_last {size : Nat} (hsize : size < 2 ^ 31) {stop : Int} (hhigh : -2 ^ 31 ≤ stop) :
    min (fromFront size (narrow stop)) (size - 1) ≤ min (fromFront size stop) (size - 1) ∧
      (min (fromFront size (narrow stop)) (size - 1) = min (fromFront size stop) (size - 1) ↔
        (2 ^ 31 ≤ stop → size - 1 ≤ fromFront size (narrow stop))) := by
  by_cases hlarge : 2 ^ 31 ≤ stop
  · have hlast : size - 1 < fromFront size stop := by
      unfold fromFront
      omega
    omega
  · rw [narrow_of_bounds hhigh (by omega)]
    omega

/-- Bounds that are cut off lie within those that are not, where these have elements
    between them. -/
theorem narrow_within {size : Nat} (hsize : size < 2 ^ 31) {start stop : Int}
    (hmeets : Meets size (fromFront size start) (fromFront size stop)) :
    max 0 (fromFront size start) ≤ max 0 (fromFront size (narrow start)) ∧
      min (fromFront size (narrow stop)) (size - 1) ≤ min (fromFront size stop) (size - 1) ∧
      (max 0 (fromFront size start) = max 0 (fromFront size (narrow start)) ↔
        (start < -2 ^ 31 → fromFront size (narrow start) ≤ 0)) ∧
      (min (fromFront size (narrow stop)) (size - 1) = min (fromFront size stop) (size - 1) ↔
        (2 ^ 31 ≤ stop → size - 1 ≤ fromFront size (narrow stop))) := by
  unfold Meets at hmeets
  -- There are elements between the bounds, so `start` is not too large, nor `stop` too small.
  have hlow : start < 2 ^ 31 := by
    unfold fromFront at hmeets
    omega
  have hhigh : -2 ^ 31 ≤ stop := by
    unfold fromFront at hmeets
    omega
  have hfirst := narrow_first hsize hlow
  have hlast := narrow_last hsize hhigh
  exact ⟨hfirst.1, hlast.1, hfirst.2, hlast.2⟩

/-- Offsets that are cut off ask for the same elements exactly if that makes no
    difference. -/
theorem requested_narrow_iff {α : Type} {list : List α} (hlength : list.length < 2 ^ 31)
    (start stop : Int) :
    requested list (narrow start) (narrow stop) = requested list start stop ↔
      NarrowsWell list.length start stop := by
  unfold requested NarrowsWell
  by_cases hmeets : Meets list.length (fromFront list.length start) (fromFront list.length stop)
  · rw [and_iff_left (absurd hmeets), forall_prop_of_true hmeets]
    rcases narrow_within hlength hmeets with ⟨hlow, hhigh, hfirst, hlast⟩
    rw [← hfirst, ← hlast]
    constructor
    · intro h
      have hcount := congrArg List.length h
      rw [length_between, length_between] at hcount
      unfold countBetween Meets at *
      omega
    · rintro ⟨hlo, hhi⟩
      refine (between_congr ?_ fun _ => hlo).symm
      unfold countBetween
      rw [hlo, hhi]
  · rw [and_iff_right fun h => absurd h hmeets, forall_prop_of_true hmeets]
    have hnone : between list (fromFront list.length start) (fromFront list.length stop) = [] := by
      rw [← List.length_eq_zero_iff, length_between]
      exact countBetween_eq_zero_iff.mpr hmeets
    rw [hnone, ← List.length_eq_zero_iff, length_between, countBetween_eq_zero_iff]

end Slices

section Replies

variable {moment : Moment} {key a b : List Byte} {s : Store} {list : RespArray}
  {expiry : Option UInt64} {start stop : Int64}

/-- The reply to a `LRANGE`. -/
def lrangeReply (key a b : List Byte) (moment : Moment) (s : Store) : Answer :=
  ((process (commandOf [bytes "LRANGE", key, a, b])).run performOperation moment s).1

theorem lrangeReply_eq (hlist : s.dictionary.lookup key = some ⟨.array list, expiry⟩)
    (ha : isValidSigned64BitInt a = some start) (hb : isValidSigned64BitInt b = some stop) :
    lrangeReply key a b moment s = .response (.array (slice list (toInt start) (toInt stop))) := by
  have hprogram : process (commandOf [bytes "LRANGE", key, a, b]) =
      processLrange [bytes "LRANGE", key, a, b] := process_commandOf _ _
  have hbody : getListIn key (toInt start) (toInt stop) s.dictionary =
      .array (slice list (toInt start) (toInt stop)) := by
    unfold getListIn
    rw [hlist]
  unfold lrangeReply
  rw [hprogram, processLrange_offsets]
  simp only [ha, hb]
  change Answer.response (getListIn key (toInt start) (toInt stop) s.dictionary) = _
  rw [hbody]

/-- The elements that are asked for are returned exactly if cutting the offsets off
    makes no difference. -/
theorem lrange_iff (key a b : List Byte) (moment : Moment) (s : Store) (list : RespArray)
    (expiry : Option UInt64) (start stop : Int64)
    (hlist : s.dictionary.lookup key = some ⟨.array list, expiry⟩)
    (hlength : list.length < 2 ^ 31) (ha : isValidSigned64BitInt a = some start)
    (hb : isValidSigned64BitInt b = some stop) :
    lrangeReply key a b moment s = .response (.array (requested list start.toInt stop.toInt)) ↔
      NarrowsWell list.length start.toInt stop.toInt := by
  rw [lrangeReply_eq hlist ha hb, slice_eq_requested hlength, toInt_toInt, toInt_toInt,
    ← requested_narrow_iff hlength, Answer.response.injEq, RespType.array.injEq]

/-- A list of five strings, from the last but three to the one at index 2. -/
theorem lrange_iff_five :
    let list : RespArray := [.string ⟨bytes "a", true⟩, .string ⟨bytes "b", true⟩,
      .string ⟨bytes "c", true⟩, .string ⟨bytes "d", true⟩, .string ⟨bytes "e", true⟩]
    requested list (-4) 2 = [.string ⟨bytes "b", true⟩, .string ⟨bytes "c", true⟩] ∧
      lrangeReply (bytes "k") (bytes "-4") (bytes "2") (Moment.ordinary 0)
          ⟨AList.singleton (bytes "k") ⟨.array list, none⟩, none⟩ =
        .response (.array (requested list (-4) 2)) := by
  intro list
  refine ⟨rfl, (lrange_iff (bytes "k") (bytes "-4") (bytes "2") _ _ list none (-4) 2 rfl
    (by decide) (by decide) (by decide)).mpr ?_⟩
  unfold NarrowsWell Meets
  decide

/-- Nothing is behind the index 4294967296, and the first element is returned. -/
theorem not_lrange :
    ¬ ∀ (key a b : List Byte) (moment : Moment) (s : Store) (list : RespArray)
      (expiry : Option UInt64) (start stop : Int64),
      s.dictionary.lookup key = some ⟨.array list, expiry⟩ → list.length < 2 ^ 31 →
        isValidSigned64BitInt a = some start → isValidSigned64BitInt b = some stop →
          lrangeReply key a b moment s =
            .response (.array (requested list start.toInt stop.toInt)) := by
  intro hall
  have hread : isValidSigned64BitInt (bytes "4294967296") = some 4294967296 := by decide
  have h := hall (bytes "k") _ _ (Moment.ordinary 0)
    ⟨AList.singleton (bytes "k") ⟨.array [.int 7], none⟩, none⟩ [.int 7] none _ _ rfl (by decide)
    hread hread
  rw [lrangeReply_eq rfl hread hread, Answer.response.injEq, RespType.array.injEq] at h
  -- The offsets are cut off to 0.
  have hlength := congrArg List.length h
  exact absurd hlength (by decide)

end Replies

end Redis

end CodingChallenges
