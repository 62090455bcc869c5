import CodingChallenges.Library.Buckets
import CodingChallenges.SortTool.Vector

/-!
# A Pass of Radix Sort

`char_at` and the loops of `radix_sort` in `RadixSort.cpp` that come before the recursion.

A pass looks at one byte of the strings, and there is a bucket for each byte and one for
the strings that end before it. The vector `count` has a number of 32 bits for each bucket.
At first each is counted one place behind where it belongs, so that the sums of these
numbers are where the buckets begin. Then they move along as the strings are written, and
in the end they are where the buckets end.

There are 257 buckets, but `count` has 257 places and not 258, so there is none to count the
strings with the byte 255.

## Main definitions

* `charAt`, `countChars`, `sumCounts`, `distribute`, `copyBack`, `radixPass`: The algorithm.
* `bucket`: Which bucket a string belongs to.
* `table`: The vector `count` as a function.
* `Passed`: What a pass leaves behind.

## Theorems

* `countChars_ends`, `sumCounts_returns`, `distribute_returns`, `copyBack_returns`: The loops.
* `radixPass_ends`: The strings of a range are put in their buckets, unless one of them has the
  byte 255.
-/

namespace CodingChallenges

namespace SortTool

/-- `ASCII_RANGE`. -/
def asciiRange : Nat := 256

/-- A byte of a string, or -1 behind its end. -/
def charAt (s : Text) (kthIndex : Nat) : Int :=
  match s[kthIndex]? with
  | some uchar => uchar.toNat
  | none => -1

/-- `count[index]++`, on numbers of 32 bits. -/
def increment (count : List Nat) (index : Int) : Except Fault (List Nat) := do
  let n ← readAt count index
  writeAt count index ((n + 1) % 2 ^ 32)

/-- A round of the first loop: a string is counted. -/
def countChar (array : List Text) (kthIndex : Nat) (index : Int) (count : List Nat) :
    Except Fault (List Nat) := do
  let s ← readAt array index
  increment count (charAt s kthIndex + 2)

/-- How often each character occurs in the column. -/
def countChars (array : List Text) (startIndex endIndex : Int) (kthIndex : Nat)
    (count : List Nat) : Except Fault (List Nat) :=
  forRange (countChar array kthIndex) startIndex (endIndex + 1 - startIndex).toNat count

/-- A round of the second loop: a number is added to the next. -/
def sumCount (index : Int) (count : List Nat) : Except Fault (List Nat) := do
  let next ← readAt count (index + 1)
  let n ← readAt count index
  writeAt count (index + 1) ((next + n) % 2 ^ 32)

/-- The counts become positions. -/
def sumCounts (count : List Nat) : Except Fault (List Nat) :=
  forRange sumCount 0 asciiRange count

/-- The arrays that the distribution writes. -/
structure Distribution where
  auxiliary : List Text
  count : List Nat

/-- A round of the third loop: a string is written where its number says. -/
def distributeString (array : List Text) (kthIndex : Nat) (index : Int) (s : Distribution) :
    Except Fault Distribution := do
  let x ← readAt array index
  let position ← readAt s.count (charAt x kthIndex + 1)
  let auxiliary ← writeAt s.auxiliary position x
  let count ← increment s.count (charAt x kthIndex + 1)
  return { auxiliary, count }

/-- Each string goes to the position of its character. -/
def distribute (array : List Text) (startIndex endIndex : Int) (kthIndex : Nat)
    (s : Distribution) : Except Fault Distribution :=
  forRange (distributeString array kthIndex) startIndex (endIndex + 1 - startIndex).toNat s

/-- A round of the fourth loop: a string is copied back. -/
def copyString (auxiliary : List Text) (startIndex index : Int) (array : List Text) :
    Except Fault (List Text) := do
  let x ← readAt auxiliary (index - startIndex)
  writeAt array index x

/-- The range is copied back from the auxiliary array. -/
def copyBack (auxiliary : List Text) (startIndex endIndex : Int) (array : List Text) :
    Except Fault (List Text) :=
  forRange (copyString auxiliary startIndex) startIndex (endIndex + 1 - startIndex).toNat array

/-- The arrays behind a pass over one column. -/
structure Pass where
  array : List Text
  auxiliary : List Text
  count : List Nat

/-- The loops before the recursion. -/
def radixPass (array auxiliary : List Text) (startIndex endIndex : Int) (kthIndex : Nat) :
    Except Fault Pass := do
  let count ← countChars array startIndex endIndex kthIndex (List.replicate (asciiRange + 1) 0)
  let count ← sumCounts count
  let s ← distribute array startIndex endIndex kthIndex { auxiliary, count }
  let array ← copyBack s.auxiliary startIndex endIndex array
  return { array, auxiliary := s.auxiliary, count := s.count }

/-- The bucket of the strings that end before the byte is the first. -/
def bucket (k : Nat) (s : Text) : Nat :=
  match s[k]? with
  | some c => c.toNat + 1
  | none => 0

theorem charAt_eq (s : Text) (k : Nat) : charAt s k = (bucket k s : Int) - 1 := by
  rw [charAt, bucket]
  cases s[k]? with
  | none => rfl
  | some c => exact (Int.add_sub_cancel _ 1).symm

theorem bucket_le (k : Nat) (s : Text) : bucket k s ≤ 256 := by
  rw [bucket]
  cases s[k]? with
  | none => exact Nat.zero_le 256
  | some c => exact c.toNat_lt

/-- The vector `count` with a number for each bucket. -/
def table (f : Nat → Nat) : List Nat :=
  (List.range (asciiRange + 1)).map f

section Tables

variable {f g : Nat → Nat} {j : Nat}

theorem getElem?_table (hj : j < 257) : (table f)[j]? = some (f j) := by
  have hrange : (List.range (asciiRange + 1))[j]? = some j := List.getElem?_range hj
  rw [table, List.getElem?_map, hrange, Option.map_some]

theorem length_table (f : Nat → Nat) : (table f).length = 257 := by
  rw [table, List.length_map, List.length_range, asciiRange]

theorem table_congr (h : ∀ j, j < 257 → f j = g j) : table f = table g := by
  refine List.map_congr_left fun j hj => h j ?_
  exact List.mem_range.mp hj

theorem readAt_table (hj : j < 257) : readAt (table f) j = .ok (f j) :=
  readAt_natCast (getElem?_table hj)

theorem readAt_table_end : readAt (table f) (257 : Nat) = .error .outOfRange := by
  have hnone : (table f)[257]? = none :=
    List.getElem?_eq_none (Nat.le_of_eq (length_table f))
  rw [readAt, if_neg (by omega), Int.toNat_natCast, hnone]

theorem writeAt_table (hj : j < 257) (v : Nat) :
    writeAt (table f) j v = .ok (table (Function.update f j v)) := by
  rw [writeAt_natCast v (by rwa [length_table])]
  refine congrArg _ (List.ext_getElem? fun i => ?_)
  by_cases hi : i < 257
  · rw [getElem?_table hi, List.getElem?_set, length_table, if_pos hj, getElem?_table hi,
      Function.update_apply]
    simp only [eq_comm (a := j)]
    split_ifs <;> rfl
  · rw [List.getElem?_eq_none, List.getElem?_eq_none]
    · rw [length_table]
      omega
    · rw [List.length_set, length_table]
      omega

theorem increment_table (hj : j < 257) :
    increment (table f) j = .ok (table (Function.update f j ((f j + 1) % 2 ^ 32))) := by
  rw [increment, readAt_table hj, ok_bind, writeAt_table hj]

theorem increment_table_end : increment (table f) (257 : Nat) = .error .outOfRange := by
  rw [increment, readAt_table_end, error_bind]

theorem table_zero : List.replicate (asciiRange + 1) 0 = table fun _ => 0 := by
  rw [table, List.map_const', List.length_range]

end Tables

variable {a auxiliary : List Text} {lo hi k : Nat}

/-- What is read next from the range. -/
theorem segment_next {i : Nat} (hlo : lo ≤ i) (hi' : i < hi) (hhi : hi ≤ a.length) :
    ∃ s, a[i]? = some s ∧ segment lo (i + 1) a = segment lo i a ++ [s] ∧
      segment lo hi a = segment lo i a ++ s :: segment (i + 1) hi a := by
  have hs : a[i]? = some a[i] := List.getElem?_eq_getElem (by omega)
  refine ⟨a[i], hs, segment_concat hs hlo, ?_⟩
  rw [← segment_cons hs hi', segment_append hlo (Nat.le_of_lt hi')]

/-- The strings of a range are counted, each one place behind its bucket. -/
structure Counted (k lo hi : Nat) (a : List Text) (count : List Nat) : Prop where
  count_eq : count = table fun j => (segment lo hi a).countP (bucket k · + 1 = j) % 2 ^ 32
  buckets : ∀ s ∈ segment lo hi a, bucket k s < 256

/-- The next string is counted, unless it is one with the byte 255. -/
theorem Counted.step {i : Nat} {count : List Nat} (h : Counted k lo i a count) (hlo : lo ≤ i)
    (hi' : i < hi) (hhi : hi ≤ a.length) :
    Ends (fun fault => fault = .outOfRange ∧ ∃ s ∈ segment lo hi a, bucket k s = 256)
      (Counted k lo (i + 1) a) (countChar a k i count) := by
  rcases segment_next hlo hi' hhi with ⟨s, hs, hnext, hall⟩
  have hindex : charAt s k + 2 = ((bucket k s + 1 : Nat) : Int) := by
    rw [charAt_eq]
    omega
  rw [countChar, readAt_natCast hs, ok_bind, hindex, h.count_eq]
  by_cases hlast : bucket k s = 256
  · -- The byte 255, whose place would be behind the end.
    rw [hlast, increment_table_end]
    refine ⟨rfl, s, ?_, hlast⟩
    rw [hall]
    exact List.mem_append_right _ List.mem_cons_self
  · have hle := bucket_le k s
    rw [increment_table (by omega)]
    refine ⟨table_congr fun j _ => ?_, fun t ht => ?_⟩
    · rw [Function.update_apply, hnext, List.countP_append, List.countP_singleton]
      by_cases hj : j = bucket k s + 1
      · rw [if_pos hj, if_pos (decide_eq_true hj.symm), Nat.mod_add_mod, hj]
      · rw [if_neg hj, if_neg (mt of_decide_eq_true (Ne.symm hj)), Nat.add_zero]
    · -- The string is one of those that were counted before, or this one.
      rw [hnext] at ht
      rcases List.mem_append.mp ht with ht | ht
      · exact h.buckets t ht
      · rw [List.mem_singleton.mp ht]
        omega

/-- The strings are counted, unless there is one with the byte 255. -/
theorem countChars_ends (hlo : lo ≤ hi) (hhi : hi ≤ a.length) :
    Ends (fun fault => fault = .outOfRange ∧ ∃ s ∈ segment lo hi a, bucket k s = 256)
      (Counted k lo hi a) (countChars a lo ((hi : Int) - 1) k (table fun _ => 0)) := by
  have hend : lo + (hi - lo) = hi := by omega
  have hstart : Counted k lo lo a (table fun _ => 0) := by
    refine ⟨?_, ?_⟩
    · rw [segment_of_le (Nat.le_refl lo)]
      rfl
    · rw [segment_of_le (Nat.le_refl lo)]
      exact fun s hs => absurd hs List.not_mem_nil
  have hloop := forRange_ends (countChar a k) _ (fun i => Counted k lo i a) lo (hi - lo) hstart
    fun i count hle hlt hinv => hinv.step hle (by omega) hhi
  rw [hend] at hloop
  rw [countChars, rounds_eq]
  exact hloop

/-- The next number is summed up. -/
theorem sumCount_returns {α : Type} (key : α → Nat) (l : List α) {i : Nat} (hi : i < 256) :
    sumCount i (table fun j =>
        if j ≤ i then below key j l % 2 ^ 32 else l.countP (key · + 1 = j) % 2 ^ 32) =
      .ok (table fun j =>
        if j ≤ i + 1 then below key j l % 2 ^ 32 else l.countP (key · + 1 = j) % 2 ^ 32) := by
  have hindex : (i : Int) + 1 = ((i + 1 : Nat) : Int) := rfl
  rw [sumCount, hindex, readAt_table (by omega), ok_bind, readAt_table (by omega), ok_bind,
    writeAt_table (by omega)]
  refine congrArg _ (table_congr fun j _ => ?_)
  rw [Function.update_apply]
  by_cases hj : j = i + 1
  · have hcount : l.countP (key · + 1 = i + 1) = l.countP (key · = i) :=
      List.countP_congr fun x _ => by simp only [Nat.add_right_cancel_iff]
    rw [if_pos hj, if_neg (by omega), if_pos (Nat.le_refl i), hj, if_pos (Nat.le_refl _),
      ← Nat.add_mod, hcount, below_succ, Nat.add_comm]
  · rw [if_neg hj]
    by_cases hle : j ≤ i
    · rw [if_pos hle, if_pos (by omega)]
    · rw [if_neg hle, if_neg (by omega)]

/-- The sums are where the buckets begin. -/
theorem sumCounts_returns {α : Type} (key : α → Nat) (l : List α) :
    sumCounts (table fun j => l.countP (key · + 1 = j) % 2 ^ 32) =
      .ok (table fun j => below key j l % 2 ^ 32) := by
  have hstart : (table fun j => l.countP (key · + 1 = j) % 2 ^ 32) = table fun j =>
      if j ≤ 0 then below key j l % 2 ^ 32 else l.countP (key · + 1 = j) % 2 ^ 32 := by
    refine table_congr fun j _ => ?_
    by_cases hj : j = 0
    · have hnone : l.countP (key · + 1 = 0) = 0 := by
        rw [List.countP_eq_zero]
        intro x _ hx
        exact Nat.succ_ne_zero _ (of_decide_eq_true hx)
      rw [hj, if_pos (Nat.le_refl 0), below_zero, hnone]
    · rw [if_neg (by omega)]
  rcases forRange_invariant sumCount (fun i count => count = table fun j =>
      if j ≤ i then below key j l % 2 ^ 32 else l.countP (key · + 1 = j) % 2 ^ 32)
    0 256 hstart (fun i count _ hlt hinv => ⟨_, hinv ▸ sumCount_returns key l (by omega), rfl⟩)
    with ⟨count, hloop, hcount⟩
  refine hloop.trans (congrArg _ (hcount.trans (table_congr fun j hj => ?_)))
  rw [if_pos (by omega)]

/-- What holds between two rounds of the loop that distributes the strings of a range. The
    numbers may have wrapped around, but as long as the range has no more strings than there
    are numbers, none is read that has. -/
structure Distributing (k lo hi index : Nat) (a auxiliary : List Text) (s : Distribution) :
    Prop where
  count_eq : s.count = table fun j => (below (bucket k) j (segment lo hi a) +
    (segment lo index a).countP (bucket k · = j)) % 2 ^ 32
  length : s.auxiliary.length = auxiliary.length
  members : ∀ t ∈ s.auxiliary, t ∈ auxiliary ∨ t ∈ a
  distributed : hi - lo ≤ 2 ^ 32 →
    Distributed (bucket k) (segment lo hi a) (segment lo index a) s.auxiliary

/-- The next string is written to its bucket. -/
theorem Distributing.step {i : Nat} {s : Distribution}
    (h : Distributing k lo hi i a auxiliary s) (hlo : lo ≤ i) (hi' : i < hi)
    (hhi : hi ≤ a.length) (hauxiliary : hi - lo ≤ auxiliary.length)
    (hbuckets : ∀ t ∈ segment lo hi a, bucket k t < 256) :
    ∃ s', distributeString a k i s = .ok s' ∧ Distributing k lo hi (i + 1) a auxiliary s' := by
  rcases segment_next hlo hi' hhi with ⟨x, hx, hnext, hall⟩
  have hbucket : bucket k x < 256 := by
    refine hbuckets x ?_
    rw [hall]
    exact List.mem_append_right _ List.mem_cons_self
  have hindex : charAt x k + 1 = (bucket k x : Int) := by
    rw [charAt_eq]
    omega
  have hlength := length_segment lo hhi
  obtain ⟨f, hf⟩ : ∃ f, f = fun j => (below (bucket k) j (segment lo hi a) +
    (segment lo i a).countP (bucket k · = j)) % 2 ^ 32 := ⟨_, rfl⟩
  have hcount : s.count = table f := by
    rw [hf]
    exact h.count_eq
  -- The position is within the range, and if that is not too long, it has not wrapped around.
  have hposition := below_add_countP_lt (bucket k) (segment lo i a) (segment (i + 1) hi a) x
  have hend : below (bucket k) (bucket k x + 1) (segment lo hi a) ≤ (segment lo hi a).length :=
    List.countP_le_length
  have hvalue : f (bucket k x) = (below (bucket k) (bucket k x) (segment lo hi a) +
      (segment lo i a).countP (bucket k · = bucket k x)) % 2 ^ 32 := by
    rw [hf]
  have hmod := Nat.mod_le (below (bucket k) (bucket k x) (segment lo hi a) +
    (segment lo i a).countP (bucket k · = bucket k x)) (2 ^ 32)
  rw [← hall] at hposition
  have hinside : f (bucket k x) < s.auxiliary.length := by
    rw [h.length]
    omega
  have hstep : distributeString a k i s = .ok ⟨s.auxiliary.set (f (bucket k x)) x,
      table (Function.update f (bucket k x) ((f (bucket k x) + 1) % 2 ^ 32))⟩ := by
    rw [distributeString, readAt_natCast hx, ok_bind, hindex, hcount, readAt_table (by omega),
      ok_bind, writeAt_natCast x hinside, ok_bind, increment_table (by omega), ok_bind]
    rfl
  refine ⟨_, hstep, table_congr fun j _ => ?_, ?_, fun t ht => ?_, fun hsmall => ?_⟩
  · rw [Function.update_apply, hnext, List.countP_append, List.countP_singleton]
    by_cases hj : j = bucket k x
    · rw [if_pos hj, if_pos (decide_eq_true hj.symm), hvalue, Nat.mod_add_mod, hj, Nat.add_assoc]
    · rw [if_neg hj, if_neg (mt of_decide_eq_true (Ne.symm hj)), hf, Nat.add_zero]
  · rw [List.length_set]
    exact h.length
  · rcases List.mem_or_eq_of_mem_set ht with ht | rfl
    · exact h.members t ht
    · exact Or.inr (List.mem_of_getElem? hx)
  · rw [hvalue, Nat.mod_eq_of_lt (by omega), hnext]
    exact (h.distributed hsmall).write hall (by rw [h.length]; omega)

/-- The strings are distributed. -/
theorem distribute_returns (hlo : lo ≤ hi) (hhi : hi ≤ a.length)
    (hauxiliary : hi - lo ≤ auxiliary.length)
    (hbuckets : ∀ t ∈ segment lo hi a, bucket k t < 256) :
    ∃ s, distribute a lo ((hi : Int) - 1) k
        ⟨auxiliary, table fun j => below (bucket k) j (segment lo hi a) % 2 ^ 32⟩ = .ok s ∧
      Distributing k lo hi hi a auxiliary s := by
  have hend : lo + (hi - lo) = hi := by omega
  have hstart : Distributing k lo hi lo a auxiliary
      ⟨auxiliary, table fun j => below (bucket k) j (segment lo hi a) % 2 ^ 32⟩ := by
    refine ⟨?_, rfl, fun t ht => Or.inl ht, fun _ => ?_⟩
    · rw [segment_of_le (Nat.le_refl lo)]
      rfl
    · rw [segment_of_le (Nat.le_refl lo)]
      exact Distributed.nil _ _ _
  rcases forRange_invariant (distributeString a k) (fun i => Distributing k lo hi i a auxiliary)
    lo (hi - lo) hstart fun i s hle hlt hinv =>
      hinv.step hle (by omega) hhi hauxiliary hbuckets with ⟨s, hloop, hinv⟩
  rw [hend] at hinv
  rw [distribute, rounds_eq]
  exact ⟨s, hloop, hinv⟩

/-- The strings are copied back. -/
theorem copyBack_returns (hlo : lo ≤ hi) (hhi : hi ≤ a.length)
    (hauxiliary : hi - lo ≤ auxiliary.length) :
    ∃ b, copyBack auxiliary lo ((hi : Int) - 1) a = .ok b ∧ b.length = a.length ∧
      (∀ i, i < lo ∨ hi ≤ i → b[i]? = a[i]?) ∧
      ∀ i, lo ≤ i → i < hi → b[i]? = auxiliary[i - lo]? := by
  rcases forRange_write (copyString auxiliary lo) (fun i => auxiliary[i - lo]?) hlo hhi (by
      intro i b hle hlt hlength
      have hlt' : i - lo < auxiliary.length := by omega
      have hindex : (i : Int) - lo = ((i - lo : Nat) : Int) := by omega
      refine ⟨auxiliary[i - lo], List.getElem?_eq_getElem hlt', ?_⟩
      rw [copyString, hindex, readAt_natCast (List.getElem?_eq_getElem hlt'), ok_bind,
        writeAt_natCast _ (by omega)]) with ⟨b, hloop, hb⟩
  refine ⟨b, ?_, hb⟩
  rw [copyBack, rounds_eq]
  exact hloop

/-- What a pass leaves behind: the numbers are where the buckets end, as far as they do not wrap
    around, and if the range has no more strings than there are numbers, it has the buckets
    one after the other. -/
structure Passed (k lo hi : Nat) (a auxiliary : List Text) (p : Pass) : Prop where
  keys : ∀ s ∈ segment lo hi a, bucket k s < 256
  count_eq : p.count = table fun j => below (bucket k) (j + 1) (segment lo hi a) % 2 ^ 32
  length : p.array.length = a.length ∧ p.auxiliary.length = auxiliary.length
  members : ∀ s, s ∈ p.array ∨ s ∈ p.auxiliary → s ∈ a ∨ s ∈ auxiliary
  outside : ∀ i, i < lo ∨ hi ≤ i → p.array[i]? = a[i]?
  buckets : hi - lo ≤ 2 ^ 32 → ∀ j,
    segment (lo + below (bucket k) j (segment lo hi a))
        (lo + below (bucket k) (j + 1) (segment lo hi a)) p.array =
      (segment lo hi a).filter (bucket k · = j)

/-- The strings of a range are put in their buckets, unless there is one with the byte 255. -/
theorem radixPass_ends (k : Nat) (hlo : lo ≤ hi) (hhi : hi ≤ a.length)
    (hauxiliary : hi - lo ≤ auxiliary.length) :
    Ends (fun fault => fault = .outOfRange ∧ ∃ s ∈ segment lo hi a, bucket k s = 256)
      (Passed k lo hi a auxiliary) (radixPass a auxiliary lo ((hi : Int) - 1) k) := by
  rw [radixPass, table_zero]
  refine Ends.bind (countChars_ends hlo hhi) fun count hcounted => ?_
  have hkeys := hcounted.buckets
  rcases distribute_returns hlo hhi hauxiliary hkeys with ⟨s, hdistribute, hdistributed⟩
  have hlength := hdistributed.length
  rcases copyBack_returns hlo hhi (by omega : hi - lo ≤ s.auxiliary.length) with
    ⟨b, hcopy, hlengthCopy, houtside, hcopied⟩
  rw [hcounted.count_eq, sumCounts_returns, ok_bind, hdistribute, ok_bind, hcopy, ok_bind]
  refine ⟨hkeys, ?_, ⟨hlengthCopy, hlength⟩, fun t ht => ?_, houtside, fun hsmall j => ?_⟩
  · refine hdistributed.count_eq.trans (table_congr fun j _ => ?_)
    rw [below_succ]
  · rcases ht with ht | ht
    · rcases List.mem_iff_getElem?.mp ht with ⟨i, hi'⟩
      by_cases hinside : lo ≤ i ∧ i < hi
      · rw [hcopied i hinside.1 hinside.2] at hi'
        exact (hdistributed.members t (List.mem_of_getElem? hi')).symm
      · rw [houtside i (by omega)] at hi'
        exact Or.inl (List.mem_of_getElem? hi')
    · exact (hdistributed.members t ht).symm
  · have hbucket := (hdistributed.distributed hsmall).bucket j
    have hend : below (bucket k) (j + 1) (segment lo hi a) ≤ (segment lo hi a).length :=
      List.countP_le_length
    rw [length_segment lo hhi] at hend
    rw [← hbucket]
    -- The range has what the auxiliary vector has at its beginning.
    apply List.ext_getElem?
    intro i
    rw [getElem?_segment, getElem?_segment]
    by_cases hi' : below (bucket k) j (segment lo hi a) + i <
        below (bucket k) (j + 1) (segment lo hi a)
    · rw [if_pos (by omega), if_pos hi', hcopied _ (by omega) (by omega)]
      exact congrArg (s.auxiliary[·]?) (by omega)
    · rw [if_neg (by omega), if_neg hi']

end SortTool

end CodingChallenges
