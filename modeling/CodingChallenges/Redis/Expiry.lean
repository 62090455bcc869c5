import CodingChallenges.Redis.StoredValues

/-!
# Expired Keys

How an expired key looks to a command.

Nothing happens to an entry when its expiry passes. It is up to each command to
treat it as if it were gone, and `GET` and `SET` do: the one removes it and the
other replaces it. `EXISTS` and `DEL` count it. A push adds to the old list and
keeps the old expiry, so what was pushed is gone at once, and `LRANGE` returns
elements of the old list.

## Main definitions

* `live`: The entries that have not expired.
* `CommandOn`: The commands that concern a key, and their arguments.
* `SameAsAbsent`: A command does not tell an expired key from no key.
* `ChecksExpiry`: When it does not.

## Theorems

* `live_erase`: Nobody misses an expired key.
* `sameAsAbsent_iff`: Which commands do not tell an expired key from no key.
-/

namespace CodingChallenges

namespace Redis

section Live

/-- The entry under a key, unless it has expired. -/
def live (now : UInt64) (d : Dictionary) (key : Key) : Option (DictionaryValue RespType) :=
  (d.lookup key).filter fun value => !hasExpired now value

theorem live_of_expired {now : UInt64} {key : Key} {d : Dictionary} (h : Expired now key d) :
    live now d key = none := by
  rcases h with ⟨value, hvalue, hexpired⟩
  unfold live
  rw [hvalue, Option.filter_some, hexpired]
  rfl

/-- Nobody misses an expired key. -/
theorem live_erase {now : UInt64} {key : Key} {d : Dictionary} (h : Expired now key d) :
    live now (d.erase key) = live now d := by
  funext other
  -- Only at the key do the two differ, and there neither shows an entry.
  by_cases heq : other = key
  · subst heq
    rw [live_of_expired h]
    unfold live
    rw [AList.lookup_erase]
    rfl
  · unfold live
    rw [AList.lookup_erase_ne heq]

theorem live_insert_erase {now : UInt64} {key : Key} {d : Dictionary}
    (value : DictionaryValue RespType) :
    live now ((d.erase key).insert key value) = live now (d.insert key value) := by
  funext other
  unfold live
  by_cases heq : other = key
  · subst heq
    rw [AList.lookup_insert, AList.lookup_insert]
  · rw [AList.lookup_insert_ne heq, AList.lookup_insert_ne heq, AList.lookup_erase_ne heq]

end Live

/-- The store without a key. -/
def Store.without (s : Store) (key : Key) : Store :=
  { s with dictionary := s.dictionary.erase key }

/-- Running the program gives the same result, and the same entries are left that have
    not expired, as if the key were not there. -/
def SameAsAbsent {α : Type} (p : Program α) (moment : Moment) (key : Key) (s : Store) : Prop :=
  (p.run performOperation moment s).1 = (p.run performOperation moment (s.without key)).1 ∧
    live moment.now (p.run performOperation moment s).2.dictionary =
      live moment.now (p.run performOperation moment (s.without key)).2.dictionary

/-- The commands that concern the key. -/
def CommandOn (name : CommandName) (arguments : List (List Byte)) (key : Key) : Prop :=
  match name with
  | .get | .set | .lpush | .rpush | .lrange => arguments.head? = some key
  -- These two take any number of keys.
  | .existsKey | .del => key ∈ arguments
  | _ => False

/-- There are elements of a list of the size from the one offset to the other. -/
def Selects (size : Nat) (startOffset endOffset : Int32) : Prop :=
  fromEnd size startOffset ≤ fromEnd size endOffset ∧
    fromEnd size startOffset < Int32.ofNat size ∧ 0 ≤ fromEnd size endOffset ∧
    0 < Int32.ofNat size

/-- The command does not get to see what is stored under the key. -/
def ChecksExpiry (name : CommandName) (arguments : List (List Byte)) (stored : RespType) : Prop :=
  match name with
  | .get | .set => True
  -- The number of arguments is wrong.
  | .lpush | .rpush => arguments.length < 2
  | .lrange =>
    ∀ key start last startOffset endOffset, arguments = [key, start, last] →
      isValidSigned64BitInt start = some startOffset →
      isValidSigned64BitInt last = some endOffset →
      ∃ list, stored = .array list ∧ ¬ Selects list.length (toInt startOffset) (toInt endOffset)
  | _ => False

section Reading

variable {moment : Moment} {key : Key} {s : Store}

/-- A program that changes nothing and has the same result. -/
theorem sameAsAbsent_of_unchanged {α : Type} {p : Program α} {a : α}
    (hexpired : Expired moment.now key s.dictionary)
    (h : p.run performOperation moment s = (a, s))
    (h' : p.run performOperation moment (s.without key) = (a, s.without key)) :
    SameAsAbsent p moment key s := by
  unfold SameAsAbsent
  rw [h, h']
  exact ⟨rfl, (live_erase hexpired).symm⟩

theorem sameAsAbsent_done {α : Type} (a : α) (hexpired : Expired moment.now key s.dictionary) :
    SameAsAbsent (.done a) moment key s :=
  sameAsAbsent_of_unchanged hexpired rfl rfl

/-- What is done with the result makes no difference. -/
theorem sameAsAbsent_bind {p : Program RespType} :
    SameAsAbsent (p >>= fun response => .done (Answer.response response)) moment key s ↔
      SameAsAbsent p moment key s := by
  unfold SameAsAbsent
  simp only [Sections.run_bind, Sections.run_done, Answer.response.injEq]

/-- A key that is removed when it is found expired. -/
theorem sameAsAbsent_get (hexpired : Expired moment.now key s.dictionary) :
    SameAsAbsent (get key) moment key s := by
  have hfound : lookUp moment key s.dictionary = .expired := lookUp_eq_expired_iff.mpr hexpired
  have hmissing : lookUp moment key (s.without key).dictionary = .missing := by
    unfold lookUp Store.without
    rw [AList.lookup_erase]
  have hrun : (get key).run performOperation moment s = (.null, s.without key) := by
    change Sections.run performOperation moment
      (getFound key (lookUp moment key s.dictionary)) s = _
    rw [hfound]
    rfl
  have hrun' : (get key).run performOperation moment (s.without key) =
      (.null, s.without key) := by
    change Sections.run performOperation moment
      (getFound key (lookUp moment key (s.without key).dictionary)) (s.without key) = _
    rw [hmissing]
    rfl
  unfold SameAsAbsent
  rw [hrun, hrun']
  exact ⟨rfl, rfl⟩

/-- The clock says the same with and without the key. -/
theorem sameAsAbsent_clock {f : UInt64 → Program Answer}
    (h : SameAsAbsent (f moment.now) moment key s) :
    SameAsAbsent (inSection .clock >>= f) moment key s := by
  unfold SameAsAbsent
  rw [run_clock, run_clock]
  exact h

/-- A key that is replaced. -/
theorem sameAsAbsent_setAndReply (value : List Byte) (timestamp : Option UInt64) :
    SameAsAbsent (setAndReply key value timestamp) moment key s :=
  ⟨rfl, (live_insert_erase _).symm⟩

theorem sameAsAbsent_element {array : List (List Byte)} {index : Nat}
    {f : List Byte → Program Answer} (hexpired : Expired moment.now key s.dictionary)
    (hf : ∀ str, array[index]? = some str → SameAsAbsent (f str) moment key s) :
    SameAsAbsent (element array index f) moment key s := by
  unfold element
  cases hstr : array[index]? with
  | none => exact sameAsAbsent_done _ hexpired
  | some str => exact hf str hstr

theorem sameAsAbsent_processSet {name : List Byte} {arguments : List (List Byte)}
    (hexpired : Expired moment.now key s.dictionary) (hkey : arguments.head? = some key) :
    SameAsAbsent (processSet (name :: arguments)) moment key s := by
  unfold processSet
  split
  · refine sameAsAbsent_element hexpired fun other hother => ?_
    refine sameAsAbsent_element hexpired fun value _ => ?_
    -- The element that is read as the key is the first argument.
    obtain rfl : other = key := by
      rw [List.getElem?_cons_succ, ← List.head?_eq_getElem?, hkey] at hother
      exact (Option.some.inj hother).symm
    split
    · refine sameAsAbsent_element hexpired fun optionName _ => ?_
      refine sameAsAbsent_element hexpired fun optionValue _ => ?_
      cases fromChars sizeBound optionValue with
      | none => exact sameAsAbsent_done _ hexpired
      | some number =>
          refine sameAsAbsent_clock ?_
          cases expiryOf optionName (UInt64.ofNat number.1) moment.now with
          | error response => exact sameAsAbsent_done _ hexpired
          | ok timestamp => exact sameAsAbsent_setAndReply value timestamp
    · exact sameAsAbsent_setAndReply value none
  · exact sameAsAbsent_done _ hexpired

/-- What is pushed to an expired list has expired. -/
theorem not_sameAsAbsent_push (side : Side) (values : List RespString)
    (hexpired : Expired moment.now key s.dictionary) :
    ¬ SameAsAbsent (inSection (.push side key values)) moment key s := by
  rintro ⟨-, hlive⟩
  rcases hexpired with ⟨⟨stored, expiry⟩, hvalue, hhas⟩
  -- Without the key there is a new list, which does not expire.
  have hnew : live moment.now (push side key values (s.dictionary.erase key)).2 key =
      some ⟨.array (pushAll side [] values), none⟩ := by
    unfold push live
    rw [AList.lookup_erase]
    simp only [AList.lookup_insert]
    rfl
  -- With it the old expiry stays, whatever was pushed.
  have hold : live moment.now (push side key values s.dictionary).2 key = none := by
    apply live_of_expired
    unfold push
    rw [hvalue]
    cases stored with
    | array list => exact ⟨_, AList.lookup_insert _, hhas⟩
    | _ => exact ⟨_, hvalue, hhas⟩
  have hsame := congrFun hlive key
  change live moment.now (push side key values s.dictionary).2 key =
    live moment.now (push side key values (s.dictionary.erase key)).2 key at hsame
  rw [hnew, hold] at hsame
  cases hsame

end Reading

section Slices

theorem toInt_max (a b : Int32) : (max a b).toInt = max a.toInt b.toInt := by
  change (if a ≤ b then b else a).toInt = _
  split
  · next h =>
      have hle := Int32.le_iff_toInt_le.mp h
      omega
  · next h =>
      have hlt := Int32.lt_iff_toInt_lt.mp (Int32.not_le.mp h)
      omega

theorem toInt_min (a b : Int32) : (min a b).toInt = min a.toInt b.toInt := by
  change (if a ≤ b then a else b).toInt = _
  split
  · next h =>
      have hle := Int32.le_iff_toInt_le.mp h
      omega
  · next h =>
      have hlt := Int32.lt_iff_toInt_lt.mp (Int32.not_le.mp h)
      omega

theorem toInt_ofNat_le (n : Nat) : (Int32.ofNat n).toInt ≤ n := by
  have hsize : Int32.size = 4294967296 := rfl
  rw [Int32.toInt_ofNat', hsize]
  unfold Int.bmod
  simp only
  split <;> omega

theorem toInt_sub_one {a b : Int32} (h : b < a) : (a - 1).toInt = a.toInt - 1 := by
  have hlow := Int32.le_toInt b
  have hhigh := Int32.toInt_lt a
  have hlt := Int32.lt_iff_toInt_lt.mp h
  have hone : (1 : Int32).toInt = 1 := rfl
  rw [Int32.toInt_sub, hone]
  exact Int.bmod_eq_of_le (by omega) (by omega)

/-- Nothing is selected exactly if the slice is empty. -/
theorem slice_eq_nil_iff {list : RespArray} {startOffset endOffset : Int32} :
    slice list startOffset endOffset = [] ↔ ¬ Selects list.length startOffset endOffset := by
  unfold slice Selects
  -- From here on only the offsets from the front count, as integers.
  generalize fromEnd list.length startOffset = first
  generalize fromEnd list.length endOffset = last
  have hzero : (0 : Int32).toInt = 0 := rfl
  have hsize := toInt_ofNat_le list.length
  simp only [Int32.lt_iff_toInt_lt, Int32.le_iff_toInt_le, hzero]
  split
  · next hguard =>
      refine iff_of_true rfl (fun h => ?_)
      omega
  · next hguard =>
      rw [not_or, Int.not_lt, Int.not_le] at hguard
      have hpos : first < Int32.ofNat list.length := Int32.lt_iff_toInt_lt.mpr hguard.2
      rw [toInt_max, toInt_min, toInt_sub_one hpos, hzero]
      constructor
      · rintro hnil ⟨-, -, hlast, hlength⟩
        -- The first index in range is that of an element.
        have hindex : (max 0 first.toInt).toNat < list.length := by omega
        have hmem : (max 0 first.toInt).toNat ∈ List.range' (max 0 first.toInt).toNat
            (min last.toInt ((Int32.ofNat list.length).toInt - 1) + 1
              - max 0 first.toInt).toNat := by
          rw [List.mem_range'_1]
          omega
        have hnone := List.filterMap_eq_nil_iff.mp hnil _ hmem
        rw [List.getElem?_eq_getElem hindex] at hnone
        cases hnone
      · intro hnone
        have hcount : (min last.toInt ((Int32.ofNat list.length).toInt - 1) + 1 -
            max 0 first.toInt).toNat = 0 := by omega
        rw [hcount]
        rfl

end Slices

section Counting

variable {moment : Moment} {key : Key}

theorem ofNat_ne_zero {n : Nat} (hpos : 0 < n) (hlt : n < sizeBound) : Int64.ofNat n ≠ 0 := by
  intro h
  have hbound : Int64.size = sizeBound := rfl
  have hzero : (Int64.ofNat n).toInt = 0 := by
    rw [h]
    rfl
  rw [Int64.toInt_ofNat', hbound] at hzero
  have hdvd := Int.dvd_of_bmod_eq_zero hzero
  have hle := Int.le_of_dvd (by omega) hdvd
  omega

theorem run_countExisting_cons (other : Key) (keys : List Key) (count : Int64) (s : Store) :
    (countExisting (other :: keys) count).run performOperation moment s =
      (countExisting keys (if (s.dictionary.lookup other).isSome then count + 1 else count)).run
        performOperation moment s :=
  rfl

theorem run_countRemoved_cons (other : Key) (keys : List Key) (count : Int64) (s : Store) :
    (countRemoved (other :: keys) count).run performOperation moment s =
      (countRemoved keys
        (count + Int64.ofNat (if (s.dictionary.lookup other).isSome then 1 else 0))).run
        performOperation moment (s.without other) :=
  rfl

theorem lookup_without (s : Store) (key : Key) : (s.without key).dictionary.lookup key = none :=
  AList.lookup_erase key s.dictionary

theorem lookup_without_ne {key other : Key} (s : Store) (h : other ≠ key) :
    (s.without key).dictionary.lookup other = s.dictionary.lookup other :=
  AList.lookup_erase_ne h

theorem without_comm (s : Store) (key other : Key) :
    (s.without key).without other = (s.without other).without key := by
  unfold Store.without
  simp only [AList.erase_erase other key]

theorem without_without (s : Store) (key : Key) : (s.without key).without key = s.without key := by
  have hgone : key ∉ (s.dictionary.erase key).entries.keys := by
    intro hmem
    exact (AList.mem_erase.mp (AList.mem_keys.mpr hmem)).1 rfl
  unfold Store.without
  simp only [Store.mk.injEq, and_true]
  exact AList.ext (List.kerase_of_notMem_keys hgone)

/-- The key is counted as often as it is asked for. -/
theorem run_countExisting (s : Store) (hkey : (s.dictionary.lookup key).isSome = true)
    (keys : List Key) : ∀ (count count' : Int64) (c : Nat), count = count' + Int64.ofNat c →
      ((countExisting keys count).run performOperation moment s).1 =
        ((countExisting keys count').run performOperation moment (s.without key)).1 +
          Int64.ofNat (c + keys.count key) := by
  induction keys with
  | nil => exact fun count count' c h => h
  | cons other keys ih =>
      intro count count' c h
      rw [run_countExisting_cons, run_countExisting_cons]
      -- The difference grows by one each time the key is asked for.
      by_cases heq : other = key
      · subst heq
        have hstep : count + 1 = count' + Int64.ofNat (c + 1) := by
          rw [h, Int64.ofNat_add, ← Int64.add_assoc]
          rfl
        have hcount : c + (other :: keys).count other = c + 1 + keys.count other := by
          rw [List.count_cons_self]
          omega
        rw [hkey, lookup_without, hcount]
        exact ih (count + 1) count' (c + 1) hstep
      · rw [lookup_without_ne s heq, List.count_cons_of_ne heq]
        refine ih _ _ c ?_
        split
        · rw [h, Int64.add_assoc, Int64.add_comm (Int64.ofNat c), ← Int64.add_assoc]
        · exact h

/-- What was counted before is added to the count. -/
theorem run_countRemoved_add (keys : List Key) (c : Int64) : ∀ (count : Int64) (s : Store),
    ((countRemoved keys (count + c)).run performOperation moment s).1 =
      ((countRemoved keys count).run performOperation moment s).1 + c := by
  induction keys with
  | nil => exact fun count s => rfl
  | cons other keys ih =>
      intro count s
      rw [run_countRemoved_cons, run_countRemoved_cons, Int64.add_assoc, Int64.add_comm c,
        ← Int64.add_assoc]
      exact ih _ _

/-- The key is counted the first time it is asked for. -/
theorem run_countRemoved (keys : List Key) (hmem : key ∈ keys) : ∀ (count : Int64) (s : Store),
    (s.dictionary.lookup key).isSome = true →
      ((countRemoved keys count).run performOperation moment s).1 =
        ((countRemoved keys count).run performOperation moment (s.without key)).1 + 1 := by
  induction keys with
  | nil => exact absurd hmem List.not_mem_nil
  | cons other keys ih =>
      intro count s hkey
      rw [run_countRemoved_cons, run_countRemoved_cons]
      by_cases heq : other = key
      · -- From here on both have the same store.
        subst heq
        rw [hkey, lookup_without, without_without]
        change ((countRemoved keys (count + 1)).run performOperation moment _).1 =
          ((countRemoved keys (count + 0)).run performOperation moment _).1 + 1
        rw [Int64.add_zero]
        exact run_countRemoved_add keys 1 count _
      · have hrest : key ∈ keys := (List.mem_cons.mp hmem).resolve_left (Ne.symm heq)
        rw [lookup_without_ne s heq, without_comm]
        refine ih hrest _ (s.without other) ?_
        rw [lookup_without_ne s (Ne.symm heq)]
        exact hkey

end Counting

section Commands

variable {moment : Moment} {key : Key} {s : Store}

theorem sameAsAbsent_processCount {count : List Key → Int64 → Program Int64} {name : List Byte}
    {arguments : List (List Byte)} (hkey : key ∈ arguments)
    (hcount : ((count arguments 0).run performOperation moment s).1 ≠
      ((count arguments 0).run performOperation moment (s.without key)).1) :
    ¬ SameAsAbsent (processCount (name :: arguments) count) moment key s := by
  have htwo : 2 ≤ (name :: arguments).length := by
    have hpos := List.length_pos_of_mem hkey
    rw [List.length_cons]
    omega
  rintro ⟨hreply, -⟩
  unfold processCount at hreply
  rw [if_pos htwo] at hreply
  change (Sections.run performOperation moment (count arguments 0 >>= fun total =>
    .done (Answer.response (.int total))) s).1 = (Sections.run performOperation moment
      (count arguments 0 >>= fun total => .done (Answer.response (.int total)))
      (s.without key)).1 at hreply
  rw [Sections.run_bind, Sections.run_bind] at hreply
  injection hreply with hreply
  injection hreply with hreply
  exact hcount hreply

theorem sameAsAbsent_processPush_iff {name : List Byte} {arguments : List (List Byte)} (side : Side)
    (hexpired : Expired moment.now key s.dictionary) (hkey : arguments.head? = some key) :
    SameAsAbsent
      (processPush (name :: arguments) fun key values => inSection (.push side key values))
      moment key s ↔ arguments.length < 2 := by
  rcases List.head?_eq_some_iff.mp hkey with ⟨values, rfl⟩
  unfold processPush
  rw [List.length_cons, List.length_cons]
  split
  · next hthree =>
      refine iff_of_false (fun h => ?_) (by omega)
      exact not_sameAsAbsent_push side _ hexpired (sameAsAbsent_bind.mp h)
  · next hfew => exact iff_of_true (sameAsAbsent_done _ hexpired) (by omega)

/-- `LRANGE` does not show the old list if there is nothing in it to show. -/
theorem sameAsAbsent_getList_iff {stored : RespType} {expiry : Option UInt64}
    (hvalue : s.dictionary.lookup key = some ⟨stored, expiry⟩)
    (hexpired : Expired moment.now key s.dictionary) (startOffset endOffset : Int32) :
    SameAsAbsent (getList key startOffset endOffset) moment key s ↔
      ∃ list, stored = .array list ∧ ¬ Selects list.length startOffset endOffset := by
  have hlive : live moment.now s.dictionary = live moment.now (s.without key).dictionary :=
    (live_erase hexpired).symm
  have hgone : getListIn key startOffset endOffset (s.without key).dictionary = .array [] := by
    unfold getListIn
    rw [lookup_without]
  have hreply : SameAsAbsent (getList key startOffset endOffset) moment key s ↔
      getListIn key startOffset endOffset s.dictionary = .array [] := by
    rw [← hgone]
    exact and_iff_left hlive
  -- The contents do not change, so the reply decides.
  rw [hreply]
  unfold getListIn
  rw [hvalue]
  cases stored with
  | array list =>
      simp only [RespType.array.injEq, exists_eq_left', slice_eq_nil_iff]
  | _ =>
      refine iff_of_false (fun h => by cases h) ?_
      rintro ⟨list, hlist, -⟩
      cases hlist

theorem sameAsAbsent_processLrange_iff {stored : RespType} {expiry : Option UInt64}
    {name : List Byte} {arguments : List (List Byte)}
    (hvalue : s.dictionary.lookup key = some ⟨stored, expiry⟩)
    (hexpired : Expired moment.now key s.dictionary) (hkey : arguments.head? = some key) :
    SameAsAbsent (processLrange (name :: arguments)) moment key s ↔
      ChecksExpiry .lrange arguments stored := by
  unfold ChecksExpiry
  by_cases hthree : arguments.length = 3
  · rcases List.length_eq_three.mp hthree with ⟨other, start, last, rfl⟩
    obtain rfl : other = key := Option.some.inj hkey
    rw [processLrange_offsets]
    -- The offsets are checked before the key is looked up.
    cases hstart : isValidSigned64BitInt start with
    | none =>
        refine iff_of_true (sameAsAbsent_done _ hexpired) ?_
        intro _ _ _ startOffset endOffset harguments hsome _
        cases harguments
        rw [hstart] at hsome
        cases hsome
    | some startOffset =>
        cases hlast : isValidSigned64BitInt last with
        | none =>
            refine iff_of_true (sameAsAbsent_done _ hexpired) ?_
            intro _ _ _ startOffset endOffset harguments _ hsome
            cases harguments
            rw [hlast] at hsome
            cases hsome
        | some endOffset =>
            simp only
            rw [sameAsAbsent_bind, sameAsAbsent_getList_iff hvalue hexpired]
            constructor
            · intro h _ _ _ startOffset' endOffset' harguments hstart' hlast'
              cases harguments
              rw [hstart] at hstart'
              rw [hlast] at hlast'
              cases hstart'
              cases hlast'
              exact h
            · intro h
              exact h other start last startOffset endOffset rfl hstart hlast
  · have hrefused : processLrange (name :: arguments) = .done invalidNumberArgsResponse :=
      if_neg (fun hfour => hthree (Nat.succ.inj hfour))
    rw [hrefused]
    refine iff_of_true (sameAsAbsent_done _ hexpired) ?_
    intro _ _ _ _ _ harguments
    exact absurd (congrArg List.length harguments) hthree

/-- Which commands do not tell an expired key from no key. -/
theorem sameAsAbsent_iff (name : CommandName) (arguments : List (List Byte)) (moment : Moment)
    (key : Key) (s : Store) (value : DictionaryValue RespType)
    (hsize : arguments.length < sizeBound) (hon : CommandOn name arguments key)
    (hvalue : s.dictionary.lookup key = some value) (hhas : hasExpired moment.now value = true) :
    SameAsAbsent (process (commandOf (name.text :: arguments))) moment key s ↔
      ChecksExpiry name arguments value.value := by
  have hexpired : Expired moment.now key s.dictionary := ⟨value, hvalue, hhas⟩
  have hsome : (s.dictionary.lookup key).isSome = true := by
    rw [hvalue]
    rfl
  rw [process_commandOf]
  unfold processStrings
  rw [commandNameOf_text]
  cases name with
  | get =>
      refine iff_of_true ?_ trivial
      rcases List.head?_eq_some_iff.mp hon with ⟨rest, rfl⟩
      change SameAsAbsent (processKey _ get) moment key s
      unfold processKey
      split
      · exact sameAsAbsent_bind.mpr (sameAsAbsent_get hexpired)
      · exact sameAsAbsent_done _ hexpired
  | set => exact iff_of_true (sameAsAbsent_processSet hexpired hon) trivial
  | existsKey =>
      refine iff_of_false (sameAsAbsent_processCount hon ?_) id
      have hzero : (0 : Int64) = 0 + Int64.ofNat 0 := rfl
      rw [run_countExisting s hsome arguments 0 0 0 hzero, Nat.zero_add]
      -- At least one is counted too many, and fewer than would wrap around to none.
      have hpos : 0 < arguments.count key := List.count_pos_iff.mpr hon
      have hle : arguments.count key ≤ arguments.length := List.count_le_length
      intro h
      exact ofNat_ne_zero hpos (by omega) (by simpa only [Int64.add_eq_left] using h)
  | del =>
      refine iff_of_false (sameAsAbsent_processCount hon ?_) id
      rw [run_countRemoved arguments hon 0 s hsome]
      intro h
      exact absurd h (by simp)
  | lpush => exact sameAsAbsent_processPush_iff .front hexpired hon
  | rpush => exact sameAsAbsent_processPush_iff .back hexpired hon
  | lrange => exact sameAsAbsent_processLrange_iff hvalue hexpired hon
  | _ => exact absurd hon id

/-- `GET` of a key that has expired. -/
theorem sameAsAbsent_iff_get :
    SameAsAbsent (process (commandOf [bytes "GET", bytes "k"])) (Moment.ordinary 2) (bytes "k")
      ⟨AList.singleton (bytes "k") ⟨.string ⟨bytes "v", true⟩, some 1⟩, none⟩ :=
  (sameAsAbsent_iff .get [bytes "k"] (Moment.ordinary 2) (bytes "k")
    ⟨AList.singleton (bytes "k") ⟨.string ⟨bytes "v", true⟩, some 1⟩, none⟩
    ⟨.string ⟨bytes "v", true⟩, some 1⟩ (by decide) rfl rfl (by decide)).mpr trivial

/-- `EXISTS` finds a key that has expired. -/
theorem not_sameAsAbsent_exists :
    ¬ ∀ (name : CommandName) (arguments : List (List Byte)) (moment : Moment) (key : Key)
        (s : Store),
      CommandOn name arguments key → Expired moment.now key s.dictionary →
        SameAsAbsent (process (commandOf (name.text :: arguments))) moment key s := by
  intro h
  have hexpired : Expired 2 (bytes "k")
      (AList.singleton (bytes "k") ⟨.string ⟨bytes "v", true⟩, some 1⟩) := ⟨_, rfl, by decide⟩
  have hreply := (h .existsKey [bytes "k"] (Moment.ordinary 2) (bytes "k")
    ⟨AList.singleton (bytes "k") ⟨.string ⟨bytes "v", true⟩, some 1⟩, none⟩
    List.mem_cons_self hexpired).1
  -- One key is counted, and no key without it.
  have hcounts : RespType.int 1 = .int 0 := Answer.response.inj hreply
  injection hcounts with hcounts
  exact absurd hcounts (by decide)

end Commands

end Redis

end CodingChallenges
