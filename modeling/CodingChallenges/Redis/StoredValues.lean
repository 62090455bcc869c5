import CodingChallenges.Redis.CommandProcessor

/-!
# What Is Stored

Which values clients can bring into the dictionary.

`GET`, `LRANGE`, `INCR` and the dump file know strings and lists of strings. `SET`
stores strings and the pushes store lists of strings, and so does `INCR` if it finds
a number that has not expired. The branch for a number that has expired stores the
integer 1 itself, which nothing else knows what to do with: `GET` answers with an
error, and the dump file gets a record without a value.

This is the only way a value of another shape gets in. So a sequence of commands
keeps to strings and lists of strings exactly if `INCR` and `DECR` never meet an
expired key.

## Main definitions

* `Serialisable`: A dictionary of strings and lists of strings.
* `Processes`: Processing a command, with nobody else at work.
* `AdjustsExpired`: An `INCR` or `DECR` that meets an expired key.

## Theorems

* `process_harmless`: What every other command stores.
* `run_adjust_serialisable_iff`: What `INCR` and `DECR` do.
* `serialisable_iff`: Which sequences of commands keep to strings and lists.
-/

namespace CodingChallenges

namespace Redis

/-- All values are strings or lists of strings. -/
def Serialisable (d : Dictionary) : Prop :=
  ∀ key value, d.lookup key = some value → value.value.Serialisable

theorem Serialisable.empty : Serialisable ∅ := by
  intro key value hvalue
  cases hvalue

theorem Serialisable.insert {d : Dictionary} (h : Serialisable d) {key : Key}
    {value : DictionaryValue RespType} (hvalue : value.value.Serialisable) :
    Serialisable (d.insert key value) := by
  intro other found hfound
  by_cases heq : other = key
  · subst heq
    rw [AList.lookup_insert] at hfound
    injection hfound with hfound
    exact hfound ▸ hvalue
  · rw [AList.lookup_insert_ne heq] at hfound
    exact h other found hfound

theorem Serialisable.erase {d : Dictionary} (h : Serialisable d) (key : Key) :
    Serialisable (d.erase key) := by
  intro other found hfound
  by_cases heq : other = key
  · subst heq
    rw [AList.lookup_erase] at hfound
    cases hfound
  · rw [AList.lookup_erase_ne heq] at hfound
    exact h other found hfound

/-- Pushing strings to a list of strings leaves one. -/
theorem pushAll_strings (side : Side) (values : List RespString) :
    ∀ list : RespArray, (∀ v ∈ list, v.IsString) → ∀ v ∈ pushAll side list values, v.IsString := by
  induction values with
  | nil =>
      intro list hlist
      cases side <;> exact hlist
  | cons value values ih =>
      intro list hlist
      have hvalue : (RespType.string value).IsString := trivial
      cases side with
      | front => exact ih (.string value :: list) (List.forall_mem_cons.mpr ⟨hvalue, hlist⟩)
      | back =>
          exact ih (list ++ [.string value])
            (List.forall_mem_append.mpr ⟨hlist, List.forall_mem_singleton.mpr hvalue⟩)

theorem Serialisable.push {d : Dictionary} (h : Serialisable d) (side : Side) (key : Key)
    (values : List RespString) : Serialisable (push side key values d).2 := by
  unfold Redis.push
  split
  · -- A new list.
    exact h.insert (pushAll_strings side values [] (fun v hv => absurd hv List.not_mem_nil))
  · next existingList expiry hfound =>
      exact h.insert (pushAll_strings side values existingList (h key _ hfound))
  · exact h

/-- A section that stores nothing but strings and lists of strings. -/
def Operation.Harmless : Operation → Prop
  | .set _ value => value.value.Serialisable
  | _ => True

theorem performOperation_serialisable (op : Operation) (moment : Moment) (s : Store)
    (hop : op.Harmless) (h : Serialisable s.dictionary) :
    Serialisable (performOperation op moment s).2.dictionary := by
  cases op with
  | set key value => exact h.insert hop
  | remove cause key => exact h.erase key
  | push side key values => exact h.push side key values
  | openDump =>
      unfold performOperation
      simp only
      split <;> exact h
  | _ => exact h

section Harmless

theorem get_harmless (key : Key) : (get key).Uses Operation.Harmless := by
  refine ⟨trivial, fun found => ?_⟩
  cases found with
  | missing => trivial
  | expired => exact ⟨trivial, fun _ => trivial⟩
  | live value => cases value <;> trivial

/-- Only `INCR` and `DECR` can store anything else. -/
theorem process_harmless {command : RespType} (h : ∀ key, ¬ Adjusts command key) :
    (process command).Uses Operation.Harmless := by
  have hordinary : ∀ op : Operation, op.Ordinary → op.Harmless := by
    intro op hop
    cases op with
    | set key value =>
        rcases RespType.isString_iff.mp hop with ⟨str, hstr⟩
        change value.value.Serialisable
        rw [hstr]
        trivial
    | _ => trivial
  exact process_uses hordinary (fun key _ => get_harmless key)
    (fun key change hkey => absurd hkey (h key))

end Harmless

section Adjusting

/-- There is an entry under the key, and it has expired. -/
def Expired (now : UInt64) (key : Key) (d : Dictionary) : Prop :=
  ∃ value, d.lookup key = some value ∧ hasExpired now value = true

theorem lookUp_eq_expired_iff {moment : Moment} {key : Key} {d : Dictionary} :
    lookUp moment key d = .expired ↔ Expired moment.now key d := by
  unfold lookUp Expired
  constructor
  · intro h
    split at h
    · cases h
    · next value hvalue =>
        split at h
        · next hexpired => exact ⟨value, hvalue, hexpired⟩
        · cases h
  · rintro ⟨value, hvalue, hexpired⟩
    rw [hvalue]
    exact if_pos hexpired

/-- The integer is stored exactly if the key has expired. -/
theorem run_adjust_serialisable_iff {s : Store} (h : Serialisable s.dictionary)
    (change : Int64 → Int64) (key : Key) (moment : Moment) :
    Serialisable ((adjust change key).run performOperation moment s).2.dictionary ↔
      ¬ Expired moment.now key s.dictionary := by
  rw [← lookUp_eq_expired_iff]
  change Serialisable ((Sections.run performOperation moment
    (adjustFound change key (lookUp moment key s.dictionary)) s).2.dictionary) ↔ _
  cases lookUp moment key s.dictionary with
  | missing => exact iff_of_true h (fun heq => by cases heq)
  | expired =>
      -- The integer is there now, under this key.
      refine iff_of_false (fun hstored => ?_) (fun hne => hne rfl)
      exact hstored key ⟨.int 1, none⟩ (AList.lookup_insert s.dictionary)
  | live value =>
      refine iff_of_true ?_ (fun heq => by cases heq)
      -- A number is replaced by a string, and nothing else is stored.
      cases value with
      | string value =>
          unfold adjustFound
          simp only
          cases isValidSigned64BitInt value.str with
          | none => exact h
          | some n => exact h.insert trivial
      | _ => exact h

end Adjusting

section Runs

/-- The command is processed at the moment, with nobody else at work. -/
def Processes (s : Store) (event : Moment × RespType) (s' : Store) : Prop :=
  s' = ((process event.2).run performOperation event.1 s).2

theorem processes_run (s : Store) (moment : Moment) (command : RespType) :
    Processes s (moment, command) ((process command).run performOperation moment s).2 :=
  rfl

/-- The command is an `INCR` or `DECR` that meets a key that has expired. -/
def AdjustsExpired (s : Store) (event : Moment × RespType) : Prop :=
  ∃ key, Adjusts event.2 key ∧ Expired event.1.now key s.dictionary

/-- The clock does not go back. -/
def ClockOrdered (t : List (Store × Moment × RespType)) : Prop :=
  t.Pairwise fun x y => x.2.1.now ≤ y.2.1.now

/-- A command keeps to strings and lists of strings exactly if it is not one of
    these. -/
theorem process_serialisable_iff {s s' : Store} {event : Moment × RespType}
    (h : Serialisable s.dictionary) (hstep : Processes s event s') :
    Serialisable s'.dictionary ↔ ¬ AdjustsExpired s event := by
  rcases event with ⟨moment, command⟩
  subst hstep
  by_cases hadjusts : ∃ key, Adjusts command key
  · rcases hadjusts with ⟨key, hkey⟩
    rcases process_adjusts hkey with ⟨change, hprocess⟩
    -- What is answered stores nothing, so only the sections of `adjust` count.
    rw [hprocess, Sections.run_bind, Sections.run_done, run_adjust_serialisable_iff h]
    refine not_congr ⟨fun hexpired => ⟨key, hkey, hexpired⟩, ?_⟩
    rintro ⟨other, hother, hexpired⟩
    exact hkey.key_unique hother ▸ hexpired
  · -- Every other command only has sections that are harmless.
    have hnone : ∀ key, ¬ Adjusts command key := fun key hkey => hadjusts ⟨key, hkey⟩
    refine iff_of_true ?_ (fun hexpired => ?_)
    · exact (process_harmless hnone).run performOperation_serialisable moment h
    · rcases hexpired with ⟨key, hkey, _⟩
      exact hnone key hkey

/-- In a run from the empty dictionary all values ever stored are strings and lists of
    strings exactly if no `INCR` and no `DECR` meets a key that has expired. -/
theorem serialisable_iff {dump : Option (List Byte)} {t : List (Store × Moment × RespType)}
    {s : Store} (h : Trace Processes ⟨∅, dump⟩ t s) :
    ((∀ x ∈ t, Serialisable x.1.dictionary) ∧ Serialisable s.dictionary) ↔
      ∀ x ∈ t, ¬ AdjustsExpired x.1 x.2 :=
  h.invariant_iff (fun _ _ _ hinv hstep => process_serialisable_iff hinv hstep) Serialisable.empty

/-- A number without an expiry is counted up. -/
theorem serialisable_iff_counter :
    Serialisable ((process (commandOf [bytes "INCR", bytes "k"])).run performOperation
      (Moment.ordinary 2) ((process (commandOf [bytes "SET", bytes "k", bytes "1"])).run
        performOperation (Moment.ordinary 1) ⟨∅, none⟩).2).2.dictionary := by
  have hset : ¬ AdjustsExpired ⟨∅, none⟩
      (Moment.ordinary 1, commandOf [bytes "SET", bytes "k", bytes "1"]) := by
    rintro ⟨key, -, value, hvalue, -⟩
    cases hvalue
  have hincr : ¬ AdjustsExpired ((process (commandOf [bytes "SET", bytes "k", bytes "1"])).run
      performOperation (Moment.ordinary 1) ⟨∅, none⟩).2
      (Moment.ordinary 2, commandOf [bytes "INCR", bytes "k"]) := by
    rintro ⟨key, hkey, value, hvalue, hexpired⟩
    obtain rfl : key = bytes "k" := Adjusts.key_unique (Or.inl rfl) hkey
    have hstored : value = ⟨.string ⟨bytes "1", true⟩, none⟩ :=
      Option.some.inj (hvalue.symm.trans rfl)
    subst hstored
    cases hexpired
  exact ((serialisable_iff (Trace.cons _ _ _ _ _ (processes_run _ _ _)
    (Trace.single (processes_run _ _ _)))).mpr
    (List.forall_mem_cons.mpr ⟨hset, List.forall_mem_singleton.mpr hincr⟩)).2

/-- `INCR` of an expired key stores an integer. -/
theorem not_serialisable_expired :
    ¬ ∀ (t : List (Store × Moment × RespType)) (s : Store),
      Trace Processes ⟨∅, none⟩ t s → ClockOrdered t → Serialisable s.dictionary := by
  intro h
  have hclock : (1 : UInt64) ≤ 3 := by decide
  have hfirst := processes_run ⟨∅, none⟩ (Moment.ordinary 1)
    (commandOf [bytes "SET", bytes "k", bytes "1", bytes "PX", bytes "1"])
  have hsecond := fun s => processes_run s (Moment.ordinary 3) (commandOf [bytes "INCR", bytes "k"])
  exact h _ _ (Trace.cons _ _ _ _ _ hfirst (Trace.single (hsecond _)))
    (List.pairwise_pair.mpr hclock) (bytes "k") ⟨.int 1, none⟩ rfl

end Runs

end Redis

end CodingChallenges
