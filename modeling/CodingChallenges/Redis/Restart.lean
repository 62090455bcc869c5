import CodingChallenges.Library.Atomicity
import CodingChallenges.Library.Likeness
import CodingChallenges.Redis.DumpFile
import CodingChallenges.Redis.StoredValues

/-!
# Starting Again

A server that was started from the file of another one.

A server begins with what `load` of `DictionaryManager.cpp` finds in the dump file. So what was
saved comes back, but for two things. Every string is a bulk string afterwards, and the result of
an `INCR` was none before. And the entries stand in the map in an order of its own, which what was
stored and erased in it decides. No section tells the kinds of strings apart, and neither does what
is saved next. The order is seen in two places: in the order of what is saved, and in that in which
expired keys are removed that are drawn together.

So the clients of the new server are answered as those of the old one, up to the kind of a string,
in whatever order their sections run and in whatever order the map is walked, until expired keys
are drawn that are to be removed in another order.

## Main definitions

* `loadDictionary`, `startServer`: What a server starts with.
* `LikeDictionaries`: Dictionaries that are the same up to the kind of strings.
* `LikeFiles`: Files with the same entries, in whatever order.
* `Surroundings`: What a server cannot choose.
* `PartAt`: Sections at which like stores part.
* `likeStores`: Stores that are the same up to the kind of strings and the order of entries.
* `Answer.asBulk`: An answer, up to the kind of its strings.
* `parties`: The clients and the timer.
* `Unnoticed`: Nobody notices that the server is another one.

## Theorems

* `keysToRemove_eq`: Drawing the same keys from another map.
* `performOperation_like`: No section tells like stores apart.
* `process_alike`: No command goes on differently.
* `unnoticed_of_like`: Runs in like stores.
* `restart_unnoticed`: A server that saves and one that is started from the file.
-/

namespace CodingChallenges

namespace Redis

/-- The loop that stores the entries that were loaded. -/
def storeAll (snapshot : DictionarySnapshot RespType) (d : Dictionary) : Dictionary :=
  snapshot.foldl (fun d entry => d.insert entry.1 entry.2) d

/-- `load` of the manager. If there is no file, or one that is not understood, nothing is
    stored. -/
def loadDictionary (dump : Option (List Byte)) (d : Dictionary) : Except LoadFailure Dictionary :=
  match load dump with
  | .ok snapshot => .ok (storeAll snapshot d)
  | .error .refused => .ok d
  | .error .indeterminate => .error .indeterminate

/-- What the constructor of the manager leaves. -/
def startServer (dump : Option (List Byte)) : Except LoadFailure Store :=
  (loadDictionary dump ∅).map fun dictionary => ⟨dictionary, dump⟩

/-- An entry keeps its expiry. -/
def DictionaryValue.asBulk (value : DictionaryValue RespType) : DictionaryValue RespType :=
  { value with value := value.value.asBulk }

/-- Only a live entry has a value. -/
def Found.asBulk : Found → Found
  | .live value => .live value.asBulk
  | found => found

/-- The answer, with its strings as bulk strings. -/
def Answer.asBulk : Answer → Answer
  | .response value => .response value.asBulk
  | answer => answer

/-- The dictionaries are the same up to the kind of strings. The order they are walked in is not
    part of it. -/
def LikeDictionaries (d d' : Dictionary) : Prop :=
  ∀ key, (d.lookup key).map DictionaryValue.asBulk = (d'.lookup key).map DictionaryValue.asBulk

/-- The snapshots are the same up to the kind of strings and the order. -/
def LikeSnapshots (snapshot snapshot' : DictionarySnapshot RespType) : Prop :=
  (snapshot.map loadedEntry).Perm (snapshot'.map loadedEntry)

/-- The files are the same, or what is saved of like snapshots. -/
def LikeFiles (file file' : List Byte) : Prop :=
  file = file' ∨ ∃ snapshot snapshot', saveSnapshot snapshot = some file ∧
    saveSnapshot snapshot' = some file' ∧ LikeSnapshots snapshot snapshot'

/-- Replies of one section that are the same up to the kind of strings and the order of what is
    copied. -/
def LikeReply : (op : Operation) → Reply op → Reply op → Prop
  | .find _, found, found' => found.asBulk = found'.asBulk
  | .push _ _ _, response, response' => response.asBulk = response'.asBulk
  | .getList _ _ _, response, response' => response.asBulk = response'.asBulk
  | .copy, snapshot, snapshot' => LikeSnapshots snapshot snapshot'
  | _, reply, reply' => reply = reply'

/-- The same section, but for the order in a file that is written. -/
inductive LikeOperations : Operation → Operation → Prop where
  | same (op : Operation) : LikeOperations op op
  | writeDump {file file' : List Byte} (h : LikeFiles file file') :
      LikeOperations (.writeDump file) (.writeDump file')

/-- The replies to like operations are like each other. -/
inductive LikeReplies : (op op' : Operation) → Reply op → Reply op' → Prop where
  | same {op : Operation} {reply reply' : Reply op} (h : LikeReply op reply reply') :
      LikeReplies op op reply reply'
  | writeDump (file file' : List Byte) : LikeReplies (.writeDump file) (.writeDump file') () ()

/-- What a server finds and cannot choose: it follows from what its map and its memory have been
    through. -/
structure Surroundings where
  /-- The order the map is walked in. -/
  walk : List Key → List Key
  walk_perm : ∀ keys, (walk keys).Perm keys
  /-- What is read where an erased entry was. -/
  freed : Option UInt64

/-- The same time, in other surroundings. What is drawn at random may be something else. -/
def Moment.Like (surroundings : Surroundings) (moment moment' : Moment) : Prop :=
  moment'.now = moment.now ∧ moment'.dumpOpens = moment.dumpOpens ∧
    moment'.walk = surroundings.walk ∧ moment'.freed = surroundings.freed

/-- Several expired keys are drawn that the other map has in another order, or what is read is no
    longer there. -/
def PartAt (surroundings : Surroundings) (op : Operation) (moment : Moment) (s s' : Store) : Prop :=
  match op with
  | .draw =>
    2 ≤ (keysToRemove moment s.dictionary).length ∧
      ¬ (keysToRemove moment s.dictionary).Sublist (surroundings.walk s'.dictionary.keys)
  | .peek key => s.dictionary.lookup key = none ∧ surroundings.freed ≠ moment.freed
  | _ => False

section Values

variable {v v' : RespType}

/-- Values that are the same up to the kind of their strings. -/
theorem RespType.asBulk_cases (h : v.asBulk = v'.asBulk) :
    (∃ s s', v = .string s ∧ v' = .string s' ∧ s.str = s'.str) ∨
      (∃ list list', v = .array list ∧ v' = .array list' ∧
        list.map RespType.asBulkString = list'.map RespType.asBulkString) ∨
      (v = v' ∧ (∀ s, v ≠ .string s) ∧ ∀ list, v ≠ .array list) := by
  cases v with
  | string s =>
      cases v' with
      | string s' =>
          refine Or.inl ⟨s, s', rfl, rfl, ?_⟩
          injection h with h
          injection h
      | _ => cases h
  | array list =>
      cases v' with
      | array list' =>
          refine Or.inr (Or.inl ⟨list, list', rfl, rfl, ?_⟩)
          injection h
      | _ => cases h
  | _ =>
      -- Nothing happens to the other values.
      refine Or.inr (Or.inr ⟨?_, fun s hs => ?_, fun list hlist => ?_⟩)
      · cases v' <;> first | exact h | cases h
      · cases hs
      · cases hlist

theorem RespType.asBulk_asBulk (v : RespType) : v.asBulk.asBulk = v.asBulk := by
  have hstring : ∀ v : RespType, v.asBulkString.asBulkString = v.asBulkString := by
    intro v
    cases v <;> rfl
  cases v with
  | array list =>
      change RespType.array ((list.map asBulkString).map asBulkString) = _
      rw [List.map_map]
      exact congrArg RespType.array (List.map_congr_left fun v _ => hstring v)
  | _ => rfl

theorem map_pushAll (side : Side) (values : List RespString) (list : RespArray) :
    (pushAll side list values).map RespType.asBulkString =
      pushAll side (list.map RespType.asBulkString)
        (values.map fun value => ⟨value.str, true⟩) := by
  induction values generalizing list with
  | nil => cases side <;> rfl
  | cons value values ih =>
      cases side with
      | front => exact ih (.string value :: list)
      | back =>
          have hnext := ih (list ++ [.string value])
          rw [List.map_append] at hnext
          exact hnext

theorem slice_map (list : RespArray) (f : RespType → RespType) (startOffset endOffset : Int32) :
    (slice list startOffset endOffset).map f = slice (list.map f) startOffset endOffset := by
  unfold slice
  simp only [List.length_map]
  split
  · rfl
  · rw [List.map_filterMap]
    refine List.filterMap_congr fun index _ => ?_
    rw [List.getElem?_map]

end Values

section Dictionaries

variable {d d' : Dictionary}

/-- What there is under a key of like dictionaries. -/
theorem LikeDictionaries.cases (h : LikeDictionaries d d') (key : Key) :
    (d.lookup key = none ∧ d'.lookup key = none) ∨
      ∃ value value', d.lookup key = some value ∧ d'.lookup key = some value' ∧
        value.value.asBulk = value'.value.asBulk ∧
          value.expiryTimestamp = value'.expiryTimestamp := by
  have hkey := h key
  cases hd : d.lookup key with
  | none =>
      rw [hd, Option.map_none, eq_comm, Option.map_eq_none_iff] at hkey
      exact Or.inl ⟨rfl, hkey⟩
  | some value =>
      rw [hd, Option.map_some, eq_comm, Option.map_eq_some_iff] at hkey
      rcases hkey with ⟨value', hd', hsame⟩
      injection hsame with hvalue hexpiry
      exact Or.inr ⟨value, value', rfl, hd', hvalue.symm, hexpiry.symm⟩

theorem LikeDictionaries.isSome_eq (h : LikeDictionaries d d') (key : Key) :
    (d.lookup key).isSome = (d'.lookup key).isSome := by
  rcases h.cases key with ⟨hd, hd'⟩ | ⟨value, value', hd, hd', -⟩
  · rw [hd, hd']
  · rw [hd, hd']
    rfl

theorem LikeDictionaries.symm (h : LikeDictionaries d d') : LikeDictionaries d' d :=
  fun key => (h key).symm

theorem LikeDictionaries.insert (h : LikeDictionaries d d') (key : Key)
    {value value' : DictionaryValue RespType} (hvalue : value.asBulk = value'.asBulk) :
    LikeDictionaries (d.insert key value) (d'.insert key value') := by
  intro other
  by_cases hother : other = key
  · subst hother
    rw [AList.lookup_insert, AList.lookup_insert, Option.map_some, Option.map_some, hvalue]
  · rw [AList.lookup_insert_ne hother, AList.lookup_insert_ne hother]
    exact h other

theorem LikeDictionaries.erase (h : LikeDictionaries d d') (key : Key) :
    LikeDictionaries (d.erase key) (d'.erase key) := by
  intro other
  by_cases hother : other = key
  · subst hother
    rw [AList.lookup_erase, AList.lookup_erase]
  · rw [AList.lookup_erase_ne hother, AList.lookup_erase_ne hother]
    exact h other

/-- The keys are the same, in whatever order. -/
theorem LikeDictionaries.keys_perm (h : LikeDictionaries d d') : d.keys.Perm d'.keys := by
  refine (List.perm_ext_iff_of_nodup d.keys_nodup d'.keys_nodup).mpr fun key => ?_
  rw [← AList.mem_keys, ← AList.mem_keys, ← AList.lookup_isSome, ← AList.lookup_isSome,
    h.isSome_eq key]

theorem lookUp_asBulk (h : LikeDictionaries d d') (key : Key) {moment moment' : Moment}
    (hnow : moment'.now = moment.now) :
    (lookUp moment key d).asBulk = (lookUp moment' key d').asBulk := by
  unfold lookUp
  rcases h.cases key with ⟨hd, hd'⟩ | ⟨value, value', hd, hd', hvalue, hexpiry⟩
  · rw [hd, hd']
  · have hexpired : hasExpired moment'.now value' = hasExpired moment.now value := by
      unfold hasExpired
      rw [hnow, hexpiry]
    simp only [hd, hd', hexpired]
    split
    · rfl
    · exact congrArg Found.live hvalue

theorem push_asBulk (h : LikeDictionaries d d') (side : Side) (key : Key)
    (values : List RespString) :
    (push side key values d).1.asBulk = (push side key values d').1.asBulk ∧
      LikeDictionaries (push side key values d).2 (push side key values d').2 := by
  unfold push
  rcases h.cases key with ⟨hd, hd'⟩ | ⟨⟨value, expiry⟩, ⟨value', expiry'⟩, hd, hd', hvalue, hexpiry⟩
  · simp only [hd, hd']
    exact ⟨trivial, h.insert key rfl⟩
  · simp only at hvalue hexpiry
    subst hexpiry
    rcases RespType.asBulk_cases hvalue with
      ⟨s, s', rfl, rfl, -⟩ | ⟨list, list', rfl, rfl, hlist⟩ | ⟨rfl, -, hnotList⟩
    · simp only [hd, hd']
      exact ⟨trivial, h⟩
    · -- The lists have grown by the same elements.
      have hpushed : (pushAll side list values).map RespType.asBulkString =
          (pushAll side list' values).map RespType.asBulkString := by
        rw [map_pushAll, map_pushAll, hlist]
      have hlength := congrArg List.length hpushed
      rw [List.length_map, List.length_map] at hlength
      simp only [hd, hd', hlength]
      refine ⟨trivial, h.insert key ?_⟩
      unfold DictionaryValue.asBulk RespType.asBulk
      simp only [hpushed]
    · cases value with
      | array list => exact absurd rfl (hnotList list)
      | _ =>
          simp only [hd, hd']
          exact ⟨trivial, h⟩

theorem getListIn_asBulk (h : LikeDictionaries d d') (key : Key) (startOffset endOffset : Int32) :
    (getListIn key startOffset endOffset d).asBulk =
      (getListIn key startOffset endOffset d').asBulk := by
  unfold getListIn
  rcases h.cases key with ⟨hd, hd'⟩ | ⟨⟨value, expiry⟩, ⟨value', expiry'⟩, hd, hd', hvalue, -⟩
  · rw [hd, hd']
  · rcases RespType.asBulk_cases hvalue with
      ⟨s, s', rfl, rfl, -⟩ | ⟨list, list', rfl, rfl, hlist⟩ | ⟨rfl, -, hnotList⟩
    · simp only [hd, hd']
    · simp only [hd, hd', RespType.asBulk]
      rw [slice_map, slice_map, hlist]
    · cases value with
      | array list => exact absurd rfl (hnotList list)
      | _ => simp only [hd, hd']

end Dictionaries

section Snapshots

variable {moment : Moment} {d d' : Dictionary}

theorem mem_snapshotOf {key : Key} {value : DictionaryValue RespType} :
    (key, value) ∈ snapshotOf moment d ↔ d.lookup key = some value := by
  unfold snapshotOf
  rw [List.mem_filterMap]
  constructor
  · rintro ⟨other, -, hother⟩
    rcases Option.map_eq_some_iff.mp hother with ⟨value', hvalue', hsame⟩
    injection hsame with hkey hvalue
    subst hkey
    exact hvalue ▸ hvalue'
  · intro hvalue
    have hkey : key ∈ d.keys :=
      AList.mem_keys.mp (AList.lookup_isSome.mp (Option.isSome_of_eq_some hvalue))
    refine ⟨key, (moment.walk_perm d.keys).mem_iff.mpr hkey, ?_⟩
    rw [hvalue]
    rfl

/-- Every key is walked by once. -/
theorem snapshotOf_keys : (snapshotOf moment d).map Prod.fst = moment.walk d.keys := by
  have hall : ∀ key ∈ moment.walk d.keys, (d.lookup key).isSome = true := by
    intro key hkey
    exact AList.lookup_isSome.mpr (AList.mem_keys.mpr ((moment.walk_perm d.keys).mem_iff.mp hkey))
  unfold snapshotOf
  generalize moment.walk d.keys = keys at hall
  induction keys with
  | nil => rfl
  | cons key keys ih =>
      rw [List.forall_mem_cons] at hall
      rcases Option.isSome_iff_exists.mp hall.1 with ⟨value, hvalue⟩
      rw [List.filterMap_cons_some (by rw [hvalue]; rfl), List.map_cons, ih hall.2]

/-- What is written does not tell the kind of a string. -/
theorem saveEntry_asBulk (x : Key × DictionaryValue RespType) :
    saveEntry (loadedEntry x).1 (loadedEntry x).2 = saveEntry x.1 x.2 := by
  have helements : ∀ list : RespArray,
      saveElements (list.map RespType.asBulkString) = saveElements list := by
    intro list
    induction list with
    | nil => rfl
    | cons v rest ih =>
        cases v with
        | string s =>
            change (saveElements (rest.map RespType.asBulkString)).map _ = _
            rw [ih]
            rfl
        | _ => rfl
  rcases x with ⟨key, value, expiry⟩
  cases value with
  | array list =>
      change (saveElements (list.map RespType.asBulkString)).map _ = _
      rw [helements, List.length_map]
      rfl
  | _ => rfl

/-- Neither does the order of the entries tell whether they can be written. -/
theorem LikeSnapshots.isSome_saveSnapshot {snapshot snapshot' : DictionarySnapshot RespType}
    (h : LikeSnapshots snapshot snapshot') :
    (saveSnapshot snapshot).isSome = (saveSnapshot snapshot').isSome := by
  have hloaded : ∀ snapshot : DictionarySnapshot RespType, (saveSnapshot snapshot).isSome = true ↔
      ∀ x ∈ snapshot.map loadedEntry, (saveEntry x.1 x.2).isSome = true := by
    intro snapshot
    rw [saveSnapshot_isSome, List.forall_mem_map]
    simp only [saveEntry_asBulk]
  rw [Bool.eq_iff_iff, hloaded, hloaded]
  exact forall_congr' fun x => imp_congr_left h.mem_iff

/-- Storing an entry under another key does nothing to this one. -/
theorem lookup_storeAll_of_notMem {snapshot : DictionarySnapshot RespType} {key : Key}
    (h : key ∉ snapshot.map Prod.fst) (d : Dictionary) :
    (storeAll snapshot d).lookup key = d.lookup key := by
  induction snapshot generalizing d with
  | nil => rfl
  | cons x rest ih =>
      rw [List.map_cons, List.mem_cons, not_or] at h
      change (storeAll rest (d.insert x.1 x.2)).lookup key = _
      rw [ih h.2, AList.lookup_insert_ne h.1]

theorem lookup_storeAll_of_mem {snapshot : DictionarySnapshot RespType}
    (hnodup : (snapshot.map Prod.fst).Nodup) {key : Key} {value : DictionaryValue RespType}
    (h : (key, value) ∈ snapshot) (d : Dictionary) :
    (storeAll snapshot d).lookup key = some value := by
  induction snapshot generalizing d with
  | nil => cases h
  | cons x rest ih =>
      rw [List.map_cons, List.nodup_cons] at hnodup
      change (storeAll rest (d.insert x.1 x.2)).lookup key = _
      rcases List.mem_cons.mp h with rfl | h
      · rw [lookup_storeAll_of_notMem hnodup.1, AList.lookup_insert]
      · exact ih hnodup.2 h _

/-- What was saved and loaded again is like what it was. -/
theorem storeAll_snapshotOf :
    LikeDictionaries d (storeAll ((snapshotOf moment d).map loadedEntry) ∅) := by
  have hkeys : ((snapshotOf moment d).map loadedEntry).map Prod.fst = moment.walk d.keys := by
    rw [List.map_map, ← snapshotOf_keys]
    rfl
  intro key
  cases hd : d.lookup key with
  | none =>
      have hnot : key ∉ ((snapshotOf moment d).map loadedEntry).map Prod.fst := by
        rw [hkeys, (moment.walk_perm d.keys).mem_iff, ← AList.mem_keys, ← AList.lookup_eq_none]
        exact hd
      rw [lookup_storeAll_of_notMem hnot]
      rfl
  | some value =>
      have hnodup : (((snapshotOf moment d).map loadedEntry).map Prod.fst).Nodup := by
        rw [hkeys]
        exact (moment.walk_perm d.keys).nodup_iff.mpr d.keys_nodup
      have hmem : (key, value.asBulk) ∈ (snapshotOf moment d).map loadedEntry :=
        List.mem_map_of_mem (mem_snapshotOf.mpr hd)
      rw [lookup_storeAll_of_mem hnodup hmem, Option.map_some, Option.map_some]
      refine congrArg some ?_
      unfold DictionaryValue.asBulk
      rw [RespType.asBulk_asBulk]

end Snapshots

section Sections

variable {d d' : Dictionary} {surroundings : Surroundings} {moment moment' : Moment}

theorem LikeFiles.symm {file file' : List Byte} (h : LikeFiles file file') :
    LikeFiles file' file := by
  rcases h with rfl | ⟨snapshot, snapshot', hfile, hfile', hlike⟩
  · exact Or.inl rfl
  · exact Or.inr ⟨snapshot', snapshot, hfile', hfile, List.Perm.symm hlike⟩

theorem LikeReplies.reply {op : Operation} {reply reply' : Reply op}
    (h : LikeReplies op op reply reply') : LikeReply op reply reply' := by
  cases h with
  | same h => exact h
  | writeDump file _ => rfl

/-- The entries are copied in whatever order they are walked. -/
theorem snapshotOf_like (h : LikeDictionaries d d') :
    LikeSnapshots (snapshotOf moment d) (snapshotOf moment' d') := by
  have hentries : ∀ (moment : Moment) (d : Dictionary),
      (snapshotOf moment d).map loadedEntry =
        (moment.walk d.keys).filterMap fun key =>
          ((d.lookup key).map DictionaryValue.asBulk).map (Prod.mk key) := by
    intro moment d
    unfold snapshotOf
    rw [List.map_filterMap]
    refine List.filterMap_congr fun key _ => ?_
    rw [Option.map_map, Option.map_map]
    rfl
  unfold LikeSnapshots
  rw [hentries, hentries]
  have hsame : (fun key => ((d.lookup key).map DictionaryValue.asBulk).map (Prod.mk key)) =
      fun key => ((d'.lookup key).map DictionaryValue.asBulk).map (Prod.mk key) := by
    funext key
    rw [h key]
  rw [hsame]
  refine List.Perm.filterMap _ ?_
  exact (moment.walk_perm d.keys).trans (h.keys_perm.trans (moment'.walk_perm d'.keys).symm)

/-- What is asked of an entry's expiry has the same answer in like dictionaries. -/
theorem LikeDictionaries.any_eq (h : LikeDictionaries d d') {f : DictionaryValue RespType → Bool}
    (hf : ∀ value value', value.expiryTimestamp = value'.expiryTimestamp → f value = f value')
    (key : Key) : (d.lookup key).any f = (d'.lookup key).any f := by
  rcases h.cases key with ⟨hd, hd'⟩ | ⟨value, value', hd, hd', -, hexpiry⟩
  · rw [hd, hd']
  · rw [hd, hd', Option.any_some, Option.any_some, hf value value' hexpiry]

/-- The keys that are drawn are some of the keys. -/
theorem keysToRemove_subset {key : Key} (h : key ∈ keysToRemove moment d) : key ∈ d.keys := by
  unfold keysToRemove at h
  have hdrawn := (moment.sample_sublist _).subset (List.mem_of_mem_filter h)
  exact (moment.walk_perm d.keys).mem_iff.mp (List.mem_of_mem_filter hdrawn)

/-- What was drawn can be drawn in another order. -/
theorem redrawn_perm {entries entries' drawn : List Key} (hperm : entries.Perm entries')
    (hnodup : entries'.Nodup) (hdrawn : drawn.Sublist entries) :
    (entries'.filter (· ∈ drawn)).Perm drawn := by
  refine (List.perm_ext_iff_of_nodup (hnodup.filter _) ?_).mpr fun key => ?_
  · exact (hperm.nodup_iff.mpr hnodup).sublist hdrawn
  · rw [List.mem_filter, decide_eq_true_eq, and_iff_right_iff_imp]
    exact fun hkey => hperm.mem_iff.mp (hdrawn.subset hkey)

/-- The keys that are drawn from a map can be drawn from a like one, if they stand there in the
    same order. -/
theorem keysToRemove_eq (h : LikeDictionaries d d')
    (horder : (keysToRemove moment d).Sublist (surroundings.walk d'.keys)) :
    ∃ moment', Moment.Like surroundings moment moment' ∧
      keysToRemove moment' d' = keysToRemove moment d := by
  have hnodup : (surroundings.walk d'.keys).Nodup :=
    (surroundings.walk_perm d'.keys).nodup_iff.mpr d'.keys_nodup
  have hexpired := h.any_eq (f := hasExpired moment.now) fun value value' hexpiry => by
    unfold hasExpired
    rw [hexpiry]
  have hsome := h.any_eq (f := fun value => value.expiryTimestamp.isSome)
    fun value value' hexpiry => by rw [hexpiry]
  -- The entries with an expiry, in either order.
  have hentries := (((moment.walk_perm d.keys).trans h.keys_perm).trans
    (surroundings.walk_perm d'.keys).symm).filter
      fun key => (d.lookup key).any fun value => value.expiryTimestamp.isSome
  have hentries' := List.filter_sublist (p := fun key =>
    (d.lookup key).any fun value => value.expiryTimestamp.isSome) (l := surroundings.walk d'.keys)
  unfold keysToRemove at horder ⊢
  simp only [← hsome]
  generalize (moment.walk d.keys).filter (fun key =>
    (d.lookup key).any fun value => value.expiryTimestamp.isSome) = entries at horder hentries ⊢
  generalize hwalked : (surroundings.walk d'.keys).filter (fun key =>
    (d.lookup key).any fun value => value.expiryTimestamp.isSome) = entries' at hentries hentries'
  have hdrawn := redrawn_perm hentries (hnodup.sublist hentries') (moment.sample_sublist entries)
  refine ⟨⟨moment.now, surroundings.walk, surroundings.walk_perm,
    fun keys => if keys = entries' then entries'.filter (· ∈ moment.sample entries)
      else keys.take 5, ?_, ?_, surroundings.freed, moment.dumpOpens⟩, ⟨rfl, rfl, rfl, rfl⟩, ?_⟩
  · intro keys
    by_cases hkeys : keys = entries'
    · rw [if_pos hkeys, hkeys]
      exact List.filter_sublist
    · rw [if_neg hkeys]
      exact List.take_sublist 5 keys
  · intro keys
    by_cases hkeys : keys = entries'
    · rw [if_pos hkeys, hkeys]
      rw [hdrawn.length_eq, moment.length_sample, hentries.length_eq]
    · rw [if_neg hkeys]
      exact List.length_take
  · simp only [hwalked, if_true, ← hexpired]
    -- The same keys, in the order of the same list.
    refine (List.Nodup.perm_iff_eq_of_sublist hnodup
      ((List.filter_sublist.trans List.filter_sublist).trans hentries') horder).mp ?_
    exact hdrawn.filter _

/-- Up to one key stands in every order. -/
theorem sublist_of_not_partAt {s s' : Store} (h : LikeDictionaries s.dictionary s'.dictionary)
    (hpart : ¬ PartAt surroundings .draw moment s s') :
    (keysToRemove moment s.dictionary).Sublist (surroundings.walk s'.dictionary.keys) := by
  by_cases hseveral : 2 ≤ (keysToRemove moment s.dictionary).length
  · exact not_not.mp fun hnot => hpart ⟨hseveral, hnot⟩
  · have hwalked : ∀ key ∈ keysToRemove moment s.dictionary,
        key ∈ surroundings.walk s'.dictionary.keys := fun key hkey =>
      (surroundings.walk_perm _).mem_iff.mpr (h.keys_perm.mem_iff.mp (keysToRemove_subset hkey))
    match hkeys : keysToRemove moment s.dictionary with
    | [] => exact List.nil_sublist _
    | [key] => exact List.singleton_sublist.mpr (hwalked key (hkeys ▸ List.mem_singleton_self key))
    | _ :: _ :: _ => exact absurd (by rw [hkeys]; simp only [List.length_cons]; omega) hseveral

/-- The same moment in other surroundings. -/
def Moment.within (moment : Moment) (surroundings : Surroundings) : Moment :=
  { moment with
    walk := surroundings.walk
    walk_perm := surroundings.walk_perm
    freed := surroundings.freed }

/-- No section tells like stores apart, unless they part. -/
theorem performOperation_like {s s' : Store} (hdump : Option.Rel LikeFiles s.dump s'.dump)
    (h : LikeDictionaries s.dictionary s'.dictionary) (op : Operation)
    (hpart : ¬ PartAt surroundings op moment s s') :
    ∃ moment', Moment.Like surroundings moment moment' ∧
      LikeReply op (performOperation op moment s).1 (performOperation op moment' s').1 ∧
        Option.Rel LikeFiles (performOperation op moment s).2.dump
          (performOperation op moment' s').2.dump ∧
        LikeDictionaries (performOperation op moment s).2.dictionary
          (performOperation op moment' s').2.dictionary := by
  cases op with
  | draw =>
      rcases keysToRemove_eq h (sublist_of_not_partAt h hpart) with ⟨moment', hlike, hkeys⟩
      exact ⟨moment', hlike, hkeys.symm, hdump, h⟩
  | peek key =>
      refine ⟨moment.within surroundings, ⟨rfl, rfl, rfl, rfl⟩, ?_, hdump, h⟩
      change (Option.map _ _).getD _ = (Option.map _ _).getD _
      rcases h.cases key with ⟨hd, hd'⟩ | ⟨value, value', hd, hd', -, hexpiry⟩
      · rw [hd, hd']
        exact (not_not.mp fun hne => hpart ⟨hd, hne⟩).symm
      · rw [hd, hd', Option.map_some, Option.map_some, hexpiry]
        rfl
  | clock => exact ⟨moment.within surroundings, ⟨rfl, rfl, rfl, rfl⟩, rfl, hdump, h⟩
  | find key =>
      exact ⟨moment.within surroundings, ⟨rfl, rfl, rfl, rfl⟩, lookUp_asBulk h key rfl, hdump, h⟩
  | set key value =>
      exact ⟨moment.within surroundings, ⟨rfl, rfl, rfl, rfl⟩, rfl, hdump, h.insert key rfl⟩
  | contains key =>
      refine ⟨moment.within surroundings, ⟨rfl, rfl, rfl, rfl⟩, ?_, hdump, h⟩
      exact h.isSome_eq key
  | remove cause key =>
      refine ⟨moment.within surroundings, ⟨rfl, rfl, rfl, rfl⟩, ?_, hdump, h.erase key⟩
      change (if _ then 1 else 0) = (if _ then 1 else 0)
      rw [h.isSome_eq key]
  | push side key values =>
      exact ⟨moment.within surroundings, ⟨rfl, rfl, rfl, rfl⟩, (push_asBulk h side key values).1,
        hdump, (push_asBulk h side key values).2⟩
  | getList key startOffset endOffset =>
      exact ⟨moment.within surroundings, ⟨rfl, rfl, rfl, rfl⟩,
        getListIn_asBulk h key startOffset endOffset, hdump, h⟩
  | copy => exact ⟨moment.within surroundings, ⟨rfl, rfl, rfl, rfl⟩, snapshotOf_like h, hdump, h⟩
  | openDump =>
      refine ⟨moment.within surroundings, ⟨rfl, rfl, rfl, rfl⟩, rfl, ?_⟩
      unfold performOperation Moment.within
      by_cases hopens : moment.dumpOpens = true
      · simp only [hopens, if_true]
        exact ⟨.some (Or.inl rfl), h⟩
      · simp only [hopens]
        exact ⟨hdump, h⟩
  | writeDump file =>
      exact ⟨moment.within surroundings, ⟨rfl, rfl, rfl, rfl⟩, rfl, .some (Or.inl rfl), h⟩

/-- Stores with files of the same entries, and with dictionaries that are the same up to the kind
    of strings. -/
def likeStores : Likeness performOperation Surroundings where
  States s s' :=
    Option.Rel LikeFiles s.dump s'.dump ∧ LikeDictionaries s.dictionary s'.dictionary
  Operations := LikeOperations
  Moments := Moment.Like
  Replies := LikeReplies
  Part := PartAt
  keeps := by
    intro surroundings op op' moment s s' hop hs hpart
    rcases hs with ⟨hdump, h⟩
    cases hop with
    | same =>
        rcases performOperation_like hdump h op hpart with ⟨moment', hlike, hreply, hstates⟩
        exact ⟨moment', hlike, .same hreply, hstates⟩
    | @writeDump file file' hfiles =>
        exact ⟨moment.within surroundings, ⟨rfl, rfl, rfl, rfl⟩, .writeDump file file',
          .some hfiles, h⟩

end Sections

section Programs

/-- Programs that do not tell the kinds of strings apart. -/
abbrev ProgramsAlike {α : Type} (asBulk : α → α) (p p' : Program α) : Prop :=
  Sections.Alike likeStores.Operations likeStores.Replies (fun a a' => asBulk a = asBulk a') p p'

/-- Programs that run one section and go on alike. -/
theorem locked_alike {α : Type} {asBulk : α → α} {op : Operation} {f f' : Reply op → Program α}
    (hf : ∀ r r', LikeReply op r r' → ProgramsAlike asBulk (f r) (f' r')) :
    ProgramsAlike asBulk (.locked op f) (.locked op f') :=
  .locked (.same op) fun r r' hr => hf r r' hr.reply

theorem element_alike {array : List (List Byte)} {index : Nat} {f : List Byte → Program Answer}
    (hf : ∀ str, ProgramsAlike Answer.asBulk (f str) (f str)) :
    ProgramsAlike Answer.asBulk (element array index f) (element array index f) := by
  unfold element
  cases array[index]? with
  | none => exact .done rfl
  | some str => exact hf str

/-- Answering with what a program returns. -/
theorem respond_alike {p p' : Program RespType} (h : ProgramsAlike RespType.asBulk p p') :
    ProgramsAlike Answer.asBulk (p >>= fun response => .done (.response response))
      (p' >>= fun response => .done (.response response)) :=
  h.bind fun _ _ hsame => .done (congrArg Answer.response hsame)

theorem processKey_alike (array : List (List Byte)) {f : Key → Program RespType}
    (hf : ∀ key, ProgramsAlike RespType.asBulk (f key) (f key)) :
    ProgramsAlike Answer.asBulk (processKey array f) (processKey array f) := by
  unfold processKey
  split
  · exact element_alike fun key => respond_alike (hf key)
  · exact .done rfl

/-- What is found that is the same up to the kind of a string. -/
theorem Found.asBulk_cases {found found' : Found} (h : found.asBulk = found'.asBulk) :
    found = found' ∨ ∃ v v', found = .live v ∧ found' = .live v' ∧ v.asBulk = v'.asBulk := by
  cases found with
  | live v =>
      cases found' with
      | live v' =>
          injection h with h
          exact Or.inr ⟨v, v', rfl, rfl, h⟩
      | _ => cases h
  | _ => cases found' <;> first | exact Or.inl rfl | cases h

theorem get_alike (key : Key) : ProgramsAlike RespType.asBulk (get key) (get key) := by
  refine locked_alike fun found found' hfound => ?_
  have hsame : found.asBulk = found'.asBulk := hfound
  change ProgramsAlike RespType.asBulk (getFound key found) (getFound key found')
  rcases Found.asBulk_cases hsame with rfl | ⟨v, v', rfl, rfl, hv⟩
  · cases found with
    | missing => exact .done rfl
    | expired => exact locked_alike fun _ _ _ => .done rfl
    | live v => cases v <;> exact .done rfl
  · rcases RespType.asBulk_cases hv with
      ⟨s, s', rfl, rfl, -⟩ | ⟨list, list', rfl, rfl, -⟩ | ⟨rfl, -, -⟩
    · exact .done hv
    · exact .done rfl
    · cases v <;> exact .done rfl

theorem adjust_alike (change : Int64 → Int64) (key : Key) :
    ProgramsAlike RespType.asBulk (adjust change key) (adjust change key) := by
  -- What is found is told from what it is followed by through the text of a string only.
  have hstring : ∀ s s' : RespString, s.str = s'.str →
      ProgramsAlike RespType.asBulk (adjustFound change key (.live (.string s)))
        (adjustFound change key (.live (.string s'))) := by
    intro s s' hstr
    unfold adjustFound
    simp only [hstr]
    cases isValidSigned64BitInt s'.str with
    | none => exact .done rfl
    | some n =>
        refine locked_alike fun timestamp timestamp' htimestamp => ?_
        have hsame : timestamp = timestamp' := htimestamp
        subst hsame
        exact locked_alike fun _ _ _ => .done rfl
  refine locked_alike fun found found' hfound => ?_
  have hsame : found.asBulk = found'.asBulk := hfound
  change ProgramsAlike RespType.asBulk (adjustFound change key found)
    (adjustFound change key found')
  rcases Found.asBulk_cases hsame with rfl | ⟨v, v', rfl, rfl, hv⟩
  · cases found with
    | missing => exact .done rfl
    | expired => exact locked_alike fun _ _ _ => .done rfl
    | live v =>
        cases v with
        | string s => exact hstring s s rfl
        | _ => exact .done rfl
  · rcases RespType.asBulk_cases hv with
      ⟨s, s', rfl, rfl, hstr⟩ | ⟨list, list', rfl, rfl, -⟩ | ⟨rfl, hnot, -⟩
    · exact hstring s s' hstr
    · exact .done rfl
    · cases v with
      | string s => exact absurd rfl (hnot s)
      | _ => exact .done rfl

/-- A section whose reply tells nothing about the kinds of strings. -/
theorem inSection_alike {α : Type} {asBulk : α → α} {op : Operation}
    (hop : ∀ r r', LikeReply op r r' → r = r') {f : Reply op → Program α}
    (hf : ∀ r, ProgramsAlike asBulk (f r) (f r)) :
    ProgramsAlike asBulk (.locked op f) (.locked op f) := by
  refine locked_alike fun r r' hr => ?_
  rw [hop r r' hr]
  exact hf r'

theorem setAndReply_alike (key value : List Byte) (timestamp : Option UInt64) :
    ProgramsAlike Answer.asBulk (setAndReply key value timestamp)
      (setAndReply key value timestamp) :=
  inSection_alike (by exact fun _ _ hr => hr) fun _ => .done rfl

theorem processSet_alike (array : List (List Byte)) :
    ProgramsAlike Answer.asBulk (processSet array) (processSet array) := by
  unfold processSet
  split
  · refine element_alike fun key => element_alike fun value => ?_
    split
    · refine element_alike fun optionName => element_alike fun optionValue => ?_
      split
      · exact .done rfl
      · refine inSection_alike (by exact fun _ _ hr => hr) fun now => ?_
        dsimp only [Sections.bind]
        split
        · exact .done rfl
        · exact setAndReply_alike key value _
    · exact setAndReply_alike key value none
  · exact .done rfl

theorem countExisting_alike (keys : List Key) :
    ∀ count, ProgramsAlike id (countExisting keys count) (countExisting keys count) := by
  induction keys with
  | nil => exact fun count => .done rfl
  | cons key keys ih =>
      exact fun count => inSection_alike (by exact fun _ _ hr => hr) fun found => ih _

theorem countRemoved_alike (keys : List Key) :
    ∀ count, ProgramsAlike id (countRemoved keys count) (countRemoved keys count) := by
  induction keys with
  | nil => exact fun count => .done rfl
  | cons key keys ih =>
      exact fun count => inSection_alike (by exact fun _ _ hr => hr) fun removed => ih _

theorem processCount_alike (array : List (List Byte)) {count : List Key → Int64 → Program Int64}
    (hcount : ∀ keys n, ProgramsAlike id (count keys n) (count keys n)) :
    ProgramsAlike Answer.asBulk (processCount array count) (processCount array count) := by
  unfold processCount
  split
  · refine (hcount _ _).bind fun total total' htotal => ?_
    have hsame : total = total' := htotal
    subst hsame
    exact .done rfl
  · exact .done rfl

theorem processPush_alike (array : List (List Byte))
    {push : Key → List RespString → Program RespType}
    (hpush : ∀ key values, ProgramsAlike RespType.asBulk (push key values) (push key values)) :
    ProgramsAlike Answer.asBulk (processPush array push) (processPush array push) := by
  unfold processPush
  split
  · exact element_alike fun key => respond_alike (hpush key _)
  · exact .done rfl

theorem processLrange_alike (array : List (List Byte)) :
    ProgramsAlike Answer.asBulk (processLrange array) (processLrange array) := by
  unfold processLrange
  split
  · refine element_alike fun key => element_alike fun start => element_alike fun last => ?_
    split
    · exact .done rfl
    · split
      · exact .done rfl
      · exact respond_alike (locked_alike fun _ _ hr => .done hr)
  · exact .done rfl

/-- What is copied may stand in another order and have strings of another kind, but the file has the
    same entries. -/
theorem save_alike : ProgramsAlike id save save := by
  refine locked_alike fun snapshot snapshot' hsnapshot => ?_
  have hlike : LikeSnapshots snapshot snapshot' := hsnapshot
  have hsaved := hlike.isSome_saveSnapshot
  dsimp only [Sections.bind]
  refine locked_alike fun opened opened' hopened => ?_
  have hsame : opened = opened' := hopened
  subst hsame
  cases opened with
  | false => exact .done rfl
  | true =>
      cases hfile : saveSnapshot snapshot with
      | none =>
          rw [hfile, eq_comm, Option.isSome_none, Option.isSome_eq_false_iff,
            Option.isNone_iff_eq_none] at hsaved
          rw [hsaved]
          exact .done rfl
      | some file =>
          rw [hfile, eq_comm, Option.isSome_some] at hsaved
          rcases Option.isSome_iff_exists.mp hsaved with ⟨file', hfile'⟩
          rw [hfile']
          refine .locked (.writeDump (Or.inr ⟨snapshot, snapshot', hfile, hfile', hlike⟩)) ?_
          exact fun _ _ _ => .done rfl

theorem processSave_alike (array : List (List Byte)) :
    ProgramsAlike Answer.asBulk (processSave array) (processSave array) := by
  unfold processSave
  split
  · refine save_alike.bind fun saved saved' hsaved => ?_
    have hsame : saved = saved' := hsaved
    subst hsame
    cases saved with
    | none => exact .done rfl
    | some ok => cases ok <;> exact .done rfl
  · exact .done rfl

/-- No command goes on differently. -/
theorem process_alike (command : RespType) :
    ProgramsAlike Answer.asBulk (process command) (process command) := by
  unfold process
  split
  · split
    · next elements commandName arguments hstrings =>
        unfold processStrings
        cases commandNameOf commandName with
        | none => exact .done rfl
        | some name =>
            cases name with
            | config => exact .of_uses (fun _ => rfl) (processConfig_uses _)
            | ping => exact .done rfl
            | echo => exact .of_uses (fun _ => rfl) (processEcho_uses _)
            | get => exact processKey_alike _ get_alike
            | set => exact processSet_alike _
            | existsKey => exact processCount_alike _ countExisting_alike
            | del => exact processCount_alike _ countRemoved_alike
            | incr => exact processKey_alike _ (adjust_alike _)
            | decr => exact processKey_alike _ (adjust_alike _)
            | lpush =>
                exact processPush_alike _ fun _ _ => locked_alike fun _ _ hr => .done hr
            | rpush =>
                exact processPush_alike _ fun _ _ => locked_alike fun _ _ hr => .done hr
            | lrange => exact processLrange_alike _
            | save => exact processSave_alike _
    · exact .done rfl
  · exact .done rfl

/-- Neither does a client. -/
theorem callAll_alike (commands : List RespType) :
    ProgramsAlike (List.map Answer.asBulk) (callAll process commands)
      (callAll process commands) := by
  induction commands with
  | nil => exact .done rfl
  | cons command commands ih =>
      refine (process_alike command).bind fun answer answer' hanswer => ?_
      refine ih.bind fun answers answers' hanswers => .done ?_
      rw [List.map_cons, List.map_cons, hanswer, hanswers]

theorem removeAll_alike {asBulk : Unit → Unit} (keys : List Key) :
    ProgramsAlike asBulk (removeAll keys) (removeAll keys) := by
  induction keys with
  | nil => exact .done rfl
  | cons key keys ih => exact inSection_alike (by exact fun _ _ hr => hr) fun _ => ih

theorem tryRemoveExpiredKeys_alike {asBulk : Unit → Unit} (rounds : Nat) :
    ProgramsAlike asBulk (tryRemoveExpiredKeys rounds) (tryRemoveExpiredKeys rounds) := by
  induction rounds with
  | zero => exact .done rfl
  | succ rounds ih =>
      refine inSection_alike (by exact fun _ _ hr => hr) fun keys => ?_
      have hremoved : ProgramsAlike id (removeAll keys) (removeAll keys) := removeAll_alike keys
      refine hremoved.bind fun _ _ _ => ?_
      split
      · exact ih
      · exact .done rfl

/-- Nor the timer. -/
theorem handleTimer_alike {asBulk : Unit → Unit} (periods : List Nat) :
    ProgramsAlike asBulk (handleTimer periods) (handleTimer periods) := by
  induction periods with
  | nil => exact .done rfl
  | cons rounds periods ih =>
      have hround : ProgramsAlike id (tryRemoveExpiredKeys rounds) (tryRemoveExpiredKeys rounds) :=
        tryRemoveExpiredKeys_alike rounds
      exact hround.bind fun _ _ _ => ih

end Programs

/-- The clients, and behind them the timer. -/
def parties (clients : List (List RespType)) (periods : List Nat) :
    List (Program (List Answer)) :=
  clients.map (callAll process) ++ [handleTimer periods >>= fun _ => .done []]

/-- The dump files have the same entries, and the clients that are done have got the same answers,
    up to the kind of strings. -/
def SameSoFar (p q : Pool Reply Store (List Answer)) : Prop :=
  Option.Rel LikeFiles p.shared.dump q.shared.dump ∧
    ∀ (client : Nat) answers, p.tasks[client]? = some (.done answers) →
      ∃ answers', q.tasks[client]? = some (.done answers') ∧
        answers'.map Answer.asBulk = answers.map Answer.asBulk

/-- The same section at the same time, and the same so far. -/
def SameTurn (surroundings : Surroundings)
    (x y : Pool Reply Store (List Answer) × Operation × Moment) : Prop :=
  SameSoFar x.1 y.1 ∧ LikeOperations x.2.1 y.2.1 ∧ Moment.Like surroundings x.2.2 y.2.2

/-- Whatever the clients ask for and in whatever order the sections run, they can run in this
    order on the other store too, whatever its surroundings are: these may depend on all that has
    been run there. So it goes on to the end of the run, or to a section at which the stores
    part. -/
def Unnoticed (s s' : Store) : Prop :=
  ∀ (clients : List (List RespType)) (periods : List Nat)
    (t : List (Pool Reply Store (List Answer) × Operation × Moment))
    (p : Pool Reply Store (List Answer))
    (surroundings : List (Pool Reply Store (List Answer) × Operation × Moment) → Surroundings),
    Trace (Turn performOperation) ⟨s, parties clients periods⟩ t p →
      ∃ t₁ t₂ p₁ t' p', t = t₁ ++ t₂ ∧
        Trace (Turn performOperation) ⟨s, parties clients periods⟩ t₁ p₁ ∧
        Trace (Turn performOperation) p₁ t₂ p ∧
        Trace (Turn performOperation) ⟨s', parties clients periods⟩ t' p' ∧
        Following surroundings SameTurn [] t₁ t' ∧ SameSoFar p₁ p' ∧
        ∀ x ∈ t₂.head?, PartAt (surroundings t') x.2.1 x.2.2 p₁.shared p'.shared

section Runs

theorem parties_alike (clients : List (List RespType)) (periods : List Nat) :
    List.Forall₂ (ProgramsAlike (List.map Answer.asBulk)) (parties clients periods)
      (parties clients periods) := by
  refine List.forall₂_same.mpr fun party hparty => ?_
  rcases List.mem_append.mp hparty with hclient | htimer
  · rcases List.mem_map.mp hclient with ⟨commands, -, rfl⟩
    exact callAll_alike commands
  · rw [List.mem_singleton] at htimer
    subst htimer
    have htimer : ProgramsAlike id (handleTimer periods) (handleTimer periods) :=
      handleTimer_alike periods
    exact htimer.bind fun _ _ _ => .done rfl

theorem sameSoFar_of_pools {p q : Pool Reply Store (List Answer)}
    (h : likeStores.Pools (fun a a' => a.map Answer.asBulk = a'.map Answer.asBulk) p q) :
    SameSoFar p q := by
  refine ⟨h.1.1, fun client answers hanswers => ?_⟩
  rcases List.getElem?_eq_some_iff.mp hanswers with ⟨hlt, hdone⟩
  have hlt' : client < q.tasks.length := by
    rw [← h.2.length_eq]
    exact hlt
  have hsame := h.2.get hlt hlt'
  rw [List.get_eq_getElem, List.get_eq_getElem, hdone] at hsame
  rcases hsame.of_done with ⟨answers', hdone', hanswers'⟩
  exact ⟨answers', List.getElem?_eq_some_iff.mpr ⟨hlt', hdone'⟩, hanswers'.symm⟩

/-- Nobody tells like stores apart in any run. -/
theorem unnoticed_of_like {s s' : Store} (h : likeStores.States s s') : Unnoticed s s' := by
  intro clients periods t p surroundings hrun
  have hpools : likeStores.Pools (fun a a' => a.map Answer.asBulk = a'.map Answer.asBulk)
      ⟨s, parties clients periods⟩ ⟨s', parties clients periods⟩ :=
    ⟨h, parties_alike clients periods⟩
  rcases Likeness.run hrun hpools surroundings [] with
    ⟨t₁, t₂, p₁, t', p', hsplit, hrun₁, hrun₂, hrun', hfollowing, hend, hpart⟩
  refine ⟨t₁, t₂, p₁, t', p', hsplit, hrun₁, hrun₂, hrun', ?_, sameSoFar_of_pools hend, hpart⟩
  exact hfollowing.imp fun _ _ _ hturns => ⟨sameSoFar_of_pools hturns.1, hturns.2⟩

theorem likeStores_symm {s s' : Store} (h : likeStores.States s s') : likeStores.States s' s := by
  have hsymm : ∀ dump dump', Option.Rel LikeFiles dump dump' → Option.Rel LikeFiles dump' dump := by
    intro dump dump' hdump
    cases hdump with
    | none => exact .none
    | some hfiles => exact .some hfiles.symm
  exact ⟨hsymm _ _ h.1, LikeDictionaries.symm h.2⟩

/-- What saving leaves. -/
theorem run_save {s : Store} {moment : Moment} (hopens : moment.dumpOpens = true)
    {file : List Byte} (hfile : saveSnapshot (snapshotOf moment s.dictionary) = some file) :
    save.run performOperation moment s = (some true, { s with dump := some file }) := by
  unfold save
  simp only [inSection, Sections.perform_bind, Sections.run_locked, performOperation, hopens, hfile,
    if_true]
  rfl

/-- What is written is read to the last entry and its end. -/
theorem part_loadSnapshot {snapshot : DictionarySnapshot RespType}
    (hvalues : ∀ x ∈ snapshot, x.2.value.Serialisable)
    (hlengths : ∀ length ∈ writtenLengths snapshot, LengthReadBack length) :
    ∃ records, saveEntries snapshot = some records ∧
      Part loadSnapshot
        (writeLength snapshot.length ++ (writeLength snapshot.length ++ (records ++ [0xFF])))
        (snapshot.map loadedEntry) := by
  rw [writtenLengths, List.forall_mem_cons] at hlengths
  have hentryLengths : ∀ x ∈ snapshot, ∀ length ∈ entryLengths x.1 x.2, LengthReadBack length :=
    fun x hx length hlength => hlengths.2 length (List.mem_flatMap.mpr ⟨x, hx, hlength⟩)
  rcases part_loadEntries hvalues hentryLengths with ⟨records, hrecords, hentries⟩
  have hsize := part_readLength hlengths.1
  refine ⟨records, hrecords, hsize.bind (hsize.bind (hentries.bind ?_))⟩
  exact (part_getByte 0xFF).map fun _ => snapshot.map loadedEntry

/-- So the server that is started from the file begins with what was written. -/
theorem startServer_saved {snapshot : DictionarySnapshot RespType}
    (hvalues : ∀ x ∈ snapshot, x.2.value.Serialisable)
    (hlengths : ∀ length ∈ writtenLengths snapshot, LengthReadBack length) :
    ∃ file, saveSnapshot snapshot = some file ∧
      startServer (some file) = .ok ⟨storeAll (snapshot.map loadedEntry) ∅, some file⟩ := by
  rcases part_loadSnapshot hvalues hlengths with ⟨records, hrecords, hpart⟩
  refine ⟨saveHeader snapshot.length ++ records ++ saveTrailer, ?_, ?_⟩
  · rw [saveSnapshot, hrecords, Option.map_some]
  · -- The trailer is read up to the byte that ends the entries.
    have hrun := hpart (LittleEndian.encode 8 0)
    simp only [List.append_assoc, List.cons_append, List.nil_append] at hrun
    have hload : load (some (saveHeader snapshot.length ++ records ++ saveTrailer)) =
        .ok (snapshot.map loadedEntry) := by
      rw [load, InputStream.ofFile, List.append_assoc, drop_saveHeader, saveTrailer, hrun, map_ok]
    rw [startServer, loadDictionary, hload]
    rfl

/-- A server that saves its strings and lists, all lengths of which can be read back, and one that
    is started from the file: nobody notices a difference between them, but for the kind of
    strings. -/
theorem restart_unnoticed {s : Store} {moment : Moment} (hvalues : Serialisable s.dictionary)
    (hlengths : ∀ length ∈ writtenLengths (snapshotOf moment s.dictionary), LengthReadBack length)
    (hopens : moment.dumpOpens = true) :
    ∃ restarted, startServer (save.run performOperation moment s).2.dump = .ok restarted ∧
      Unnoticed (save.run performOperation moment s).2 restarted ∧
        Unnoticed restarted (save.run performOperation moment s).2 := by
  have hentries : ∀ x ∈ snapshotOf moment s.dictionary, x.2.value.Serialisable :=
    fun x hx => hvalues x.1 x.2 (mem_snapshotOf.mp hx)
  rcases startServer_saved hentries hlengths with ⟨file, hfile, hstarted⟩
  rw [run_save hopens hfile]
  have hlike : likeStores.States { s with dump := some file }
      ⟨storeAll ((snapshotOf moment s.dictionary).map loadedEntry) ∅, some file⟩ :=
    ⟨.some (Or.inl rfl), storeAll_snapshotOf⟩
  exact ⟨_, hstarted, unnoticed_of_like hlike, unnoticed_of_like (likeStores_symm hlike)⟩

/-- The result of an `INCR`, and a list. -/
abbrev storeOfTwo : Store :=
  ⟨AList.insert (bytes "n") ⟨.string ⟨bytes "2", false⟩, none⟩
    (AList.insert (bytes "l") ⟨.array [.string ⟨bytes "a", true⟩], some 9⟩ ∅), none⟩

theorem restart_unnoticed_two :
    ∃ restarted, startServer (save.run performOperation (Moment.ordinary 7) storeOfTwo).2.dump =
        .ok restarted ∧
      Unnoticed (save.run performOperation (Moment.ordinary 7) storeOfTwo).2 restarted ∧
        Unnoticed restarted (save.run performOperation (Moment.ordinary 7) storeOfTwo).2 := by
  have hlist : RespType.Serialisable (.array [.string ⟨bytes "a", true⟩]) :=
    List.forall_mem_singleton.mpr trivial
  have hvalues : Serialisable storeOfTwo.dictionary := by
    refine Serialisable.insert (Serialisable.insert Serialisable.empty ?_) ?_
    · exact hlist
    · trivial
  refine restart_unnoticed hvalues (fun length hlength => lengthReadBack_of_le ?_) rfl
  have hlengths : writtenLengths (snapshotOf (Moment.ordinary 7) storeOfTwo.dictionary) =
      [2, 1, 1, 1, 1, 1] := by decide
  rw [hlengths] at hlength
  have hall : ∀ length ∈ [2, 1, 1, 1, 1, 1], length ≤ 63 := by decide
  exact hall length hlength

end Runs

end Redis

end CodingChallenges
