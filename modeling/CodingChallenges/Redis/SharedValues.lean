import CodingChallenges.Redis.DictionaryManager

/-!
# Shared Values

What saving the dictionary writes while clients change it.

`DictionaryManager::save` copies the entries under the lock and writes the file
without it. The values are not copied, only the pointers to them. A command that
stores a value makes a new object for it and leaves the old one to whoever still
points to it; a push to a list that is there changes the object itself, and what
has not been written of it by then is written as it is now.

Here the dictionary holds references to objects, and the program that writes the
file reads them one after the other: of a list first how many elements it has, for
the length in the file, then where the loop over them begins and ends, then each
element, and last that there are no more. Behind the references the operations are
those of `DictionaryManager` (`read_change`).

## Main definitions

* `Shared`: The dictionary and the objects its values are.
* `Change`, `change`: What clients do to it.
* `saveShared`: Saving, step by step.
* `contentsOf`: What the entries of a snapshot hold.
* `SparesSnapshot`: A step that does not push to a list that is still to be read.

## Theorems

* `read_change`: The operations, seen through the references.
* `objects_change`: What happens to an object.
* `Stage.changed`, `Stage.step`: How far the file is written.
* `save_snapshot`: When the file holds what the dictionary did.
-/

namespace CodingChallenges

namespace Redis

/-- A pointer to an object: its position among all that were ever made. -/
abbrev Reference := Nat

/-- The dictionary and the objects its values are. Every value is an object, and no
    two keys share one. -/
structure Shared where
  dictionary : AList (fun _ : Key => DictionaryValue Reference)
  objects : List RespType
  valid : ∀ key value, dictionary.lookup key = some value → value.value < objects.length
  separate : ∀ key other value value', dictionary.lookup key = some value →
    dictionary.lookup other = some value' → value.value = value'.value → key = other

namespace Shared

/-- What a pointer points to. -/
def object (s : Shared) (reference : Reference) : RespType :=
  s.objects.getD reference .null

/-- What is stored under a key, behind the reference. -/
def read (s : Shared) (key : Key) : Option (DictionaryValue RespType) :=
  (s.dictionary.lookup key).map fun value => ⟨s.object value.value, value.expiryTimestamp⟩

/-- Making an object and storing it. -/
def store (s : Shared) (key : Key) (value : RespType) (timestamp : Option UInt64) : Shared where
  dictionary := s.dictionary.insert key ⟨s.objects.length, timestamp⟩
  objects := s.objects ++ [value]
  valid := by
    intro other found hfound
    rw [List.length_append, List.length_singleton]
    by_cases heq : other = key
    · subst heq
      rw [AList.lookup_insert] at hfound
      cases hfound
      exact Nat.lt_succ_self _
    · rw [AList.lookup_insert_ne heq] at hfound
      exact Nat.lt_succ_of_lt (s.valid other found hfound)
  separate := by
    intro a b value value' ha hb hsame
    by_cases hak : a = key
    · by_cases hbk : b = key
      · exact hak.trans hbk.symm
      · -- The new object is none of the old ones.
        subst hak
        rw [AList.lookup_insert] at ha
        rw [AList.lookup_insert_ne hbk] at hb
        cases ha
        exact absurd hsame.symm (Nat.ne_of_lt (s.valid b value' hb))
    · rw [AList.lookup_insert_ne hak] at ha
      by_cases hbk : b = key
      · subst hbk
        rw [AList.lookup_insert] at hb
        cases hb
        exact absurd hsame (Nat.ne_of_lt (s.valid a value ha))
      · rw [AList.lookup_insert_ne hbk] at hb
        exact s.separate a b value value' ha hb hsame

/-- Erasing a key. The object stays for whoever else points to it. -/
def erase (s : Shared) (key : Key) : Shared where
  dictionary := s.dictionary.erase key
  objects := s.objects
  valid := by
    intro other found hfound
    by_cases heq : other = key
    · subst heq
      rw [AList.lookup_erase] at hfound
      cases hfound
    · rw [AList.lookup_erase_ne heq] at hfound
      exact s.valid other found hfound
  separate := by
    intro a b value value' ha hb hsame
    by_cases hak : a = key
    · subst hak
      rw [AList.lookup_erase] at ha
      cases ha
    · by_cases hbk : b = key
      · subst hbk
        rw [AList.lookup_erase] at hb
        cases hb
      · rw [AList.lookup_erase_ne hak] at ha
        rw [AList.lookup_erase_ne hbk] at hb
        exact s.separate a b value value' ha hb hsame

/-- Changing an object in place. -/
def write (s : Shared) (reference : Reference) (value : RespType) : Shared where
  dictionary := s.dictionary
  objects := s.objects.set reference value
  valid := by
    intro key found hfound
    rw [List.length_set]
    exact s.valid key found hfound
  separate := s.separate

/-- No entry and no object. -/
def empty : Shared where
  dictionary := ∅
  objects := []
  valid := fun _ _ h => by cases h
  separate := fun _ _ _ _ h => by cases h

section Objects

variable {s : Shared} {reference : Reference}

theorem object_store_self (key : Key) (value : RespType) (timestamp : Option UInt64) :
    (s.store key value timestamp).object s.objects.length = value := by
  unfold object store
  simp only [List.getD_eq_getElem?_getD, List.getElem?_concat_length, Option.getD_some]

theorem object_store (key : Key) (value : RespType) (timestamp : Option UInt64)
    (h : reference < s.objects.length) :
    (s.store key value timestamp).object reference = s.object reference := by
  unfold object store
  simp only [List.getD_eq_getElem?_getD, List.getElem?_append_left h]

theorem object_write_self (value : RespType) (h : reference < s.objects.length) :
    (s.write reference value).object reference = value := by
  unfold object write
  simp only [List.getD_eq_getElem?_getD, List.getElem?_set_self h, Option.getD_some]

theorem object_write_ne (value : RespType) {other : Reference} (h : other ≠ reference) :
    (s.write reference value).object other = s.object other := by
  unfold object write
  simp only [List.getD_eq_getElem?_getD, List.getElem?_set_ne (Ne.symm h)]

end Objects

end Shared

/-- What clients do to the dictionary, each in one section. -/
inductive Change where
  | set (key : Key) (value : RespType) (timestamp : Option UInt64)
  | remove (key : Key)
  | push (side : Side) (key : Key) (values : List RespString)

/-- The section of `DictionaryManager` that does it. -/
def Change.operation : Change → Operation
  | .set key value timestamp => .set key ⟨value, timestamp⟩
  | .remove key => .remove .command key
  | .push side key values => .push side key values

/-- The body of `push_front` and `push_back`: a list that is there is changed in place. -/
def pushShared (side : Side) (key : Key) (values : List RespString) (s : Shared) : Shared :=
  match s.dictionary.lookup key with
  | none => s.store key (.array (pushAll side [] values)) none
  | some value =>
    match s.object value.value with
    | .array existingList => s.write value.value (.array (pushAll side existingList values))
    | _ => s

/-- A change is made in one section. -/
def change : Change → Shared → Shared
  | .set key value timestamp, s => s.store key value timestamp
  | .remove key, s => s.erase key
  | .push side key values, s => pushShared side key values s

/-- A push makes a list, or changes one, or fails. -/
theorem pushShared_cases (side : Side) (key : Key) (values : List RespString) (s : Shared) :
    (s.dictionary.lookup key = none ∧
      pushShared side key values s = s.store key (.array (pushAll side [] values)) none) ∨
    (∃ value list, s.dictionary.lookup key = some value ∧ s.object value.value = .array list ∧
      pushShared side key values s = s.write value.value (.array (pushAll side list values))) ∨
    (∃ value, s.dictionary.lookup key = some value ∧ (∀ list, s.object value.value ≠ .array list) ∧
      pushShared side key values s = s) := by
  unfold pushShared
  cases hfound : s.dictionary.lookup key with
  | none => exact Or.inl ⟨rfl, rfl⟩
  | some value =>
      right
      cases hobject : s.object value.value with
      | array list => exact Or.inl ⟨value, list, rfl, hobject, by simp only [hobject]⟩
      | _ =>
          refine Or.inr ⟨value, rfl, fun list h => ?_, by simp only [hobject]⟩
          rw [hobject] at h
          cases h

section Reading

variable {s : Shared} {key : Key}

theorem read_store_self (value : RespType) (timestamp : Option UInt64) :
    (s.store key value timestamp).read key = some ⟨value, timestamp⟩ := by
  unfold Shared.read
  change ((s.dictionary.insert key ⟨s.objects.length, timestamp⟩).lookup key).map _ = _
  rw [AList.lookup_insert, Option.map_some, Shared.object_store_self]

theorem read_store_ne (value : RespType) (timestamp : Option UInt64) {other : Key}
    (h : other ≠ key) : (s.store key value timestamp).read other = s.read other := by
  unfold Shared.read
  change ((s.dictionary.insert key ⟨s.objects.length, timestamp⟩).lookup other).map _ = _
  rw [AList.lookup_insert_ne h]
  cases hfound : s.dictionary.lookup other with
  | none => rfl
  | some found =>
      rw [Option.map_some, Option.map_some,
        Shared.object_store key value timestamp (s.valid other found hfound)]

/-- A list is changed for its own key only. -/
theorem read_write {value : DictionaryValue Reference}
    (hvalue : s.dictionary.lookup key = some value)
    (new : RespType) (other : Key) : (s.write value.value new).read other =
      if other = key then some ⟨new, value.expiryTimestamp⟩ else s.read other := by
  unfold Shared.read
  change (s.dictionary.lookup other).map _ = _
  split
  · next heq =>
      subst heq
      rw [hvalue, Option.map_some, Shared.object_write_self new (s.valid other value hvalue)]
  · next hne =>
      cases hfound : s.dictionary.lookup other with
      | none => rfl
      | some found =>
          have hapart : found.value ≠ value.value :=
            fun hsame => hne (s.separate other key found value hfound hvalue hsame)
          rw [Option.map_some, Option.map_some, Shared.object_write_ne new hapart]

/-- Seen through the references, a change is what `DictionaryManager` does. -/
theorem read_change (c : Change) (s : Shared) (store : Store) (moment : Moment)
    (h : ∀ key, store.dictionary.lookup key = s.read key) :
    ∀ key, (performOperation c.operation moment store).2.dictionary.lookup key =
      (change c s).read key := by
  intro key
  cases c with
  | set other value timestamp =>
      by_cases heq : key = other
      · subst heq
        exact (AList.lookup_insert _).trans (read_store_self value timestamp).symm
      · refine (AList.lookup_insert_ne heq).trans ((h key).trans ?_)
        exact (read_store_ne value timestamp heq).symm
  | remove other =>
      by_cases heq : key = other
      · subst heq
        refine (AList.lookup_erase key _).trans ?_
        change none = ((s.dictionary.erase key).lookup key).map _
        rw [AList.lookup_erase]
        rfl
      · refine (AList.lookup_erase_ne heq).trans ((h key).trans ?_)
        change _ = ((s.dictionary.erase other).lookup key).map _
        rw [AList.lookup_erase_ne heq]
        rfl
  | push side other values =>
      change (push side other values store.dictionary).2.lookup key =
        (pushShared side other values s).read key
      have hother := h other
      unfold Shared.read at hother
      unfold push
      -- A push makes an object, changes one, or finds a value that is not a list.
      rcases pushShared_cases side other values s with ⟨hfound, hpush⟩ |
        ⟨value, list, hfound, hobject, hpush⟩ | ⟨value, hfound, hobject, hpush⟩
      · rw [hfound, Option.map_none] at hother
        rw [hother, hpush]
        by_cases heq : key = other
        · subst heq
          exact (AList.lookup_insert _).trans (read_store_self _ _).symm
        · exact (AList.lookup_insert_ne heq).trans ((h key).trans (read_store_ne _ _ heq).symm)
      · rw [hfound, Option.map_some, hobject] at hother
        rw [hother, hpush, read_write hfound]
        by_cases heq : key = other
        · subst heq
          rw [if_pos rfl]
          exact AList.lookup_insert _
        · rw [if_neg heq]
          exact (AList.lookup_insert_ne heq).trans (h key)
      · rw [hfound, Option.map_some] at hother
        rw [hother, hpush]
        cases hvalue : s.object value.value with
        | array list => exact absurd hvalue (hobject list)
        | _ => exact h key

end Reading

/-- What is held by a value, as far as the file is concerned. -/
inductive Alternative where
  | string (str : List Byte)
  | array
  | other

/-- The sections, and the steps of writing the file. -/
inductive SharedOperation where
  | change (c : Change)
  /-- Copying the entries, under the lock. -/
  | copy
  | openDump
  /-- Looking at what an object is, and reading it if it is a string. -/
  | look (reference : Reference)
  /-- The size of a list, for the file. -/
  | size (reference : Reference)
  /-- Where the loop over a list begins and ends. -/
  | bounds (reference : Reference)
  | element (reference : Reference) (index : Nat)
  /-- Going on behind the last element, to where the loop ends. -/
  | past (reference : Reference)

/-- What an operation hands back. -/
abbrev SharedReply : SharedOperation → Type
  | .change _ => Unit
  | .copy => DictionarySnapshot Reference
  | .openDump => Bool
  | .look _ => Alternative
  | .size _ => Nat
  | .bounds _ => Nat
  | .element _ _ => Option RespType
  | .past _ => Unit

/-- The elements of a list. -/
def Shared.list (s : Shared) (reference : Reference) : RespArray :=
  match s.object reference with
  | .array list => list
  | _ => []

/-- The entries in the order the map is walked, with references. -/
def copyOf (moment : Moment) (s : Shared) : DictionarySnapshot Reference :=
  (moment.walk s.dictionary.keys).filterMap fun key =>
    (s.dictionary.lookup key).map fun value => (key, value)

/-- Which alternative of the variant a value is. -/
def alternativeOf : RespType → Alternative
  | .string str => .string str.str
  | .array _ => .array
  | _ => .other

/-- One operation on the shared objects. -/
def performShared : (op : SharedOperation) → Moment → Shared → SharedReply op × Shared
  | .change c, _, s => ((), change c s)
  | .copy, moment, s => (copyOf moment s, s)
  | .openDump, moment, s => (moment.dumpOpens, s)
  | .look reference, _, s => (alternativeOf (s.object reference), s)
  | .size reference, _, s => ((s.list reference).length, s)
  | .bounds reference, _, s => ((s.list reference).length, s)
  -- A push to either end leaves the loop without an iterator that is valid. What is found
  -- then is undefined; here it is what stands at the position now.
  | .element reference index, _, s => ((s.list reference)[index]?, s)
  | .past _, _, s => ((), s)

/-- A client, or the one that saves: in the end it may have written a file. -/
abbrev Saver := Sections SharedReply (Option (List Byte))

/-- What follows when an element was read. Reading on if it was not a string throws. -/
def afterElement (next : List Byte → Saver) (file : List Byte) : Option RespType → Saver
  | some (.string str) => next (file ++ saveString str.str)
  | _ => .done none

/-- So many elements of a list, from an index on, and what is written after them. -/
def saveList (reference : Reference) (rest : List Byte → Saver) :
    Nat → Nat → List Byte → Saver
  | 0, _, file => .locked (.past reference) fun _ => rest file
  | count + 1, index, file =>
    .locked (.element reference index)
      (afterElement (fun file => saveList reference rest count (index + 1) file) file)

/-- What follows when the size of a list was read: the type, the key and the size are
    written, and the loop begins. -/
def afterSize (key : Key) (value : DictionaryValue Reference) (next : List Byte → Saver)
    (file : List Byte) (size : Nat) : Saver :=
  -- Between the two a push may change the size.
  .locked (.bounds value.value) fun count =>
    saveList value.value next count 0 (file ++ (saveExpiry value.expiryTimestamp ++
      (0x01 :: saveString key) ++ writeLength size))

/-- What follows when an object was looked at. -/
def afterLook (key : Key) (value : DictionaryValue Reference) (next : List Byte → Saver)
    (file : List Byte) : Alternative → Saver
  | .string str =>
    next (file ++ (saveExpiry value.expiryTimestamp ++ (0x00 :: saveString key) ++ saveString str))
  | .array => .locked (.size value.value) (afterSize key value next file)
  | .other => next (file ++ saveExpiry value.expiryTimestamp)

/-- The entries, and the trailer after them. -/
def saveRecords : DictionarySnapshot Reference → List Byte → Saver
  | [], file => .done (some (file ++ saveTrailer))
  | (key, value) :: rest, file =>
    .locked (.look value.value) (afterLook key value (fun file => saveRecords rest file) file)

/-- Writing the file of a snapshot. There is none if it cannot be opened. -/
def saveCopy (snapshot : DictionarySnapshot Reference) : Saver :=
  .locked .openDump fun opened =>
    if opened then saveRecords snapshot (saveHeader snapshot.length) else .done none

/-- The copy of the dictionary is the only section under the lock. -/
def saveShared : Saver :=
  .locked .copy saveCopy

/-- A client, with what it does to the dictionary. -/
def client : List Change → Saver
  | [] => .done none
  | c :: changes => .locked (.change c) fun _ => client changes

/-- What the entries hold at a time. -/
def contentsOf (s : Shared) (snapshot : DictionarySnapshot Reference) :
    DictionarySnapshot RespType :=
  snapshot.map fun (key, value) => (key, ⟨s.object value.value, value.expiryTimestamp⟩)

/-- The step reads of a list what a push would change. The elements of a deque may stay where
    they are, but the iterators of the loop over them are not valid any longer. -/
def SharedOperation.Disturbed (reference : Reference) : SharedOperation → Prop
  | .size other => other = reference
  | .bounds other => other = reference
  | .element other _ => other = reference
  | .past other => other = reference
  | _ => False

/-- The entries are not about to be copied. -/
def Copied : Saver → Prop
  | .locked .copy _ => False
  | _ => True

/-- The step is no push to a list that has been copied and of which something is still
    to be read. -/
def SparesSnapshot (p : Pool SharedReply Shared (Option (List Byte)))
    (event : SharedOperation × Moment) : Prop :=
  match event.1 with
  | .change (.push _ key _) => ∀ value list, p.shared.dictionary.lookup key = some value →
      p.shared.object value.value = .array list →
        ∀ task ∈ p.tasks, Copied task → task.Uses fun op => ¬ op.Disturbed value.value
  | _ => True

section Changes

variable {s : Shared}

theorem length_change (c : Change) (s : Shared) :
    s.objects.length ≤ (change c s).objects.length := by
  have hstore : ∀ key value timestamp,
      s.objects.length ≤ (s.store key value timestamp).objects.length := by
    intro key value timestamp
    change _ ≤ (s.objects ++ [value]).length
    rw [List.length_append]
    exact Nat.le_add_right _ _
  cases c with
  | set key value timestamp => exact hstore key value timestamp
  | remove key => exact Nat.le_refl _
  | push side key values =>
      change _ ≤ (pushShared side key values s).objects.length
      rcases pushShared_cases side key values s with ⟨-, h⟩ | ⟨value, list, -, -, h⟩ | ⟨_, -, -, h⟩
      · rw [h]
        exact hstore key _ none
      · rw [h]
        exact Nat.le_of_eq List.length_set.symm
      · rw [h]

/-- A change leaves an object alone, unless it is a push to the list it is. -/
theorem objects_change (c : Change) {reference : Reference} (h : reference < s.objects.length) :
    (change c s).object reference = s.object reference ∨
      ∃ side key values value list, c = .push side key values ∧
        s.dictionary.lookup key = some value ∧ value.value = reference ∧
        s.object reference = .array list ∧
        (change c s).object reference = .array (pushAll side list values) := by
  cases c with
  | set key value timestamp => exact Or.inl (Shared.object_store key value timestamp h)
  | remove key => exact Or.inl rfl
  | push side key values =>
      change (pushShared side key values s).object reference = _ ∨ _
      rcases pushShared_cases side key values s with ⟨-, hpush⟩ |
        ⟨value, list, hvalue, hobject, hpush⟩ | ⟨_, -, -, hpush⟩
      · rw [hpush]
        exact Or.inl (Shared.object_store key _ none h)
      · -- Only the object the key points to is changed.
        by_cases heq : reference = value.value
        · right
          subst heq
          refine ⟨side, key, values, value, list, rfl, hvalue, rfl, hobject, ?_⟩
          change (pushShared side key values s).object value.value = _
          rw [hpush, Shared.object_write_self _ h]
        · rw [hpush]
          exact Or.inl (Shared.object_write_ne _ heq)
      · rw [hpush]
        exact Or.inl rfl

end Changes

section Records

/-- What the file will be, given what was written of it and the entries that come. -/
def recordsOf (s : Shared) (rest : DictionarySnapshot Reference) (file : List Byte) :
    Option (List Byte) :=
  (saveEntries (contentsOf s rest)).map fun records => file ++ records ++ saveTrailer

variable {s : Shared} {key : Key} {value : DictionaryValue Reference}
  {rest : DictionarySnapshot Reference} {file : List Byte}

theorem saveSnapshot_contentsOf (s : Shared) (snapshot : DictionarySnapshot Reference) :
    saveSnapshot (contentsOf s snapshot) = recordsOf s snapshot (saveHeader snapshot.length) := by
  unfold saveSnapshot recordsOf
  have hlength : (contentsOf s snapshot).length = snapshot.length := List.length_map _
  rw [hlength]

/-- One entry that has been written. -/
theorem recordsOf_cons (s : Shared) (key : Key) (value : DictionaryValue Reference)
    (rest : DictionarySnapshot Reference) (file : List Byte) :
    recordsOf s ((key, value) :: rest) file =
      (saveEntry key ⟨s.object value.value, value.expiryTimestamp⟩).bind fun record =>
        recordsOf s rest (file ++ record) := by
  unfold recordsOf
  change (saveEntries ((key, ⟨s.object value.value, value.expiryTimestamp⟩) ::
    contentsOf s rest)).map _ = _
  rw [saveEntries_cons, Option.map_bind]
  congr 1
  funext record
  rw [Function.comp_apply, Option.map_map]
  congr 1
  funext records
  simp only [Function.comp_apply, List.append_assoc]

theorem recordsOf_array {list : RespArray} (h : s.object value.value = .array list) :
    recordsOf s ((key, value) :: rest) file = (saveElements list).bind fun elements =>
      recordsOf s rest (file ++ (saveExpiry value.expiryTimestamp ++ (0x01 :: saveString key) ++
        writeLength list.length) ++ elements) := by
  rw [recordsOf_cons, h, saveEntry_array, Option.bind_map]
  congr 1
  funext elements
  simp only [Function.comp_apply, List.append_assoc]

theorem contentsOf_congr {s' : Shared}
    (h : ∀ x ∈ rest, s'.object x.2.value = s.object x.2.value) :
    contentsOf s' rest = contentsOf s rest := by
  refine List.map_congr_left fun x hx => ?_
  simp only [h x hx]

theorem recordsOf_congr {s' : Shared}
    (h : ∀ x ∈ rest, s'.object x.2.value = s.object x.2.value) (file : List Byte) :
    recordsOf s' rest file = recordsOf s rest file := by
  unfold recordsOf
  rw [contentsOf_congr h]

end Records

/-- The objects the entries refer to have been made. -/
def Made (s : Shared) (snapshot : DictionarySnapshot Reference) : Prop :=
  ∀ x ∈ snapshot, x.2.value < s.objects.length

/-- How far the file is written. If nobody interferes from here on, it will be the
    expected one, or there will be none because it could not be opened. -/
inductive Stage (s : Shared) (expected : Option (List Byte)) (unopened : Prop) : Saver → Prop where
  | opening (snapshot : DictionarySnapshot Reference) (hmade : Made s snapshot)
      (hexpected : recordsOf s snapshot (saveHeader snapshot.length) = expected) :
      Stage s expected unopened (saveCopy snapshot)
  | look (key : Key) (value : DictionaryValue Reference) (rest : DictionarySnapshot Reference)
      (file : List Byte) (hmade : Made s ((key, value) :: rest))
      (hexpected : recordsOf s ((key, value) :: rest) file = expected) :
      Stage s expected unopened (.locked (.look value.value)
        (afterLook key value (fun file => saveRecords rest file) file))
  | size (key : Key) (value : DictionaryValue Reference) (rest : DictionarySnapshot Reference)
      (file : List Byte) (list : RespArray) (hmade : Made s ((key, value) :: rest))
      (hlist : s.object value.value = .array list)
      (hexpected : recordsOf s ((key, value) :: rest) file = expected) :
      Stage s expected unopened (.locked (.size value.value)
        (afterSize key value (fun file => saveRecords rest file) file))
  | bounds (reference : Reference) (rest : DictionarySnapshot Reference) (file : List Byte)
      (list : RespArray) (hvalid : reference < s.objects.length) (hmade : Made s rest)
      (hlist : s.object reference = .array list)
      (hexpected : ((saveElements list).bind fun elements =>
        recordsOf s rest (file ++ elements)) = expected) :
      Stage s expected unopened (.locked (.bounds reference) fun count =>
        saveList reference (fun file => saveRecords rest file) count 0 file)
  | element (reference : Reference) (count index : Nat) (rest : DictionarySnapshot Reference)
      (file : List Byte) (list : RespArray) (hvalid : reference < s.objects.length)
      (hmade : Made s rest) (hlist : s.object reference = .array list)
      (hrange : index + (count + 1) ≤ list.length)
      (hexpected : ((saveElements ((list.drop index).take (count + 1))).bind fun elements =>
        recordsOf s rest (file ++ elements)) = expected) :
      Stage s expected unopened (.locked (.element reference index) (afterElement
        (fun file => saveList reference (fun file => saveRecords rest file) count (index + 1) file)
        file))
  | past (reference : Reference) (rest : DictionarySnapshot Reference) (file : List Byte)
      (hmade : Made s rest) (hexpected : recordsOf s rest file = expected) :
      Stage s expected unopened (.locked (.past reference) fun _ => saveRecords rest file)
  | written (result : Option (List Byte)) (hexpected : result = expected) :
      Stage s expected unopened (.done result)
  | unopened (hunopened : unopened) : Stage s expected unopened (.done none)

section Stages

variable {s : Shared} {expected : Option (List Byte)} {unopened : Prop}

theorem Stage.copied {task : Saver} (h : Stage s expected unopened task) : Copied task := by
  cases h <;> trivial

theorem stage_records {rest : DictionarySnapshot Reference} {file : List Byte} (hmade : Made s rest)
    (hexpected : recordsOf s rest file = expected) :
    Stage s expected unopened (saveRecords rest file) := by
  cases rest with
  | nil =>
      refine Stage.written (some (file ++ saveTrailer)) (Eq.trans ?_ hexpected)
      unfold recordsOf contentsOf
      rw [List.map_nil, saveEntries, Option.map_some, List.append_nil]
  | cons x rest => exact Stage.look x.1 x.2 rest file hmade hexpected

theorem stage_list {reference : Reference} {count index : Nat}
    {rest : DictionarySnapshot Reference} {file : List Byte} {list : RespArray}
    (hvalid : reference < s.objects.length) (hmade : Made s rest)
    (hlist : s.object reference = .array list) (hrange : index + count ≤ list.length)
    (hexpected : ((saveElements ((list.drop index).take count)).bind fun elements =>
      recordsOf s rest (file ++ elements)) = expected) :
    Stage s expected unopened
      (saveList reference (fun file => saveRecords rest file) count index file) := by
  cases count with
  | zero =>
      rw [List.take_zero, saveElements, Option.bind_some, List.append_nil] at hexpected
      exact Stage.past reference rest file hmade hexpected
  | succ count =>
      exact Stage.element reference count index rest file list hvalid hmade hlist hrange hexpected

/-- A step of the one that saves leads to the next stage, and changes nothing. -/
theorem Stage.step {op : SharedOperation} {next : SharedReply op → Saver}
    (h : Stage s expected unopened (.locked op next)) (moment : Moment)
    (hunopened : op = .openDump → moment.dumpOpens = false → unopened) :
    (performShared op moment s).2 = s ∧
      Stage s expected unopened (next (performShared op moment s).1) := by
  cases h with
  | opening snapshot hmade hexpected =>
      refine ⟨rfl, ?_⟩
      change Stage s expected unopened (if moment.dumpOpens then _ else _)
      split
      · exact stage_records hmade hexpected
      · next hclosed => exact Stage.unopened (hunopened rfl (Bool.eq_false_iff.mpr hclosed))
  | look key value rest file hmade hexpected =>
      refine ⟨rfl, ?_⟩
      have hmade' : Made s rest := (List.forall_mem_cons.mp hmade).2
      change Stage s expected unopened
        (afterLook key value _ file (alternativeOf (s.object value.value)))
      cases hobject : s.object value.value with
      | array list => exact Stage.size key value rest file list hmade hobject hexpected
      | _ =>
          rw [recordsOf_cons, hobject] at hexpected
          exact stage_records hmade' hexpected
  | size key value rest file list hmade hlist hexpected =>
      refine ⟨rfl, ?_⟩
      rcases List.forall_mem_cons.mp hmade with ⟨hvalid, hmade'⟩
      have hsize : (performShared (.size value.value) moment s).1 = list.length := by
        unfold performShared Shared.list
        simp only [hlist]
      rw [hsize]
      exact Stage.bounds value.value rest _ list hvalid hmade' hlist
        ((recordsOf_array hlist).symm.trans hexpected)
  -- All elements there are now are still to come.
  | bounds reference rest file list hvalid hmade hlist hexpected =>
      refine ⟨rfl, ?_⟩
      have hsize : (performShared (.bounds reference) moment s).1 = list.length := by
        unfold performShared Shared.list
        simp only [hlist]
      rw [hsize]
      refine stage_list hvalid hmade hlist (Nat.le_of_eq (Nat.zero_add _)) ?_
      rw [List.drop_zero, List.take_length]
      exact hexpected
  | element reference count index rest file list hvalid hmade hlist hrange hexpected =>
      refine ⟨rfl, ?_⟩
      have hlt : index < list.length := by omega
      have helement : (performShared (.element reference index) moment s).1 = some list[index] := by
        unfold performShared Shared.list
        simp only [hlist]
        exact List.getElem?_eq_getElem hlt
      rw [helement]
      -- The element that is read is the first of those that are expected next.
      rw [List.drop_eq_getElem_cons hlt, List.take_succ_cons] at hexpected
      cases hstring : list[index] with
      | string str =>
          refine stage_list hvalid hmade hlist (by omega) ?_
          rw [hstring, saveElements, Option.bind_map] at hexpected
          refine Eq.trans ?_ hexpected
          congr 1
          funext elements
          simp only [Function.comp_apply, List.append_assoc]
      | _ =>
          -- Writing it throws, and so does writing the expected file.
          rw [hstring] at hexpected
          exact Stage.written none hexpected
  | past reference rest file hmade hexpected => exact ⟨rfl, stage_records hmade hexpected⟩

/-- The size of every list that comes will be read. -/
theorem uses_saveRecords {P : SharedOperation → Prop} {rest : DictionarySnapshot Reference} :
    ∀ {file : List Byte}, (saveRecords rest file).Uses P → ∀ x ∈ rest, P (.size x.2.value) := by
  induction rest with
  | nil => exact fun _ x hx => absurd hx List.not_mem_nil
  | cons x rest ih =>
      intro file h
      -- Its list comes if it is one, and the others do if it is not.
      exact List.forall_mem_cons.mpr ⟨(h.2 .array).1, ih (h.2 .other)⟩

theorem uses_saveList {P : SharedOperation → Prop} {reference : Reference}
    {rest : List Byte → Saver} {count : Nat} : ∀ {index : Nat} {file : List Byte},
      (saveList reference rest count index file).Uses P → ∃ file', (rest file').Uses P := by
  induction count with
  | zero => exact fun h => ⟨_, h.2 ()⟩
  | succ count ih =>
      intro index file h
      exact ih (h.2 (some (.string ⟨[], false⟩)))

/-- What would be disturbed by a push is not pushed to. -/
def Spares (s : Shared) (c : Change) (task : Saver) : Prop :=
  ∀ side key values value list, c = .push side key values →
    s.dictionary.lookup key = some value → s.object value.value = .array list →
      task.Uses fun op => ¬ op.Disturbed value.value

theorem Made.changed {rest : DictionarySnapshot Reference} (h : Made s rest) (c : Change) :
    Made (change c s) rest :=
  fun x hx => Nat.lt_of_lt_of_le (h x hx) (length_change c s)

/-- An object of which something is still to be read stays as it is. -/
theorem object_kept {c : Change} {task : Saver} {reference : Reference}
    (hspares : Spares s c task) (hvalid : reference < s.objects.length)
    (hreads : ¬ task.Uses fun op => ¬ op.Disturbed reference) :
    (change c s).object reference = s.object reference := by
  rcases objects_change c hvalid with hkept | ⟨side, key, values, value, list, hc, hvalue, rfl,
    hobject, -⟩
  · exact hkept
  · exact absurd (hspares side key values value list hc hvalue hobject) hreads

theorem records_kept {c : Change} {task : Saver} {rest : DictionarySnapshot Reference}
    (hspares : Spares s c task) (hmade : Made s rest)
    (hreads : ∀ P, task.Uses P → ∃ file, (saveRecords rest file).Uses P) :
    ∀ x ∈ rest, (change c s).object x.2.value = s.object x.2.value := by
  intro x hx
  refine object_kept hspares (hmade x hx) fun huses => ?_
  rcases hreads _ huses with ⟨file, hrest⟩
  exact uses_saveRecords hrest x hx rfl

/-- A change that spares what is still to be read leaves the stage as it is. -/
theorem Stage.changed {c : Change} {task : Saver} (h : Stage s expected unopened task)
    (hspares : Spares s c task) : Stage (change c s) expected unopened task := by
  cases h with
  | opening snapshot hmade hexpected =>
      have hkept := records_kept hspares hmade fun P huses => ⟨_, huses.2 true⟩
      exact Stage.opening snapshot (hmade.changed c) ((recordsOf_congr hkept _).trans hexpected)
  | look key value rest file hmade hexpected =>
      have hkept := records_kept hspares hmade fun P huses => ⟨file, huses⟩
      exact Stage.look key value rest file (hmade.changed c)
        ((recordsOf_congr hkept _).trans hexpected)
  | size key value rest file list hmade hlist hexpected =>
      have hmade' := List.forall_mem_cons.mp hmade
      have hrest := records_kept hspares hmade'.2 fun P huses => uses_saveList ((huses.2 0).2 0)
      have hown := object_kept hspares hmade'.1 fun huses => huses.1 rfl
      have hkept : ∀ x ∈ (key, value) :: rest,
          (change c s).object x.2.value = s.object x.2.value :=
        List.forall_mem_cons.mpr ⟨hown, hrest⟩
      exact Stage.size key value rest file list (hmade.changed c) (hown.trans hlist)
        ((recordsOf_congr hkept _).trans hexpected)
  | bounds reference rest file list hvalid hmade hlist hexpected =>
      have hrest := records_kept hspares hmade fun P huses => uses_saveList (huses.2 0)
      have hown := object_kept hspares hvalid fun huses => huses.1 rfl
      refine Stage.bounds reference rest file list
        (Nat.lt_of_lt_of_le hvalid (length_change c s)) (hmade.changed c) (hown.trans hlist) ?_
      simp only [recordsOf_congr hrest]
      exact hexpected
  | element reference count index rest file list hvalid hmade hlist hrange hexpected =>
      have hrest := records_kept hspares hmade fun P huses =>
        uses_saveList (huses.2 (some (.string ⟨[], false⟩)))
      have hown := object_kept hspares hvalid fun huses => huses.1 rfl
      refine Stage.element reference count index rest file list
        (Nat.lt_of_lt_of_le hvalid (length_change c s)) (hmade.changed c) (hown.trans hlist)
        hrange ?_
      simp only [recordsOf_congr hrest]
      exact hexpected
  | past reference rest file hmade hexpected =>
      have hrest := records_kept hspares hmade fun P huses => ⟨file, huses.2 ()⟩
      exact Stage.past reference rest file (hmade.changed c)
        ((recordsOf_congr hrest _).trans hexpected)
  | written result hexpected => exact Stage.written result hexpected
  | unopened hunopened => exact Stage.unopened hunopened

end Stages

/-- One party saves, or is about to, and the others are clients. -/
def Saving (P : Shared → Saver → Prop) (p : Pool SharedReply Shared (Option (List Byte))) : Prop :=
  ∃ saver clients, p.tasks = saver :: clients ∧ P p.shared saver ∧
    ∀ task ∈ clients, ∃ changes, task = client changes

section Pools

variable {p p' : Pool SharedReply Shared (Option (List Byte))}

/-- A turn is one of the saver's or a change, which leaves the saver where it is. -/
theorem Saving.turn {P Q : Shared → Saver → Prop} {event : SharedOperation × Moment}
    (h : Saving P p) (hturn : Turn performShared p event p')
    (hsaver : ∀ next, p.tasks.head? = some (.locked event.1 next) →
      P p.shared (.locked event.1 next) →
        Q (performShared event.1 event.2 p.shared).2
          (next (performShared event.1 event.2 p.shared).1))
    (hchange : ∀ c saver, event.1 = .change c → saver ∈ p.tasks → P p.shared saver →
      Q (change c p.shared) saver) : Saving Q p' := by
  rcases h with ⟨saver, clients, htasks, hP, hclients⟩
  cases hturn with
  | take s before after op next moment =>
      simp only at htasks hP
      -- The one that saves is the first of the parties.
      cases before with
      | nil =>
          -- The saver runs.
          rw [List.nil_append] at htasks
          injection htasks with hhead htail
          subst hhead htail
          exact ⟨_, after, rfl, hsaver next rfl hP, hclients⟩
      | cons first before =>
          rw [List.cons_append] at htasks
          injection htasks with hhead htail
          subst hhead htail
          rw [List.forall_mem_append, List.forall_mem_cons] at hclients
          rcases hclients with ⟨hbefore, ⟨changes, hchanges⟩, hafter⟩
          cases changes with
          | nil => cases hchanges
          | cons c changes =>
              cases hchanges
              refine ⟨first, before ++ client changes :: after, rfl,
                hchange c first rfl List.mem_cons_self hP, ?_⟩
              rw [List.forall_mem_append, List.forall_mem_cons]
              exact ⟨hbefore, ⟨changes, rfl⟩, hafter⟩

/-- Nothing has been copied yet, or nothing will be. -/
def CopiesOnce (_ : Shared) (saver : Saver) : Prop :=
  saver = saveShared ∨ saver.Uses fun op => op ≠ .copy

theorem uses_saveList_of {P : SharedOperation → Prop} {reference : Reference}
    {rest : List Byte → Saver} (hP : ∀ index, P (.element reference index))
    (hpast : P (.past reference)) (hrest : ∀ file, (rest file).Uses P) :
    ∀ count index file, (saveList reference rest count index file).Uses P := by
  intro count
  induction count with
  | zero => exact fun _ file => ⟨hpast, fun _ => hrest file⟩
  | succ count ih =>
      intro index file
      refine ⟨hP index, fun read => ?_⟩
      cases read with
      | none => trivial
      | some element =>
          cases element with
          | string str => exact ih (index + 1) _
          | _ => trivial

theorem uses_saveRecords_of {P : SharedOperation → Prop} (hP : ∀ op, op ≠ .copy → P op)
    (rest : DictionarySnapshot Reference) : ∀ file, (saveRecords rest file).Uses P := by
  induction rest with
  | nil => exact fun _ => trivial
  | cons x rest ih =>
      intro file
      refine ⟨hP _ (fun h => by cases h), fun alternative => ?_⟩
      cases alternative with
      | string str => exact ih _
      | other => exact ih _
      | array =>
          refine ⟨hP _ (fun h => by cases h), fun size => ⟨hP _ (fun h => by cases h), ?_⟩⟩
          exact fun count => uses_saveList_of (fun index => hP _ (fun h => by cases h))
            (hP _ (fun h => by cases h)) ih count 0 _

theorem saveCopy_uses (snapshot : DictionarySnapshot Reference) :
    (saveCopy snapshot).Uses fun op => op ≠ .copy := by
  refine ⟨(fun h => by cases h), fun opened => ?_⟩
  cases opened with
  | false => trivial
  | true => exact uses_saveRecords_of (fun _ hop => hop) snapshot _

theorem copiesOnce_turn {event : SharedOperation × Moment} (h : Saving CopiesOnce p)
    (hturn : Turn performShared p event p') : Saving CopiesOnce p' := by
  refine h.turn hturn (fun next _ hsaver => Or.inr ?_) (fun _ _ _ _ hsaver => hsaver)
  rcases hsaver with hsaver | huses
  · -- It copies now.
    injection hsaver with hop hnext
    rcases event with ⟨op, moment⟩
    simp only at hop
    subst hop
    cases hnext
    exact saveCopy_uses _
  · exact huses.2 _

/-- What is copied is expected in the file. -/
theorem stage_of_copy {moment : Moment} (unopened : Prop) (h : Saving CopiesOnce p)
    (hturn : Turn performShared p (.copy, moment) p') :
    Saving (fun s saver => Stage s (saveSnapshot (contentsOf p.shared (copyOf moment p.shared)))
      unopened saver) p' := by
  refine h.turn hturn (fun next _ hsaver => ?_) (fun c _ hop => by cases hop)
  rcases hsaver with hsaver | huses
  · injection hsaver with _ hnext
    cases hnext
    refine Stage.opening _ (fun x hx => ?_) (saveSnapshot_contentsOf _ _).symm
    rcases List.mem_filterMap.mp hx with ⟨key, -, hkey⟩
    rcases Option.map_eq_some_iff.mp hkey with ⟨value, hvalue, rfl⟩
    exact p.shared.valid key value hvalue
  · exact absurd rfl huses.1

theorem stage_turn {expected : Option (List Byte)} {unopened : Prop}
    {event : SharedOperation × Moment}
    (h : Saving (fun s saver => Stage s expected unopened saver) p)
    (hspares : SparesSnapshot p event)
    (hunopened : event.1 = .openDump → event.2.dumpOpens = false → unopened)
    (hturn : Turn performShared p event p') :
    Saving (fun s saver => Stage s expected unopened saver) p' := by
  refine h.turn hturn (fun next _ hstage => ?_) (fun c saver hop hmem hstage => ?_)
  · have hnext := hstage.step event.2 hunopened
    rw [hnext.1]
    exact hnext.2
  · refine hstage.changed fun side key values value list hc hvalue hobject => ?_
    -- A push to a list spares what the one that saves has still to read of it.
    unfold SparesSnapshot at hspares
    rw [hop, hc] at hspares
    exact hspares value list hvalue hobject saver hmem hstage.copied

end Pools

/-- Saving leads to the file of what the dictionary held when the entries were copied,
    if no list is pushed to of which something is still to be read. If the file cannot be
    opened, there is none. -/
theorem save_snapshot (s : Shared) (clients : List (List Change))
    (t : List (Pool SharedReply Shared (Option (List Byte)) × SharedOperation × Moment))
    (p : Pool SharedReply Shared (Option (List Byte))) (result : Option (List Byte))
    (h : Trace (Turn performShared) ⟨s, saveShared :: clients.map client⟩ t p)
    (hspares : ∀ x ∈ t, SparesSnapshot x.1 x.2) (hdone : p.tasks.head? = some (.done result)) :
    ∀ x ∈ t, x.2.1 = .copy →
      result = saveSnapshot (contentsOf x.1.shared (copyOf x.2.2 x.1.shared)) ∨
        (result = none ∧ ∃ y ∈ t, y.2.1 = .openDump ∧ y.2.2.dumpOpens = false) := by
  rintro ⟨q, op, moment⟩ hx hop
  simp only at hop
  subst hop
  have hstart : Saving CopiesOnce ⟨s, saveShared :: clients.map client⟩ := by
    refine ⟨saveShared, _, rfl, Or.inl rfl, fun task htask => ?_⟩
    rcases List.mem_map.mp htask with ⟨changes, -, rfl⟩
    exact ⟨changes, rfl⟩
  rcases h.split hx with ⟨t₁, t₂, q', rfl, hfirst, hturn, hlast⟩
  -- Up to the copy, whatever the others do leaves the one that saves where it is.
  have hcopies : Saving CopiesOnce q := by
    have hkeeps : ∀ (p : Pool SharedReply Shared (Option (List Byte)))
        (event : SharedOperation × Moment) (p' : Pool SharedReply Shared (Option (List Byte))),
        Saving CopiesOnce p → True → Turn performShared p event p' → Saving CopiesOnce p' :=
      fun _ _ _ hinv _ hturn => copiesOnce_turn hinv hturn
    exact (hfirst.invariant hkeeps hstart (fun _ _ => trivial)).2
  -- From the copy on, every step leads to a stage of writing the file that is expected.
  let unopened : Prop :=
    ∃ y ∈ t₁ ++ (q, .copy, moment) :: t₂, y.2.1 = .openDump ∧ y.2.2.dumpOpens = false
  have hmeets : ∀ x ∈ t₂, SparesSnapshot x.1 x.2 ∧
      (x.2.1 = .openDump → x.2.2.dumpOpens = false → unopened) := by
    intro x hx
    have hmem := List.mem_append_right t₁ (List.mem_cons_of_mem (q, .copy, moment) hx)
    exact ⟨hspares x hmem, fun hop hclosed => ⟨x, hmem, hop, hclosed⟩⟩
  have hkeeps : ∀ (p : Pool SharedReply Shared (Option (List Byte)))
      (event : SharedOperation × Moment) (p' : Pool SharedReply Shared (Option (List Byte))),
      Saving (fun s saver => Stage s (saveSnapshot (contentsOf q.shared (copyOf moment q.shared)))
        unopened saver) p →
      SparesSnapshot p event ∧
        (event.1 = .openDump → event.2.dumpOpens = false → unopened) →
      Turn performShared p event p' → Saving _ p' :=
    fun _ _ _ hinv hm hturn => stage_turn hinv hm.1 hm.2 hturn
  have hfinal := (hlast.invariant hkeeps (stage_of_copy unopened hcopies hturn) hmeets).2
  rcases hfinal with ⟨saver, others, htasks, hstage, -⟩
  rw [htasks, List.head?_cons] at hdone
  cases hdone
  cases hstage with
  | written _ hexpected => exact Or.inl hexpected
  | unopened hunopened => exact Or.inr ⟨rfl, hunopened⟩

/-- A dictionary with one list. -/
def oneList : Shared :=
  Shared.empty.store (bytes "k") (.array [.string ⟨bytes "a", true⟩]) none

/-- The order in which the entries are copied, a client runs, and the file is written. -/
def interrupted (elements : Nat) : List (Nat × Moment) :=
  (0, Moment.ordinary 0) :: (1, Moment.ordinary 0) ::
    List.replicate (5 + elements) (0, Moment.ordinary 0)

/-- One that saves the dictionary, and another that stores something under the key. -/
def savedAndSet : Pool SharedReply Shared (Option (List Byte)) :=
  ⟨oneList, saveShared :: [[Change.set (bytes "k") (.string ⟨bytes "v", true⟩) none]].map client⟩

/-- What is stored is not in the file. -/
theorem save_snapshot_set :
    saveSnapshot (contentsOf oneList (copyOf (Moment.ordinary 0) oneList)) =
      some (saveHeader 1 ++ (0x01 :: saveString (bytes "k") ++ writeLength 1 ++
        saveString (bytes "a")) ++ saveTrailer) := by
  have hrun : Trace (Turn performShared) savedAndSet
      (savedAndSet.schedule performShared (interrupted 1)).1
      (savedAndSet.schedule performShared (interrupted 1)).2 := Pool.trace_schedule _ _
  have hspares : ∀ x ∈ (savedAndSet.schedule performShared (interrupted 1)).1,
      SparesSnapshot x.1 x.2 := by
    have hnext : ∀ y ∈ ([] : List (Pool SharedReply Shared (Option (List Byte)) ×
      SharedOperation × Moment)), SparesSnapshot y.1 y.2 := fun y hy => absurd hy List.not_mem_nil
    iterate 8 refine List.forall_mem_cons.mpr ⟨trivial, ?_⟩
    exact hnext
  have hdone : (savedAndSet.schedule performShared (interrupted 1)).2.tasks.head? =
      some (.done (some (saveHeader 1 ++ (0x01 :: saveString (bytes "k") ++ writeLength 1 ++
        saveString (bytes "a")) ++ saveTrailer))) := rfl
  rcases save_snapshot oneList _ _ _ _ hrun hspares hdone
    (savedAndSet, .copy, Moment.ordinary 0) List.mem_cons_self rfl with hsaved | ⟨hnone, -⟩
  · exact hsaved.symm
  · cases hnone

/-- One that saves the dictionary, and another that pushes to the list. -/
def savedAndPushed : Pool SharedReply Shared (Option (List Byte)) :=
  ⟨oneList, saveShared :: [[Change.push .back (bytes "k") [⟨bytes "b", true⟩]]].map client⟩

/-- A push to a list that has been copied and not yet written is in the file. -/
theorem save_not_snapshot :
    ¬ ∀ (s : Shared) (clients : List (List Change))
      (t : List (Pool SharedReply Shared (Option (List Byte)) × SharedOperation × Moment))
      (p : Pool SharedReply Shared (Option (List Byte))) (file : List Byte),
      Trace (Turn performShared) ⟨s, saveShared :: clients.map client⟩ t p →
        p.tasks.head? = some (.done (some file)) → ∀ x ∈ t, x.2.1 = .copy →
          saveSnapshot (contentsOf x.1.shared (copyOf x.2.2 x.1.shared)) = some file := by
  intro h
  have hrun : Trace (Turn performShared) savedAndPushed
      (savedAndPushed.schedule performShared (interrupted 2)).1
      (savedAndPushed.schedule performShared (interrupted 2)).2 := Pool.trace_schedule _ _
  have hdone : (savedAndPushed.schedule performShared (interrupted 2)).2.tasks.head? =
      some (.done (some (saveHeader 1 ++ (0x01 :: saveString (bytes "k") ++ writeLength 2 ++
        saveString (bytes "a") ++ saveString (bytes "b")) ++ saveTrailer))) := rfl
  have hdiffers : saveSnapshot (contentsOf oneList (copyOf (Moment.ordinary 0) oneList)) ≠
      some (saveHeader 1 ++ (0x01 :: saveString (bytes "k") ++ writeLength 2 ++
        saveString (bytes "a") ++ saveString (bytes "b")) ++ saveTrailer) := by decide
  exact hdiffers (h oneList _ _ _ _ hrun hdone (savedAndPushed, .copy, Moment.ordinary 0)
    List.mem_cons_self rfl)

end Redis

end CodingChallenges
