import CodingChallenges.Library.Decimal
import CodingChallenges.Library.Sections
import CodingChallenges.Redis.RdbManager
import Mathlib.Data.List.AList

/-!
# The Dictionary

Where the server keeps what clients store: `DictionaryManager.cpp`.

Clients are served by several threads, and a timer removes keys that have
expired. Every function of the manager takes the lock of the dictionary, some of
them twice: `increment` reads under a shared lock and stores with a call of `set`,
and a key that was found expired is removed with a call of `remove`. In between
the lock is free. So a function is a program of critical sections here, and what
it does depends on who else is at work.

`push_front` and `push_back` change a list in place. Here they put the grown list
under its key, with the expiry it has; which pointers see the change is a matter
of `SharedValues`.

An entry whose expiry has passed stays until somebody removes it. Which functions
look at the expiry is part of the model: `find` does, and nothing else.

## Main definitions

* `Store`: The dictionary and the file it is saved to.
* `Moment`: What a section finds outside of the program.
* `Operation`, `performOperation`: The critical sections.
* `get`, `increment`, `decrement`, `save`: The functions that run more than one.
* `tryRemoveExpiredKeys`, `handleTimer`: What the timer does.
-/

namespace CodingChallenges

namespace Redis

/-- An unordered map. The order it is walked in is not part of it. -/
abbrev Dictionary := AList (fun _ : Key => DictionaryValue RespType)

/-- The dictionary and the contents of `dump.rdb`. -/
structure Store where
  dictionary : Dictionary
  dump : Option (List Byte)

/-- What a section finds outside of the program. -/
structure Moment where
  /-- The clock, in milliseconds. -/
  now : UInt64
  /-- The order the map is walked in. -/
  walk : List Key → List Key
  walk_perm : ∀ keys, (walk keys).Perm keys
  /-- At most five of the keys, at random. -/
  sample : List Key → List Key
  sample_sublist : ∀ keys, (sample keys).Sublist keys
  length_sample : ∀ keys, (sample keys).length = min 5 keys.length
  /-- What is read where an erased entry was. -/
  freed : Option UInt64
  /-- Whether `dump.rdb` can be opened. -/
  dumpOpens : Bool

/-- A moment at which nothing is out of the ordinary. -/
def Moment.ordinary (now : UInt64) : Moment where
  now := now
  walk := id
  walk_perm := List.Perm.refl
  sample := List.take 5
  sample_sublist := List.take_sublist 5
  length_sample := fun _ => List.length_take
  freed := none
  dumpOpens := true

/-- An entry is past its expiry once the clock is beyond it. -/
def hasExpired {α : Type} (now : UInt64) (value : DictionaryValue α) : Bool :=
  match value.expiryTimestamp with
  | some expiry => now > expiry
  | none => false

/-- A text that is a number as a whole. -/
def isValidSigned64BitInt (value : List Byte) : Option Int64 :=
  match fromCharsSigned intBound value with
  -- Here, unlike in the parser, nothing may follow the number.
  | some (n, []) => some (Int64.ofInt n)
  | _ => none

/-- The two ends of a list. -/
inductive Side where
  | front
  | back
deriving DecidableEq, Repr

/-- Pushing values to an end of a list, one after the other. -/
def pushAll : Side → RespArray → List RespString → RespArray
  | .front, list, values => values.foldl (fun list value => .string value :: list) list
  | .back, list, values => values.foldl (fun list value => list ++ [.string value]) list

/-- The body of `push_front` and `push_back`. -/
def push (side : Side) (key : Key) (values : List RespString) (d : Dictionary) :
    RespType × Dictionary :=
  match d.lookup key with
  | none =>
    (.int (Int64.ofNat values.length), d.insert key ⟨.array (pushAll side [] values), none⟩)
  -- The list is changed where it is, whether it has expired or not.
  | some ⟨.array existingList, expiry⟩ =>
    (.int (Int64.ofNat (pushAll side existingList values).length),
      d.insert key ⟨.array (pushAll side existingList values), expiry⟩)
  | some _ => (.error invalidOperation, d)

/-- A negative offset counts from the end. -/
def fromEnd (size : Nat) (offset : Int32) : Int32 :=
  if offset < 0 then Int32.ofNat size + offset else offset

/-- The elements of a list from one offset to another, as far as there are any. -/
def slice (list : RespArray) (startOffset endOffset : Int32) : RespArray :=
  let startOffset := fromEnd list.length startOffset
  let endOffset := fromEnd list.length endOffset
  if endOffset < startOffset ∨ Int32.ofNat list.length ≤ startOffset then
    []
  else
    let startOffset := max 0 startOffset
    -- The start is inside the list by now, and the end may still be behind it.
    let endOffset := min endOffset (Int32.ofNat list.length - 1)
    (List.range' startOffset.toInt.toNat (endOffset.toInt + 1 - startOffset.toInt).toNat).filterMap
      fun index => list[index]?

/-- The body of `get_list`. -/
def getListIn (key : Key) (startOffset endOffset : Int32) (d : Dictionary) : RespType :=
  match d.lookup key with
  | none => .array []
  | some ⟨.array existingList, _⟩ => .array (slice existingList startOffset endOffset)
  | some _ => .error invalidOperation

/-- The keys that are drawn and found expired. -/
def keysToRemove (moment : Moment) (d : Dictionary) : List Key :=
  let withExpiry := (moment.walk d.keys).filter fun key =>
    (d.lookup key).any fun value => value.expiryTimestamp.isSome
  (moment.sample withExpiry).filter fun key => (d.lookup key).any (hasExpired moment.now)

/-- The entries, in the order the map is walked. -/
def snapshotOf (moment : Moment) (d : Dictionary) : DictionarySnapshot RespType :=
  (moment.walk d.keys).filterMap fun key => (d.lookup key).map fun value => (key, value)

/-- Whether a key is removed because it was found expired or because a client says so. -/
inductive Cause where
  | expiry
  | command
deriving DecidableEq, Repr

/-- What is found under a key. -/
inductive Found where
  | missing
  | expired
  | live (value : RespType)

/-- The critical sections, and what else is read outside of them. -/
inductive Operation where
  /-- Reading the clock. -/
  | clock
  /-- Looking a key up, and at its expiry. -/
  | find (key : Key)
  /-- Reading the expiry of an entry that was found, the lock being free again. -/
  | peek (key : Key)
  | set (key : Key) (value : DictionaryValue RespType)
  | contains (key : Key)
  | remove (cause : Cause) (key : Key)
  | push (side : Side) (key : Key) (values : List RespString)
  | getList (key : Key) (startOffset endOffset : Int32)
  /-- Drawing the keys to remove. -/
  | draw
  /-- Copying the entries. -/
  | copy
  /-- Opening the file, which empties it. -/
  | openDump
  | writeDump (file : List Byte)

/-- What a section returns. -/
abbrev Reply : Operation → Type
  | .clock => UInt64
  | .find _ => Found
  | .peek _ => Option UInt64
  | .set _ _ => Unit
  | .contains _ => Bool
  | .remove _ _ => Nat
  | .push _ _ _ => RespType
  | .getList _ _ _ => RespType
  | .draw => List Key
  | .copy => DictionarySnapshot RespType
  | .openDump => Bool
  | .writeDump _ => Unit

/-- What is under a key at a moment. -/
def lookUp (moment : Moment) (key : Key) (d : Dictionary) : Found :=
  match d.lookup key with
  | none => .missing
  | some value => if hasExpired moment.now value then .expired else .live value.value

/-- Running a section. -/
def performOperation : (op : Operation) → Moment → Store → Reply op × Store
  | .clock, moment, s => (moment.now, s)
  | .find key, moment, s => (lookUp moment key s.dictionary, s)
  | .peek key, moment, s =>
    -- The entry may have been erased in the meantime.
    (((s.dictionary.lookup key).map fun value => value.expiryTimestamp).getD moment.freed, s)
  | .set key value, _, s => ((), { s with dictionary := s.dictionary.insert key value })
  | .contains key, _, s => ((s.dictionary.lookup key).isSome, s)
  | .remove _ key, _, s =>
    (if (s.dictionary.lookup key).isSome then 1 else 0,
      { s with dictionary := s.dictionary.erase key })
  | .push side key values, _, s =>
    ((push side key values s.dictionary).1,
      { s with dictionary := (push side key values s.dictionary).2 })
  | .getList key startOffset endOffset, _, s =>
    (getListIn key startOffset endOffset s.dictionary, s)
  | .draw, moment, s => (keysToRemove moment s.dictionary, s)
  | .copy, moment, s => (snapshotOf moment s.dictionary, s)
  | .openDump, moment, s =>
    (moment.dumpOpens, if moment.dumpOpens then { s with dump := some [] } else s)
  | .writeDump file, _, s => ((), { s with dump := some file })

/-- What a party that uses the dictionary does. -/
abbrev Program (α : Type) := Sections Reply α

/-- One operation under the lock. -/
abbrev inSection (op : Operation) : Program (Reply op) :=
  Sections.perform op

/-- `set` writes the entry in one section. -/
def set (key : Key) (value : RespType) (timestamp : Option UInt64) : Program Unit :=
  inSection (.set key ⟨value, timestamp⟩)

/-- `exists`. -/
def keyExists (key : Key) : Program Bool :=
  inSection (.contains key)

/-- `remove` erases the entry in one section. -/
def remove (cause : Cause) (key : Key) : Program Nat :=
  inSection (.remove cause key)

/-- What `get` does with what it finds. -/
def getFound (key : Key) : Found → Program RespType
  | .missing => return .null
  | .expired => do
    -- The lock is free in between, and what is removed is what is there by then.
    let _ ← remove .expiry key
    return .null
  | .live (.string value) => return .string value
  | .live _ => return .error invalidOperation

/-- `get` looks at the expiry behind the section of the lookup. -/
def get (key : Key) : Program RespType := do
  let found ← inSection (.find key)
  getFound key found

/-- What `increment` and `decrement` do with what they find. -/
def adjustFound (change : Int64 → Int64) (key : Key) : Found → Program RespType
  | .missing => return .null
  | .expired => do
    -- An integer, where the other branch stores a string.
    set key (.int 1) none
    return .int 1
  | .live (.string value) =>
    match isValidSigned64BitInt value.str with
    | none => return .error invalidOperation
    | some n => do
      -- The expiry is read where the entry was found, after unlocking.
      let timestamp ← inSection (.peek key)
      set key (.string ⟨signedDigits (change n).toInt, false⟩) timestamp
      return .string ⟨signedDigits (change n).toInt, false⟩
  | .live _ => return .error invalidOperation

/-- The body of `increment` and `decrement`. -/
def adjust (change : Int64 → Int64) (key : Key) : Program RespType := do
  let found ← inSection (.find key)
  adjustFound change key found

/-- `increment` adds one, wrapping around. -/
def increment : Key → Program RespType :=
  adjust (· + 1)

/-- `decrement` subtracts one, wrapping around. -/
def decrement : Key → Program RespType :=
  adjust (· - 1)

/-- `push_front` pushes all values in one section. -/
def pushFront (key : Key) (values : List RespString) : Program RespType :=
  inSection (.push .front key values)

/-- `push_back` pushes all values in one section. -/
def pushBack (key : Key) (values : List RespString) : Program RespType :=
  inSection (.push .back key values)

/-- `get_list` copies the range in one section. -/
def getList (key : Key) (startOffset endOffset : Int32) : Program RespType :=
  inSection (.getList key startOffset endOffset)

/-- Saving the dictionary. Nothing is returned if writing an entry throws. -/
def save : Program (Option Bool) := do
  let dictionarySnapshot ← inSection .copy
  if ← inSection .openDump then
    match saveSnapshot dictionarySnapshot with
    | some file =>
      inSection (.writeDump file)
      return some true
    | none => return none
  else
    return some false

/-- Removing the keys that were found expired, each in a section of its own. -/
def removeAll : List Key → Program Unit
  | [] => return ()
  | key :: keys => do
    let _ ← remove .expiry key
    removeAll keys

/-- It starts over while it finds at least two expired keys; here it gives up after so
    many rounds. -/
def tryRemoveExpiredKeys : Nat → Program Unit
  | 0 => return ()
  | rounds + 1 => do
    let keys ← inSection .draw
    removeAll keys
    if 2 ≤ keys.length then tryRemoveExpiredKeys rounds else return ()

/-- What the timer does each time it fires. -/
def handleTimer : List Nat → Program Unit
  | [] => return ()
  | rounds :: periods => do
    tryRemoveExpiredKeys rounds
    handleTimer periods

end Redis

end CodingChallenges
