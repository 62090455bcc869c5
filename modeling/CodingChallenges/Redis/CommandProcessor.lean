import CodingChallenges.Redis.DictionaryManager
import CodingChallenges.Redis.RoundTrip

/-!
# Commands

What a client can ask for: `CommandProcessor.cpp`.

A command is an array of bulk strings, the name first. Each command checks the
number of its arguments and answers with an error if it does not fit, without a
look at the dictionary.

The elements of the array are read by position, and not every access is covered by
a check: `SET` takes the option name from the fourth element and its value from the
fifth as soon as there is a fourth.

## Main definitions

* `Answer`: What becomes of a command.
* `bulkStrings`: The check that a command is an array of bulk strings.
* `process`: Processing a command.
* `Adjusts`: The commands that change a number.
* `serve`: Processing the commands of a client.

## Theorems

* `commandNameOf_eq_some`, `commandNameOf_text`: What a command is told by.
* `process_uses`: What sections a command is made of.
-/

namespace CodingChallenges

namespace Redis

/-- What becomes of a command. -/
inductive Answer where
  | response (value : RespType)
  /-- It is not a command. -/
  | refused
  /-- An element was read that the array does not have. -/
  | outOfRange
  /-- `std::get` threw. -/
  | badAccess

/-- The keys of the command map. -/
inductive CommandName where
  | config
  | ping
  | echo
  | get
  | set
  | existsKey
  | del
  | incr
  | decr
  | lpush
  | rpush
  | lrange
  | save
deriving DecidableEq, Repr

/-- How a command is called. -/
def CommandName.text : CommandName → List Byte
  | .config => bytes "CONFIG"
  | .ping => bytes "PING"
  | .echo => bytes "ECHO"
  | .get => bytes "GET"
  | .set => bytes "SET"
  | .existsKey => bytes "EXISTS"
  | .del => bytes "DEL"
  | .incr => bytes "INCR"
  | .decr => bytes "DECR"
  | .lpush => bytes "LPUSH"
  | .rpush => bytes "RPUSH"
  | .lrange => bytes "LRANGE"
  | .save => bytes "SAVE"

/-- The first name the text is compared with successfully. -/
def commandNameOf (text : List Byte) : Option CommandName :=
  [.config, .ping, .echo, .get, .set, .existsKey, .del, .incr, .decr, .lpush, .rpush, .lrange,
    .save].find? fun name => name.text = text

theorem commandNameOf_eq_some {text : List Byte} {name : CommandName}
    (h : commandNameOf text = some name) : text = name.text := by
  unfold commandNameOf at h
  have hsame := List.find?_some h
  exact (of_decide_eq_true hsame).symm

theorem commandNameOf_text (name : CommandName) : commandNameOf name.text = some name := by
  cases name <;> decide

/-- The strings of a command, all of which have to be bulk strings. -/
def bulkStrings : RespArray → Option (List (List Byte))
  | [] => some []
  | .string ⟨str, true⟩ :: rest => (bulkStrings rest).map fun strings => str :: strings
  | _ :: _ => none

/-- Reading an element of the command. -/
def element (array : List (List Byte)) (index : Nat) (f : List Byte → Program Answer) :
    Program Answer :=
  match array[index]? with
  | some str => f str
  | none => return .outOfRange

/-- The reply to a wrong number of arguments. -/
def invalidNumberArgsResponse : Answer :=
  .response (.error invalidNumberArguments)

/-- The reply to a command that is not in the map. -/
def notImplementedResponse : Answer :=
  .response (.error notImplemented)

/-- The reply to an offset that is no number. -/
def invalidArgFormatResponse : Answer :=
  .response (.error invalidArgumentFormat)

/-- The reply to an expiry that is no number. -/
def invalidExpiryValueResponse : Answer :=
  .response (.error invalidExpiryValue)

/-- The reply when the dump could not be written. -/
def saveFailedResponse : Answer :=
  .response (.error saveFailed)

/-- The reply `OK`. -/
def okResponse : Answer :=
  .response (.string ⟨bytes "OK", false⟩)

/-- The reply `PONG`. -/
def pongResponse : Answer :=
  .response (.string ⟨bytes "PONG", false⟩)

/-- A property and its value. -/
def propertyResponse (property value : List Byte) : Answer :=
  .response (.array [.string ⟨property, true⟩, .string ⟨value, true⟩])

/-- `CONFIG`, which knows two properties. -/
def processConfig (array : List (List Byte)) : Program Answer :=
  if 2 < array.length then
    element array 1 fun operation =>
      if operation = bytes "GET" then
        element array 2 fun property =>
          if property = bytes "appendonly" then
            return propertyResponse (bytes "appendonly") (bytes "no")
          else if property = bytes "save" then
            return propertyResponse (bytes "save") []
          else
            return notImplementedResponse
      else if operation = bytes "SET" then
        return notImplementedResponse
      else
        return invalidNumberArgsResponse
  else
    return invalidNumberArgsResponse

/-- `ECHO`, which returns its argument. -/
def processEcho (array : List (List Byte)) : Program Answer :=
  if array.length = 2 then
    element array 1 fun message => return .response (.string ⟨message, false⟩)
  else
    return invalidNumberArgsResponse

/-- A command with one key. -/
def processKey (array : List (List Byte)) (f : Key → Program RespType) : Program Answer :=
  if array.length = 2 then
    element array 1 fun key => do
      let response ← f key
      return .response response
  else
    return invalidNumberArgsResponse

/-- The expiry a pair of an option and its value stands for, if any. The number is
    read from the front of the value; what follows it does not matter. -/
def expiryOf (optionName : List Byte) (optionValue : UInt64) (now : UInt64) :
    Except Answer (Option UInt64) :=
  if optionName = bytes "EX" then
    -- The sum may wrap around, as it does in the source.
    .ok (some (now + optionValue * 1000))
  else if optionName = bytes "PX" then
    .ok (some (now + optionValue))
  else if optionName = bytes "EXAT" then
    -- The clock is read in seconds here.
    if optionValue ≤ now / 1000 then
      .error invalidExpiryValueResponse
    else
      .ok (some (optionValue * 1000))
  else if optionName = bytes "PXAT" then
    if optionValue ≤ now then
      .error invalidExpiryValueResponse
    else
      .ok (some optionValue)
  else
    .ok none

/-- A `SET` whose arguments are in order. -/
def setAndReply (key value : List Byte) (timestamp : Option UInt64) : Program Answer := do
  set key (.string ⟨value, true⟩) timestamp
  return okResponse

/-- `SET`, with an optional expiry. -/
def processSet (array : List (List Byte)) : Program Answer :=
  if 3 ≤ array.length then
    element array 1 fun key => element array 2 fun value =>
      if 3 < array.length then
        -- An option without a value is read behind the end of the array.
        element array 3 fun optionName => element array 4 fun optionValue =>
          match fromChars sizeBound optionValue with
          | none => return invalidExpiryValueResponse
          | some (optionValue, _) => do
            -- Read for the four options only, but that makes no difference.
            let now ← inSection .clock
            match expiryOf optionName (UInt64.ofNat optionValue) now with
            | .error response => return response
            | .ok timestamp => setAndReply key value timestamp
      else
        setAndReply key value none
  else
    return invalidNumberArgsResponse

/-- How many of the keys there are, added to what was counted so far. -/
def countExisting : List Key → Int64 → Program Int64
  | [], count => return count
  | key :: keys, count => do
    let found ← keyExists key
    countExisting keys (if found then count + 1 else count)

/-- Removing keys, and how many there were, added to what was counted so far. -/
def countRemoved : List Key → Int64 → Program Int64
  | [], count => return count
  | key :: keys, count => do
    let removed ← remove .command key
    countRemoved keys (count + Int64.ofNat removed)

/-- A command that counts over its keys. -/
def processCount (array : List (List Byte)) (count : List Key → Int64 → Program Int64) :
    Program Answer :=
  if 2 ≤ array.length then do
    let total ← count (array.drop 1) 0
    return .response (.int total)
  else
    return invalidNumberArgsResponse

/-- `LPUSH` and `RPUSH`, which differ in the push. -/
def processPush (array : List (List Byte)) (push : Key → List RespString → Program RespType) :
    Program Answer :=
  if 3 ≤ array.length then
    element array 1 fun key => do
      let response ← push key ((array.drop 2).map fun value => ⟨value, true⟩)
      return .response response
  else
    return invalidNumberArgsResponse

/-- An `std::int64_t` handed over as an `int`. -/
def toInt (offset : Int64) : Int32 :=
  offset.toInt32

/-- `LRANGE`, whose offsets are narrowed to an `int`. -/
def processLrange (array : List (List Byte)) : Program Answer :=
  if array.length = 4 then
    element array 1 fun key => element array 2 fun start => element array 3 fun «end» =>
      match isValidSigned64BitInt start with
      | none => return invalidArgFormatResponse
      | some startOffset =>
        match isValidSigned64BitInt «end» with
        | none => return invalidArgFormatResponse
        | some endOffset => do
          let response ← getList key (toInt startOffset) (toInt endOffset)
          return .response response
  else
    return invalidNumberArgsResponse

/-- `SAVE`, which answers once the dump is written. -/
def processSave (array : List (List Byte)) : Program Answer :=
  if array.length = 1 then do
    match ← save with
    | some true => return okResponse
    | some false => return saveFailedResponse
    | none => return .badAccess
  else
    return invalidNumberArgsResponse

/-- Processing an array of bulk strings that has a first element. -/
def processStrings (commandName : List Byte) (array : List (List Byte)) : Program Answer :=
  match commandNameOf commandName with
  | some .config => processConfig array
  | some .ping => return if array.length = 1 then pongResponse else invalidNumberArgsResponse
  | some .echo => processEcho array
  | some .get => processKey array get
  | some .set => processSet array
  | some .existsKey => processCount array countExisting
  | some .del => processCount array countRemoved
  | some .incr => processKey array increment
  | some .decr => processKey array decrement
  | some .lpush => processPush array pushFront
  | some .rpush => processPush array pushBack
  | some .lrange => processLrange array
  | some .save => processSave array
  | none => return .refused

/-- `process_command`: only an array of bulk strings is a command. -/
def process (command : RespType) : Program Answer :=
  match command with
  | .array elements =>
    match bulkStrings elements with
    | some (commandName :: arguments) => processStrings commandName (commandName :: arguments)
    | _ => return .refused
  | _ => return .refused

/-- What is done for a client: its commands are processed one after the other. -/
def serve : List RespType → Program Unit
  | [] => return ()
  | command :: commands => do
    let _ ← process command
    serve commands

section Arrays

theorem bulkStrings_map (strings : List (List Byte)) :
    bulkStrings (strings.map fun str => .string ⟨str, true⟩) = some strings := by
  induction strings with
  | nil => rfl
  | cons str strings ih =>
      change (bulkStrings (strings.map fun str => .string ⟨str, true⟩)).map _ = _
      rw [ih]
      rfl

theorem process_commandOf (text : List Byte) (arguments : List (List Byte)) :
    process (commandOf (text :: arguments)) = processStrings text (text :: arguments) := by
  unfold process commandOf
  simp only [bulkStrings_map]

/-- Reading the clock leaves the store as it is. -/
theorem run_clock {α : Type} (f : UInt64 → Program α) (moment : Moment) (s : Store) :
    (inSection .clock >>= f).run performOperation moment s =
      (f moment.now).run performOperation moment s :=
  rfl

/-- A `SET` with an option and its value. -/
theorem processSet_option (name key value optionName optionValue : List Byte) :
    processSet [name, key, value, optionName, optionValue] =
      match fromChars sizeBound optionValue with
      | none => .done invalidExpiryValueResponse
      | some (n, _) => inSection .clock >>= fun now =>
        match expiryOf optionName (UInt64.ofNat n) now with
        | .error response => .done response
        | .ok timestamp => setAndReply key value timestamp :=
  rfl

/-- A `LRANGE` with its two offsets. -/
theorem processLrange_offsets (name key start last : List Byte) :
    processLrange [name, key, start, last] =
      match isValidSigned64BitInt start with
      | none => .done invalidArgFormatResponse
      | some startOffset =>
        match isValidSigned64BitInt last with
        | none => .done invalidArgFormatResponse
        | some endOffset =>
          getList key (toInt startOffset) (toInt endOffset) >>= fun response =>
            .done (Answer.response response) :=
  rfl

/-- The command is an `INCR` or a `DECR` of the key. -/
def Adjusts (command : RespType) (key : Key) : Prop :=
  command = commandOf [bytes "INCR", key] ∨ command = commandOf [bytes "DECR", key]

theorem bulkStrings_eq_some {elements : RespArray} {strings : List (List Byte)}
    (h : bulkStrings elements = some strings) : .array elements = commandOf strings := by
  induction elements generalizing strings with
  | nil =>
      cases h
      rfl
  | cons v rest ih =>
      unfold bulkStrings at h
      split at h
      · next heq => cases heq
      · -- Only a bulk string lets the rest be looked at.
        next str rest' heq =>
          cases heq
          rcases Option.map_eq_some_iff.mp h with ⟨strings', hstrings', rfl⟩
          have hrest := RespType.array.inj (ih hstrings')
          rw [hrest]
          rfl
      · cases h

theorem commandOf_injective : Function.Injective commandOf := by
  intro strings strings' h
  have hinjective : Function.Injective fun str : List Byte => RespType.string ⟨str, true⟩ := by
    intro str str' h
    injection h with h
    injection h
  exact List.map_injective_iff.mpr hinjective (RespType.array.inj h)

theorem Adjusts.key_unique {command : RespType} {key other : Key} (h : Adjusts command key)
    (h' : Adjusts command other) : other = key := by
  have hkey : ∃ name, command = commandOf [name, key] :=
    h.elim (fun h => ⟨_, h⟩) (fun h => ⟨_, h⟩)
  have hother : ∃ name, command = commandOf [name, other] :=
    h'.elim (fun h => ⟨_, h⟩) (fun h => ⟨_, h⟩)
  rcases hkey with ⟨name, rfl⟩
  rcases hother with ⟨name', hsame⟩
  injection commandOf_injective hsame with _ hkeys
  injection hkeys with hkeys _
  exact hkeys.symm

theorem process_adjusts {command : RespType} {key : Key} (h : Adjusts command key) :
    ∃ change,
      process command = adjust change key >>= fun response => .done (.response response) := by
  rcases h with rfl | rfl
  · exact ⟨(· + 1), rfl⟩
  · exact ⟨(· - 1), rfl⟩

end Arrays

section Uses

/-- A section that stores nothing but strings, and does not concern an expiry. -/
def Operation.Ordinary : Operation → Prop
  | .find _ => False
  | .peek _ => False
  | .set _ value => value.value.IsString
  | .remove .expiry _ => False
  | .draw => False
  | _ => True

variable {P : Operation → Prop}

theorem element_uses {array : List (List Byte)} {index : Nat}
    {f : List Byte → Program Answer} (hf : ∀ str, (f str).Uses P) :
    (element array index f).Uses P := by
  unfold element
  cases array[index]? with
  | none => trivial
  | some str => exact hf str

theorem processConfig_uses (array : List (List Byte)) :
    (processConfig array).Uses P := by
  unfold processConfig
  split
  · refine element_uses fun operation => ?_
    split
    · refine element_uses fun property => ?_
      split
      · trivial
      · split <;> trivial
    · split <;> trivial
  · trivial

theorem processEcho_uses (array : List (List Byte)) :
    (processEcho array).Uses P := by
  unfold processEcho
  split
  · exact element_uses fun message => trivial
  · trivial

theorem processKey_uses (array : List (List Byte))
    {f : Key → Program RespType} (hf : ∀ name key, array = [name, key] → (f key).Uses P) :
    (processKey array f).Uses P := by
  unfold processKey
  split
  · next htwo =>
      rcases List.length_eq_two.mp htwo with ⟨name, key, rfl⟩
      exact (hf name key rfl).bind fun response => trivial
  · trivial

theorem processSet_uses (hP : ∀ op : Operation, op.Ordinary → P op) (array : List (List Byte)) :
    (processSet array).Uses P := by
  have hset : ∀ key value timestamp, (setAndReply key value timestamp).Uses P :=
    fun key value timestamp => ⟨hP _ trivial, fun _ => trivial⟩
  unfold processSet
  split
  · refine element_uses fun key => element_uses fun value => ?_
    split
    · refine element_uses fun optionName => element_uses fun optionValue => ?_
      split
      · trivial
      · -- The clock is read, and the expiry is either refused or stored with the value.
        refine ⟨hP _ trivial, fun now => ?_⟩
        dsimp only [Sections.bind]
        split
        · trivial
        · exact hset key value _
    · exact hset key value none
  · trivial

theorem processCount_uses (array : List (List Byte))
    {count : List Key → Int64 → Program Int64} (hcount : ∀ keys n, (count keys n).Uses P) :
    (processCount array count).Uses P := by
  unfold processCount
  split
  · exact (hcount _ _).bind fun total => trivial
  · trivial

theorem countExisting_uses (hP : ∀ op : Operation, op.Ordinary → P op) (keys : List Key) :
    ∀ count, (countExisting keys count).Uses P := by
  induction keys with
  | nil => exact fun count => trivial
  | cons key keys ih => exact fun count => ⟨hP _ trivial, fun found => ih _⟩

theorem countRemoved_uses (hP : ∀ op : Operation, op.Ordinary → P op) (keys : List Key) :
    ∀ count, (countRemoved keys count).Uses P := by
  induction keys with
  | nil => exact fun count => trivial
  | cons key keys ih => exact fun count => ⟨hP _ trivial, fun removed => ih _⟩

theorem processPush_uses (array : List (List Byte))
    {push : Key → List RespString → Program RespType}
    (hpush : ∀ key values, (push key values).Uses P) : (processPush array push).Uses P := by
  unfold processPush
  split
  · exact element_uses fun key => (hpush _ _).bind fun response => trivial
  · trivial

theorem processLrange_uses (hP : ∀ op : Operation, op.Ordinary → P op)
    (array : List (List Byte)) : (processLrange array).Uses P := by
  unfold processLrange
  split
  · refine element_uses fun key => element_uses fun start => element_uses fun last => ?_
    split
    · trivial
    · split
      · trivial
      · exact ⟨hP _ trivial, fun response => trivial⟩
  · trivial

theorem save_uses (hP : ∀ op : Operation, op.Ordinary → P op) : save.Uses P := by
  refine ⟨hP _ trivial, fun snapshot => ⟨hP _ trivial, fun opened => ?_⟩⟩
  cases opened with
  | false => trivial
  | true =>
      simp only
      cases saveSnapshot snapshot with
      | none => trivial
      | some file => exact ⟨hP _ trivial, fun _ => trivial⟩

theorem processSave_uses (hP : ∀ op : Operation, op.Ordinary → P op) (array : List (List Byte)) :
    (processSave array).Uses P := by
  unfold processSave
  split
  · refine (save_uses hP).bind fun saved => ?_
    cases saved with
    | none => trivial
    | some ok => cases ok <;> trivial
  · trivial

/-- The sections of a command are ordinary, except for those of `GET`, `INCR` and
    `DECR`. -/
theorem process_uses (hP : ∀ op : Operation, op.Ordinary → P op) {command : RespType}
    (hget : ∀ key, command = commandOf [bytes "GET", key] → (get key).Uses P)
    (hadjust : ∀ key change, Adjusts command key → (adjust change key).Uses P) :
    (process command).Uses P := by
  unfold process
  split
  · split
    · next elements commandName arguments hstrings =>
        have hcommand := bulkStrings_eq_some hstrings
        unfold processStrings
        cases hname : commandNameOf commandName with
        | none => trivial
        | some name =>
            -- The name tells which command it is, so the whole of it is known.
            have htext : commandName = name.text := commandNameOf_eq_some hname
            cases name with
            | config => exact processConfig_uses _
            | ping => trivial
            | echo => exact processEcho_uses _
            | get =>
                refine processKey_uses _ fun _ key harray => hget key ?_
                cases harray
                exact hcommand.trans (by rw [htext]; rfl)
            | set => exact processSet_uses hP _
            | existsKey => exact processCount_uses _ (countExisting_uses hP)
            | del => exact processCount_uses _ (countRemoved_uses hP)
            | incr =>
                refine processKey_uses _ fun _ key harray => hadjust key _ (Or.inl ?_)
                cases harray
                exact hcommand.trans (by rw [htext]; rfl)
            | decr =>
                refine processKey_uses _ fun _ key harray => hadjust key _ (Or.inr ?_)
                cases harray
                exact hcommand.trans (by rw [htext]; rfl)
            | lpush => exact processPush_uses _ fun _ _ => ⟨hP _ trivial, fun _ => trivial⟩
            | rpush => exact processPush_uses _ fun _ _ => ⟨hP _ trivial, fun _ => trivial⟩
            | lrange => exact processLrange_uses hP _
            | save => exact processSave_uses hP _
    · trivial
  · trivial

end Uses

end Redis

end CodingChallenges
