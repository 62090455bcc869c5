import CodingChallenges.Redis.CommandProcessor

/-!
# Reading the Elements of a Command

Which commands are read behind their end.

`CommandProcessor::process` reads the elements of a command by position, and so
does `Indexed.process` here, the loops over the keys and the values included:
every access is one to a position, and one to a position that the array does not
have is an answer of its own. `CommandProcessor.lean` has the loops go over the
rest of the array instead. The two are the same programs, since the loops stop
at the end of the array.

The other accesses come behind a check of the size, which is enough for them in
every branch but one: `SET` reads the value of an option as soon as there is the
name of one.

## Main definitions

* `Indexed.forElements`: A loop over the elements, by position.
* `Indexed.process`: Processing a command, by position.

## Theorems

* `Indexed.process_eq`: The two descriptions are the same.
* `process_returns`: No program but that of one form of `SET` reads behind the end.
* `process_inRange_iff`: The commands all accesses of which are inside the array.
-/

namespace CodingChallenges

namespace Redis

namespace Indexed

variable {β : Type}

/-- The loop over the elements from a position on. Nothing is returned if an
    element was read that the array does not have. -/
def forElements (array : List (List Byte)) (body : β → List Byte → Program β) :
    Nat → Nat → β → Program (Option β)
  | 0, _, result => return some result
  | rounds + 1, index, result =>
    if index < array.length then
      match array[index]? with
      | none => return none
      | some str => do
        let result ← body result str
        forElements array body rounds (index + 1) result
    else
      return some result

/-- Going on with what a loop made of the elements. -/
def afterLoop (loop : Program (Option β)) (f : β → Program Answer) : Program Answer := do
  match ← loop with
  | none => return .outOfRange
  | some result => f result

/-- One round of `EXISTS`. -/
def countIfExists (count : Int64) (key : Key) : Program Int64 := do
  let found ← keyExists key
  return if found then count + 1 else count

/-- One round of `DEL`. -/
def countRemoval (count : Int64) (key : Key) : Program Int64 := do
  let removed ← remove .command key
  return count + Int64.ofNat removed

/-- One round of `LPUSH` or `RPUSH`. -/
def collectValue (values : List RespString) (str : List Byte) : Program (List RespString) :=
  return values ++ [⟨str, true⟩]

/-- `EXISTS` and `DEL`, with each element read at its index. -/
def processCount (array : List (List Byte)) (round : Int64 → Key → Program Int64) :
    Program Answer :=
  if 2 ≤ array.length then
    afterLoop (forElements array round array.length 1 0) fun total => return .response (.int total)
  else
    return invalidNumberArgsResponse

/-- `LPUSH` and `RPUSH`, with each element read at its index. -/
def processPush (array : List (List Byte)) (push : Key → List RespString → Program RespType) :
    Program Answer :=
  if 3 ≤ array.length then
    element array 1 fun key =>
      afterLoop (forElements array collectValue array.length 2 []) fun values => do
        let response ← push key values
        return .response response
  else
    return invalidNumberArgsResponse

/-- Processing an array of bulk strings. -/
def processStrings (array : List (List Byte)) : Program Answer :=
  if array = [] then
    return .refused
  else
    element array 0 fun commandName =>
      match commandNameOf commandName with
      | some .config => processConfig array
      | some .ping => return if array.length = 1 then pongResponse else invalidNumberArgsResponse
      | some .echo => processEcho array
      | some .get => processKey array get
      | some .set => processSet array
      | some .existsKey => processCount array countIfExists
      | some .del => processCount array countRemoval
      | some .incr => processKey array increment
      | some .decr => processKey array decrement
      | some .lpush => processPush array pushFront
      | some .rpush => processPush array pushBack
      | some .lrange => processLrange array
      | some .save => processSave array
      | none => return .refused

/-- `process_command` on the indexed handlers. -/
def process (command : RespType) : Program Answer :=
  match command with
  | .array elements =>
    match bulkStrings elements with
    | some array => processStrings array
    | none => return .refused
  | _ => return .refused

section Loops

variable {array : List (List Byte)} {body : β → List Byte → Program β}

/-- The rest of the elements, taken one after the other. -/
def overElements (body : β → List Byte → Program β) : List (List Byte) → β → Program β
  | [], result => return result
  | str :: rest, result => do
    let result ← body result str
    overElements body rest result

/-- The loop stops at the end of the array, so all its elements are there. -/
theorem forElements_eq (array : List (List Byte)) (body : β → List Byte → Program β)
    (rounds : Nat) : ∀ (index : Nat) (result : β), array.length ≤ index + rounds →
      forElements array body rounds index result =
        overElements body (array.drop index) result >>= fun r => .done (some r) := by
  induction rounds with
  | zero =>
      intro index result hle
      rw [List.drop_eq_nil_of_le (by omega)]
      rfl
  | succ rounds ih =>
      intro index result hle
      unfold forElements
      by_cases hlt : index < array.length
      · -- The element is there, and the other loop has it in front.
        rw [if_pos hlt, List.getElem?_eq_getElem hlt, List.drop_eq_getElem_cons hlt]
        simp only [overElements]
        rw [Sections.bind_assoc]
        congr 1
        funext next
        exact ih (index + 1) next (by omega)
      · rw [if_neg hlt, List.drop_eq_nil_of_le (Nat.le_of_not_lt hlt)]
        rfl

theorem afterLoop_eq (array : List (List Byte)) (body : β → List Byte → Program β) (index : Nat)
    (result : β) (f : β → Program Answer) :
    afterLoop (forElements array body array.length index result) f =
      overElements body (array.drop index) result >>= f := by
  unfold afterLoop
  rw [forElements_eq array body array.length index result (Nat.le_add_left _ _),
    Sections.bind_assoc]
  rfl

theorem overElements_countIfExists (keys : List Key) (count : Int64) :
    overElements countIfExists keys count = countExisting keys count := by
  induction keys generalizing count with
  | nil => rfl
  | cons key keys ih =>
      unfold overElements countExisting countIfExists
      rw [Sections.bind_assoc]
      congr 1
      funext found
      exact ih _

theorem overElements_countRemoval (keys : List Key) (count : Int64) :
    overElements countRemoval keys count = countRemoved keys count := by
  induction keys generalizing count with
  | nil => rfl
  | cons key keys ih =>
      unfold overElements countRemoved countRemoval
      rw [Sections.bind_assoc]
      congr 1
      funext removed
      exact ih _

theorem overElements_collectValue (strs : List (List Byte)) (values : List RespString) :
    overElements collectValue strs values =
      .done (values ++ strs.map fun str => ⟨str, true⟩) := by
  induction strs generalizing values with
  | nil =>
      rw [List.map_nil, List.append_nil]
      rfl
  | cons str strs ih =>
      change overElements collectValue strs (values ++ [⟨str, true⟩]) = _
      rw [ih, List.append_assoc]
      rfl

theorem processCount_eq (array : List (List Byte)) {round : Int64 → Key → Program Int64}
    {count : List Key → Int64 → Program Int64}
    (hround : ∀ keys n, overElements round keys n = count keys n) :
    processCount array round = Redis.processCount array count := by
  unfold processCount Redis.processCount
  rw [afterLoop_eq, hround]

theorem processPush_eq (array : List (List Byte))
    (push : Key → List RespString → Program RespType) :
    processPush array push = Redis.processPush array push := by
  unfold processPush Redis.processPush
  simp only [afterLoop_eq, overElements_collectValue, Sections.done_bind, List.nil_append]

theorem processStrings_eq (commandName : List Byte) (arguments : List (List Byte)) :
    processStrings (commandName :: arguments) =
      Redis.processStrings commandName (commandName :: arguments) := by
  unfold processStrings Redis.processStrings element
  rw [if_neg (List.cons_ne_nil _ _), List.getElem?_cons_zero]
  simp only
  cases commandNameOf commandName with
  | none => rfl
  | some name =>
      -- The other branches have no loop.
      cases name with
      | existsKey => exact processCount_eq _ overElements_countIfExists
      | del => exact processCount_eq _ overElements_countRemoval
      | lpush => exact processPush_eq _ _
      | rpush => exact processPush_eq _ _
      | _ => rfl

/-- Whether the loops read by position or go over the rest of the array makes no
    difference. -/
theorem process_eq (command : RespType) : process command = Redis.process command := by
  unfold process Redis.process
  cases command with
  | array elements =>
      simp only
      cases bulkStrings elements with
      | none => rfl
      | some array =>
          cases array with
          | nil => rfl
          | cons commandName arguments => exact processStrings_eq commandName arguments
  | string _ => rfl
  | int _ => rfl
  | error _ => rfl
  | null => rfl

end Loops

end Indexed

section InRange

/-- Something other than a read behind the end. -/
def Answer.InRange (answer : Answer) : Prop :=
  answer ≠ .outOfRange

theorem response_inRange (value : RespType) : (Answer.response value).InRange :=
  fun h => by cases h

/-- An element that the array has. -/
theorem element_returns {array : List (List Byte)} {index : Nat}
    {f : List Byte → Program Answer} (hlt : index < array.length)
    (hf : ∀ str, (f str).Returns Answer.InRange) :
    (element array index f).Returns Answer.InRange := by
  unfold element
  rw [List.getElem?_eq_getElem hlt]
  exact hf _

theorem processConfig_returns (array : List (List Byte)) :
    (processConfig array).Returns Answer.InRange := by
  unfold processConfig
  split
  · refine element_returns (by omega) fun operation => ?_
    split
    · refine element_returns (by omega) fun property => ?_
      split
      · exact response_inRange _
      · split <;> exact response_inRange _
    · split <;> exact response_inRange _
  · exact response_inRange _

theorem processEcho_returns (array : List (List Byte)) :
    (processEcho array).Returns Answer.InRange := by
  unfold processEcho
  split
  · exact element_returns (by omega) fun message => response_inRange _
  · exact response_inRange _

theorem processKey_returns (array : List (List Byte)) (f : Key → Program RespType) :
    (processKey array f).Returns Answer.InRange := by
  unfold processKey
  split
  · exact element_returns (by omega) fun key => Sections.Returns.bind _ fun _ => response_inRange _
  · exact response_inRange _

theorem processCount_returns (array : List (List Byte))
    (count : List Key → Int64 → Program Int64) :
    (processCount array count).Returns Answer.InRange := by
  unfold processCount
  split
  · exact Sections.Returns.bind _ fun _ => response_inRange _
  · exact response_inRange _

theorem processPush_returns (array : List (List Byte))
    (push : Key → List RespString → Program RespType) :
    (processPush array push).Returns Answer.InRange := by
  unfold processPush
  split
  · exact element_returns (by omega) fun key => Sections.Returns.bind _ fun _ => response_inRange _
  · exact response_inRange _

theorem processLrange_returns (array : List (List Byte)) :
    (processLrange array).Returns Answer.InRange := by
  unfold processLrange
  split
  · refine element_returns (by omega) fun key => element_returns (by omega) fun start =>
      element_returns (by omega) fun last => ?_
    split
    · exact response_inRange _
    · split
      · exact response_inRange _
      · exact fun response => response_inRange _
  · exact response_inRange _

theorem processSave_returns (array : List (List Byte)) :
    (processSave array).Returns Answer.InRange := by
  unfold processSave
  split
  · refine Sections.Returns.bind _ fun saved => ?_
    rcases saved with _ | _ | _
    · exact fun h => by cases h
    · exact response_inRange _
    · exact response_inRange _
  · exact response_inRange _

theorem expiryOf_error_inRange {optionName : List Byte} {optionValue now : UInt64}
    {answer : Answer} (h : expiryOf optionName optionValue now = .error answer) :
    answer.InRange := by
  unfold expiryOf at h
  repeat' split at h
  all_goals cases h <;> exact response_inRange _

/-- `SET` with its option, if there is one, and the value of that. -/
theorem processSet_returns {array : List (List Byte)} (hfour : array.length ≠ 4) :
    (processSet array).Returns Answer.InRange := by
  have hset : ∀ key value timestamp,
      (setAndReply key value timestamp).Returns Answer.InRange :=
    fun key value timestamp _ => response_inRange _
  unfold processSet
  split
  · refine element_returns (by omega) fun key => element_returns (by omega) fun value => ?_
    split
    · -- More than three elements, and not four, so there is a fifth.
      refine element_returns (by omega) fun optionName =>
        element_returns (by omega) fun optionValue => ?_
      split
      · exact response_inRange _
      · intro now
        dsimp only [Sections.bind]
        split
        · next answer hanswer => exact expiryOf_error_inRange hanswer
        · exact hset key value _
    · exact hset key value none
  · exact response_inRange _

/-- A `SET` with the name of an option and no value of it. -/
def OptionWithoutValue (command : RespType) : Prop :=
  ∃ key value optionName, command = commandOf [bytes "SET", key, value, optionName]

/-- No other command is read behind its end, whatever its sections return. -/
theorem process_returns {command : RespType} (h : ¬ OptionWithoutValue command) :
    (process command).Returns Answer.InRange := by
  have hrefused : (Sections.done Answer.refused : Program Answer).Returns Answer.InRange :=
    fun h => by cases h
  unfold process
  split
  · split
    · next elements commandName arguments hstrings =>
        have hcommand := bulkStrings_eq_some hstrings
        unfold processStrings
        cases hname : commandNameOf commandName with
        | none => exact hrefused
        | some name =>
            cases name with
            | config => exact processConfig_returns _
            | ping =>
                change Answer.InRange (if (commandName :: arguments).length = 1 then pongResponse
                  else invalidNumberArgsResponse)
                split <;> exact response_inRange _
            | echo => exact processEcho_returns _
            | get => exact processKey_returns _ _
            | set =>
                refine processSet_returns fun hfour => h ?_
                -- Four elements are the name, a key, a value, and the name of an option.
                have hthree : arguments.length = 3 := Nat.succ.inj hfour
                rcases List.length_eq_three.mp hthree with ⟨key, value, optionName, rfl⟩
                rw [commandNameOf_eq_some hname] at hcommand
                exact ⟨key, value, optionName, hcommand⟩
            | existsKey => exact processCount_returns _ _
            | del => exact processCount_returns _ _
            | incr => exact processKey_returns _ _
            | decr => exact processKey_returns _ _
            | lpush => exact processPush_returns _ _
            | rpush => exact processPush_returns _ _
            | lrange => exact processLrange_returns _
            | save => exact processSave_returns _
    · exact hrefused
  · exact hrefused

/-- The fifth of four elements is read before anything else is done. -/
theorem process_optionWithoutValue {command : RespType} (h : OptionWithoutValue command) :
    process command = .done .outOfRange := by
  rcases h with ⟨key, value, optionName, rfl⟩
  rw [process_commandOf]
  rfl

/-- All elements that a command is read for are there, on every store and at every
    moment, unless the command is a `SET` of four elements. -/
theorem process_inRange_iff (command : RespType) (moment : Moment) (s : Store) :
    ((Indexed.process command).run performOperation moment s).1 ≠ .outOfRange ↔
      ¬ OptionWithoutValue command := by
  rw [Indexed.process_eq]
  constructor
  · intro hrange h
    rw [process_optionWithoutValue h] at hrange
    exact hrange rfl
  · intro h
    exact (process_returns h).run moment s

/-- `SET k v EX` is read behind its end. -/
theorem process_not_inRange :
    ¬ ∀ (command : RespType) (moment : Moment) (s : Store),
      ((Indexed.process command).run performOperation moment s).1 ≠ .outOfRange := by
  intro hall
  refine hall (commandOf [bytes "SET", bytes "k", bytes "v", bytes "EX"]) (Moment.ordinary 0)
    ⟨∅, none⟩ ?_
  rw [Indexed.process_eq, process_optionWithoutValue ⟨_, _, _, rfl⟩]
  rfl

end InRange

end Redis

end CodingChallenges
