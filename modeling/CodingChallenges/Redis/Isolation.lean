import CodingChallenges.Library.Atomicity
import CodingChallenges.Library.Footprints
import CodingChallenges.Redis.Removal

/-!
# Clients with Keys of Their Own

Clients that share the dictionary, but none of their keys.

A command looks at the keys it names and changes these, section by section, and nothing else of the
dictionary. So clients that name different keys do not notice each other: each of them gets the
replies that it would get if it were alone with the dictionary. `SAVE` is left out, which copies
all of the keys.

## Main definitions

* `Operation.Touches`: A section looks at some keys only.
* `keysOf`, `Private`: The keys that a command names.
* `viewOf`: What is stored under some keys.

## Theorems

* `process_touches`: A command touches the keys it names.
* `footprints`: The sections on some keys and the rest of the dictionary.
* `clients_undisturbed`: A client among others and by itself.
-/

namespace CodingChallenges

namespace Redis

/-- The section looks at some keys and changes what is stored under these, at most. -/
def Operation.Touches (K : Key → Prop) : Operation → Prop
  | .clock => True
  | .find key => K key
  | .peek key => K key
  | .set key _ => K key
  | .contains key => K key
  | .remove _ key => K key
  | .push _ key _ => K key
  | .getList key _ _ => K key
  | .draw => False
  | .copy => False
  | .openDump => False
  | .writeDump _ => False

/-- The keys that a command names. -/
def keysOf (name : List Byte) (arguments : List (List Byte)) : List Key :=
  match commandNameOf name with
  | some .existsKey => arguments
  | some .del => arguments
  | some .get => arguments.take 1
  | some .set => arguments.take 1
  | some .incr => arguments.take 1
  | some .decr => arguments.take 1
  | some .lpush => arguments.take 1
  | some .rpush => arguments.take 1
  | some .lrange => arguments.take 1
  | _ => []

/-- The command names some keys only, and is no `SAVE`. -/
def Private (K : Key → Prop) (command : RespType) : Prop :=
  ∀ name arguments, command = commandOf (name :: arguments) →
    name ≠ CommandName.save.text ∧ ∀ key ∈ keysOf name arguments, K key

/-- What is stored under some keys. -/
def viewOf (K : Key → Prop) (s : Store) (key : { key : Key // K key }) :
    Option (DictionaryValue RespType) :=
  s.dictionary.lookup key.1

section Commands

variable {K : Key → Prop} {name : List Byte} {arguments : List (List Byte)}

theorem element_touches {index : Nat} {f : List Byte → Program Answer}
    (hf : ∀ str, (name :: arguments)[index]? = some str → (f str).Uses (Operation.Touches K)) :
    (element (name :: arguments) index f).Uses (Operation.Touches K) := by
  unfold element
  cases hat : (name :: arguments)[index]? with
  | none => trivial
  | some str => exact hf str hat

theorem processKey_touches {f : Key → Program RespType} (hkeys : ∀ key ∈ arguments.take 1, K key)
    (hf : ∀ key, K key → (f key).Uses (Operation.Touches K)) :
    (processKey (name :: arguments) f).Uses (Operation.Touches K) := by
  refine processKey_uses _ fun name' key harray => hf key (hkeys key ?_)
  cases harray
  exact List.mem_singleton_self key

theorem get_touches {key : Key} (hkey : K key) : (get key).Uses (Operation.Touches K) := by
  refine ⟨hkey, fun found => ?_⟩
  cases found with
  | missing => trivial
  | expired => exact ⟨hkey, fun _ => trivial⟩
  | live value =>
      cases value with
      | string value => trivial
      | _ => trivial

theorem adjust_touches {change : Int64 → Int64} {key : Key} (hkey : K key) :
    (adjust change key).Uses (Operation.Touches K) := by
  refine ⟨hkey, fun found => ?_⟩
  cases found with
  | missing => trivial
  | expired => exact ⟨hkey, fun _ => trivial⟩
  | live value =>
      cases value with
      | string value =>
          change (adjustFound change key (.live (.string value))).Uses (Operation.Touches K)
          unfold adjustFound
          dsimp only
          cases isValidSigned64BitInt value.str with
          | none => trivial
          | some n => exact ⟨hkey, fun timestamp => ⟨hkey, fun _ => trivial⟩⟩
      | _ => trivial

/-- The first argument of a command. -/
theorem mem_take_one {str : List Byte} (h : (name :: arguments)[1]? = some str) :
    str ∈ arguments.take 1 := by
  cases arguments with
  | nil => cases h
  | cons first rest =>
      cases h
      exact List.mem_singleton_self _

theorem processSet_touches (hkeys : ∀ key ∈ arguments.take 1, K key) :
    (processSet (name :: arguments)).Uses (Operation.Touches K) := by
  have hset : ∀ key value timestamp, K key →
      (setAndReply key value timestamp).Uses (Operation.Touches K) :=
    fun key value timestamp hkey => ⟨hkey, fun _ => trivial⟩
  unfold processSet
  split_ifs
  · refine element_touches fun key hkey => element_uses fun value => ?_
    have hK := hkeys key (mem_take_one hkey)
    refine element_uses fun optionName => element_uses fun optionValue => ?_
    cases fromChars sizeBound optionValue with
    | none => trivial
    | some read =>
        -- The clock is read, which has nothing to do with the keys.
        refine ⟨trivial, fun now => ?_⟩
        dsimp only [Sections.bind]
        cases expiryOf optionName (UInt64.ofNat read.1) now with
        | error response => trivial
        | ok timestamp => exact hset key value timestamp hK
  · exact element_touches fun key hkey => element_uses fun value =>
      hset key value none (hkeys key (mem_take_one hkey))
  · trivial

theorem countExisting_touches {keys : List Key} (hkeys : ∀ key ∈ keys, K key) :
    ∀ count, (countExisting keys count).Uses (Operation.Touches K) := by
  induction keys with
  | nil => exact fun count => trivial
  | cons key keys ih =>
      rw [List.forall_mem_cons] at hkeys
      exact fun count => ⟨hkeys.1, fun found => ih hkeys.2 _⟩

theorem countRemoved_touches {keys : List Key} (hkeys : ∀ key ∈ keys, K key) :
    ∀ count, (countRemoved keys count).Uses (Operation.Touches K) := by
  induction keys with
  | nil => exact fun count => trivial
  | cons key keys ih =>
      rw [List.forall_mem_cons] at hkeys
      exact fun count => ⟨hkeys.1, fun removed => ih hkeys.2 _⟩

theorem processCount_touches {count : List Key → Int64 → Program Int64}
    (hcount : ∀ n, (count arguments n).Uses (Operation.Touches K)) :
    (processCount (name :: arguments) count).Uses (Operation.Touches K) := by
  unfold processCount
  split_ifs
  · exact (hcount 0).bind fun total => trivial
  · trivial

theorem processPush_touches {push : Key → List RespString → Program RespType}
    (hkeys : ∀ key ∈ arguments.take 1, K key)
    (hpush : ∀ key values, K key → (push key values).Uses (Operation.Touches K)) :
    (processPush (name :: arguments) push).Uses (Operation.Touches K) := by
  unfold processPush
  split_ifs
  · exact element_touches fun key hkey =>
      (hpush key _ (hkeys key (mem_take_one hkey))).bind fun response => trivial
  · trivial

theorem processLrange_touches (hkeys : ∀ key ∈ arguments.take 1, K key) :
    (processLrange (name :: arguments)).Uses (Operation.Touches K) := by
  unfold processLrange
  split_ifs
  · refine element_touches fun key hkey => element_uses fun start => element_uses fun last => ?_
    cases isValidSigned64BitInt start with
    | none => trivial
    | some startOffset =>
        cases isValidSigned64BitInt last with
        | none => trivial
        | some endOffset => exact ⟨hkeys key (mem_take_one hkey), fun response => trivial⟩
  · trivial

/-- A command touches the keys it names. -/
theorem process_touches {command : RespType} (h : Private K command) :
    (process command).Uses (Operation.Touches K) := by
  unfold process
  split
  · split
    · next elements commandName arguments hstrings =>
        rcases h commandName arguments (bulkStrings_eq_some hstrings) with ⟨hsave, hkeys⟩
        unfold processStrings
        unfold keysOf at hkeys
        cases hname : commandNameOf commandName with
        | none => trivial
        | some name =>
            simp only [hname] at hkeys
            cases name with
            | config => exact processConfig_uses _
            | ping => trivial
            | echo => exact processEcho_uses _
            | get => exact processKey_touches hkeys fun key hkey => get_touches hkey
            | set => exact processSet_touches hkeys
            | existsKey => exact processCount_touches (countExisting_touches hkeys)
            | del => exact processCount_touches (countRemoved_touches hkeys)
            | incr => exact processKey_touches hkeys fun key hkey => adjust_touches hkey
            | decr => exact processKey_touches hkeys fun key hkey => adjust_touches hkey
            | lpush =>
                exact processPush_touches hkeys fun key values hkey => ⟨hkey, fun _ => trivial⟩
            | rpush =>
                exact processPush_touches hkeys fun key values hkey => ⟨hkey, fun _ => trivial⟩
            | lrange => exact processLrange_touches hkeys
            | save => exact absurd (commandNameOf_eq_some hname) hsave
    · trivial
  · trivial

end Commands

section Sections

variable {K : Key → Prop} {op : Operation} {s s' : Store}

/-- What a push does is decided by what is under its key. -/
theorem push_congr (side : Side) {key : Key} (values : List RespString) {d d' : Dictionary}
    (h : d.lookup key = d'.lookup key) :
    (push side key values d).1 = (push side key values d').1 ∧
      (push side key values d).2.lookup key = (push side key values d').2.lookup key := by
  unfold push
  rw [h]
  split
  · exact ⟨rfl, by rw [AList.lookup_insert, AList.lookup_insert]⟩
  · exact ⟨rfl, by rw [AList.lookup_insert, AList.lookup_insert]⟩
  · exact ⟨rfl, h⟩

/-- A section that touches a key leaves the others as they are. -/
theorem lookup_performOperation (h : op.Touches K) (moment : Moment) {other : Key}
    (hother : ¬ K other) :
    (performOperation op moment s).2.dictionary.lookup other = s.dictionary.lookup other := by
  have hne : ∀ {key : Key}, K key → other ≠ key := by
    rintro key hkey rfl
    exact hother hkey
  cases op with
  | set key value => exact AList.lookup_insert_ne (hne h)
  | remove cause key => exact AList.lookup_erase_ne (hne h)
  | push side key values => exact lookup_push_ne (hne h)
  | draw => cases h
  | copy => cases h
  | openDump => cases h
  | writeDump file => cases h
  | _ => rfl

/-- What a section does to the keys it touches is decided by what is under them. -/
theorem performOperation_congr (h : op.Touches K) (moment : Moment)
    (hview : viewOf K s = viewOf K s') :
    (performOperation op moment s).1 = (performOperation op moment s').1 ∧
      viewOf K (performOperation op moment s).2 = viewOf K (performOperation op moment s').2 := by
  have hlookup : ∀ {key : Key}, K key → s.dictionary.lookup key = s'.dictionary.lookup key :=
    fun {key} hkey => congrFun hview ⟨key, hkey⟩
  cases op with
  | clock => exact ⟨rfl, hview⟩
  | find key =>
      refine ⟨?_, hview⟩
      simp only [performOperation, lookUp, hlookup h]
  | peek key =>
      refine ⟨?_, hview⟩
      simp only [performOperation, hlookup h]
  | contains key =>
      refine ⟨?_, hview⟩
      simp only [performOperation, hlookup h]
  | getList key startOffset endOffset =>
      refine ⟨?_, hview⟩
      simp only [performOperation, getListIn, hlookup h]
  | set key value =>
      refine ⟨rfl, funext fun ⟨other, hown⟩ => ?_⟩
      by_cases hother : other = key
      · subst hother
        simp only [viewOf, performOperation, AList.lookup_insert]
      · simp only [viewOf, performOperation, AList.lookup_insert_ne hother]
        exact hlookup hown
  | remove cause key =>
      refine ⟨by simp only [performOperation, hlookup h], funext fun ⟨other, hown⟩ => ?_⟩
      by_cases hother : other = key
      · subst hother
        simp only [viewOf, performOperation, AList.lookup_erase]
      · simp only [viewOf, performOperation, AList.lookup_erase_ne hother]
        exact hlookup hown
  | push side key values =>
      rcases push_congr side values (hlookup h) with ⟨hreply, hpushed⟩
      refine ⟨hreply, funext fun ⟨other, hown⟩ => ?_⟩
      by_cases hother : other = key
      · subst hother
        simp only [viewOf, performOperation, hpushed]
      · simp only [viewOf, performOperation, lookup_push_ne hother]
        exact hlookup hown
  | draw => cases h
  | copy => cases h
  | openDump => cases h
  | writeDump file => cases h

end Sections

/-- Parties that have no key in common share the dictionary without meeting. -/
theorem footprints {K : Nat → Key → Prop}
    (hdisjoint : ∀ party other key, party ≠ other → K party key → ¬ K other key) :
    Footprints performOperation (fun party => Operation.Touches (K party))
      (fun party => viewOf (K party)) where
  inside _ _ moment _ _ hown hview := performOperation_congr hown moment hview
  frame party other _ moment _ hne hown :=
    funext fun key => lookup_performOperation hown moment (hdisjoint party other key.1 hne key.2)

theorem callAll_uses {C R : Type} {code : C → Program R} {P : Operation → Prop} {calls : List C}
    (h : ∀ call ∈ calls, (code call).Uses P) : (callAll code calls).Uses P := by
  induction calls with
  | nil => trivial
  | cons call calls ih =>
      rw [List.forall_mem_cons] at h
      exact h.1.bind fun r => (ih h.2).bind fun rs => trivial

/-- Clients whose commands name different keys do not disturb each other. Whatever the order their
    sections run in, each of them has come as far, with the same replies, as it would have come
    alone at some of the moments of the run, and under its keys there is what it has put there. -/
theorem clients_undisturbed {K : Nat → Key → Prop} {clients : List (List RespType)} {s : Store}
    {t : List (Pool Reply Store (List Answer) × Operation × Moment)}
    {p : Pool Reply Store (List Answer)}
    (hdisjoint : ∀ client other key, client ≠ other → K client key → ¬ K other key)
    (hprivate : ∀ (client : Nat) commands, clients[client]? = some commands →
      ∀ command ∈ commands, Private (K client) command)
    (hrun : Trace (Turn performOperation) ⟨s, clients.map (callAll process)⟩ t p)
    {client : Nat} {commands : List RespType} (hclient : clients[client]? = some commands) :
    ∃ moments, moments.Sublist (t.map fun x => x.2.2) ∧
      p.tasks[client]? =
        some ((callAll process commands).runAt performOperation moments s).1 ∧
      ∀ key, K client key →
        ((callAll process commands).runAt performOperation moments s).2.dictionary.lookup key =
          p.shared.dictionary.lookup key := by
  have howns : ∀ (party : Nat) task,
      (clients.map (callAll process))[party]? = some task →
        task.Uses (Operation.Touches (K party)) := by
    intro party task htask
    rw [List.getElem?_map, Option.map_eq_some_iff] at htask
    rcases htask with ⟨commands', hparty, rfl⟩
    exact callAll_uses fun command hcommand =>
      process_touches (hprivate party commands' hparty command hcommand)
  have htask : (clients.map (callAll process))[client]? = some (callAll process commands) := by
    rw [List.getElem?_map, hclient]
    rfl
  rcases (footprints hdisjoint).alone hrun howns htask rfl with ⟨moments, hsub, hdone, hview⟩
  exact ⟨moments, hsub, hdone, fun key hkey => congrFun hview ⟨key, hkey⟩⟩

theorem private_commandOf {K : Key → Prop} {name : List Byte} {arguments : List (List Byte)}
    (hsave : name ≠ CommandName.save.text) (hkeys : ∀ key ∈ keysOf name arguments, K key) :
    Private K (commandOf (name :: arguments)) := by
  intro name' arguments' hsame
  cases commandOf_injective hsame
  exact ⟨hsave, hkeys⟩

/-- The first client has one key, and the second another. -/
abbrev keysOfTwo (client : Nat) (key : Key) : Prop :=
  (client = 0 ∧ key = bytes "a") ∨ (client = 1 ∧ key = bytes "b")

/-- What the two of them want. -/
abbrev commandsOfTwo : List (List RespType) :=
  [[commandOf [bytes "SET", bytes "a", bytes "1"], commandOf [bytes "GET", bytes "a"]],
    [commandOf [bytes "LPUSH", bytes "b", bytes "2"]]]

/-- The second client comes between the two commands of the first. -/
theorem clients_undisturbed_two :
    let run := Pool.schedule performOperation ⟨⟨∅, none⟩, commandsOfTwo.map (callAll process)⟩
      [(0, Moment.ordinary 0), (1, Moment.ordinary 0), (0, Moment.ordinary 0)]
    ∃ moments, moments.Sublist (run.1.map fun x => x.2.2) ∧
      run.2.tasks[0]? =
        some ((callAll process commandsOfTwo[0]).runAt performOperation moments ⟨∅, none⟩).1 ∧
      ∀ key, keysOfTwo 0 key →
        ((callAll process commandsOfTwo[0]).runAt performOperation moments
          ⟨∅, none⟩).2.dictionary.lookup key = run.2.shared.dictionary.lookup key := by
  have hdisjoint : ∀ client other key, client ≠ other → keysOfTwo client key →
      ¬ keysOfTwo other key := by
    rintro client other key hne (⟨rfl, rfl⟩ | ⟨rfl, rfl⟩) (⟨rfl, hkey⟩ | ⟨rfl, hkey⟩)
    · exact hne rfl
    · exact absurd hkey (by decide)
    · exact absurd hkey (by decide)
    · exact hne rfl
  have hprivate : ∀ (client : Nat) commands, commandsOfTwo[client]? = some commands →
      ∀ command ∈ commands, Private (keysOfTwo client) command := by
    intro client commands hclient command hcommand
    cases client with
    | zero =>
        cases hclient
        rcases List.mem_pair.mp hcommand with rfl | rfl
        · exact private_commandOf (by decide) (by decide)
        · exact private_commandOf (by decide) (by decide)
    | succ client =>
        cases client with
        | zero =>
            cases hclient
            rw [List.mem_singleton] at hcommand
            subst hcommand
            exact private_commandOf (by decide) (by decide)
        | succ client => cases hclient
  have hfirst : commandsOfTwo[0]? = some commandsOfTwo[0] := rfl
  exact clients_undisturbed hdisjoint hprivate (Pool.trace_schedule _ _) hfirst

end Redis

end CodingChallenges
