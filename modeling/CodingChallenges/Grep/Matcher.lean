import CodingChallenges.Grep.Nfa

/-!
# The Matcher

The breadth-first search of `matcher.cpp` over an automaton, and the scan that
calls it from one start position after another.

A configuration (`MatchState`) is a state, an input position, and the list of
group ranges recorded so far, which is behind a pointer that stays null until
the first group is entered. The input never changes during a search and is a
parameter. Every transition is tried on the rest of the input from the current
position on, and taking that rest throws once the position is past the end.

The search keeps a queue of configurations and a set of keys already visited.
`searchStep` is one round of its loop and `searchLoop` iterates it; the number
of rounds it is given, `searchFuel`, bounds the rounds any search can take.
`matchAllLoop` is the scan, whose start position grows in every round.

## Main definitions

* `processTransition`: One transition, tried on a configuration.
* `searchStep`, `searchLoop`: The search.
* `matchOneFrom`, `matchOne`, `matchAll`: The three entry points.
-/

namespace CodingChallenges

namespace Grep

/-- What a group, or the whole match, covers. -/
structure Range where
  groupId : Nat
  fromPosition : Option Nat
  toPosition : Option Nat
deriving DecidableEq, Repr

/-- The whole match first, then the groups. -/
structure MatchResult where
  groupRanges : List Range
deriving DecidableEq, Repr

/-- Where the search is: in the input, in the automaton, and in its groups. -/
structure MatchState where
  inputPosition : Nat
  currentStateId : Nat
  groupRanges : Option (List Range) := none
deriving DecidableEq, Repr

/-- How far a transition goes on in the input, and to which state. -/
structure TransitionResult where
  offset : Nat
  toStateId : Nat
deriving DecidableEq, Repr

/-- The automaton of a regex. -/
structure Matcher where
  regexNfaElement : NfaElement
  states : List State
deriving DecidableEq, Repr

/-- A decimal digit. -/
def isDigit (c : Nat) : Bool :=
  codePoint '0' ≤ c && c ≤ codePoint '9'

/-- A letter, a digit or an underscore. -/
def isWord (c : Nat) : Bool :=
  (codePoint 'a' ≤ c && c ≤ codePoint 'z') || (codePoint 'A' ≤ c && c ≤ codePoint 'Z') ||
    isDigit c || c == codePoint '_'

/-- Space, tab, line feed, carriage return, form feed, and vertical tab. -/
def isWhitespace (c : Nat) : Bool :=
  c == codePoint ' ' || c == codePoint '\t' || c == codePoint '\n' || c == codePoint '\r' ||
    c == 12 || c == 11

/-- The condition each class escape puts on a character. -/
def CharacterClassType.test : CharacterClassType → Nat → Bool
  | .anyDecimalDigit, c => isDigit c
  | .anyDecimalDigitInverted, c => !isDigit c
  | .anyWord, c => isWord c
  | .anyWordInverted, c => !isWord c
  | .anyWhitespace, c => isWhitespace c
  | .anyWhitespaceInverted, c => !isWhitespace c

/-- The common shape of the transitions that look at one character: nothing
    happens at the end of the input, and otherwise the test decides, inverted
    under `negate`. -/
def processOneCharacter (toStateId : Nat) (test : Nat → Bool) (input : List Nat)
    (negate : Bool) : Option TransitionResult :=
  match input with
  | [] => none
  | c :: _ => if (test c).xor negate then some { offset := 1, toStateId } else none

/-- One character that is given. -/
def processCharTransition (toStateId : Nat) (character : Nat) (input : List Nat)
    (negate : Bool) : Option TransitionResult :=
  processOneCharacter toStateId (· == character) input negate

/-- One character of a class. -/
def processCharacterClassTransition (toStateId : Nat) (characterClass : CharacterClass)
    (input : List Nat) (negate : Bool) : Option TransitionResult :=
  processOneCharacter toStateId characterClass.type.test input negate

/-- One character of a range. -/
def processCharacterRangeTransition (toStateId : Nat) (characterRange : CharacterRange)
    (input : List Nat) (negate : Bool) : Option TransitionResult :=
  processOneCharacter toStateId
    (fun c => match characterRange.endChar with
      | some last => characterRange.start ≤ c && c ≤ last
      | none => c == characterRange.start)
    input negate

/-- Categories are parsed, but matching one throws. -/
def processUnicodeCategoryNameTransition : Except Exception (Option TransitionResult) :=
  throw (.runtimeError "Unicode category name transition processing not implemented")

/-- One item of a bracket group, tried as the transition it stands for. -/
def processGroupItem (toStateId : Nat) (item : CharacterGroupItem) (input : List Nat) :
    Except Exception (Option TransitionResult) :=
  match item with
  | .characterClass c => return processCharacterClassTransition toStateId c input false
  | .unicodeCategory _ => processUnicodeCategoryNameTransition
  | .characterRange r => return processCharacterRangeTransition toStateId r input false
  | .character c => return processCharTransition toStateId c input false

/-- The loop over the items of a bracket group: the first item that matches
    decides. -/
def processGroupItems (toStateId : Nat) (negate : Bool) (input : List Nat) :
    List CharacterGroupItem → Except Exception (Option TransitionResult)
  -- No item matches: that is what a negated group asks for.
  | [] => return if negate then some { offset := 1, toStateId } else none
  | item :: rest => do
    match ← processGroupItem toStateId item input with
    | some result => return if negate then none else some result
    | none => processGroupItems toStateId negate input rest

/-- One character of a group, or one of none of its items. -/
def processCharacterGroupTransition (toStateId : Nat) (characterGroup : CharacterGroup)
    (input : List Nat) : Except Exception (Option TransitionResult) :=
  match input with
  | [] => return none
  | _ :: _ =>
    processGroupItems toStateId characterGroup.negativeModifier input
      characterGroup.characterGroupItems

/-- The condition of each anchor, at a position of the input. -/
def AnchorType.test (originalInput : List Nat) (position : Nat) : AnchorType → Bool
  | .startOfStringOnly => position == 0
  -- In front of any line feed, not only a last one.
  | .endOfString =>
    position == originalInput.length || originalInput[position]? == some (codePoint '\n')
  | .endOfStringOnly =>
    position == originalInput.length ||
      (position == originalInput.length - 1 &&
        originalInput[position]? == some (codePoint '\n'))
  | .endOfStringOnlyNotNewline => position == originalInput.length
  | .nonWordBoundary =>
    let previousChar := if 0 < position then originalInput[position - 1]? else none
    let nextChar := originalInput[position]?
    previousChar.any isWord == nextChar.any isWord
  | .wordBoundary =>
    let previousChar := if 0 < position then originalInput[position - 1]? else none
    let nextChar := originalInput[position]?
    -- A missing neighbour counts as no word character.
    match previousChar, nextChar with
    | none, none => false
    | none, some next => isWord next
    | some previous, none => isWord previous
    | some previous, some next => isWord previous != isWord next
  | .previousMatchEnd => position == 0

/-- An anchor takes no character. -/
def processAnchorTransition (originalInput : List Nat) (matchState : MatchState)
    (toStateId : Nat) (anchor : Anchor) : Option TransitionResult :=
  if anchor.type.test originalInput matchState.inputPosition then
    some { offset := 0, toStateId }
  else none

/-- The anchor at the start takes no character either. -/
def processStartOfStringAnchorTransition (matchState : MatchState) (toStateId : Nat) :
    Option TransitionResult :=
  if matchState.inputPosition = 0 then some { offset := 0, toStateId } else none

/-- Entering a group: its range restarts at the position, in place if the
    group was entered before, else at the end of the list. -/
def startRange (groupNumber : Nat) (position : Nat) : List Range → List Range
  | [] => [{ groupId := groupNumber, fromPosition := some position, toPosition := none }]
  | range :: rest =>
    if range.groupId = groupNumber then
      { range with fromPosition := some position, toPosition := none } :: rest
    else
      range :: startRange groupNumber position rest

/-- Leaving a group: its range ends at the position. There is no result when
    the group was never entered. -/
def endRange (groupNumber : Nat) (position : Nat) : List Range → Option (List Range)
  | [] => none
  | range :: rest =>
    if range.groupId = groupNumber then
      some ({ range with toPosition := some position } :: rest)
    else
      (endRange groupNumber position rest).map (range :: ·)

/-- A group begins: its range starts here. -/
def processGroupCaptureStartTransition (matchState : MatchState) (toStateId : Nat)
    (groupNumber : Nat) : Option TransitionResult × MatchState :=
  (some { offset := 0, toStateId },
    { matchState with
      groupRanges :=
        some (startRange groupNumber matchState.inputPosition (matchState.groupRanges.getD [])) })

/-- A group ends: its range ends here. -/
def processGroupCaptureEndTransition (matchState : MatchState) (toStateId : Nat)
    (groupNumber : Nat) : Option TransitionResult × MatchState :=
  match matchState.groupRanges with
  | none => (none, matchState)
  | some groupRanges =>
    match endRange groupNumber matchState.inputPosition groupRanges with
    | none => (none, matchState)
    | some groupRanges =>
      (some { offset := 0, toStateId }, { matchState with groupRanges := some groupRanges })

/-- A backreference reads the text of a complete range off the input and asks
    the rest of the input to start with it. -/
def processBackreferenceTransition (originalInput : List Nat) (matchState : MatchState)
    (toStateId : Nat) (backreference : Nat) (input : List Nat) :
    Option TransitionResult :=
  match matchState.groupRanges with
  | none => none
  | some groupRanges =>
    match groupRanges.find? (fun groupRange => groupRange.groupId == backreference) with
    | some { groupId := _, fromPosition := some fromPosition, toPosition := some toPosition } =>
      let view := (originalInput.drop fromPosition).take (toPosition - fromPosition)
      if view.isPrefixOf input then some { offset := view.length, toStateId } else none
    -- Without a complete range of the group there is nothing to refer to.
    | _ => none

/-- One transition tried on a configuration, `input` being the rest of the
    original input. A configuration is handed back because the capture
    transitions write to its group ranges. -/
def processTransition (originalInput : List Nat) (matchState : MatchState)
    (toStateId : Nat) (transitionCondition : TransitionConditionType)
    (input : List Nat) (negate : Bool) :
    Except Exception (Option TransitionResult × MatchState) :=
  match transitionCondition with
  | .epsilon => return (some { offset := 0, toStateId }, matchState)
  | .char c => return (processCharTransition toStateId c input negate, matchState)
  | .characterClass c =>
    return (processCharacterClassTransition toStateId c input negate, matchState)
  | .characterRange r =>
    return (processCharacterRangeTransition toStateId r input negate, matchState)
  | .unicodeCategoryName _ => return (← processUnicodeCategoryNameTransition, matchState)
  -- A group is told by its own modifier whether it is negated.
  | .characterGroup g => return (← processCharacterGroupTransition toStateId g input, matchState)
  -- No look at the rest of the input here, unlike in every other reading transition.
  | .matchAnyCharacter => return (some { offset := 1, toStateId }, matchState)
  | .anchor a => return (processAnchorTransition originalInput matchState toStateId a, matchState)
  | .startOfStringAnchor =>
    return (processStartOfStringAnchorTransition matchState toStateId, matchState)
  | .groupCaptureStart n => return processGroupCaptureStartTransition matchState toStateId n
  | .groupCaptureEnd n => return processGroupCaptureEndTransition matchState toStateId n
  | .backreference b =>
    return (processBackreferenceTransition originalInput matchState toStateId b input, matchState)

/-- `u32string_view::substr` from a position to the end. -/
def substr (input : List Nat) (position : Nat) : Except Exception (List Nat) :=
  if position ≤ input.length then return input.drop position else throw .outOfRange

/-- One round of the loop over the transitions of a state: the configuration
    to push, if the transition is permitted. -/
def branch (input : List Nat) (matchState : MatchState) (transition : Transition) :
    Except Exception (Option MatchState) := do
  let rest ← substr input matchState.inputPosition
  match ← processTransition input matchState transition.toState transition.condition rest false with
  | (none, _) => return none
  | (some result, branchState) =>
    return some { branchState with
      inputPosition := branchState.inputPosition + result.offset
      currentStateId := result.toStateId }

/-- The loop over the transitions of a state: the configurations to push. -/
def branches (input : List Nat) (matchState : MatchState) :
    List Transition → Except Exception (List MatchState)
  | [] => return []
  | transition :: rest => do
    let branchState ← branch input matchState transition
    let more ← branches input matchState rest
    return branchState.toList ++ more

/-- What the visited set holds of a configuration. -/
abbrev VisitedKey := Nat × Nat × List Range

/-- What states are told apart by. -/
def MatchState.visitedKey (matchState : MatchState) : VisitedKey :=
  (matchState.currentStateId, matchState.inputPosition, matchState.groupRanges.getD [])

/-- The range has both its ends. -/
def Range.isComplete (range : Range) : Bool :=
  range.fromPosition.isSome && range.toPosition.isSome

/-- The result built from the configuration that reached the accept state. -/
def acceptResult (startPosition : Nat) (matchState : MatchState) : MatchResult :=
  { groupRanges :=
      { groupId := 0, fromPosition := some startPosition,
        toPosition := some matchState.inputPosition } ::
        (matchState.groupRanges.getD []).filter Range.isComplete }

/-- The two containers the search loop works on. -/
structure SearchState where
  statesToProcess : List MatchState
  visitedStates : List VisitedKey
deriving DecidableEq, Repr

/-- One round of the search loop: the search goes on, returns, or throws. -/
inductive SearchOutcome where
  | next (state : SearchState)
  | done (result : Except Exception (Option MatchResult))
deriving Repr

/-- One round of the loop of `match_one`. -/
def searchStep (matcher : Matcher) (input : List Nat) (startPosition : Nat)
    (search : SearchState) : SearchOutcome :=
  match search.statesToProcess with
  | [] => .done (.ok none)
  | current :: queue =>
    -- A configuration may be pushed more than once, but is only expanded the first time.
    if current.visitedKey ∈ search.visitedStates then
      .next { search with statesToProcess := queue }
    else if current.currentStateId = matcher.regexNfaElement.accept then
      .done (.ok (some (acceptResult startPosition current)))
    else
      match matcher.states[current.currentStateId]? with
      | none => .done (.error .outOfRange)
      | some state =>
        match branches input current state.transitions with
        | .error e => .done (.error e)
        | .ok pushed =>
          .next {
            -- The queue is first in, first out, so the search goes breadth first.
            statesToProcess := queue ++ pushed
            visitedStates := current.visitedKey :: search.visitedStates }

/-- The search loop, with a bound on its rounds; none if the bound is hit. -/
def searchLoop (matcher : Matcher) (input : List Nat) (startPosition : Nat) :
    Nat → SearchState → Option (Except Exception (Option MatchResult))
  | 0, _ => none
  | fuel + 1, search =>
    match searchStep matcher input startPosition search with
    | .done result => some result
    | .next search => searchLoop matcher input startPosition fuel search

/-- The search from a position, before its first round. -/
def initialSearch (matcher : Matcher) (startPosition : Nat) : SearchState :=
  { statesToProcess :=
      [{ inputPosition := startPosition, currentStateId := matcher.regexNfaElement.start }]
    visitedStates := [] }

/-- The group numbers that entering transitions can record. -/
def captureNumbers (states : List State) : List Nat :=
  states.flatMap fun state => state.transitions.filterMap fun transition =>
    match transition.condition with
    | .groupCaptureStart n => some n
    | _ => none

/-- More rounds than any search can take: every configuration is expanded at
    most once, a capture list names each group at most once, and a position is
    at most one past the input. -/
def searchFuel (matcher : Matcher) (input : List Nat) : Nat :=
  let groups := (captureNumbers matcher.states).length
  let positions := input.length + 2
  let captureLists := (groups * (positions + 1) * (positions + 1) + 1) ^ groups
  let transitions := (matcher.states.map fun state => state.transitions.length).sum
  2 + (matcher.states.length + 1) * (positions * captureLists) * (transitions + 1)

/-- `match_one_from`. The search never runs out of its rounds, so the default
    is never taken. -/
def matchOneFrom (matcher : Matcher) (input : List Nat) (startPosition : Nat) :
    Except Exception (Option MatchResult) :=
  (searchLoop matcher input startPosition (searchFuel matcher input)
    (initialSearch matcher startPosition)).getD (.ok none)

/-- The first match from the start of the input on. -/
def matchOne (matcher : Matcher) (input : List Nat) : Except Exception (Option MatchResult) :=
  matchOneFrom matcher input 0

/-- How far the scan moves on after a match: what the match consumed, or one
    position if that was nothing. -/
def consumedBy (result : MatchResult) : Nat :=
  match result.groupRanges.head? with
  | some { groupId := _, fromPosition := some fromPosition, toPosition := some toPosition } =>
    -- An empty match must not stop the scan.
    if 0 < toPosition - fromPosition then toPosition - fromPosition else 1
  | _ => 1

/-- The scanning loop, from start position `i` on. Its body runs before its
    condition is tested, and `i` grows in every round. -/
def matchAllLoop (matcher : Matcher) (input : List Nat) :
    Nat → Nat → Except Exception (List MatchResult)
  | 0, _ => return []
  | fuel + 1, i => do
    match ← matchOneFrom matcher input i with
    | none =>
      if i + 1 < input.length then matchAllLoop matcher input fuel (i + 1) else return []
    | some result =>
      let next := i + consumedBy result
      if next < input.length then
        return result :: (← matchAllLoop matcher input fuel next)
      else
        return [result]

/-- The matches in the input, one behind the other. -/
def matchAll (matcher : Matcher) (input : List Nat) : Except Exception (List MatchResult) :=
  matchAllLoop matcher input (input.length + 1) 0

end Grep

end CodingChallenges
