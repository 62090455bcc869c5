import CodingChallenges.Grep.Syntax

/-!
# Automaton Construction

The builder of `nfa.cpp`: a regex tree is turned into states and transitions
by appending to one growing vector of states, and every construct hands back
the start and the accept state of the piece it built.

The C++ methods mutate the `Nfa` object they belong to and may throw, so they
are actions of `Builder`, a state monad over `Nfa` with exceptions. The
methods that take a callback rebuilding the quantified element take an action
here. A range quantifier only ever asks `apply_quantifier` for the other three
kinds, which is the branch `applyPlainQuantifier`, so the mutual recursion of
the two C++ methods unfolds into two definitions.

The recursion over the tree is structural. `buildGroupBody` therefore receives
the action that builds the inner expression in place of the expression, and a
range loop is a recursion on the number of rounds left. State and group
identifiers are natural numbers.

## Main definitions

* `TransitionConditionType`: What a transition asks of the input.
* `Nfa`: The states built so far and the two counters.
* `applyQuantifier`, `applyRangeQuantifier`: Repetition.
* `buildExpression`, `buildGroup`: The recursion over the tree.
* `buildRegex`: The automaton of a whole pattern.
-/

namespace CodingChallenges

namespace Grep

/-- The exceptions the regex engine can raise. -/
inductive Exception where
  | outOfRange
  | runtimeError (message : String)
  | invalidArgument (message : String)
deriving DecidableEq, Repr

/-- What a transition asks of the input. -/
inductive TransitionConditionType where
  | char (c : Nat)
  | characterClass (c : CharacterClass)
  | characterRange (r : CharacterRange)
  | unicodeCategoryName (n : UnicodeCategoryName)
  | characterGroup (g : CharacterGroup)
  | matchAnyCharacter
  | anchor (a : Anchor)
  | startOfStringAnchor
  | groupCaptureStart (groupNumber : Nat)
  | groupCaptureEnd (groupNumber : Nat)
  | backreference (b : Nat)
  | epsilon
deriving DecidableEq, Repr

/-- An edge of the automaton. -/
structure Transition where
  toState : Nat
  condition : TransitionConditionType
deriving DecidableEq, Repr

/-- A state and the edges that leave it. -/
structure State where
  id : Nat
  transitions : List Transition := []
deriving DecidableEq, Repr

/-- The entry and the exit of a piece of the automaton. -/
structure NfaElement where
  start : Nat
  accept : Nat
deriving DecidableEq, Repr

/-- The automaton under construction. -/
structure Nfa where
  currentId : Nat := 0
  currentGroupId : Nat := 1
  states : List State := []
deriving DecidableEq, Repr

/-- A method of the builder: it may change the automaton, and may throw. -/
abbrev Builder (α : Type) := StateT Nfa (Except Exception) α

/-- A new state, with the next number. -/
def addNewState : Builder Nat :=
  modifyGet fun nfa =>
    (nfa.currentId,
      { nfa with
        states := nfa.states ++ [{ id := nfa.currentId }]
        currentId := nfa.currentId + 1 })

/-- Append a transition to the state's list. -/
def State.withTransition (state : State) (transition : Transition) : State :=
  { state with transitions := state.transitions ++ [transition] }

/-- A new edge between two states. -/
def addTransition (source target : Nat) (condition : TransitionConditionType) :
    Builder Unit :=
  modify fun nfa =>
    { nfa with states := nfa.states.modify source (·.withTransition ⟨target, condition⟩) }

/-- Two states with an edge between them. -/
def buildBasicElement (condition : TransitionConditionType) : Builder NfaElement := do
  let start ← addNewState
  let accept ← addNewState
  addTransition start accept condition
  return { start, accept }

/-- One element behind another. -/
def concatenate (first second : NfaElement) : Builder NfaElement := do
  addTransition first.accept second.start .epsilon
  return { start := first.start, accept := second.accept }

/-- The branches of `apply_quantifier` other than the range branch. -/
def applyPlainQuantifier (element : NfaElement) (type : QuantifierType) (lazyModifier : Bool) :
    Builder NfaElement :=
  match type with
  | .zeroOrMore => do
    let loopStart ← addNewState
    let loopEnd ← addNewState
    if lazyModifier then
      addTransition loopStart loopEnd .epsilon
      addTransition loopStart element.start .epsilon
      addTransition element.accept loopEnd .epsilon
      addTransition element.accept element.start .epsilon
    else
      addTransition loopStart element.start .epsilon
      addTransition loopStart loopEnd .epsilon
      addTransition element.accept element.start .epsilon
      addTransition element.accept loopEnd .epsilon
    return { start := loopStart, accept := loopEnd }
  | .oneOrMore => do
    let loopEnd ← addNewState
    if lazyModifier then
      addTransition element.accept loopEnd .epsilon
      addTransition element.accept element.start .epsilon
    else
      addTransition element.accept element.start .epsilon
      addTransition element.accept loopEnd .epsilon
    return { start := element.start, accept := loopEnd }
  | .zeroOrOne => do
    let start ← addNewState
    let accept ← addNewState
    if lazyModifier then
      addTransition start accept .epsilon
      addTransition start element.start .epsilon
    else
      addTransition start element.start .epsilon
      addTransition start accept .epsilon
    addTransition element.accept accept .epsilon
    return { start, accept }
  | .range => return { start := 0, accept := 0 }

/-- The loop that appends `count` further copies to `previous`. -/
def concatenateCopies (buildOneElement : Builder NfaElement) :
    Nat → NfaElement → Builder NfaElement
  | 0, previous => return previous
  | count + 1, previous => do
    let next ← buildOneElement
    let next ← concatenate previous next
    concatenateCopies buildOneElement count next

/-- The loop of `add_upper_bound`: `count` further copies, each one optional. -/
def addUpperBound (buildOneElement : Builder NfaElement) (lazyModifier : Bool) :
    Nat → NfaElement → Builder NfaElement
  | 0, previous => return previous
  | count + 1, previous => do
    let next ← buildOneElement
    let nextAfterQuantifier ← applyPlainQuantifier next .zeroOrOne lazyModifier
    let result ← concatenate previous nextAfterQuantifier
    addUpperBound buildOneElement lazyModifier count result

/-- `apply_range_quantifier`. -/
def applyRangeQuantifier (rangeQuantifier : RangeQuantifier) (lazyModifier : Bool)
    (buildOneElement : Builder NfaElement) : Builder NfaElement :=
  if rangeQuantifier.lowerBound = 0 then
    if rangeQuantifier.upperBound = some 0 then
      buildBasicElement .epsilon
    else if rangeQuantifier.exactlyLowerBoundTimes then
      buildBasicElement .epsilon
    else
      match rangeQuantifier.upperBound with
      | none => do
        let zeroOrMoreElement ← buildOneElement
        applyPlainQuantifier zeroOrMoreElement .zeroOrMore lazyModifier
      | some upperBound => do
        let element ← buildBasicElement .epsilon
        addUpperBound buildOneElement lazyModifier upperBound element
  else do
    let first ← buildOneElement
    let previous ← concatenateCopies buildOneElement (rangeQuantifier.lowerBound - 1) first
    match rangeQuantifier.upperBound with
    | none =>
      if rangeQuantifier.exactlyLowerBoundTimes then
        return previous
      else
        let element ← buildOneElement
        let tailElement ← applyPlainQuantifier element .zeroOrMore lazyModifier
        concatenate previous tailElement
    | some upperBound =>
      -- The difference of two `size_t` would wrap around where this one stops at zero, but no
      -- parser makes an upper bound below the lower one (`RangeQuantifier.WellShaped`).
      addUpperBound buildOneElement lazyModifier (upperBound - rangeQuantifier.lowerBound) previous

/-- `apply_quantifier`. A range may build further copies of the element. -/
def applyQuantifier (element : NfaElement) (quantifier : Quantifier)
    (buildOneElement : Builder NfaElement) : Builder NfaElement :=
  match quantifier.type with
  | .range =>
    match quantifier.rangeQuantifier with
    | none => throw (.invalidArgument "Range quantifier must have a range quantifier value")
    | some rangeQuantifier =>
      applyRangeQuantifier rangeQuantifier quantifier.lazyModifier buildOneElement
  | type => applyPlainQuantifier element type quantifier.lazyModifier

/-- The common shape of `build_match` and `build_group`: an element without
    quantifier, under a range quantifier, or under one of the others. -/
def buildQuantified (quantifier : Option Quantifier) (buildOneElement : Builder NfaElement) :
    Builder NfaElement :=
  match quantifier with
  | none => buildOneElement
  | some quantifier =>
    if quantifier.type = .range then
      applyQuantifier { start := 0, accept := 0 } quantifier buildOneElement
    else do
      let element ← buildOneElement
      applyQuantifier element quantifier buildOneElement

/-- The condition `build_match_item` and the methods it dispatches to put on
    the one transition they build. -/
def MatchItem.condition : MatchItem → TransitionConditionType
  | .character c => .char c
  | .characterClass (.characterGroup g) => .characterGroup g
  | .characterClass (.characterClass c) => .characterClass c
  | .characterClass (.unicodeCategory c) => .unicodeCategoryName c.categoryName
  | .anyCharacter => .matchAnyCharacter

/-- The element of an item that matches one character. -/
def buildMatchItem (item : MatchItem) : Builder NfaElement :=
  buildBasicElement item.condition

/-- The element of an item with its quantifier. -/
def buildMatch (m : Match) : Builder NfaElement :=
  buildQuantified m.quantifier (buildMatchItem m.matchItem)

/-- `build_group_body`, with the action that builds the group's expression (or
    none for a null expression). -/
def buildGroupBody (nonCapturingModifier : Bool) (expression : Option (Builder NfaElement))
    (groupId : Nat) : Builder NfaElement :=
  if nonCapturingModifier then
    expression.getD (buildBasicElement .epsilon)
  else do
    let groupCaptureStart ← addNewState
    let groupCaptureEnd ← addNewState
    let element ← expression.getD (buildBasicElement .epsilon)
    addTransition groupCaptureStart element.start (.groupCaptureStart groupId)
    addTransition element.accept groupCaptureEnd (.groupCaptureEnd groupId)
    return { start := groupCaptureStart, accept := groupCaptureEnd }

/-- The group number a group is given, advancing the counter for a capturing
    one. -/
def takeGroupId (nonCapturingModifier : Bool) : Builder Nat :=
  modifyGet fun nfa =>
    (nfa.currentGroupId,
      if nonCapturingModifier then nfa
      else { nfa with currentGroupId := nfa.currentGroupId + 1 })

mutual

/-- A start and an end, with the alternatives between them. -/
def buildExpression : Expression → Builder NfaElement
  | .mk alternatives => do
    let start ← addNewState
    let accept ← addNewState
    buildAlternatives start accept alternatives
    return { start, accept }

/-- The loop of `build_expression` over the alternatives. -/
def buildAlternatives (start accept : Nat) : List SubExpression → Builder Unit
  | [] => return ()
  | alternative :: rest => do
    let element ← buildSubExpression alternative
    addTransition start element.start .epsilon
    addTransition element.accept accept .epsilon
    buildAlternatives start accept rest

/-- The elements of a sequence, one behind the other. -/
def buildSubExpression : SubExpression → Builder NfaElement
  | .mk [] => buildBasicElement .epsilon
  | .mk (first :: rest) => do
    let element ← buildSubExpressionItem first
    buildItems element rest

/-- The loop of `build_sub_expression` over the items after the first. -/
def buildItems (first : NfaElement) : List SubExpressionItem → Builder NfaElement
  | [] => return first
  | item :: rest => do
    let next ← buildSubExpressionItem item
    let first ← concatenate first next
    buildItems first rest

/-- The element of an item of a sequence. -/
def buildSubExpressionItem : SubExpressionItem → Builder NfaElement
  | .singleMatch m => buildMatch m
  | .group g => buildGroup g
  | .anchor a => buildBasicElement (.anchor a)
  | .backreference b => buildBasicElement (.backreference b)

/-- The element of a group, which takes its number first. -/
def buildGroup : Group → Builder NfaElement
  | .mk nonCapturingModifier none quantifier => do
    let currentGroupId ← takeGroupId nonCapturingModifier
    buildQuantified quantifier (buildGroupBody nonCapturingModifier none currentGroupId)
  | .mk nonCapturingModifier (some expression) quantifier => do
    let currentGroupId ← takeGroupId nonCapturingModifier
    buildQuantified quantifier
      (buildGroupBody nonCapturingModifier (some (buildExpression expression)) currentGroupId)

end

/-- The element of the whole regex. -/
def buildRegex (regex : Regex) : Builder NfaElement :=
  if regex.startOfStringAnchor then do
    let anchorElement ← buildBasicElement .startOfStringAnchor
    let expressionElement ← buildExpression regex.expression
    concatenate anchorElement expressionElement
  else
    buildExpression regex.expression

end Grep

end CodingChallenges
