import CodingChallenges.Library.Outcomes
import CodingChallenges.Grep.Nfa

/-!
# Construction Plans

Automaton construction in two stages.

The builder does two things at once: it walks the tree, counting groups and
unrolling range quantifiers, and it appends states and transitions. Nothing it
does to the states depends on the group counter and nothing it does to the
counter depends on the states, so the two can be told apart. A `Plan` is what
is left of a tree once the groups are numbered and the ranges unrolled: seven
constructs, each of which adds a fixed pattern of states and transitions.

`planExpression` and its companions run the first stage, `Plan.assemble` the
second, and `buildRegex_eq` says that together they are the builder. What an
automaton means is then an induction over plans, which knows no counters and
no range quantifiers, and how groups are numbered is a matter of trees and
plans, which know no states.

`Implements` is the relation between a builder action and a planner action
that the proof carries through the tree. The loops of the range quantifiers
keep the element built so far in hand, so their lemmas are stated from the
middle, with a plan already assembled.

## Main definitions

* `Plan`: A tree with numbered groups and unrolled ranges.
* `Plan.assemble`: The states a plan adds, and its element.
* `planRegex`: The plan of a pattern.
* `Plan.Forall`: A predicate holds of every condition a plan was given.
* `Implements`: A builder action assembles what a planner action plans.

## Theorems

* `implements_buildQuantified`: Quantifiers, with their loops.
* `implements_buildExpression`: The recursion over the tree.
* `implements_buildRegex`, `buildRegex_eq`: The builder assembles the plan of the pattern.
-/

namespace CodingChallenges

namespace Grep

/-- What the builder is left to do once groups are numbered and range
    quantifiers are unrolled. -/
inductive Plan where
  | basic (condition : TransitionConditionType)
  | concat (first second : Plan)
  | star (lazyModifier : Bool) (body : Plan)
  | plus (lazyModifier : Bool) (body : Plan)
  | option (lazyModifier : Bool) (body : Plan)
  | capture (groupId : Nat) (body : Plan)
  | alternation (alternatives : List Plan)

/-- A state without transitions at the end of the list. -/
def newState (states : List State) : List State :=
  states ++ [{ id := states.length }]

/-- A transition added to one state. -/
def link (states : List State) (source target : Nat) (condition : TransitionConditionType) :
    List State :=
  states.modify source (·.withTransition ⟨target, condition⟩)

/-- Two transitions added to one state, the second one first under `lazy`. -/
def fork (states : List State) (source first second : Nat) (lazyModifier : Bool) :
    List State :=
  if lazyModifier then
    link (link states source second .epsilon) source first .epsilon
  else
    link (link states source first .epsilon) source second .epsilon

@[simp] theorem length_newState (states : List State) :
    (newState states).length = states.length + 1 := by
  simp only [newState, List.length_append, List.length_singleton]

@[simp] theorem length_link (states : List State) (source target : Nat)
    (condition : TransitionConditionType) :
    (link states source target condition).length = states.length := by
  simp only [link, List.length_modify]

@[simp] theorem length_fork (states : List State) (source first second : Nat)
    (lazyModifier : Bool) :
    (fork states source first second lazyModifier).length = states.length := by
  unfold fork
  split <;> simp only [length_link]

mutual

/-- The element of a plan and the states after adding its own. -/
def Plan.assemble : Plan → List State → NfaElement × List State
  | .basic condition, states =>
    let start := states.length
    ({ start, accept := start + 1 },
      link (newState (newState states)) start (start + 1) condition)
  | .concat first second, states =>
    let (e₁, states₁) := first.assemble states
    let (e₂, states₂) := second.assemble states₁
    ({ start := e₁.start, accept := e₂.accept }, link states₂ e₁.accept e₂.start .epsilon)
  | .star lazyModifier body, states =>
    let (e, states₁) := body.assemble states
    let start := states₁.length
    ({ start, accept := start + 1 },
      fork (fork (newState (newState states₁)) start e.start (start + 1) lazyModifier)
        e.accept e.start (start + 1) lazyModifier)
  | .plus lazyModifier body, states =>
    let (e, states₁) := body.assemble states
    ({ start := e.start, accept := states₁.length },
      fork (newState states₁) e.accept e.start states₁.length lazyModifier)
  | .option lazyModifier body, states =>
    let (e, states₁) := body.assemble states
    let start := states₁.length
    ({ start, accept := start + 1 },
      link (fork (newState (newState states₁)) start e.start (start + 1) lazyModifier)
        e.accept (start + 1) .epsilon)
  | .capture groupId body, states =>
    let start := states.length
    let (e, states₁) := body.assemble (newState (newState states))
    ({ start, accept := start + 1 },
      link (link states₁ start e.start (.groupCaptureStart groupId))
        e.accept (start + 1) (.groupCaptureEnd groupId))
  | .alternation alternatives, states =>
    let start := states.length
    ({ start, accept := start + 1 },
      Plan.assembleAlternatives start (start + 1) alternatives (newState (newState states)))

/-- The states after adding those of every alternative. -/
def Plan.assembleAlternatives (start accept : Nat) : List Plan → List State → List State
  | [], states => states
  | alternative :: rest, states =>
    let (e, states₁) := alternative.assemble states
    Plan.assembleAlternatives start accept rest
      (link (link states₁ start e.start .epsilon) e.accept accept .epsilon)

end

/-- The first stage: it moves the group counter, and may throw. -/
abbrev Planner (α : Type) := StateT Nat (Except Exception) α

/-- `count` further copies after `previous`. -/
def planCopies (one : Planner Plan) : Nat → Plan → Planner Plan
  | 0, previous => return previous
  | count + 1, previous => do
    let next ← one
    planCopies one count (.concat previous next)

/-- `count` further optional copies after `previous`. -/
def planUpperBound (one : Planner Plan) (lazyModifier : Bool) : Nat → Plan → Planner Plan
  | 0, previous => return previous
  | count + 1, previous => do
    let next ← one
    planUpperBound one lazyModifier count (.concat previous (.option lazyModifier next))

/-- The plan of `applyRangeQuantifier`. -/
def planRange (rangeQuantifier : RangeQuantifier) (lazyModifier : Bool) (one : Planner Plan) :
    Planner Plan :=
  if rangeQuantifier.lowerBound = 0 then
    -- Both spellings of no round at all make an epsilon, and the operand is not even planned, so
    -- the groups in it get no numbers.
    if rangeQuantifier.upperBound = some 0 then
      return .basic .epsilon
    else if rangeQuantifier.exactlyLowerBoundTimes then
      return .basic .epsilon
    else
      match rangeQuantifier.upperBound with
      | none => return .star lazyModifier (← one)
      -- There is no first copy to go on from, so an epsilon takes its place.
      | some upperBound => planUpperBound one lazyModifier upperBound (.basic .epsilon)
  else do
    -- The copies of the lower bound, each planned anew with groups of its own.
    let first ← one
    let previous ← planCopies one (rangeQuantifier.lowerBound - 1) first
    match rangeQuantifier.upperBound with
    | none =>
      if rangeQuantifier.exactlyLowerBoundTimes then
        return previous
      else
        let next ← one
        return .concat previous (.star lazyModifier next)
    | some upperBound =>
      -- As in `applyRangeQuantifier`, no parser makes an upper bound below the lower one.
      planUpperBound one lazyModifier (upperBound - rangeQuantifier.lowerBound) previous

/-- The plan of an operand with its quantifier, if it has one. -/
def planQuantified (quantifier : Option Quantifier) (one : Planner Plan) : Planner Plan :=
  match quantifier with
  | none => one
  | some quantifier =>
    match quantifier.type with
    | .range =>
      match quantifier.rangeQuantifier with
      | none => throw (.invalidArgument "Range quantifier must have a range quantifier value")
      | some rangeQuantifier => planRange rangeQuantifier quantifier.lazyModifier one
    | .zeroOrMore => return .star quantifier.lazyModifier (← one)
    | .oneOrMore => return .plus quantifier.lazyModifier (← one)
    | .zeroOrOne => return .option quantifier.lazyModifier (← one)

/-- The body of a group, captured under its number unless the group is a non-capturing one. -/
def planGroupBody (nonCapturingModifier : Bool) (expression : Option (Planner Plan))
    (groupId : Nat) : Planner Plan := do
  let body ← expression.getD (return .basic .epsilon)
  return if nonCapturingModifier then body else .capture groupId body

/-- The next number, taken by a capturing group only. -/
def planGroupId (nonCapturingModifier : Bool) : Planner Nat :=
  modifyGet fun groupId => (groupId, if nonCapturingModifier then groupId else groupId + 1)

mutual

/-- The plan of an expression. -/
def planExpression : Expression → Planner Plan
  | .mk alternatives => return .alternation (← planAlternatives alternatives)

/-- The plans of the alternatives, in their order. -/
def planAlternatives : List SubExpression → Planner (List Plan)
  | [] => return []
  | alternative :: rest => do
    let first ← planSubExpression alternative
    let more ← planAlternatives rest
    return first :: more

/-- The plan of a sequence. -/
def planSubExpression : SubExpression → Planner Plan
  | .mk [] => return .basic .epsilon
  | .mk (first :: rest) => do
    let plan ← planSubExpressionItem first
    planItems plan rest

/-- The plans of further items, put behind the first. -/
def planItems (first : Plan) : List SubExpressionItem → Planner Plan
  | [] => return first
  | item :: rest => do
    let next ← planSubExpressionItem item
    planItems (.concat first next) rest

/-- The plan of an item of a sequence. -/
def planSubExpressionItem : SubExpressionItem → Planner Plan
  | .singleMatch m => planQuantified m.quantifier (return .basic m.matchItem.condition)
  | .group g => planGroup g
  | .anchor a => return .basic (.anchor a)
  | .backreference b => return .basic (.backreference b)

/-- The plan of a group, which takes its number first. -/
def planGroup : Group → Planner Plan
  | .mk nonCapturingModifier none quantifier => do
    let groupId ← planGroupId nonCapturingModifier
    planQuantified quantifier (planGroupBody nonCapturingModifier none groupId)
  | .mk nonCapturingModifier (some expression) quantifier => do
    let groupId ← planGroupId nonCapturingModifier
    planQuantified quantifier
      (planGroupBody nonCapturingModifier (some (planExpression expression)) groupId)

end

/-- The plan of a whole regex. -/
def planRegex (regex : Regex) : Planner Plan := do
  let plan ← planExpression regex.expression
  return if regex.startOfStringAnchor then .concat (.basic .startOfStringAnchor) plan else plan

mutual

/-- A predicate holds of every condition a plan was given. -/
def Plan.Forall (P : TransitionConditionType → Prop) : Plan → Prop
  | .basic condition => P condition
  | .concat first second => first.Forall P ∧ second.Forall P
  | .star _ body => body.Forall P
  | .plus _ body => body.Forall P
  | .option _ body => body.Forall P
  | .capture _ body => body.Forall P
  | .alternation alternatives => Plan.ForallAlternatives P alternatives

/-- All conditions in the alternatives are of a kind. -/
def Plan.ForallAlternatives (P : TransitionConditionType → Prop) : List Plan → Prop
  | [] => True
  | alternative :: rest => alternative.Forall P ∧ Plan.ForallAlternatives P rest

end

/-- What a chain of planner actions returned, one action at a time. -/
theorem run_bind_eq_ok {α β : Type} {x : Planner α} {f : α → Planner β} {groupId : Nat}
    {result : β × Nat} :
    (x >>= f).run groupId = .ok result ↔
      ∃ first, x.run groupId = .ok first ∧ (f first.1).run first.2 = .ok result := by
  rw [StateT.run_bind]
  exact bind_eq_ok

theorem run_pure_eq_ok {α : Type} {a : α} {groupId : Nat} {result : α × Nat} :
    (pure a : Planner α).run groupId = .ok result ↔ (a, groupId) = result := by
  rw [StateT.run_pure, pure_eq_ok, Except.ok.injEq]

/-- The automaton with the given states and counter, the next identifier being
    the number of states. -/
def Nfa.ofStates (states : List State) (groupId : Nat) : Nfa :=
  { currentId := states.length, currentGroupId := groupId, states }

/-- What assembling a plan leaves the builder with. -/
def assembled (states : List State) (result : Plan × Nat) : NfaElement × Nfa :=
  ((result.1.assemble states).1, Nfa.ofStates (result.1.assemble states).2 result.2)

/-- A builder action assembles what a planner action plans. -/
def Implements (build : Builder NfaElement) (plan : Planner Plan) : Prop :=
  ∀ states groupId,
    build.run (Nfa.ofStates states groupId) = (plan.run groupId).map (assembled states)

/-- A builder continuation finishes what a planner continuation plans on top of
    a plan already assembled. -/
def Continues (build : NfaElement → Builder NfaElement) (plan : Plan → Planner Plan) : Prop :=
  ∀ states first groupId,
    (build (first.assemble states).1).run (Nfa.ofStates (first.assemble states).2 groupId)
      = ((plan first).run groupId).map (assembled states)

section Primitives

variable (states : List State) (groupId : Nat)

theorem run_addNewState : addNewState.run (Nfa.ofStates states groupId)
    = .ok (states.length, Nfa.ofStates (newState states) groupId) := by
  simp only [Nfa.ofStates, length_newState]
  rfl

theorem run_addTransition (source target : Nat) (condition : TransitionConditionType) :
    (addTransition source target condition).run (Nfa.ofStates states groupId)
      = .ok ((), Nfa.ofStates (link states source target condition) groupId) := by
  simp only [Nfa.ofStates, length_link]
  rfl

theorem run_takeGroupId (nonCapturingModifier : Bool) :
    (takeGroupId nonCapturingModifier).run (Nfa.ofStates states groupId)
      = ((planGroupId nonCapturingModifier).run groupId).map
          (fun r => (r.1, Nfa.ofStates states r.2)) := by
  cases nonCapturingModifier <;> rfl

end Primitives

theorem implements_basic (condition : TransitionConditionType) :
    Implements (buildBasicElement condition) (return .basic condition) := by
  intro states groupId
  simp only [buildBasicElement, StateT.run_bind, run_addNewState, run_addTransition, ok_bind,
    length_newState]
  rfl

theorem Implements.bind {build : Builder NfaElement} {plan : Planner Plan}
    {next : NfaElement → Builder NfaElement} {planNext : Plan → Planner Plan}
    (h : Implements build plan) (hn : Continues next planNext) :
    Implements (build >>= next) (plan >>= planNext) := by
  intro states groupId
  rw [StateT.run_bind, StateT.run_bind, h states groupId]
  cases plan.run groupId with
  | error e => rfl
  | ok r => exact hn states r.1 r.2

theorem continues_star (lazyModifier : Bool) :
    Continues (fun e => applyPlainQuantifier e .zeroOrMore lazyModifier)
      (fun plan => return .star lazyModifier plan) := by
  intro states first groupId
  cases lazyModifier <;>
  · simp only [applyPlainQuantifier, StateT.run_bind, run_addNewState, run_addTransition, ok_bind,
      length_newState, Bool.false_eq_true, if_true, if_false]
    rfl

theorem continues_plus (lazyModifier : Bool) :
    Continues (fun e => applyPlainQuantifier e .oneOrMore lazyModifier)
      (fun plan => return .plus lazyModifier plan) := by
  intro states first groupId
  cases lazyModifier <;>
  · simp only [applyPlainQuantifier, StateT.run_bind, run_addNewState, run_addTransition, ok_bind,
      Bool.false_eq_true, if_true, if_false]
    rfl

theorem continues_option (lazyModifier : Bool) :
    Continues (fun e => applyPlainQuantifier e .zeroOrOne lazyModifier)
      (fun plan => return .option lazyModifier plan) := by
  intro states first groupId
  cases lazyModifier <;>
  · simp only [applyPlainQuantifier, StateT.run_bind, run_addNewState, run_addTransition, ok_bind,
      length_newState, Bool.false_eq_true, if_true, if_false]
    rfl

/-- Joining two assembled plans is assembling their concatenation. -/
theorem run_concatenate (states : List State) (groupId : Nat) (first second : Plan) :
    (concatenate (first.assemble states).1 (second.assemble (first.assemble states).2).1).run
        (Nfa.ofStates (second.assemble (first.assemble states).2).2 groupId)
      = .ok (assembled states (.concat first second, groupId)) := by
  simp only [concatenate, StateT.run_bind, run_addTransition, ok_bind]
  rfl

section Loops

variable {build : Builder NfaElement} {plan : Planner Plan} (h : Implements build plan)
include h

theorem continues_copies (count : Nat) :
    Continues (concatenateCopies build count) (planCopies plan count) := by
  -- The copies made so far are `first`, and each round puts one more behind it.
  induction count with
  | zero => exact fun _ _ _ => rfl
  | succ k ih =>
      intro states first groupId
      simp only [concatenateCopies, planCopies, StateT.run_bind]
      rw [h (first.assemble states).2 groupId]
      cases plan.run groupId with
      | error e => rfl
      | ok r =>
          simp only [map_ok, ok_bind, assembled, run_concatenate]
          exact ih states (.concat first r.1) r.2

theorem continues_upperBound (lazyModifier : Bool) (count : Nat) :
    Continues (addUpperBound build lazyModifier count)
      (planUpperBound plan lazyModifier count) := by
  induction count with
  | zero => exact fun _ _ _ => rfl
  | succ k ih =>
      intro states first groupId
      simp only [addUpperBound, planUpperBound, StateT.run_bind]
      rw [h (first.assemble states).2 groupId]
      cases plan.run groupId with
      | error e => rfl
      | ok r =>
          simp only [map_ok, ok_bind, assembled]
          rw [continues_option lazyModifier (first.assemble states).2 r.1 r.2]
          simp only [StateT.run_pure, pure_eq_ok, map_ok, ok_bind, assembled, run_concatenate]
          exact ih states (.concat first (.option lazyModifier r.1)) r.2

/-- The tail of a quantifier without upper bound, after the copies of its
    lower bound. -/
theorem continues_tail (lazyModifier : Bool) :
    Continues
      (fun previous => do
        let element ← build
        let tailElement ← applyPlainQuantifier element .zeroOrMore lazyModifier
        concatenate previous tailElement)
      (fun previous => do
        let next ← plan
        return .concat previous (.star lazyModifier next)) := by
  intro states first groupId
  simp only [StateT.run_bind]
  rw [h (first.assemble states).2 groupId]
  cases plan.run groupId with
  | error e => rfl
  | ok r =>
      simp only [map_ok, ok_bind, assembled]
      rw [continues_star lazyModifier (first.assemble states).2 r.1 r.2]
      simp only [StateT.run_pure, pure_eq_ok, map_ok, ok_bind, assembled, run_concatenate]

theorem implements_range (rangeQuantifier : RangeQuantifier) (lazyModifier : Bool) :
    Implements (applyRangeQuantifier rangeQuantifier lazyModifier build)
      (planRange rangeQuantifier lazyModifier plan) := by
  unfold applyRangeQuantifier planRange
  by_cases hlower : rangeQuantifier.lowerBound = 0
  · simp only [if_pos hlower]
    by_cases hupper : rangeQuantifier.upperBound = some 0
    · simp only [if_pos hupper]
      exact implements_basic .epsilon
    · simp only [if_neg hupper]
      cases rangeQuantifier.exactlyLowerBoundTimes with
      | true => exact implements_basic .epsilon
      | false =>
          cases rangeQuantifier.upperBound with
          | none => exact h.bind (continues_star lazyModifier)
          | some upperBound =>
              exact (implements_basic .epsilon).bind
                (continues_upperBound h lazyModifier upperBound)
  -- The first copy is built, then the others of the lower bound, then what may follow.
  · simp only [if_neg hlower]
    refine h.bind ?_
    intro states first groupId
    simp only [StateT.run_bind]
    rw [continues_copies h _ states first groupId]
    cases hcopies : (planCopies plan (rangeQuantifier.lowerBound - 1) first).run groupId with
    | error e => rfl
    | ok r =>
        cases rangeQuantifier.upperBound with
        | none =>
            cases rangeQuantifier.exactlyLowerBoundTimes with
            | true => rfl
            | false => exact continues_tail h lazyModifier states r.1 r.2
        | some upperBound =>
            exact continues_upperBound h lazyModifier _ states r.1 r.2

theorem implements_buildQuantified (quantifier : Option Quantifier) :
    Implements (buildQuantified quantifier build) (planQuantified quantifier plan) := by
  cases quantifier with
  | none => exact h
  | some quantifier =>
      rcases quantifier with ⟨type, rangeQuantifier, lazyModifier⟩
      cases type with
      | zeroOrMore => exact h.bind (continues_star lazyModifier)
      | oneOrMore => exact h.bind (continues_plus lazyModifier)
      | zeroOrOne => exact h.bind (continues_option lazyModifier)
      | range =>
          cases rangeQuantifier with
          | none => exact fun _ _ => rfl
          | some rangeQuantifier => exact implements_range h rangeQuantifier lazyModifier

end Loops

theorem implements_groupBody (nonCapturingModifier : Bool) (build : Option (Builder NfaElement))
    (plan : Option (Planner Plan)) (groupId : Nat)
    (h : Implements (build.getD (buildBasicElement .epsilon))
      (plan.getD (return .basic .epsilon))) :
    Implements (buildGroupBody nonCapturingModifier build groupId)
      (planGroupBody nonCapturingModifier plan groupId) := by
  unfold buildGroupBody planGroupBody
  intro states counter
  cases nonCapturingModifier with
  | true =>
      -- A group that captures nothing is its body.
      simp only [if_true, bind_pure]
      exact h states counter
  | false =>
      -- The two states of the group are added before the body is built.
      simp only [Bool.false_eq_true, if_false, StateT.run_bind, run_addNewState, ok_bind]
      rw [h (newState (newState states)) counter]
      cases (plan.getD (return .basic .epsilon)).run counter with
      | error e => rfl
      | ok r =>
          simp only [map_ok, ok_bind, assembled, run_addTransition, length_newState]
          rfl

mutual

theorem implements_buildExpression : ∀ expression : Expression,
    Implements (buildExpression expression) (planExpression expression)
  | .mk alternatives => by
      intro states groupId
      simp only [buildExpression, planExpression, StateT.run_bind, run_addNewState, ok_bind,
        length_newState]
      rw [run_buildAlternatives alternatives]
      cases (planAlternatives alternatives).run groupId with
      | error e => rfl
      | ok r => rfl

theorem run_buildAlternatives : ∀ (alternatives : List SubExpression) (start accept : Nat)
    (states : List State) (groupId : Nat),
    (buildAlternatives start accept alternatives).run (Nfa.ofStates states groupId)
      = ((planAlternatives alternatives).run groupId).map (fun r =>
          ((), Nfa.ofStates (Plan.assembleAlternatives start accept r.1 states) r.2))
  | [], _, _, _, _ => rfl
  | alternative :: rest, start, accept, states, groupId => by
      simp only [buildAlternatives, planAlternatives, StateT.run_bind]
      rw [implements_buildSubExpression alternative states groupId]
      cases (planSubExpression alternative).run groupId with
      | error e => rfl
      | ok r =>
          simp only [map_ok, ok_bind, assembled, run_addTransition]
          rw [run_buildAlternatives rest]
          cases (planAlternatives rest).run r.2 with
          | error e => rfl
          | ok r' => rfl

theorem implements_buildSubExpression : ∀ subExpression : SubExpression,
    Implements (buildSubExpression subExpression) (planSubExpression subExpression)
  | .mk [] => implements_basic .epsilon
  | .mk (first :: rest) =>
      (implements_buildSubExpressionItem first).bind (continues_buildItems rest)

theorem continues_buildItems : ∀ items : List SubExpressionItem,
    Continues (fun first => buildItems first items) (fun first => planItems first items)
  | [] => fun _ _ _ => rfl
  | item :: rest => by
      intro states first groupId
      simp only [buildItems, planItems, StateT.run_bind]
      rw [implements_buildSubExpressionItem item (first.assemble states).2 groupId]
      cases (planSubExpressionItem item).run groupId with
      | error e => rfl
      | ok r =>
          simp only [map_ok, ok_bind, assembled, run_concatenate]
          exact continues_buildItems rest states (.concat first r.1) r.2

theorem implements_buildSubExpressionItem : ∀ item : SubExpressionItem,
    Implements (buildSubExpressionItem item) (planSubExpressionItem item)
  | .singleMatch m => implements_buildQuantified (implements_basic m.matchItem.condition) _
  | .group g => implements_buildGroup g
  | .anchor a => implements_basic (.anchor a)
  | .backreference b => implements_basic (.backreference b)

theorem implements_buildGroup : ∀ group : Group,
    Implements (buildGroup group) (planGroup group)
  | .mk nonCapturingModifier none quantifier => by
      intro states groupId
      simp only [buildGroup, planGroup, StateT.run_bind, run_takeGroupId]
      exact implements_buildQuantified
        (implements_groupBody nonCapturingModifier none none _ (implements_basic .epsilon))
        quantifier states _
  | .mk nonCapturingModifier (some expression) quantifier => by
      intro states groupId
      simp only [buildGroup, planGroup, StateT.run_bind, run_takeGroupId]
      exact implements_buildQuantified
        (implements_groupBody nonCapturingModifier (some _) (some _) _
          (implements_buildExpression expression))
        quantifier states _

end

/-- The builder assembles the plan of the pattern. -/
theorem implements_buildRegex (regex : Regex) :
    Implements (buildRegex regex) (planRegex regex) := by
  intro states groupId
  unfold buildRegex planRegex
  cases regex.startOfStringAnchor with
  | false =>
      simp only [Bool.false_eq_true, if_false, bind_pure]
      exact implements_buildExpression regex.expression states groupId
  | true =>
      simp only [if_true, StateT.run_bind]
      rw [implements_basic .startOfStringAnchor states groupId]
      simp only [StateT.run_pure, pure_eq_ok, map_ok, ok_bind, assembled]
      rw [implements_buildExpression regex.expression]
      cases (planExpression regex.expression).run groupId with
      | error e => rfl
      | ok r => exact run_concatenate states r.2 (.basic .startOfStringAnchor) r.1

/-- The builder, run on the empty automaton. -/
theorem buildRegex_eq (regex : Regex) :
    (buildRegex regex).run {} = ((planRegex regex).run 1).map (assembled []) :=
  implements_buildRegex regex [] 1

end Grep

end CodingChallenges
