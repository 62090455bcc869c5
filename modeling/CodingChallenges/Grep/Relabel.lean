import CodingChallenges.Grep.Planning

/-!
# Relabelling

Exchanging the leaves of a tree, and what that does to its automaton.

The builder copies the condition of each leaf into a transition and looks at
nothing else of it. So exchanging leaves for others changes the conditions of
the automaton and nothing else: the states, the targets, and the group numbers
stay as they are. A `Relabelling` says what becomes of a leaf and of a
condition; it carries the proof that the two agree, and that the conditions the
builder adds on its own are kept.

The proof goes through the two stages of the construction: planning commutes
with relabelling (`planRegex_relabel`), and so does assembling
(`assemble_relabel`).

## Main definitions

* `Relabelling`: What becomes of leaves and of conditions.
* `Regex.relabel`, `Plan.relabel`, `relabelStates`: Trees, plans, and states.

## Theorems

* `planRegex_relabel`, `assemble_relabel`: The two stages.
* `buildRegex_relabel`: The automaton of a relabelled tree.
-/

namespace CodingChallenges

namespace Grep

/-- What becomes of the leaves of a tree and of the conditions they turn
    into. -/
structure Relabelling where
  onMatchItem : MatchItem → MatchItem
  onAnchor : Anchor → Anchor
  onCondition : TransitionConditionType → TransitionConditionType
  matchItem : ∀ item, onCondition item.condition = (onMatchItem item).condition
  anchor : ∀ a, onCondition (.anchor a) = .anchor (onAnchor a)
  backreference : ∀ b, onCondition (.backreference b) = .backreference b
  epsilon : onCondition .epsilon = .epsilon
  startOfStringAnchor : onCondition .startOfStringAnchor = .startOfStringAnchor
  captureStart : ∀ g, onCondition (.groupCaptureStart g) = .groupCaptureStart g
  captureEnd : ∀ g, onCondition (.groupCaptureEnd g) = .groupCaptureEnd g

section Trees

variable (R : Relabelling)

mutual

/-- The tree with its leaves exchanged. -/
def Expression.relabel : Expression → Expression
  | .mk alternatives => .mk (Expression.relabelAlternatives alternatives)

/-- The alternatives, each of them relabelled. -/
def Expression.relabelAlternatives : List SubExpression → List SubExpression
  | [] => []
  | alternative :: rest => alternative.relabel :: Expression.relabelAlternatives rest

/-- An alternative with its items relabelled. -/
def SubExpression.relabel : SubExpression → SubExpression
  | .mk items => .mk (SubExpression.relabelItems items)

/-- The items of an alternative, each of them relabelled. -/
def SubExpression.relabelItems : List SubExpressionItem → List SubExpressionItem
  | [] => []
  | item :: rest => item.relabel :: SubExpression.relabelItems rest

/-- Only matches and anchors carry something to relabel. -/
def SubExpressionItem.relabel : SubExpressionItem → SubExpressionItem
  | .singleMatch m => .singleMatch { m with matchItem := R.onMatchItem m.matchItem }
  | .group g => .group g.relabel
  | .anchor a => .anchor (R.onAnchor a)
  | .backreference b => .backreference b

/-- A group keeps its modifier and its quantifier. -/
def Group.relabel : Group → Group
  | .mk nonCapturingModifier none quantifier => .mk nonCapturingModifier none quantifier
  | .mk nonCapturingModifier (some expression) quantifier =>
    .mk nonCapturingModifier (some expression.relabel) quantifier

end

/-- A regex keeps its flag for the start of the string. -/
def Regex.relabel (regex : Regex) : Regex :=
  { regex with expression := regex.expression.relabel R }

mutual

/-- The plan with its conditions exchanged. -/
def Plan.relabel : Plan → Plan
  | .basic condition => .basic (R.onCondition condition)
  | .concat first second => .concat first.relabel second.relabel
  | .star lazyModifier body => .star lazyModifier body.relabel
  | .plus lazyModifier body => .plus lazyModifier body.relabel
  | .option lazyModifier body => .option lazyModifier body.relabel
  | .capture groupId body => .capture groupId body.relabel
  | .alternation alternatives => .alternation (Plan.relabelAlternatives alternatives)

/-- The plans of the alternatives, each of them relabelled. -/
def Plan.relabelAlternatives : List Plan → List Plan
  | [] => []
  | alternative :: rest => alternative.relabel :: Plan.relabelAlternatives rest

end

/-- A transition keeps its target. -/
def Transition.relabel (transition : Transition) : Transition :=
  { transition with condition := R.onCondition transition.condition }

/-- A state keeps its number. -/
def State.relabel (state : State) : State :=
  { state with transitions := state.transitions.map (Transition.relabel R) }

/-- The states with their conditions exchanged. -/
def relabelStates (states : List State) : List State :=
  states.map (State.relabel R)

end Trees

section Planning

variable {R : Relabelling}

/-- The action plans what the other one plans, relabelled. -/
def Relabels (R : Relabelling) (plan' plan : Planner Plan) : Prop :=
  ∀ groupId, plan'.run groupId = (plan.run groupId).map (fun r => (r.1.relabel R, r.2))

theorem Relabels.pure (R : Relabelling) (plan : Plan) :
    Relabels R (pure (plan.relabel R)) (pure plan) := fun _ => rfl

theorem Relabels.bind {plan' plan : Planner Plan} {next' next : Plan → Planner Plan}
    (h : Relabels R plan' plan)
    (hnext : ∀ first, Relabels R (next' (first.relabel R)) (next first)) :
    Relabels R (plan' >>= next') (plan >>= next) := by
  intro groupId
  rw [StateT.run_bind, StateT.run_bind, h groupId]
  cases plan.run groupId with
  | error e => rfl
  | ok r => exact hnext r.1 r.2

theorem Copy.wrap_relabel (copy : Copy) (body : Plan) :
    (copy.wrap body).relabel R = copy.wrap (body.relabel R) := by
  cases copy <;> rfl

section Loops

variable {one' one : Planner Plan} (h : Relabels R one' one)
include h

theorem relabels_row (copies : List Copy) : ∀ previous,
    Relabels R (planRow one' copies (previous.relabel R)) (planRow one copies previous) := by
  induction copies with
  | nil => exact fun previous => Relabels.pure R previous
  | cons copy copies ih =>
      refine fun previous => h.bind fun next => ?_
      rw [← Copy.wrap_relabel]
      exact ih (.concat previous (copy.wrap next))

/-- A quantifier adds copies of its operand and epsilons, which are kept. -/
theorem relabels_quantified (quantifier : Option Quantifier) :
    Relabels R (planQuantified quantifier one') (planQuantified quantifier one) := by
  cases hunrolling : unrolling quantifier with
  | none =>
      rcases range_of_unrolling_eq_none hunrolling with ⟨lazyModifier, rfl⟩
      exact fun _ => rfl
  | some u =>
      rw [planQuantified_eq one' hunrolling, planQuantified_eq one hunrolling]
      cases u with
      | behindEpsilon copies =>
          have hrow := relabels_row h copies (.basic .epsilon)
          rw [Plan.relabel, R.epsilon] at hrow
          exact hrow
      | inRow first others =>
          refine h.bind fun body => ?_
          rw [← Copy.wrap_relabel]
          exact relabels_row h others (first.wrap body)

end Loops

theorem relabels_groupBody (nonCapturingModifier : Bool) (body' body : Option (Planner Plan))
    (groupId : Nat)
    (h : Relabels R (body'.getD (return .basic .epsilon)) (body.getD (return .basic .epsilon))) :
    Relabels R (planGroupBody nonCapturingModifier body' groupId)
      (planGroupBody nonCapturingModifier body groupId) := by
  refine h.bind fun plan => ?_
  cases nonCapturingModifier with
  | true => exact Relabels.pure R plan
  | false => exact Relabels.pure R (.capture groupId plan)

theorem relabels_basic {condition' condition : TransitionConditionType}
    (h : R.onCondition condition = condition') :
    Relabels R (return .basic condition') (return .basic condition) := by
  have hpure := Relabels.pure R (.basic condition)
  rw [Plan.relabel, h] at hpure
  exact hpure

mutual

theorem planExpression_relabel : ∀ expression : Expression,
    Relabels R (planExpression (expression.relabel R)) (planExpression expression)
  | .mk alternatives => by
      intro groupId
      rw [Expression.relabel, planExpression, planExpression, StateT.run_bind, StateT.run_bind,
        planAlternatives_relabel alternatives groupId]
      cases (planAlternatives alternatives).run groupId with
      | error e => rfl
      | ok r => rfl

theorem planAlternatives_relabel : ∀ (alternatives : List SubExpression) (groupId : Nat),
    (planAlternatives (Expression.relabelAlternatives R alternatives)).run groupId
      = ((planAlternatives alternatives).run groupId).map
          (fun r => (Plan.relabelAlternatives R r.1, r.2))
  | [], _ => rfl
  | alternative :: rest, groupId => by
      rw [Expression.relabelAlternatives, planAlternatives, planAlternatives, StateT.run_bind,
        StateT.run_bind, planSubExpression_relabel alternative groupId]
      cases (planSubExpression alternative).run groupId with
      | error e => rfl
      | ok r =>
          -- The counter that the first alternative leaves is the same for both trees.
          simp only [map_ok, ok_bind, StateT.run_bind]
          rw [planAlternatives_relabel rest r.2]
          cases (planAlternatives rest).run r.2 with
          | error e => rfl
          | ok r' => rfl

theorem planSubExpression_relabel : ∀ subExpression : SubExpression,
    Relabels R (planSubExpression (subExpression.relabel R)) (planSubExpression subExpression)
  | .mk [] => relabels_basic R.epsilon
  | .mk (first :: rest) =>
      (planSubExpressionItem_relabel first).bind fun plan => planItems_relabel rest plan

theorem planItems_relabel : ∀ (items : List SubExpressionItem) (first : Plan),
    Relabels R (planItems (first.relabel R) (SubExpression.relabelItems R items))
      (planItems first items)
  | [], first => Relabels.pure R first
  | item :: rest, first =>
      (planSubExpressionItem_relabel item).bind fun next =>
        planItems_relabel rest (.concat first next)

theorem planSubExpressionItem_relabel : ∀ item : SubExpressionItem,
    Relabels R (planSubExpressionItem (item.relabel R)) (planSubExpressionItem item)
  | .singleMatch m => relabels_quantified (relabels_basic (R.matchItem m.matchItem)) m.quantifier
  | .group g => planGroup_relabel g
  | .anchor a => relabels_basic (R.anchor a)
  | .backreference b => relabels_basic (R.backreference b)

theorem planGroup_relabel : ∀ group : Group,
    Relabels R (planGroup (group.relabel R)) (planGroup group)
  | .mk nonCapturingModifier none quantifier => by
      intro groupId
      rw [Group.relabel, planGroup, StateT.run_bind]
      exact relabels_quantified (relabels_groupBody nonCapturingModifier none none groupId
        (relabels_basic R.epsilon)) quantifier _
  | .mk nonCapturingModifier (some expression) quantifier => by
      intro groupId
      rw [Group.relabel, planGroup, planGroup, StateT.run_bind, StateT.run_bind]
      exact relabels_quantified (relabels_groupBody nonCapturingModifier (some _) (some _) groupId
        (planExpression_relabel expression)) quantifier _

end

/-- Planning commutes with relabelling. -/
theorem planRegex_relabel (regex : Regex) :
    Relabels R (planRegex (regex.relabel R)) (planRegex regex) := by
  refine (planExpression_relabel regex.expression).bind fun plan => ?_
  have hanchor : (regex.relabel R).startOfStringAnchor = regex.startOfStringAnchor := rfl
  rw [hanchor]
  cases regex.startOfStringAnchor with
  | false => exact Relabels.pure R plan
  | true =>
      have hpure := Relabels.pure R (.concat (.basic .startOfStringAnchor) plan)
      rw [Plan.relabel, Plan.relabel, R.startOfStringAnchor] at hpure
      exact hpure

end Planning

section Assembling

variable {R : Relabelling}

@[simp] theorem length_relabelStates (states : List State) :
    (relabelStates R states).length = states.length :=
  List.length_map _

theorem newState_relabel (states : List State) :
    newState (relabelStates R states) = relabelStates R (newState states) := by
  unfold newState
  rw [length_relabelStates, relabelStates, relabelStates, List.map_append]
  rfl

theorem link_relabel {condition' condition : TransitionConditionType}
    (h : R.onCondition condition = condition') (states : List State) (source target : Nat) :
    link (relabelStates R states) source target condition'
      = relabelStates R (link states source target condition) := by
  subst h
  have hstate : ∀ state : State,
      (state.withTransition ⟨target, condition⟩).relabel R
        = (state.relabel R).withTransition ⟨target, R.onCondition condition⟩ := by
    intro state
    simp only [State.relabel, State.withTransition, List.map_append]
    rfl
  -- State by state: only the source gets a transition, before or after its relabelling.
  refine List.ext_getElem? fun q => ?_
  simp only [link, relabelStates, List.getElem?_map, List.getElem?_modify]
  cases states[q]? with
  | none => rfl
  | some state =>
      by_cases hq : source = q
      · simp only [if_pos hq, Option.map_eq_map, Option.map_some, hstate]
      · simp only [if_neg hq, Option.map_eq_map, Option.map_some]

theorem fork_relabel (states : List State) (source first second : Nat) (lazyModifier : Bool) :
    fork (relabelStates R states) source first second lazyModifier
      = relabelStates R (fork states source first second lazyModifier) := by
  unfold fork
  cases lazyModifier <;>
  · simp only [Bool.false_eq_true, if_true, if_false, link_relabel R.epsilon]

mutual

/-- Assembling commutes with relabelling. -/
theorem assemble_relabel : ∀ (plan : Plan) (states : List State),
    (plan.relabel R).assemble (relabelStates R states)
      = ((plan.assemble states).1, relabelStates R (plan.assemble states).2)
  | .basic condition, states => by
      have hcondition : R.onCondition condition = R.onCondition condition := rfl
      simp only [Plan.relabel, Plan.assemble, newState_relabel, link_relabel hcondition,
        length_relabelStates]
  -- The parts are relabelled one after the other, as they are assembled.
  | .concat first second, states => by
      simp only [Plan.relabel, Plan.assemble]
      rw [assemble_relabel first states]
      simp only
      rw [assemble_relabel second]
      simp only [link_relabel R.epsilon]
  | .star lazyModifier body, states => by
      simp only [Plan.relabel, Plan.assemble]
      rw [assemble_relabel body states]
      simp only [newState_relabel, fork_relabel, length_relabelStates]
  | .plus lazyModifier body, states => by
      simp only [Plan.relabel, Plan.assemble]
      rw [assemble_relabel body states]
      simp only [newState_relabel, fork_relabel, length_relabelStates]
  | .option lazyModifier body, states => by
      simp only [Plan.relabel, Plan.assemble]
      rw [assemble_relabel body states]
      simp only [newState_relabel, fork_relabel, link_relabel R.epsilon, length_relabelStates]
  | .capture groupId body, states => by
      simp only [Plan.relabel, Plan.assemble, newState_relabel]
      rw [assemble_relabel body]
      simp only [link_relabel (R.captureStart groupId), link_relabel (R.captureEnd groupId),
        length_relabelStates]
  | .alternation alternatives, states => by
      simp only [Plan.relabel, Plan.assemble, newState_relabel, length_relabelStates]
      rw [assembleAlternatives_relabel alternatives]

theorem assembleAlternatives_relabel : ∀ (alternatives : List Plan) (start accept : Nat)
    (states : List State),
    Plan.assembleAlternatives start accept (Plan.relabelAlternatives R alternatives)
        (relabelStates R states)
      = relabelStates R (Plan.assembleAlternatives start accept alternatives states)
  | [], _, _, _ => rfl
  | alternative :: rest, start, accept, states => by
      simp only [Plan.relabelAlternatives, Plan.assembleAlternatives]
      rw [assemble_relabel alternative states]
      simp only [link_relabel R.epsilon]
      rw [assembleAlternatives_relabel rest]

end

/-- The automaton of a relabelled tree is the relabelled automaton. -/
theorem buildRegex_relabel {regex : Regex} {element : NfaElement} {nfa : Nfa}
    (h : (buildRegex regex).run {} = .ok (element, nfa)) :
    (buildRegex (regex.relabel R)).run {}
      = .ok (element, { nfa with states := relabelStates R nfa.states }) := by
  rw [buildRegex_eq, map_eq_ok] at h
  rcases h with ⟨result, hrun, heq⟩
  have hnil : relabelStates R [] = [] := rfl
  have hassemble := assemble_relabel (R := R) result.1 []
  rw [hnil] at hassemble
  simp only [assembled, Prod.mk.injEq] at heq
  rcases heq with ⟨rfl, rfl⟩
  rw [buildRegex_eq, planRegex_relabel regex 1, hrun, map_ok, map_ok, assembled, hassemble]
  simp only [Nfa.ofStates, length_relabelStates]

end Assembling

end Grep

end CodingChallenges
