import CodingChallenges.Grep.Plan

/-!
# Planning

What planning keeps on its way through a tree.

Whatever a quantifier is, it plans its operand a number of times, wraps each
copy, and puts the copies in a row, now and then behind an epsilon. An
`Unrolling` says which copies these are. It depends on the quantifier alone
(`planQuantified_eq`), so that what is claimed of quantifiers is shown of a row
of copies, and no proof goes through the kinds of quantifiers once more.

A `PlanInvariant` is a claim about the counter and a claim about the plans that
every step of planning keeps. One induction over the tree serves all of them
(`planRegex_keeps`): what the conditions of a plan are, that planning does not
throw, and which numbers it gives.

## Main definitions

* `Copy`, `Unrolling`: What a quantifier makes of its operand.
* `unrolling`: The copies of a quantifier.
* `PlanInvariant`: What every step of planning keeps.
* `PlanInvariant.Keeps`: An action keeps it.

## Theorems

* `planQuantified_eq`: A quantifier plans its unrolling.
* `planExpression_keeps`, `planRegex_keeps`: Planning a tree keeps every invariant.
* `planRegex_forall`: All conditions of a plan come from leaves of the tree.
-/

namespace CodingChallenges

namespace Grep

/-- What becomes of one copy of the operand. -/
inductive Copy where
  | plain
  | star (lazyModifier : Bool)
  | plus (lazyModifier : Bool)
  | option (lazyModifier : Bool)

/-- The copy, with what is put around it. -/
def Copy.wrap : Copy → Plan → Plan
  | .plain, body => body
  | .star lazyModifier, body => .star lazyModifier body
  | .plus lazyModifier, body => .plus lazyModifier body
  | .option lazyModifier, body => .option lazyModifier body

/-- Copies in a row, which begin with an epsilon or with the first of them. -/
inductive Unrolling where
  | behindEpsilon (copies : List Copy)
  | inRow (first : Copy) (others : List Copy)

/-- The copies of a range quantifier. -/
def RangeQuantifier.unrolling (range : RangeQuantifier) (lazyModifier : Bool) : Unrolling :=
  if range.lowerBound = 0 then
    if range.upperBound = some 0 then .behindEpsilon []
    else if range.exactlyLowerBoundTimes then .behindEpsilon []
    else
      match range.upperBound with
      | none => .inRow (.star lazyModifier) []
      | some upperBound => .behindEpsilon (List.replicate upperBound (.option lazyModifier))
  else
    .inRow .plain (List.replicate (range.lowerBound - 1) .plain ++
      match range.upperBound with
      | none => if range.exactlyLowerBoundTimes then [] else [.star lazyModifier]
      | some upperBound =>
        List.replicate (upperBound - range.lowerBound) (.option lazyModifier))

/-- The copies of an optional quantifier. There are none if a range lacks its numbers. -/
def unrolling : Option Quantifier → Option Unrolling
  | none => some (.inRow .plain [])
  | some quantifier =>
    match quantifier.type with
    | .range => quantifier.rangeQuantifier.map (·.unrolling quantifier.lazyModifier)
    | .zeroOrMore => some (.inRow (.star quantifier.lazyModifier) [])
    | .oneOrMore => some (.inRow (.plus quantifier.lazyModifier) [])
    | .zeroOrOne => some (.inRow (.option quantifier.lazyModifier) [])

/-- Further copies, put behind `previous`. -/
def planRow (one : Planner Plan) : List Copy → Plan → Planner Plan
  | [], previous => return previous
  | copy :: others, previous => do
    let next ← one
    planRow one others (.concat previous (copy.wrap next))

/-- The copies of an unrolling. -/
def Unrolling.plan (one : Planner Plan) : Unrolling → Planner Plan
  | .behindEpsilon copies => planRow one copies (.basic .epsilon)
  | .inRow first others => do
    let body ← one
    planRow one others (first.wrap body)

section Unrolling

variable (one : Planner Plan)

theorem planRow_append (copies others : List Copy) (previous : Plan) :
    planRow one (copies ++ others) previous =
      planRow one copies previous >>= planRow one others := by
  induction copies generalizing previous with
  | nil => rw [List.nil_append, planRow, pure_bind]
  | cons copy copies ih =>
      rw [List.cons_append, planRow, planRow, bind_assoc]
      exact bind_congr fun next => ih _

theorem planCopies_eq (count : Nat) (previous : Plan) :
    planCopies one count previous = planRow one (List.replicate count .plain) previous := by
  induction count generalizing previous with
  | zero => rfl
  | succ count ih =>
      rw [planCopies, List.replicate_succ, planRow]
      exact bind_congr fun next => ih _

theorem planUpperBound_eq (lazyModifier : Bool) (count : Nat) (previous : Plan) :
    planUpperBound one lazyModifier count previous =
      planRow one (List.replicate count (.option lazyModifier)) previous := by
  induction count generalizing previous with
  | zero => rfl
  | succ count ih =>
      rw [planUpperBound, List.replicate_succ, planRow]
      exact bind_congr fun next => ih _

/-- A range quantifier plans its unrolling. -/
theorem planRange_eq (range : RangeQuantifier) (lazyModifier : Bool) :
    planRange range lazyModifier one = (range.unrolling lazyModifier).plan one := by
  unfold planRange RangeQuantifier.unrolling
  by_cases hlower : range.lowerBound = 0
  · simp only [if_pos hlower]
    by_cases hupper : range.upperBound = some 0
    · simp only [if_pos hupper, Unrolling.plan, planRow]
    · simp only [if_neg hupper]
      cases range.exactlyLowerBoundTimes with
      | true => rfl
      | false =>
          cases range.upperBound with
          | none => rfl
          | some upperBound => exact planUpperBound_eq one lazyModifier upperBound _
  · simp only [if_neg hlower, Unrolling.plan, Copy.wrap]
    -- The copies of the lower bound come first in the row, and what may follow is put behind them.
    refine bind_congr fun first => ?_
    rw [planRow_append, ← planCopies_eq]
    refine bind_congr fun previous => ?_
    cases range.upperBound with
    | none => cases range.exactlyLowerBoundTimes <;> rfl
    | some upperBound => exact planUpperBound_eq one lazyModifier _ previous

/-- A quantifier plans its unrolling. -/
theorem planQuantified_eq {quantifier : Option Quantifier} {u : Unrolling}
    (h : unrolling quantifier = some u) : planQuantified quantifier one = u.plan one := by
  rcases quantifier with _ | ⟨type, range, lazyModifier⟩
  · cases h
    exact (bind_pure one).symm
  · cases type with
    | range =>
        rcases range with _ | range
        · cases h
        · cases h
          exact planRange_eq one range lazyModifier
    | zeroOrMore | oneOrMore | zeroOrOne =>
        cases h
        rfl

/-- What has no unrolling is a range without its numbers, which throws. -/
theorem range_of_unrolling_eq_none {quantifier : Option Quantifier}
    (h : unrolling quantifier = none) :
    ∃ lazyModifier, quantifier = some ⟨.range, none, lazyModifier⟩ := by
  rcases quantifier with _ | ⟨type, range, lazyModifier⟩
  · cases h
  · cases type with
    | range =>
        rcases range with _ | range
        · exact ⟨lazyModifier, rfl⟩
        · cases h
    | zeroOrMore | oneOrMore | zeroOrOne => cases h

end Unrolling

/-- A claim about the counter and a claim about plans, which every step of planning a tree with
    the predicate keeps. -/
structure PlanInvariant (N : NodePredicate) where
  counter : Nat → Prop
  plan : Plan → Prop
  mayThrow : Prop
  next : ∀ {groupId}, counter groupId → counter (groupId + 1)
  epsilon : plan (.basic .epsilon)
  startOfStringAnchor : plan (.basic .startOfStringAnchor)
  matchItem : ∀ item, N.onMatchItem item → plan (.basic item.condition)
  anchor : ∀ a, N.onAnchor a → plan (.basic (.anchor a))
  backreference : ∀ b, N.onBackreference b → plan (.basic (.backreference b))
  concat : ∀ {first second}, plan first → plan second → plan (.concat first second)
  wrap : ∀ copy {body}, plan body → plan (Copy.wrap copy body)
  capture : ∀ {groupId body}, counter groupId → plan body → plan (.capture groupId body)
  alternation : ∀ {alternatives}, (∀ alternative ∈ alternatives, plan alternative) →
    plan (.alternation alternatives)
  /-- Only a range without its numbers throws. -/
  throws : ∀ lazyModifier, N.onQuantifier ⟨.range, none, lazyModifier⟩ → mayThrow

/-- The action keeps the invariant, and returns what the predicate says. -/
def PlanInvariant.Keeps {N : NodePredicate} (I : PlanInvariant N) {α : Type} (P : α → Prop)
    (x : Planner α) : Prop :=
  ∀ groupId, I.counter groupId →
    Ends (fun _ => I.mayThrow) (fun result => P result.1 ∧ I.counter result.2) (x.run groupId)

section Keeps

variable {N : NodePredicate} {I : PlanInvariant N} {α β : Type} {P : α → Prop} {Q : β → Prop}

theorem keeps_pure {a : α} (h : P a) : I.Keeps P (pure a) :=
  fun _ hcounter => ⟨h, hcounter⟩

theorem PlanInvariant.Keeps.bind {x : Planner α} {f : α → Planner β} (h : I.Keeps P x)
    (hf : ∀ a, P a → I.Keeps Q (f a)) : I.Keeps Q (x >>= f) := by
  intro groupId hcounter
  rw [StateT.run_bind]
  exact (h groupId hcounter).bind fun result hresult => hf result.1 hresult.1 _ hresult.2

/-- What is known of a run that did not throw. -/
theorem PlanInvariant.Keeps.of_run {x : Planner α} (h : I.Keeps P x) {groupId : Nat}
    {result : α × Nat} (hcounter : I.counter groupId) (hrun : x.run groupId = .ok result) :
    P result.1 ∧ I.counter result.2 := by
  have hends := h groupId hcounter
  rw [hrun] at hends
  exact hends

section Quantifiers

variable {one : Planner Plan} (h : I.Keeps I.plan one)
include h

theorem planRow_keeps (copies : List Copy) {previous : Plan} (hprevious : I.plan previous) :
    I.Keeps I.plan (planRow one copies previous) := by
  induction copies generalizing previous with
  | nil => exact keeps_pure hprevious
  | cons copy copies ih =>
      exact h.bind fun next hnext => ih (I.concat hprevious (I.wrap copy hnext))

theorem planQuantified_keeps {quantifier : Option Quantifier}
    (hN : N.onOptionalQuantifier quantifier) : I.Keeps I.plan (planQuantified quantifier one) := by
  cases hunrolling : unrolling quantifier with
  | none =>
      rcases range_of_unrolling_eq_none hunrolling with ⟨lazyModifier, rfl⟩
      exact fun _ _ => I.throws lazyModifier hN
  | some u =>
      rw [planQuantified_eq one hunrolling]
      cases u with
      | behindEpsilon copies => exact planRow_keeps h copies I.epsilon
      | inRow first others =>
          exact h.bind fun body hbody => planRow_keeps h others (I.wrap first hbody)

end Quantifiers

theorem planGroupBody_keeps {nonCapturingModifier : Bool} (body : Option (Planner Plan))
    {groupId : Nat} (hcounter : I.counter groupId)
    (h : I.Keeps I.plan (body.getD (return .basic .epsilon))) :
    I.Keeps I.plan (planGroupBody nonCapturingModifier body groupId) := by
  refine h.bind fun plan hplan => keeps_pure ?_
  cases nonCapturingModifier with
  | true => exact hplan
  | false => exact I.capture hcounter hplan

/-- A group takes the counter as its number, and only a capturing one moves it. -/
theorem planGroupId_keeps (nonCapturingModifier : Bool) :
    I.Keeps I.counter (planGroupId nonCapturingModifier) := by
  intro groupId hcounter
  cases nonCapturingModifier with
  | true => exact ⟨hcounter, hcounter⟩
  | false => exact ⟨hcounter, I.next hcounter⟩

mutual

/-- Planning a tree keeps every invariant. -/
theorem planExpression_keeps (I : PlanInvariant N) : ∀ expression : Expression,
    expression.Forall N → I.Keeps I.plan (planExpression expression)
  | .mk alternatives, h =>
      (planAlternatives_keeps I alternatives h).bind fun _ hplans =>
        keeps_pure (I.alternation hplans)

theorem planAlternatives_keeps (I : PlanInvariant N) : ∀ alternatives : List SubExpression,
    Expression.ForallAlternatives N alternatives →
      I.Keeps (fun plans => ∀ plan ∈ plans, I.plan plan) (planAlternatives alternatives)
  | [], _ => keeps_pure (List.forall_mem_nil _)
  | alternative :: rest, h =>
      (planSubExpression_keeps I alternative h.1).bind fun _ hfirst =>
        (planAlternatives_keeps I rest h.2).bind fun _ hmore =>
          keeps_pure (List.forall_mem_cons.mpr ⟨hfirst, hmore⟩)

theorem planSubExpression_keeps (I : PlanInvariant N) : ∀ subExpression : SubExpression,
    subExpression.Forall N → I.Keeps I.plan (planSubExpression subExpression)
  | .mk [], _ => keeps_pure I.epsilon
  | .mk (first :: rest), h =>
      (planSubExpressionItem_keeps I first h.1).bind fun plan hplan =>
        planItems_keeps I rest h.2 plan hplan

theorem planItems_keeps (I : PlanInvariant N) : ∀ items : List SubExpressionItem,
    SubExpression.ForallItems N items →
      ∀ first, I.plan first → I.Keeps I.plan (planItems first items)
  | [], _, _, hfirst => keeps_pure hfirst
  | item :: rest, h, first, hfirst =>
      (planSubExpressionItem_keeps I item h.1).bind fun next hnext =>
        planItems_keeps I rest h.2 (.concat first next) (I.concat hfirst hnext)

theorem planSubExpressionItem_keeps (I : PlanInvariant N) : ∀ item : SubExpressionItem,
    item.Forall N → I.Keeps I.plan (planSubExpressionItem item)
  | .singleMatch _, h => planQuantified_keeps (keeps_pure (I.matchItem _ h.1)) h.2
  | .group g, h => planGroup_keeps I g h
  | .anchor a, h => keeps_pure (I.anchor a h)
  | .backreference b, h => keeps_pure (I.backreference b h)

theorem planGroup_keeps (I : PlanInvariant N) : ∀ group : Group,
    group.Forall N → I.Keeps I.plan (planGroup group)
  | .mk nonCapturingModifier none _, h =>
      (planGroupId_keeps nonCapturingModifier).bind fun _ hgroupId =>
        planQuantified_keeps (planGroupBody_keeps none hgroupId (keeps_pure I.epsilon)) h
  | .mk nonCapturingModifier (some expression) _, h =>
      (planGroupId_keeps nonCapturingModifier).bind fun _ hgroupId =>
        planQuantified_keeps (planGroupBody_keeps (some (planExpression expression)) hgroupId
          (planExpression_keeps I expression h.1)) h.2

end

theorem planRegex_keeps (I : PlanInvariant N) (regex : Regex) (h : regex.expression.Forall N) :
    I.Keeps I.plan (planRegex regex) := by
  refine (planExpression_keeps I regex.expression h).bind fun plan hplan => keeps_pure ?_
  cases regex.startOfStringAnchor with
  | true => exact I.concat I.startOfStringAnchor hplan
  | false => exact hplan

end Keeps

/-- A predicate on conditions is implied, leaf by leaf, by one on trees. -/
structure NodePredicate.Implies (N : NodePredicate) (P : TransitionConditionType → Prop) :
    Prop where
  epsilon : P .epsilon
  startOfStringAnchor : P .startOfStringAnchor
  matchItem : ∀ item, N.onMatchItem item → P item.condition
  anchor : ∀ a, N.onAnchor a → P (.anchor a)
  backreference : ∀ b, N.onBackreference b → P (.backreference b)

section Forall

variable {N : NodePredicate} {P : TransitionConditionType → Prop}

theorem Plan.forallAlternatives_iff (alternatives : List Plan) :
    Plan.ForallAlternatives P alternatives ↔
      ∀ alternative ∈ alternatives, alternative.Forall P := by
  induction alternatives with
  | nil => exact iff_of_true trivial (List.forall_mem_nil _)
  | cons alternative rest ih => rw [List.forall_mem_cons, ← ih, Plan.ForallAlternatives]

/-- All conditions of the plans are of a kind. -/
def NodePredicate.Implies.invariant (hN : N.Implies P) : PlanInvariant N where
  counter _ := True
  plan := Plan.Forall P
  mayThrow := True
  next _ := trivial
  epsilon := hN.epsilon
  startOfStringAnchor := hN.startOfStringAnchor
  matchItem := hN.matchItem
  anchor := hN.anchor
  backreference := hN.backreference
  concat hfirst hsecond := ⟨hfirst, hsecond⟩
  wrap copy _ h := by cases copy <;> exact h
  capture _ h := h
  alternation h := (Plan.forallAlternatives_iff _).mpr h
  throws _ _ := trivial

theorem planExpression_forall (hN : N.Implies P) (expression : Expression)
    (h : expression.Forall N) (groupId : Nat) (result : Plan × Nat)
    (hrun : (planExpression expression).run groupId = .ok result) : result.1.Forall P :=
  ((planExpression_keeps hN.invariant expression h).of_run trivial hrun).1

/-- All conditions of the plan of a tree come from the tree's leaves. -/
theorem planRegex_forall (hN : N.Implies P) (regex : Regex) (h : regex.expression.Forall N)
    (groupId : Nat) (result : Plan × Nat) (hrun : (planRegex regex).run groupId = .ok result) :
    result.1.Forall P :=
  ((planRegex_keeps hN.invariant regex h).of_run trivial hrun).1

end Forall

end Grep

end CodingChallenges
