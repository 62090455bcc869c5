import CodingChallenges.Grep.Meaning
import CodingChallenges.Grep.Planning

/-!
# Plans Have the Meaning of Their Patterns

The planner, read as a compiler from trees to plans, preserves meaning.

`Denotes` says that a planner action succeeds from any group counter and that
the plan it returns connects exactly the positions a relation does. It composes
along the planner's own structure. A row of copies extends a plan already made,
so it gets the companion `DenotesAfter`: the plan returned first does what the
given one does and then what a relation says.

Unrolling is where repetition turns into arithmetic: `n` copies make `n`
rounds, further optional copies make up to that many more, and a starred copy
makes any number more. `rangeUnrolling_allows` puts these together to the bounds
in the braces; it speaks of numbers only.

## Main definitions

* `Denotes`: An action plans a relation.
* `DenotesAfter`: An action extends a plan by a relation.
* `RowAllows`, `Unrolling.Allows`: How many rounds copies make.

## Theorems

* `exists_unrolling`: Copies make the rounds that their quantifier allows.
* `denotesAfter_row`, `denotes_quantified`: Rows of copies, and quantifiers.
* `planExpression_denotes`: The recursion over the tree.
* `planRegex_denotes`: The plan of a pattern has its meaning.
-/

namespace CodingChallenges

namespace Grep

/-- A relation between positions, for every input. -/
abbrev PositionRel := List Nat → Nat → Nat → Prop

/-- The action succeeds, whatever the group counter, and what it plans connects
    the positions the relation does. -/
def Denotes (plan : Planner Plan) (M : PositionRel) : Prop :=
  ∀ groupId, ∃ result, plan.run groupId = .ok result ∧
    ∀ input s e, result.1.Connects input s e ↔ M input s e

/-- The action succeeds on any plan, and what it returns goes on from where the
    given plan stops as the relation says. -/
def DenotesAfter (plan : Plan → Planner Plan) (M : PositionRel) : Prop :=
  ∀ first groupId, ∃ result, (plan first).run groupId = .ok result ∧
    ∀ input s e, result.1.Connects input s e ↔ ∃ m, first.Connects input s m ∧ M input m e

theorem Denotes.bind {plan : Planner Plan} {next : Plan → Planner Plan} {M N : PositionRel}
    (h : Denotes plan M) (hn : DenotesAfter next N) :
    Denotes (plan >>= next) (fun input s e => ∃ m, M input s m ∧ N input m e) := by
  intro groupId
  rcases h groupId with ⟨⟨first, groupId'⟩, hrun, hfirst⟩
  rcases hn first groupId' with ⟨result, hnext, hresult⟩
  refine ⟨result, ?_, fun input s e => ?_⟩
  · rw [StateT.run_bind, hrun, ok_bind]
    exact hnext
  · rw [hresult]
    simp only [hfirst]

theorem Denotes.congr {plan : Planner Plan} {M N : PositionRel} (h : Denotes plan M)
    (hMN : ∀ input s e, M input s e ↔ N input s e) : Denotes plan N := by
  intro groupId
  rcases h groupId with ⟨result, hrun, hresult⟩
  exact ⟨result, hrun, fun input s e => (hresult input s e).trans (hMN input s e)⟩

/-- An action followed by a construct around its plan. -/
theorem Denotes.map {plan : Planner Plan} {M N : PositionRel} (h : Denotes plan M)
    (wrap : Plan → Plan)
    (hwrap : ∀ body, (∀ input s e, body.Connects input s e ↔ M input s e) →
      ∀ input s e, (wrap body).Connects input s e ↔ N input s e) :
    Denotes (do return wrap (← plan)) N := by
  intro groupId
  rcases h groupId with ⟨⟨body, groupId'⟩, hrun, hbody⟩
  refine ⟨(wrap body, groupId'), ?_, hwrap body hbody⟩
  rw [StateT.run_bind, hrun, ok_bind]
  rfl

theorem denotes_basic {condition : TransitionConditionType} (hleaf : condition.IsLeaf)
    (hne : condition ≠ .epsilon) :
    Denotes (return .basic condition) (fun input => Reads input condition) :=
  fun groupId => ⟨(.basic condition, groupId), rfl, fun _ _ _ => connects_basic hleaf hne⟩

theorem denotes_epsilon : Denotes (return .basic .epsilon) (fun _ s e => s = e) :=
  fun groupId => ⟨(.basic .epsilon, groupId), rfl, fun _ _ _ => connects_epsilon⟩

theorem connects_eq {body : Plan} {input : List Nat} {M : Nat → Nat → Prop}
    (h : ∀ s e, body.Connects input s e ↔ M s e) : body.Connects input = M := by
  funext s e
  exact propext (h s e)

theorem denotesAfter_pure : DenotesAfter (fun first => return first) (fun _ s e => s = e) := by
  intro first groupId
  refine ⟨(first, groupId), rfl, fun input s e => ?_⟩
  simp only [exists_eq_right]

section Rounds

/-- The numbers of rounds that a copy makes. -/
def Copy.Allows : Copy → Nat → Prop
  | .plain, k => k = 1
  | .star _, _ => True
  | .plus _, k => 1 ≤ k
  | .option _, k => k ≤ 1

/-- The numbers of rounds that the copies of a row make together. -/
def RowAllows : List Copy → Nat → Prop
  | [], k => k = 0
  | copy :: others, k => ∃ i j, copy.Allows i ∧ RowAllows others j ∧ k = i + j

/-- The numbers of rounds that an unrolling makes. An epsilon makes none. -/
def Unrolling.Allows : Unrolling → Nat → Prop
  | .behindEpsilon copies => RowAllows copies
  | .inRow first others => RowAllows (first :: others)

theorem rowAllows_append {copies others : List Copy} {k : Nat} :
    RowAllows (copies ++ others) k ↔
      ∃ i j, RowAllows copies i ∧ RowAllows others j ∧ k = i + j := by
  induction copies generalizing k with
  | nil =>
      simp only [List.nil_append, RowAllows, exists_and_left, exists_eq_left, Nat.zero_add,
        exists_eq_right']
  | cons copy copies ih =>
      simp only [List.cons_append, RowAllows, ih]
      constructor
      · rintro ⟨i, _, hi, ⟨j, l, hj, hl, rfl⟩, rfl⟩
        exact ⟨i + j, l, ⟨i, j, hi, hj, rfl⟩, hl, (Nat.add_assoc i j l).symm⟩
      · rintro ⟨_, l, ⟨i, j, hi, hj, rfl⟩, hl, rfl⟩
        exact ⟨i, j + l, hi, ⟨j, l, hj, hl, rfl⟩, Nat.add_assoc i j l⟩

theorem rowAllows_singleton {copy : Copy} {k : Nat} : RowAllows [copy] k ↔ copy.Allows k := by
  simp only [RowAllows, exists_and_left, exists_eq_left, Nat.add_zero, exists_eq_right']

theorem rowAllows_plain {count k : Nat} :
    RowAllows (List.replicate count .plain) k ↔ k = count := by
  induction count generalizing k with
  | zero => exact Iff.rfl
  | succ count ih =>
      simp only [List.replicate_succ, RowAllows, Copy.Allows, ih, exists_and_left, exists_eq_left,
        Nat.add_comm 1]

/-- Optional copies make any number of rounds up to their own number. -/
theorem rowAllows_option {lazyModifier : Bool} {count k : Nat} :
    RowAllows (List.replicate count (.option lazyModifier)) k ↔ k ≤ count := by
  induction count generalizing k with
  | zero => exact Nat.le_zero.symm
  | succ count ih =>
      simp only [List.replicate_succ, RowAllows, Copy.Allows, ih]
      constructor
      · rintro ⟨i, j, hi, hj, rfl⟩
        omega
      · intro hk
        exact ⟨min k 1, k - 1, by omega, by omega, by omega⟩

/-- The unrolling of a range makes the numbers of rounds between its bounds. -/
theorem rangeUnrolling_allows {range : RangeQuantifier} (hshape : range.WellShaped)
    (lazyModifier : Bool) (k : Nat) :
    (range.unrolling lazyModifier).Allows k ↔ range.Allows k := by
  rcases range with ⟨exactly, lower, upper⟩
  unfold RangeQuantifier.unrolling RangeQuantifier.Allows
  unfold RangeQuantifier.WellShaped at hshape
  rcases lower with _ | lower
  · -- No copy is required.
    simp only [if_true]
    rcases upper with _ | _ | upper
    · cases exactly with
      | true => exact Iff.rfl
      | false => exact rowAllows_singleton.trans (iff_of_true trivial (Nat.zero_le k))
    · simp only [if_true, Unrolling.Allows, RowAllows, Nat.zero_le, true_and, Nat.le_zero]
    · -- A range of an exact number is well shaped only if the number is the lower bound.
      have hexactly : exactly = false := hshape.1
      subst hexactly
      simp only [Option.some.injEq, Nat.succ_ne_zero, if_false, Bool.false_eq_true,
        Unrolling.Allows, rowAllows_option, Nat.zero_le, true_and]
  · have hrequired : ∀ others, Unrolling.Allows
        (.inRow .plain (List.replicate (lower + 1 - 1) .plain ++ others)) k ↔
          ∃ j, RowAllows others j ∧ k = lower + 1 + j := by
      intro others
      have hrow : Copy.plain :: (List.replicate (lower + 1 - 1) .plain ++ others) =
          List.replicate (lower + 1) .plain ++ others := rfl
      rw [Unrolling.Allows, hrow, rowAllows_append]
      simp only [rowAllows_plain, exists_and_left, exists_eq_left]
    simp only [Nat.succ_ne_zero, if_false, hrequired]
    rcases upper with _ | upper
    · cases exactly with
      | true => simp only [if_true, RowAllows, exists_eq_left, Nat.add_zero]
      | false =>
          simp only [Bool.false_eq_true, if_false, rowAllows_singleton, Copy.Allows, true_and]
          exact ⟨fun ⟨j, hj⟩ => by omega, fun hk => Nat.exists_eq_add_of_le hk⟩
    · have hle : lower + 1 ≤ upper := hshape.2
      simp only [rowAllows_option]
      exact ⟨fun ⟨j, hj, hk⟩ => by omega, fun hk => ⟨k - (lower + 1), by omega, by omega⟩⟩

/-- A quantifier that the parser builds has an unrolling, which makes the numbers of rounds it
    allows. -/
theorem exists_unrolling {quantifier : Quantifier} (hshape : quantifier.WellShaped) :
    ∃ u, unrolling (some quantifier) = some u ∧ ∀ k, u.Allows k ↔ quantifier.Allows k := by
  rcases quantifier with ⟨type, range, lazyModifier⟩
  cases type with
  | range =>
      rcases hshape rfl with ⟨range', hrange, hrangeShape⟩
      have hsome : range = some range' := hrange
      subst hsome
      exact ⟨_, rfl, rangeUnrolling_allows hrangeShape lazyModifier⟩
  | zeroOrMore | oneOrMore | zeroOrOne => exact ⟨_, rfl, fun k => rowAllows_singleton⟩

/-- The rounds of a row are those of its first copy and those of the others. -/
theorem runs_row_iff {M : Nat → Nat → Prop} {copy : Copy} {others : List Copy} {s e : Nat} :
    (∃ m, (∃ i, copy.Allows i ∧ Runs M i s m) ∧ ∃ j, RowAllows others j ∧ Runs M j m e) ↔
      ∃ k, RowAllows (copy :: others) k ∧ Runs M k s e := by
  constructor
  · rintro ⟨m, ⟨i, hi, hfirst⟩, j, hj, hothers⟩
    exact ⟨i + j, ⟨i, j, hi, hj, rfl⟩, hfirst.trans hothers⟩
  · rintro ⟨_, ⟨i, j, hi, hj, rfl⟩, hruns⟩
    rcases hruns.split with ⟨m, hfirst, hothers⟩
    exact ⟨m, ⟨i, hi, hfirst⟩, j, hj, hothers⟩

end Rounds

section Rows

variable {one : Planner Plan} {M : PositionRel} (h : Denotes one M)

theorem connects_wrap (copy : Copy) {body : Plan} {input : List Nat}
    {M : Nat → Nat → Prop} (hbody : ∀ s e, body.Connects input s e ↔ M s e) (s e : Nat) :
    (copy.wrap body).Connects input s e ↔ ∃ k, copy.Allows k ∧ Runs M k s e := by
  rw [← connects_eq hbody]
  cases copy with
  | plain =>
      simp only [Copy.wrap, Copy.Allows, exists_eq_left, Runs.succ_iff, Runs.zero_iff,
        exists_eq_right]
  | star lazyModifier => simp only [Copy.wrap, connects_star, Copy.Allows, true_and]
  | plus lazyModifier => exact connects_plus
  | option lazyModifier => exact connects_option

include h

/-- Each copy goes on with its rounds from where the one before it stopped. -/
theorem denotesAfter_row (copies : List Copy) :
    DenotesAfter (planRow one copies)
      (fun input s e => ∃ k, RowAllows copies k ∧ Runs (M input) k s e) := by
  induction copies with
  | nil =>
      intro first groupId
      refine ⟨(first, groupId), rfl, fun input s e => ?_⟩
      simp only [RowAllows, exists_eq_left, Runs.zero_iff, exists_eq_right]
  | cons copy copies ih =>
      intro first groupId
      rcases h groupId with ⟨⟨next, groupId'⟩, hrun, hnext⟩
      rcases ih (.concat first (copy.wrap next)) groupId' with ⟨result, hrest, hresult⟩
      refine ⟨result, ?_, fun input s e => ?_⟩
      · rw [planRow, StateT.run_bind, hrun, ok_bind]
        exact hrest
      · rw [hresult]
        simp only [connects_concat, connects_wrap copy (hnext input), ← runs_row_iff]
        constructor
        · rintro ⟨m', ⟨m, hfirst, hcopy⟩, hothers⟩
          exact ⟨m, hfirst, m', hcopy, hothers⟩
        · rintro ⟨m, hfirst, m', hcopy, hothers⟩
          exact ⟨m', ⟨m, hfirst, hcopy⟩, hothers⟩

theorem denotes_unrolling (u : Unrolling) :
    Denotes (u.plan one) (fun input s e => ∃ k, u.Allows k ∧ Runs (M input) k s e) := by
  cases u with
  | behindEpsilon copies =>
      -- The copies go on from an epsilon, which does not move.
      intro groupId
      rcases denotesAfter_row h copies (.basic .epsilon) groupId with ⟨result, hrun, hresult⟩
      refine ⟨result, hrun, fun input s e => ?_⟩
      rw [hresult]
      simp only [connects_epsilon, exists_eq_left', Unrolling.Allows]
  | inRow first others =>
      intro groupId
      rcases h groupId with ⟨⟨body, groupId'⟩, hrun, hbody⟩
      rcases denotesAfter_row h others (first.wrap body) groupId' with ⟨result, hrest, hresult⟩
      refine ⟨result, ?_, fun input s e => ?_⟩
      · rw [Unrolling.plan, StateT.run_bind, hrun, ok_bind]
        exact hrest
      · rw [hresult]
        simp only [connects_wrap first (hbody input)]
        exact runs_row_iff

/-- A quantifier of one of the shapes the parser builds makes the numbers of rounds it allows. -/
theorem denotes_quantified (quantifier : Option Quantifier)
    (hshape : wellShaped.onOptionalQuantifier quantifier) :
    Denotes (planQuantified quantifier one) (fun input => Quantified quantifier (M input)) := by
  cases quantifier with
  | none => exact h
  | some quantifier =>
      rcases exists_unrolling hshape with ⟨u, hunrolling, hallows⟩
      rw [planQuantified_eq one hunrolling]
      refine (denotes_unrolling h u).congr fun input s e => ?_
      simp only [hallows, Quantified]

end Rows

/-- A group means its body: a capturing one only records where it was. -/
theorem denotes_groupBody (nonCapturingModifier : Bool) (body : Option (Planner Plan))
    {M : PositionRel} (groupId : Nat) (h : Denotes (body.getD (return .basic .epsilon)) M) :
    Denotes (planGroupBody nonCapturingModifier body groupId) M := by
  unfold planGroupBody
  refine h.map _ fun plan hplan input s e => ?_
  cases nonCapturingModifier with
  | true => exact hplan input s e
  | false => exact connects_capture.trans (hplan input s e)

/-- A leaf a quantifier may follow only reads the input, and is no epsilon. -/
theorem MatchItem.isLeaf_condition (item : MatchItem) :
    item.condition.IsLeaf ∧ item.condition ≠ .epsilon := by
  rcases item with _ | (_ | _ | _) | _
  all_goals exact ⟨trivial, by simp only [condition, ne_eq, reduceCtorEq, not_false_eq_true]⟩

theorem reads_startOfStringAnchor (input : List Nat) (s e : Nat) :
    Reads input .startOfStringAnchor s e ↔ s = 0 ∧ e = 0 := by
  rw [reads_iff (show TransitionConditionType.IsLeaf .startOfStringAnchor from trivial)]
  simp only [leafOffset, processTransition, processStartOfStringAnchorTransition, pure_eq_ok,
    map_ok, Except.ok.injEq]
  constructor
  -- The anchor is only permitted at position zero, and reads nothing.
  · rintro ⟨-, offset, hoffset, rfl⟩
    split at hoffset
    · next hs =>
        cases hoffset
        exact ⟨hs, hs⟩
    · cases hoffset
  · rintro ⟨rfl, rfl⟩
    exact ⟨Nat.zero_le _, 0, rfl, rfl⟩

theorem run_planGroupId (nonCapturingModifier : Bool) (groupId : Nat) :
    (planGroupId nonCapturingModifier).run groupId
      = .ok (groupId, if nonCapturingModifier then groupId else groupId + 1) := rfl

mutual

theorem planExpression_denotes : ∀ expression : Expression,
    expression.Forall noBackreference → expression.Forall wellShaped →
      Denotes (planExpression expression) (fun input => expression.Meaning input)
  | .mk alternatives, hback, hshape => by
      intro groupId
      rcases planAlternatives_denotes alternatives hback hshape groupId with
        ⟨plans, groupId', hrun, hplans⟩
      refine ⟨(.alternation plans, groupId'), ?_, hplans⟩
      rw [planExpression, StateT.run_bind, hrun, ok_bind]
      rfl

theorem planAlternatives_denotes : ∀ alternatives : List SubExpression,
    Expression.ForallAlternatives noBackreference alternatives →
    Expression.ForallAlternatives wellShaped alternatives →
      ∀ groupId, ∃ plans groupId',
        (planAlternatives alternatives).run groupId = .ok (plans, groupId') ∧
        ∀ input s e, (Plan.alternation plans).Connects input s e ↔
          Expression.MeaningOfAlternatives input alternatives s e
  | [], _, _, groupId => by
      refine ⟨[], groupId, rfl, fun input s e => iff_of_false ?_ id⟩
      rintro ⟨n, hfalse⟩
      exact hfalse
  | alternative :: rest, hback, hshape, groupId => by
      rcases planSubExpression_denotes alternative hback.1 hshape.1 groupId with
        ⟨⟨first, groupId'⟩, hrun, hfirst⟩
      rcases planAlternatives_denotes rest hback.2 hshape.2 groupId' with
        ⟨plans, groupId'', hrest, hplans⟩
      refine ⟨first :: plans, groupId'', ?_, fun input s e => ?_⟩
      · simp only [planAlternatives, StateT.run_bind, hrun, ok_bind, hrest]
        rfl
      · rw [connects_alternation_cons, hfirst, hplans]
        rfl

theorem planSubExpression_denotes : ∀ subExpression : SubExpression,
    subExpression.Forall noBackreference → subExpression.Forall wellShaped →
      Denotes (planSubExpression subExpression) (fun input => subExpression.Meaning input)
  | .mk [], _, _ => denotes_epsilon
  | .mk (first :: rest), hback, hshape =>
      (planSubExpressionItem_denotes first hback.1 hshape.1).bind
        (planItems_denotes rest hback.2 hshape.2)

theorem planItems_denotes : ∀ items : List SubExpressionItem,
    SubExpression.ForallItems noBackreference items →
    SubExpression.ForallItems wellShaped items →
      DenotesAfter (fun first => planItems first items)
        (fun input => SubExpression.MeaningOfItems input items)
  | [], _, _ => denotesAfter_pure
  | item :: rest, hback, hshape => by
      intro first groupId
      rcases planSubExpressionItem_denotes item hback.1 hshape.1 groupId with
        ⟨⟨next, groupId'⟩, hrun, hnext⟩
      rcases planItems_denotes rest hback.2 hshape.2 (.concat first next) groupId' with
        ⟨result, hrest, hresult⟩
      refine ⟨result, ?_, fun input s e => ?_⟩
      · simp only [planItems, StateT.run_bind, hrun, ok_bind]
        exact hrest
      · rw [hresult]
        simp only [connects_concat, hnext, SubExpression.MeaningOfItems]
        constructor
        · rintro ⟨m', ⟨m, hfirst, hitem⟩, hmore⟩
          exact ⟨m, hfirst, m', hitem, hmore⟩
        · rintro ⟨m, hfirst, m', hitem, hmore⟩
          exact ⟨m', ⟨m, hfirst, hitem⟩, hmore⟩

theorem planSubExpressionItem_denotes : ∀ item : SubExpressionItem,
    item.Forall noBackreference → item.Forall wellShaped →
      Denotes (planSubExpressionItem item) (fun input => item.Meaning input)
  | .singleMatch m, _, hshape =>
      denotes_quantified
        (denotes_basic m.matchItem.isLeaf_condition.1 m.matchItem.isLeaf_condition.2) _ hshape.2
  | .group g, hback, hshape => planGroup_denotes g hback hshape
  | .anchor a, _, _ =>
      denotes_basic (show TransitionConditionType.IsLeaf (.anchor a) from trivial)
        (by simp only [ne_eq, reduceCtorEq, not_false_eq_true])
  | .backreference _, hback, _ => absurd hback id

theorem planGroup_denotes : ∀ group : Group,
    group.Forall noBackreference → group.Forall wellShaped →
      Denotes (planGroup group) (fun input => group.Meaning input)
  | .mk nonCapturingModifier none quantifier, _, hshape => by
      intro groupId
      rw [planGroup, StateT.run_bind, run_planGroupId, ok_bind]
      exact denotes_quantified
        (denotes_groupBody nonCapturingModifier none groupId denotes_epsilon)
        quantifier hshape _
  | .mk nonCapturingModifier (some expression) quantifier, hback, hshape => by
      intro groupId
      rw [planGroup, StateT.run_bind, run_planGroupId, ok_bind]
      exact denotes_quantified
        (denotes_groupBody nonCapturingModifier (some _) groupId
          (planExpression_denotes expression hback.1 hshape.1))
        quantifier hshape.2 _

end

/-- The plan of a pattern has its meaning: a leading anchor is one more item in
    front. -/
theorem planRegex_denotes (regex : Regex) (hback : regex.expression.Forall noBackreference)
    (hshape : regex.expression.Forall wellShaped) :
    Denotes (planRegex regex) (fun input => regex.Meaning input) := by
  unfold planRegex
  refine (planExpression_denotes regex.expression hback hshape).map _ fun plan hplan input s e => ?_
  unfold Regex.Meaning
  cases regex.startOfStringAnchor with
  | false =>
      simp only [Bool.false_eq_true, if_false, false_implies, true_and]
      exact hplan input s e
  -- The anchor is the first of two plans, and fixes the position between them.
  | true =>
      simp only [if_true, true_implies]
      rw [connects_concat]
      simp only [connects_basic
        (show TransitionConditionType.IsLeaf .startOfStringAnchor from trivial)
        (by simp only [ne_eq, reduceCtorEq, not_false_eq_true]), reads_startOfStringAnchor, hplan]
      constructor
      · rintro ⟨m, ⟨rfl, rfl⟩, hbody⟩
        exact ⟨rfl, hbody⟩
      · rintro ⟨rfl, hbody⟩
        exact ⟨0, ⟨rfl, rfl⟩, hbody⟩

end Grep

end CodingChallenges
