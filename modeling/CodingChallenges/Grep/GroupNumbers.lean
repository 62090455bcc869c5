import CodingChallenges.Grep.Compiled

/-!
# Group Numbers

Which numbers the builder gives to the copies of capturing groups.

A capturing group has the number of its opening parenthesis. The builder takes
the number from a counter that moves on each time it comes to a capturing group.
A group under a range quantifier is built once for each copy, and so are the
groups inside it, which are therefore come to several times, or, under `{0}`,
not at all. The group itself keeps its number over its copies; the groups
inside get new ones, and the groups behind are off by the difference.

`Expression.visits` lists the capturing groups of a tree in the order of their
parentheses, with how often the builder comes to each and how many copies it
builds each time. The numbers are right exactly if every group of which there is
a copy is come to once, with the counter showing its number (`InStep`).
`Draws` says of a stretch of the construction that it moves the counter on by
the visits, and that the numbers it gives are the expected ones exactly if the
visits are in step. It composes along the tree (`Draws.append`), and over the
copies of a quantifier (`Chain.draws`).

On the side of the automaton, the start of a copy is a state with an entering
transition. It is allocated before the states of the body, so the order of
states is the order of copies; and its end is the next state.

## Main definitions

* `Quantifier.copies`: How many copies of its operand a quantifier builds.
* `Expression.parenthesisNumbers`: The number of each copy, as it should be.
* `Expression.visits`: The capturing groups and how often they are come to.
* `InStep`: The counter shows the right number when it matters.
* `Plan.groupNumbers`: The numbers in a plan.
* `NumberedByParenthesis`: The copies in an automaton have the right numbers.

## Theorems

* `planExpression_draws`: What planning a tree draws.
* `captureNumbers_assemble`, `paired_assemble`: From plans to automata.
* `buildRegex_numbered_iff`: When groups have the numbers of their parentheses.
-/

namespace CodingChallenges

namespace Grep

/-- How many copies of its operand a range quantifier builds. The upper bound is not below the
    lower one where a parser has made the quantifier. -/
def RangeQuantifier.copies (range : RangeQuantifier) : Nat :=
  if range.lowerBound = 0 then
    if range.upperBound = some 0 then 0
    else if range.exactlyLowerBoundTimes then 0
    else range.upperBound.getD 1
  else
    match range.upperBound with
    | none => if range.exactlyLowerBoundTimes then range.lowerBound else range.lowerBound + 1
    | some upperBound => range.lowerBound + (upperBound - range.lowerBound)

/-- How many copies of its operand an optional quantifier builds. -/
def Quantifier.copies (quantifier : Option Quantifier) : Nat :=
  match quantifier with
  | none => 1
  | some quantifier =>
    match quantifier.type with
    | .range => (quantifier.rangeQuantifier.map RangeQuantifier.copies).getD 0
    | _ => 1

/-- A capturing group: how often the builder comes to it, and how many copies
    it builds each time. -/
structure Visit where
  times : Nat
  copies : Nat
deriving DecidableEq, Repr

/-- The group is inside another one that is built several times, or never. -/
def Visit.scale (copies : Nat) (visit : Visit) : Visit :=
  { visit with times := copies * visit.times }

/-- The visit of a group itself: none if it does not capture. -/
def ownVisit (nonCapturingModifier : Bool) (quantifier : Option Quantifier) : List Visit :=
  if nonCapturingModifier then [] else [⟨1, Quantifier.copies quantifier⟩]

mutual

/-- The capturing groups in the order of their parentheses. -/
def Expression.visits : Expression → List Visit
  | .mk alternatives => Expression.visitsOfAlternatives alternatives

/-- The visits in the alternatives, one after the other. -/
def Expression.visitsOfAlternatives : List SubExpression → List Visit
  | [] => []
  | alternative :: rest => alternative.visits ++ Expression.visitsOfAlternatives rest

/-- The visits in a sequence. -/
def SubExpression.visits : SubExpression → List Visit
  | .mk items => SubExpression.visitsOfItems items

/-- The visits in the items, one after the other. -/
def SubExpression.visitsOfItems : List SubExpressionItem → List Visit
  | [] => []
  | item :: rest => item.visits ++ SubExpression.visitsOfItems rest

/-- The visits in an item. Only a group has any. -/
def SubExpressionItem.visits : SubExpressionItem → List Visit
  | .group g => g.visits
  | _ => []

/-- The visit of the group itself, and those in it as often as it is copied. -/
def Group.visits : Group → List Visit
  | .mk nonCapturingModifier none quantifier => ownVisit nonCapturingModifier quantifier
  | .mk nonCapturingModifier (some expression) quantifier =>
    ownVisit nonCapturingModifier quantifier ++
      expression.visits.map (Visit.scale (Quantifier.copies quantifier))

end

/-- The number of a group itself, and the number of the next parenthesis. -/
def ownNumber (nonCapturingModifier : Bool) (number : Nat) : List Nat × Nat :=
  if nonCapturingModifier then ([], number) else ([number], number + 1)

mutual

/-- The numbers of the copies of capturing groups in the order in which the
    copies are built: each copy has the number of its parenthesis, `number`
    being that of the next one. -/
def Expression.parenthesisNumbers : Expression → Nat → List Nat
  | .mk alternatives, number => Expression.parenthesisNumbersOfAlternatives alternatives number

/-- The numbers in the alternatives, counted on from one to the next. -/
def Expression.parenthesisNumbersOfAlternatives : List SubExpression → Nat → List Nat
  | [], _ => []
  | alternative :: rest, number =>
    alternative.parenthesisNumbers number ++
      Expression.parenthesisNumbersOfAlternatives rest (number + alternative.visits.length)

/-- The numbers in a sequence. -/
def SubExpression.parenthesisNumbers : SubExpression → Nat → List Nat
  | .mk items, number => SubExpression.parenthesisNumbersOfItems items number

/-- The numbers in the items, counted on from one to the next. -/
def SubExpression.parenthesisNumbersOfItems : List SubExpressionItem → Nat → List Nat
  | [], _ => []
  | item :: rest, number =>
    item.parenthesisNumbers number ++
      SubExpression.parenthesisNumbersOfItems rest (number + item.visits.length)

/-- The numbers in an item. Only a group has any. -/
def SubExpressionItem.parenthesisNumbers : SubExpressionItem → Nat → List Nat
  | .group g, number => g.parenthesisNumbers number
  | _, _ => []

/-- The number of the group itself and those in it, once for each copy. -/
def Group.parenthesisNumbers : Group → Nat → List Nat
  | .mk nonCapturingModifier none quantifier, number =>
    (List.replicate (Quantifier.copies quantifier)
      (ownNumber nonCapturingModifier number).1).flatten
  | .mk nonCapturingModifier (some expression) quantifier, number =>
    (List.replicate (Quantifier.copies quantifier)
      ((ownNumber nonCapturingModifier number).1 ++
        expression.parenthesisNumbers (ownNumber nonCapturingModifier number).2)).flatten

end

/-- How often the builder comes to capturing groups, all together. -/
def totalVisits (visits : List Visit) : Nat :=
  (visits.map Visit.times).sum

/-- Every group of which a copy is built is come to once, with the counter
    showing the number of its parenthesis. -/
def InStep (counter number : Nat) : List Visit → Prop
  | [] => True
  | visit :: rest =>
    (0 < visit.times * visit.copies → visit.times = 1 ∧ counter = number) ∧
      InStep (counter + visit.times) (number + 1) rest

/-- No copy of any of the groups is built. -/
def Unbuilt (visits : List Visit) : Prop :=
  ∀ visit ∈ visits, visit.times * visit.copies = 0

section InStep

theorem totalVisits_cons (visit : Visit) (rest : List Visit) :
    totalVisits (visit :: rest) = visit.times + totalVisits rest := rfl

theorem totalVisits_append (visits visits' : List Visit) :
    totalVisits (visits ++ visits') = totalVisits visits + totalVisits visits' := by
  simp only [totalVisits, List.map_append, List.sum_append]

theorem totalVisits_scale (copies : Nat) (visits : List Visit) :
    totalVisits (visits.map (Visit.scale copies)) = copies * totalVisits visits := by
  induction visits with
  | nil => rfl
  | cons visit rest ih =>
      rw [List.map_cons, totalVisits_cons, totalVisits_cons, ih, Nat.mul_add]
      rfl

theorem inStep_append {counter number : Nat} {visits visits' : List Visit} :
    InStep counter number (visits ++ visits') ↔ InStep counter number visits ∧
      InStep (counter + totalVisits visits) (number + visits.length) visits' := by
  induction visits generalizing counter number with
  | nil => exact ⟨fun h => ⟨trivial, h⟩, fun h => h.2⟩
  | cons visit rest ih =>
      rw [List.cons_append, InStep, InStep, ih, and_assoc, totalVisits_cons, List.length_cons,
        Nat.add_assoc, Nat.add_assoc, Nat.add_comm 1]

/-- Groups without copies are in step with any counter. -/
theorem Unbuilt.inStep {visits : List Visit} (h : Unbuilt visits) (counter number : Nat) :
    InStep counter number visits := by
  induction visits generalizing counter number with
  | nil => trivial
  | cons visit rest ih =>
      have hvisit := h visit List.mem_cons_self
      refine ⟨fun hpos => by omega, ih (fun v hv => h v (List.mem_cons_of_mem visit hv)) _ _⟩

/-- Only groups without copies are in step with two counters. -/
theorem unbuilt_of_inStep {visits : List Visit} {counter counter' number : Nat}
    (hne : counter ≠ counter') (h : InStep counter number visits)
    (h' : InStep counter' number visits) : Unbuilt visits := by
  induction visits generalizing counter counter' number with
  | nil => exact fun visit hvisit => absurd hvisit List.not_mem_nil
  | cons visit rest ih =>
      intro v hv
      rcases List.mem_cons.mp hv with rfl | hv
      · by_contra hbuilt
        have hpos := Nat.pos_of_ne_zero hbuilt
        have heq := (h.1 hpos).2
        have heq' := (h'.1 hpos).2
        omega
      · exact ih (by omega) h.2 h'.2 v hv

/-- Groups inside one that is built twice or more are in step only without
    copies. -/
theorem inStep_scale_iff {visits : List Visit} {copies counter number : Nat}
    (hcopies : 2 ≤ copies) :
    InStep counter number (visits.map (Visit.scale copies)) ↔ Unbuilt visits := by
  refine ⟨fun h => ?_, fun h => Unbuilt.inStep (fun visit hvisit => ?_) _ _⟩
  · induction visits generalizing counter number with
    | nil => exact fun visit hvisit => absurd hvisit List.not_mem_nil
    | cons visit rest ih =>
        intro v hv
        rcases List.mem_cons.mp hv with rfl | hv
        · by_contra hbuilt
          have hscaled : 0 < (v.scale copies).times * (v.scale copies).copies := by
            have hpos := Nat.pos_of_ne_zero hbuilt
            have heq : (v.scale copies).times * (v.scale copies).copies
                = copies * (v.times * v.copies) := Nat.mul_assoc _ _ _
            rw [heq]
            exact Nat.mul_pos (by omega) hpos
          have hone : copies * v.times = 1 := (h.1 hscaled).1
          have hfactor := Nat.eq_one_of_mul_eq_one_right hone
          omega
        · exact ih h.2 v hv
  · rcases List.mem_map.mp hvisit with ⟨v, hv, rfl⟩
    have heq : (v.scale copies).times * (v.scale copies).copies
        = copies * (v.times * v.copies) := Nat.mul_assoc _ _ _
    rw [heq, h v hv, Nat.mul_zero]

end InStep

/-- A stretch of the construction moved the counter on by the visits, and gave
    the expected numbers exactly if the visits were in step. -/
def Draws (visits : List Visit) (expected : Nat → List Nat) (counter counter' : Nat)
    (numbers : List Nat) : Prop :=
  counter' = counter + totalVisits visits ∧ ∀ number,
    (expected number).length = numbers.length ∧
      (numbers = expected number ↔ InStep counter number visits)

theorem draws_nil (counter : Nat) : Draws [] (fun _ => []) counter counter [] :=
  ⟨rfl, fun _ => ⟨rfl, iff_of_true rfl trivial⟩⟩

theorem Draws.append {visits visits' : List Visit} {expected expected' : Nat → List Nat}
    {counter counter' counter'' : Nat} {numbers numbers' : List Nat}
    (h : Draws visits expected counter counter' numbers)
    (h' : Draws visits' expected' counter' counter'' numbers') :
    Draws (visits ++ visits')
      (fun number => expected number ++ expected' (number + visits.length)) counter counter''
      (numbers ++ numbers') := by
  refine ⟨?_, fun number => ?_⟩
  · rw [h'.1, h.1, totalVisits_append, Nat.add_assoc]
  · rcases h.2 number with ⟨hlength, hcorrect⟩
    rcases h'.2 (number + visits.length) with ⟨hlength', hcorrect'⟩
    refine ⟨by rw [List.length_append, List.length_append, hlength, hlength'], ?_⟩
    rw [inStep_append, ← hcorrect, ← h.1, ← hcorrect']
    refine ⟨fun heq => List.append_inj heq hlength.symm, fun heq => ?_⟩
    rw [heq.1, heq.2]

/-- Copies built one after the other, each with a head of its own in front of
    what its body draws. -/
def Chain (head : List Nat) (visits : List Visit) (expected : Nat → List Nat) :
    Nat → Nat → Nat → List Nat → Prop
  | 0, counter, counter', numbers => counter' = counter ∧ numbers = []
  | copies + 1, counter, counter'', numbers => ∃ counter' first rest,
    Draws visits expected counter counter' first ∧
      Chain head visits expected copies counter' counter'' rest ∧ numbers = head ++ first ++ rest

section Chain

variable {head : List Nat} {visits : List Visit} {expected : Nat → List Nat}

theorem Chain.append {copies copies' counter counter' counter'' : Nat} {numbers numbers' : List Nat}
    (h : Chain head visits expected copies counter counter' numbers)
    (h' : Chain head visits expected copies' counter' counter'' numbers') :
    Chain head visits expected (copies + copies') counter counter'' (numbers ++ numbers') := by
  induction copies generalizing counter numbers with
  | zero =>
      rcases h with ⟨rfl, rfl⟩
      rw [Nat.zero_add]
      exact h'
  | succ copies ih =>
      rcases h with ⟨middle, first, rest, hfirst, hrest, rfl⟩
      have hlen : copies + 1 + copies' = copies + copies' + 1 := by omega
      rw [hlen]
      exact ⟨middle, first, rest ++ numbers', hfirst, ih hrest, List.append_assoc _ _ _⟩

theorem Chain.counter_eq {copies counter counter' : Nat} {numbers : List Nat}
    (h : Chain head visits expected copies counter counter' numbers) :
    counter' = counter + copies * totalVisits visits := by
  induction copies generalizing counter numbers with
  | zero =>
      rw [Nat.zero_mul]
      exact h.1
  | succ copies ih =>
      rcases h with ⟨middle, first, rest, hfirst, hrest, -⟩
      rw [ih hrest, hfirst.1, Nat.succ_mul]
      omega

/-- The copies have the expected numbers if each of them is in step. -/
theorem Chain.correct {copies counter counter' : Nat} {numbers : List Nat}
    (h : Chain head visits expected copies counter counter' numbers) {expectedHead : List Nat}
    (hhead : expectedHead.length = head.length) (number : Nat) :
    (List.replicate copies (expectedHead ++ expected number)).flatten.length = numbers.length ∧
      (numbers = (List.replicate copies (expectedHead ++ expected number)).flatten ↔
        ∀ i, i < copies → head = expectedHead ∧
          InStep (counter + i * totalVisits visits) number visits) := by
  induction copies generalizing counter numbers with
  | zero =>
      rcases h with ⟨-, rfl⟩
      exact ⟨rfl, iff_of_true rfl fun i hi => absurd hi (Nat.not_lt_zero i)⟩
  | succ copies ih =>
      rcases h with ⟨middle, first, rest, hfirst, hrest, rfl⟩
      rcases hfirst.2 number with ⟨hlength, hcorrect⟩
      rcases ih hrest with ⟨hlength', hcorrect'⟩
      rw [List.replicate_succ, List.flatten_cons]
      -- The parts are equally long, so that equal lists have equal parts.
      have hone : (head ++ first).length = (expectedHead ++ expected number).length := by
        rw [List.length_append, List.length_append, hhead, hlength]
      refine ⟨by rw [List.length_append, hlength', ← hone, ← List.length_append], ?_⟩
      have hsplit : head ++ first ++ rest = expectedHead ++ expected number ++
          (List.replicate copies (expectedHead ++ expected number)).flatten ↔
          (head = expectedHead ∧ first = expected number) ∧
            rest = (List.replicate copies (expectedHead ++ expected number)).flatten := by
        refine ⟨fun heq => ?_, fun heq => ?_⟩
        · rcases List.append_inj heq hone with ⟨heq₁, heq₂⟩
          exact ⟨List.append_inj heq₁ hhead.symm, heq₂⟩
        · rw [heq.1.1, heq.1.2, heq.2]
      rw [hsplit, hcorrect, hcorrect', hfirst.1]
      -- The first copy is the one with the number 0, and the others are counted from it.
      refine ⟨fun hall i hi => ?_, fun hall => ⟨?_, fun i hi => ?_⟩⟩
      · rcases i with _ | i
        · rw [Nat.zero_mul, Nat.add_zero]
          exact hall.1
        · have hi' := hall.2 i (by omega)
          rw [Nat.succ_mul]
          rw [Nat.add_assoc, Nat.add_comm (totalVisits visits)] at hi'
          exact hi'
      · have hzero := hall 0 (Nat.succ_pos copies)
        rw [Nat.zero_mul, Nat.add_zero] at hzero
        exact hzero
      · have hi' := hall (i + 1) (by omega)
        rw [Nat.succ_mul, Nat.add_comm (i * _), ← Nat.add_assoc] at hi'
        exact hi'

/-- The copies have the expected numbers if the head is right, and the groups
    inside are in step as often as they are come to. -/
theorem Chain.draws {copies counter counter' : Nat} {numbers : List Nat}
    (h : Chain head visits expected copies counter counter' numbers) {expectedHead : List Nat}
    (hhead : expectedHead.length = head.length) (number : Nat) :
    numbers = (List.replicate copies (expectedHead ++ expected number)).flatten ↔
      (0 < copies → head = expectedHead) ∧
        InStep counter number (visits.map (Visit.scale copies)) := by
  rw [(h.correct hhead number).2]
  rcases copies with _ | _ | copies
  · refine iff_of_true (fun i hi => absurd hi (Nat.not_lt_zero i))
      ⟨fun hpos => absurd hpos (Nat.lt_irrefl 0), Unbuilt.inStep (fun visit hvisit => ?_) _ _⟩
    rcases List.mem_map.mp hvisit with ⟨v, -, rfl⟩
    simp only [Visit.scale, Nat.zero_mul]
  · have hscale : visits.map (Visit.scale 1) = visits := by
      refine (List.map_congr_left fun v _ => ?_).trans (List.map_id visits)
      simp only [Visit.scale, Nat.one_mul, id]
    rw [Nat.zero_add, hscale]
    simp only [Nat.lt_one_iff, forall_eq, Nat.zero_mul, Nat.add_zero, true_implies]
  · rw [inStep_scale_iff (by omega)]
    refine ⟨fun hall => ⟨fun _ => (hall 0 (by omega)).1, ?_⟩, fun hall i _ => ⟨hall.1 (by omega),
      hall.2.inStep _ _⟩⟩
    -- Two copies in step, with the counter moved on between them unless nothing was visited.
    by_cases htotal : totalVisits visits = 0
    · intro visit hvisit
      have hzero := List.sum_eq_zero_iff.mp htotal visit.times (List.mem_map_of_mem hvisit)
      rw [hzero, Nat.zero_mul]
    · exact unbuilt_of_inStep (by omega) (hall 0 (by omega)).2 (hall 1 (by omega)).2

end Chain

mutual

/-- The numbers in a plan, in the order in which its captures are built. -/
def Plan.groupNumbers : Plan → List Nat
  | .basic _ => []
  | .concat first second => first.groupNumbers ++ second.groupNumbers
  | .star _ body => body.groupNumbers
  | .plus _ body => body.groupNumbers
  | .option _ body => body.groupNumbers
  | .capture groupId body => groupId :: body.groupNumbers
  | .alternation alternatives => Plan.groupNumbersOfAlternatives alternatives

/-- The numbers in the alternatives, one after the other. -/
def Plan.groupNumbersOfAlternatives : List Plan → List Nat
  | [] => []
  | alternative :: rest => alternative.groupNumbers ++ Plan.groupNumbersOfAlternatives rest

end

theorem groupNumbers_wrap (copy : Copy) (body : Plan) :
    (copy.wrap body).groupNumbers = body.groupNumbers := by
  cases copy <;> rfl

/-- How many copies are in the row. -/
def Unrolling.length : Unrolling → Nat
  | .behindEpsilon copies => copies.length
  | .inRow _ others => others.length + 1

theorem length_rangeUnrolling (range : RangeQuantifier) (lazyModifier : Bool) :
    (range.unrolling lazyModifier).length = range.copies := by
  rcases range with ⟨exactly, lower, upper⟩
  unfold RangeQuantifier.unrolling RangeQuantifier.copies
  by_cases hlower : lower = 0
  · simp only [if_pos hlower]
    by_cases hupper : upper = some 0
    · simp only [if_pos hupper, Unrolling.length, List.length_nil]
    · simp only [if_neg hupper]
      cases exactly with
      | true => rfl
      | false =>
          cases upper with
          | none => rfl
          | some upper => exact List.length_replicate
  · simp only [if_neg hlower, Unrolling.length, List.length_append, List.length_replicate]
    cases upper with
    | none =>
        cases exactly with
        | true => exact Nat.sub_add_cancel (Nat.pos_of_ne_zero hlower)
        | false =>
            simp only [Bool.false_eq_true, if_false, List.length_singleton]
            omega
    | some upper =>
        simp only [List.length_replicate]
        omega

theorem length_unrolling {quantifier : Option Quantifier} {u : Unrolling}
    (h : unrolling quantifier = some u) : u.length = Quantifier.copies quantifier := by
  rcases quantifier with _ | ⟨type, range, lazyModifier⟩
  · cases h
    rfl
  · cases type with
    | range =>
        rcases range with _ | range
        · cases h
        · cases h
          exact length_rangeUnrolling range lazyModifier
    | zeroOrMore | oneOrMore | zeroOrOne =>
        cases h
        rfl

section Quantifiers

variable {head : List Nat} {visits : List Visit} {expected : Nat → List Nat} {one : Planner Plan}
  (h : ∀ counter result, one.run counter = .ok result →
    ∃ numbers, result.1.groupNumbers = head ++ numbers ∧
      Draws visits expected counter result.2 numbers)
include h

/-- One copy. -/
theorem chain_one {counter : Nat} {result : Plan × Nat} (hrun : one.run counter = .ok result) :
    Chain head visits expected 1 counter result.2 result.1.groupNumbers := by
  rcases h counter result hrun with ⟨numbers, hnumbers, hdraws⟩
  exact ⟨result.2, numbers, [], hdraws, ⟨rfl, rfl⟩, by rw [hnumbers, List.append_nil]⟩

theorem chain_row {copies : List Copy} {previous : Plan} {counter : Nat} {result : Plan × Nat}
    (hrun : (planRow one copies previous).run counter = .ok result) :
    ∃ more, result.1.groupNumbers = previous.groupNumbers ++ more ∧
      Chain head visits expected copies.length counter result.2 more := by
  induction copies generalizing previous counter with
  | nil =>
      rw [planRow, run_pure_eq_ok] at hrun
      subst hrun
      exact ⟨[], (List.append_nil _).symm, rfl, rfl⟩
  | cons copy copies ih =>
      rw [planRow, run_bind_eq_ok] at hrun
      rcases hrun with ⟨next, hnext, hrest⟩
      rcases ih hrest with ⟨more, hmore, hchain⟩
      have hboth := (chain_one h hnext).append hchain
      rw [Nat.add_comm] at hboth
      exact ⟨_, by rw [hmore, Plan.groupNumbers, groupNumbers_wrap, List.append_assoc], hboth⟩

/-- A quantifier builds its copies one after the other. -/
theorem chain_quantified {quantifier : Option Quantifier} {counter : Nat} {result : Plan × Nat}
    (hrun : (planQuantified quantifier one).run counter = .ok result) :
    Chain head visits expected (Quantifier.copies quantifier) counter result.2
      result.1.groupNumbers := by
  cases hunrolling : unrolling quantifier with
  | none =>
      rcases range_of_unrolling_eq_none hunrolling with ⟨lazyModifier, rfl⟩
      cases hrun
  | some u =>
      rw [planQuantified_eq one hunrolling] at hrun
      rw [← length_unrolling hunrolling]
      cases u with
      | behindEpsilon copies =>
          rcases chain_row h hrun with ⟨more, hmore, hchain⟩
          rw [hmore]
          exact hchain
      | inRow first others =>
          rw [Unrolling.plan, run_bind_eq_ok] at hrun
          rcases hrun with ⟨body, hbody, hrest⟩
          rcases chain_row h hrest with ⟨more, hmore, hchain⟩
          have hboth := (chain_one h hbody).append hchain
          rw [Nat.add_comm] at hboth
          rw [hmore, groupNumbers_wrap]
          exact hboth

end Quantifiers

section Trees

/-- A leaf with its quantifier draws nothing. -/
theorem planMatch_draws (quantifier : Option Quantifier) (condition : TransitionConditionType)
    {counter : Nat} {result : Plan × Nat}
    (hrun : (planQuantified quantifier (return .basic condition)).run counter = .ok result) :
    Draws [] (fun _ => []) counter result.2 result.1.groupNumbers := by
  have hone : ∀ counter result, (return .basic condition : Planner Plan).run counter = .ok result →
      ∃ numbers, result.1.groupNumbers = [] ++ numbers ∧
        Draws [] (fun _ => []) counter result.2 numbers := by
    intro counter result hpure
    rw [run_pure_eq_ok] at hpure
    subst hpure
    exact ⟨[], rfl, draws_nil counter⟩
  have hchain := chain_quantified hone hrun
  have hempty : ([] : List Nat).length = ([] : List Nat).length := rfl
  have hlength := (hchain.correct hempty 0).1
  have hnil :
      (List.replicate (Quantifier.copies quantifier) ([] ++ [] : List Nat)).flatten = [] := by
    rw [List.nil_append, List.flatten_replicate_nil]
  rw [hnil] at hlength
  have hnumbers : result.1.groupNumbers = [] := List.length_eq_zero_iff.mp hlength.symm
  have hcounter : result.2 = counter := hchain.counter_eq
  rw [hnumbers, hcounter]
  exact draws_nil counter

/-- A group draws a number for itself, and its body draws more for each copy. -/
theorem planGroup_draws_of_body {nonCapturingModifier : Bool} {body : Option (Planner Plan)}
    {quantifier : Option Quantifier} {visits : List Visit} {expected : Nat → List Nat}
    (hbody : ∀ counter result, (body.getD (return .basic .epsilon)).run counter = .ok result →
      Draws visits expected counter result.2 result.1.groupNumbers)
    {counter : Nat} {result : Plan × Nat}
    (hrun : (do
      let groupId ← planGroupId nonCapturingModifier
      planQuantified quantifier (planGroupBody nonCapturingModifier body groupId)).run counter
        = .ok result) :
    Draws
      (ownVisit nonCapturingModifier quantifier ++
        visits.map (Visit.scale (Quantifier.copies quantifier)))
      (fun number => (List.replicate (Quantifier.copies quantifier)
        ((ownNumber nonCapturingModifier number).1 ++
          expected (ownNumber nonCapturingModifier number).2)).flatten)
      counter result.2 result.1.groupNumbers := by
  rw [StateT.run_bind, run_planGroupId, ok_bind] at hrun
  simp only at hrun
  -- One copy draws its own number, if it has one, and then those of its body.
  have hone : ∀ inner result,
      (planGroupBody nonCapturingModifier body counter).run inner = .ok result →
      ∃ numbers, result.1.groupNumbers = (ownNumber nonCapturingModifier counter).1 ++ numbers ∧
        Draws visits expected inner result.2 numbers := by
    intro inner result hcopy
    rw [planGroupBody, run_bind_eq_ok] at hcopy
    rcases hcopy with ⟨plan, hplan, hcopy⟩
    rw [run_pure_eq_ok] at hcopy
    subst hcopy
    refine ⟨plan.1.groupNumbers, ?_, hbody inner plan hplan⟩
    cases nonCapturingModifier <;> rfl
  have hchain := chain_quantified hone hrun
  have hcounter := hchain.counter_eq
  refine ⟨?_, fun number => ?_⟩
  · rw [hcounter, totalVisits_append, totalVisits_scale]
    cases nonCapturingModifier with
    | true => exact Nat.add_assoc counter 0 _
    | false => exact Nat.add_assoc counter 1 _
  · have hhead : (ownNumber nonCapturingModifier number).1.length
        = (ownNumber nonCapturingModifier counter).1.length := by
      cases nonCapturingModifier <;> rfl
    refine ⟨(hchain.correct hhead _).1, ?_⟩
    rw [hchain.draws hhead, inStep_append]
    cases nonCapturingModifier with
    | true =>
        simp only [ownNumber, ownVisit, if_true, InStep, implies_true, totalVisits,
          List.map_nil, List.sum_nil, List.length_nil, Nat.add_zero]
    | false =>
        simp only [ownNumber, ownVisit, Bool.false_eq_true, if_false, InStep, totalVisits,
          List.map_cons, List.map_nil, List.sum_cons, List.sum_nil, List.length_singleton,
          Nat.add_zero, and_true, Nat.one_mul, true_and, List.cons.injEq]

mutual

/-- What planning a tree draws. -/
theorem planExpression_draws : ∀ (expression : Expression) (counter : Nat) (result : Plan × Nat),
    (planExpression expression).run counter = .ok result →
      Draws expression.visits expression.parenthesisNumbers counter result.2
        result.1.groupNumbers
  | .mk alternatives, counter, result, hrun => by
      rw [planExpression, run_bind_eq_ok] at hrun
      rcases hrun with ⟨plans, hplans, hrun⟩
      rw [run_pure_eq_ok] at hrun
      subst hrun
      exact planAlternatives_draws alternatives counter plans hplans

theorem planAlternatives_draws : ∀ (alternatives : List SubExpression) (counter : Nat)
    (result : List Plan × Nat), (planAlternatives alternatives).run counter = .ok result →
      Draws (Expression.visitsOfAlternatives alternatives)
        (Expression.parenthesisNumbersOfAlternatives alternatives) counter result.2
        (Plan.groupNumbersOfAlternatives result.1)
  | [], counter, result, hrun => by
      rw [planAlternatives, run_pure_eq_ok] at hrun
      subst hrun
      exact draws_nil counter
  | alternative :: rest, counter, result, hrun => by
      simp only [planAlternatives, run_bind_eq_ok, run_pure_eq_ok] at hrun
      rcases hrun with ⟨first, hfirst, more, hmore, rfl⟩
      exact (planSubExpression_draws alternative counter first hfirst).append
        (planAlternatives_draws rest _ more hmore)

theorem planSubExpression_draws : ∀ (subExpression : SubExpression) (counter : Nat)
    (result : Plan × Nat), (planSubExpression subExpression).run counter = .ok result →
      Draws subExpression.visits subExpression.parenthesisNumbers counter result.2
        result.1.groupNumbers
  | .mk [], counter, result, hrun => by
      rw [planSubExpression, run_pure_eq_ok] at hrun
      subst hrun
      exact draws_nil counter
  | .mk (first :: rest), counter, result, hrun => by
      rw [planSubExpression, run_bind_eq_ok] at hrun
      rcases hrun with ⟨plan, hplan, hrun⟩
      rcases planItems_draws rest plan.1 _ result hrun with ⟨more, hmore, hdraws⟩
      rw [hmore]
      exact (planSubExpressionItem_draws first counter plan hplan).append hdraws

theorem planItems_draws : ∀ (items : List SubExpressionItem) (first : Plan) (counter : Nat)
    (result : Plan × Nat), (planItems first items).run counter = .ok result →
      ∃ more, result.1.groupNumbers = first.groupNumbers ++ more ∧
        Draws (SubExpression.visitsOfItems items) (SubExpression.parenthesisNumbersOfItems items)
          counter result.2 more
  | [], first, counter, result, hrun => by
      rw [planItems, run_pure_eq_ok] at hrun
      subst hrun
      exact ⟨[], (List.append_nil _).symm, draws_nil counter⟩
  | item :: rest, first, counter, result, hrun => by
      rw [planItems, run_bind_eq_ok] at hrun
      rcases hrun with ⟨next, hnext, hrun⟩
      rcases planItems_draws rest (.concat first next.1) _ result hrun with ⟨more, hmore, hdraws⟩
      refine ⟨next.1.groupNumbers ++ more, ?_,
        (planSubExpressionItem_draws item counter next hnext).append hdraws⟩
      rw [hmore, Plan.groupNumbers, List.append_assoc]

theorem planSubExpressionItem_draws : ∀ (item : SubExpressionItem) (counter : Nat)
    (result : Plan × Nat), (planSubExpressionItem item).run counter = .ok result →
      Draws item.visits item.parenthesisNumbers counter result.2 result.1.groupNumbers
  | .singleMatch m, _, _, hrun => planMatch_draws m.quantifier _ hrun
  | .group g, counter, result, hrun => planGroup_draws g counter result hrun
  | .anchor a, counter, result, hrun => by
      rw [planSubExpressionItem, run_pure_eq_ok] at hrun
      subst hrun
      exact draws_nil counter
  | .backreference b, counter, result, hrun => by
      rw [planSubExpressionItem, run_pure_eq_ok] at hrun
      subst hrun
      exact draws_nil counter

theorem planGroup_draws : ∀ (group : Group) (counter : Nat) (result : Plan × Nat),
    (planGroup group).run counter = .ok result →
      Draws group.visits group.parenthesisNumbers counter result.2 result.1.groupNumbers
  | .mk nonCapturingModifier none quantifier, counter, result, hrun => by
      have hbody : ∀ counter result,
          ((none : Option (Planner Plan)).getD (return .basic .epsilon)).run counter = .ok result →
          Draws [] (fun _ => []) counter result.2 result.1.groupNumbers := by
        intro counter result hpure
        rw [Option.getD_none, run_pure_eq_ok] at hpure
        subst hpure
        exact draws_nil counter
      rw [planGroup] at hrun
      have hdraws := planGroup_draws_of_body hbody hrun
      simp only [List.map_nil, List.append_nil] at hdraws
      exact hdraws
  | .mk nonCapturingModifier (some expression) quantifier, counter, result, hrun => by
      rw [planGroup] at hrun
      have hbody : ∀ counter result,
          ((some (planExpression expression)).getD (return .basic .epsilon)).run counter
            = .ok result →
          Draws expression.visits expression.parenthesisNumbers counter result.2
            result.1.groupNumbers := planExpression_draws expression
      exact planGroup_draws_of_body hbody hrun

end

end Trees

/-- The groups whose entering transitions leave a state. -/
def startsAt (states : List State) (q : Nat) : List Nat :=
  (outgoing states q).filterMap fun transition =>
    match transition.condition with
    | .groupCaptureStart n => some n
    | _ => none

/-- The groups whose entering transitions leave the states from one on. -/
def numbersFrom (lo : Nat) (states : List State) : List Nat :=
  (List.range' lo (states.length - lo)).flatMap (startsAt states)

/-- The end of a copy is the state behind its start, and both have the same
    group. -/
def Paired (states : List State) : Prop :=
  ∀ s g, (∃ t, ⟨t, .groupCaptureStart g⟩ ∈ outgoing states s) ↔
    ∃ q, ⟨s + 1, .groupCaptureEnd g⟩ ∈ outgoing states q

section States

variable {states : List State}

theorem mem_outgoing_link {q source target : Nat} {condition : TransitionConditionType}
    {transition : Transition} :
    transition ∈ outgoing (link states source target condition) q ↔
      transition ∈ outgoing states q ∨
        (q = source ∧ source < states.length ∧ transition = ⟨target, condition⟩) := by
  by_cases hq : q = source
  · subst hq
    by_cases hlt : q < states.length
    · rw [outgoing_link_self _ hlt, List.mem_append, List.mem_singleton]
      simp only [hlt, true_and]
    · rw [outgoing_eq_nil _ (by rw [length_link]; omega), outgoing_eq_nil _ (by omega)]
      simp only [hlt, false_and, and_false, or_false]
  · rw [outgoing_link_of_ne _ hq]
    simp only [hq, false_and, or_false]

theorem startsAt_newState : startsAt (newState states) = startsAt states := by
  funext q
  unfold startsAt
  rw [outgoing_newState]

/-- A transition that enters no group adds none. -/
theorem startsAt_link {source target : Nat} {condition : TransitionConditionType}
    (h : ∀ g, condition ≠ .groupCaptureStart g) :
    startsAt (link states source target condition) = startsAt states := by
  funext q
  by_cases hq : q = source
  · subst hq
    by_cases hlt : q < states.length
    · unfold startsAt
      rw [outgoing_link_self _ hlt, List.filterMap_append]
      have hnone : List.filterMap (fun transition : Transition =>
          match transition.condition with
          | .groupCaptureStart n => some n
          | _ => none) [⟨target, condition⟩] = [] := by
        cases condition with
        | groupCaptureStart g => exact absurd rfl (h g)
        | _ => rfl
      rw [hnone, List.append_nil]
    · unfold startsAt
      rw [outgoing_eq_nil _ (by rw [length_link]; omega), outgoing_eq_nil _ (by omega)]
  · unfold startsAt
    rw [outgoing_link_of_ne _ hq]

theorem startsAt_fork {source first second : Nat} {lazyModifier : Bool} :
    startsAt (fork states source first second lazyModifier) = startsAt states := by
  have hepsilon : ∀ g, TransitionConditionType.epsilon ≠ .groupCaptureStart g :=
    fun g h => by cases h
  unfold fork
  split <;> rw [startsAt_link hepsilon, startsAt_link hepsilon]

theorem startsAt_eq_nil {q : Nat} (h : states.length ≤ q) : startsAt states q = [] := by
  unfold startsAt
  rw [outgoing_eq_nil _ h]
  rfl

theorem numbersFrom_newState {lo : Nat} (h : lo ≤ states.length) :
    numbersFrom lo (newState states) = numbersFrom lo states := by
  unfold numbersFrom
  rw [startsAt_newState, length_newState, Nat.succ_sub h, List.range'_concat, List.flatMap_append,
    Nat.one_mul]
  have hlast : lo + (states.length - lo) = states.length := by omega
  rw [hlast, List.flatMap_singleton, startsAt_eq_nil (Nat.le_refl _), List.append_nil]

theorem numbersFrom_link {lo source target : Nat} {condition : TransitionConditionType}
    (h : ∀ g, condition ≠ .groupCaptureStart g) :
    numbersFrom lo (link states source target condition) = numbersFrom lo states := by
  unfold numbersFrom
  rw [startsAt_link h, length_link]

theorem numbersFrom_fork {lo source first second : Nat} {lazyModifier : Bool} :
    numbersFrom lo (fork states source first second lazyModifier) = numbersFrom lo states := by
  unfold numbersFrom
  rw [startsAt_fork, length_fork]

/-- The states that were there before come first. -/
theorem Extends.numbersFrom_eq {states' : List State} {lo : Nat} (h : Extends states states')
    (hlo : lo ≤ states.length) :
    numbersFrom lo states' = numbersFrom lo states ++ numbersFrom states.length states' := by
  have hle := h.length_le
  unfold numbersFrom
  have hsplit : states'.length - lo
      = (states.length - lo) + (states'.length - states.length) := by omega
  have hjoin : lo + 1 * (states.length - lo) = states.length := by omega
  rw [hsplit, ← List.range'_append, List.flatMap_append, hjoin]
  congr 1
  refine List.flatMap_congr fun q hq => ?_
  have hlt : q < states.length := by
    rw [List.mem_range'_1] at hq
    omega
  unfold startsAt
  rw [h.outgoing_eq q hlt]

/-- What is collected from the states is collected from their numbers. -/
theorem flatMap_range {α : Type} (states : List State) (f : State → List α) :
    states.flatMap f = (List.range states.length).flatMap fun q => states[q]?.elim [] f := by
  induction states with
  | nil => rfl
  | cons state rest ih =>
      rw [List.flatMap_cons, List.length_cons, List.range_succ_eq_map, List.flatMap_cons,
        List.flatMap_map, ih]
      rfl

theorem captureNumbers_eq : captureNumbers states = numbersFrom 0 states := by
  unfold captureNumbers numbersFrom
  rw [flatMap_range, Nat.sub_zero, List.range_eq_range']
  refine List.flatMap_congr fun q _ => ?_
  unfold startsAt outgoing
  cases states[q]? <;> rfl

theorem Paired.newState (h : Paired states) : Paired (newState states) := by
  intro s g
  simp only [outgoing_newState]
  exact h s g

theorem Paired.link (h : Paired states) {source target : Nat} {condition : TransitionConditionType}
    (hcapture : ¬ condition.IsCapture) : Paired (link states source target condition) := by
  intro s g
  have hstart : ∀ t, (⟨t, .groupCaptureStart g⟩ : Transition) ≠ ⟨target, condition⟩ := by
    intro t heq
    rw [Transition.mk.injEq] at heq
    rw [← heq.2] at hcapture
    exact hcapture trivial
  have hend : (⟨s + 1, .groupCaptureEnd g⟩ : Transition) ≠ ⟨target, condition⟩ := by
    intro heq
    rw [Transition.mk.injEq] at heq
    rw [← heq.2] at hcapture
    exact hcapture trivial
  simp only [mem_outgoing_link, hstart, hend, and_false, or_false]
  exact h s g

theorem Paired.fork (h : Paired states) {source first second : Nat} {lazyModifier : Bool} :
    Paired (fork states source first second lazyModifier) := by
  unfold Grep.fork
  split
  · exact (h.link id).link id
  · exact (h.link id).link id

/-- The two transitions of a copy. -/
theorem Paired.capture (h : Paired states) {start entry exit groupId : Nat}
    (hstart : start < states.length) (hexit : exit < states.length) :
    Paired (Grep.link (Grep.link states start entry (.groupCaptureStart groupId))
      exit (start + 1) (.groupCaptureEnd groupId)) := by
  intro s g
  simp only [mem_outgoing_link, length_link, Transition.mk.injEq, reduceCtorEq, and_false, or_false,
    exists_or, h s g, TransitionConditionType.groupCaptureStart.injEq,
    TransitionConditionType.groupCaptureEnd.injEq, Nat.add_right_cancel_iff]
  refine or_congr_right ⟨fun hnew => ?_, fun hnew => ?_⟩
  · rcases hnew with ⟨t, rfl, -, -, rfl⟩
    exact ⟨exit, rfl, hexit, rfl, rfl⟩
  · rcases hnew with ⟨q, -, -, rfl, rfl⟩
    exact ⟨entry, rfl, hstart, rfl, rfl⟩

end States

theorem ne_captureStart {condition : TransitionConditionType} (h : ¬ condition.IsCapture)
    (g : Nat) :
    condition ≠ .groupCaptureStart g := by
  intro heq
  rw [heq] at h
  exact h trivial

/-- The number of a copy comes first, and behind it those of the body. -/
theorem numbersFrom_link_start {built : List State} {start entry groupId : Nat}
    (hlt : start + 2 ≤ built.length) (hstart : outgoing built start = [])
    (hend : outgoing built (start + 1) = []) :
    numbersFrom start (link built start entry (.groupCaptureStart groupId)) =
      groupId :: numbersFrom (start + 2) built := by
  have hlength : built.length - start = built.length - (start + 1 + 1) + 1 + 1 := by omega
  have hown : outgoing (link built start entry (.groupCaptureStart groupId)) start =
      [⟨entry, .groupCaptureStart groupId⟩] := by
    rw [outgoing_link_self _ (by omega), hstart, List.nil_append]
  have hother : ∀ q, start < q → startsAt (link built start entry (.groupCaptureStart groupId)) q =
      startsAt built q := by
    intro q hq
    unfold startsAt
    rw [outgoing_link_of_ne _ (by omega)]
  have hinner : (List.range' (start + 1 + 1) (built.length - (start + 1 + 1))).flatMap
      (startsAt (link built start entry (.groupCaptureStart groupId))) =
        numbersFrom (start + 2) built := by
    refine List.flatMap_congr fun q hq => hother q ?_
    rw [List.mem_range'_1] at hq
    omega
  rw [numbersFrom, length_link, hlength, List.range'_succ, List.range'_succ, List.flatMap_cons,
    List.flatMap_cons, hinner, hother _ (Nat.lt_succ_self _)]
  unfold startsAt
  rw [hown, hend]
  rfl

mutual

/-- Assembling a plan adds the plan's numbers, in order. -/
theorem numbersFrom_assemble : ∀ (plan : Plan) (states : List State) (lo : Nat),
    plan.Forall (fun c => ¬ c.IsCapture) → lo ≤ states.length →
      numbersFrom lo (plan.assemble states).2 = numbersFrom lo states ++ plan.groupNumbers
  | .basic condition, states, lo, h, hlo => by
      rw [Plan.assemble, Plan.groupNumbers, numbersFrom_link (ne_captureStart h),
        numbersFrom_newState (by rw [length_newState]; omega), numbersFrom_newState hlo,
        List.append_nil]
  | .concat first second, states, lo, h, hlo => by
      have hle := (assemble_isPiece [] first states).2.length_le
      rw [Plan.assemble, Plan.groupNumbers, numbersFrom_link (ne_captureStart id),
        numbersFrom_assemble second _ lo h.2 (Nat.le_trans hlo hle),
        numbersFrom_assemble first states lo h.1 hlo, List.append_assoc]
  | .star lazyModifier body, states, lo, h, hlo => by
      have hle := Nat.le_trans hlo (assemble_isPiece [] body states).2.length_le
      rw [Plan.assemble, Plan.groupNumbers, numbersFrom_fork, numbersFrom_fork,
        numbersFrom_newState (by rw [length_newState]; omega), numbersFrom_newState hle,
        numbersFrom_assemble body states lo h hlo]
  | .plus lazyModifier body, states, lo, h, hlo => by
      have hle := Nat.le_trans hlo (assemble_isPiece [] body states).2.length_le
      rw [Plan.assemble, Plan.groupNumbers, numbersFrom_fork, numbersFrom_newState hle,
        numbersFrom_assemble body states lo h hlo]
  | .option lazyModifier body, states, lo, h, hlo => by
      have hle := Nat.le_trans hlo (assemble_isPiece [] body states).2.length_le
      rw [Plan.assemble, Plan.groupNumbers, numbersFrom_link (ne_captureStart id),
        numbersFrom_fork, numbersFrom_newState (by rw [length_newState]; omega),
        numbersFrom_newState hle, numbersFrom_assemble body states lo h hlo]
  | .capture groupId body, states, lo, h, hlo => by
      rcases assemble_isPiece [] body (newState (newState states)) with ⟨-, hext⟩
      have hbody := numbersFrom_assemble body (newState (newState states)) (states.length + 2) h
        (by simp only [length_newState]; omega)
      have hle := hext.length_le
      have hkeep := hext.outgoing_eq
      simp only [length_newState, outgoing_newState] at hle hkeep
      -- There was nothing behind the two states before the body was assembled.
      have hnone : numbersFrom (states.length + 2) (newState (newState states)) = [] := by
        rw [numbersFrom, length_newState, length_newState, Nat.sub_self]
        rfl
      rw [hnone, List.nil_append] at hbody
      -- The body is linked to the two states only behind its assembly.
      have hfresh : ∀ q, states.length ≤ q → q < states.length + 2 →
          outgoing (body.assemble (newState (newState states))).2 q = [] := by
        intro q hq hlt
        rw [hkeep q hlt, outgoing_eq_nil _ hq]
      rw [(assemble_isPiece [] (.capture groupId body) states).2.numbersFrom_eq hlo,
        Plan.assemble, Plan.groupNumbers, numbersFrom_link (fun g heq => by cases heq),
        numbersFrom_link_start hle (hfresh _ (Nat.le_refl _) (by omega))
          (hfresh _ (by omega) (by omega)), hbody]
  | .alternation alternatives, states, lo, h, hlo => by
      have hbase : lo ≤ (newState states).length := by
        rw [length_newState]
        omega
      rw [Plan.assemble, Plan.groupNumbers,
        numbersFrom_assembleAlternatives alternatives _ _ _ lo h (by rw [length_newState]; omega),
        numbersFrom_newState hbase, numbersFrom_newState hlo]

theorem numbersFrom_assembleAlternatives : ∀ (alternatives : List Plan) (start accept : Nat)
    (states : List State) (lo : Nat),
    Plan.ForallAlternatives (fun c => ¬ c.IsCapture) alternatives → lo ≤ states.length →
      numbersFrom lo (Plan.assembleAlternatives start accept alternatives states)
        = numbersFrom lo states ++ Plan.groupNumbersOfAlternatives alternatives
  | [], _, _, _, _, _, _ => (List.append_nil _).symm
  | alternative :: rest, start, accept, states, lo, h, hlo => by
      have hle := Nat.le_trans hlo (assemble_isPiece [] alternative states).2.length_le
      rw [Plan.assembleAlternatives, Plan.groupNumbersOfAlternatives,
        numbersFrom_assembleAlternatives rest _ _ _ lo h.2 (by simp only [length_link]; exact hle),
        numbersFrom_link (ne_captureStart id), numbersFrom_link (ne_captureStart id),
        numbersFrom_assemble alternative states lo h.1 hlo, List.append_assoc]

end

mutual

/-- Assembling a plan keeps starts and ends of copies paired. -/
theorem paired_assemble : ∀ (plan : Plan) (states : List State),
    plan.Forall (fun c => ¬ c.IsCapture) → Paired states → Paired (plan.assemble states).2
  | .basic _, _, h, hstates => hstates.newState.newState.link h
  | .concat first second, states, h, hstates =>
      (paired_assemble second _ h.2 (paired_assemble first states h.1 hstates)).link id
  | .star _ body, states, h, hstates =>
      (paired_assemble body states h hstates).newState.newState.fork.fork
  | .plus _ body, states, h, hstates => (paired_assemble body states h hstates).newState.fork
  | .option _ body, states, h, hstates =>
      (paired_assemble body states h hstates).newState.newState.fork.link id
  | .capture groupId body, states, h, hstates => by
      have hbounds := assemble_bounds body (newState (newState states))
      simp only [length_newState] at hbounds
      exact (paired_assemble body _ h hstates.newState.newState).capture (by omega)
        hbounds.2.2.2
  | .alternation alternatives, states, h, hstates =>
      paired_assembleAlternatives alternatives _ _ _ h hstates.newState.newState

theorem paired_assembleAlternatives : ∀ (alternatives : List Plan) (start accept : Nat)
    (states : List State), Plan.ForallAlternatives (fun c => ¬ c.IsCapture) alternatives →
      Paired states → Paired (Plan.assembleAlternatives start accept alternatives states)
  | [], _, _, _, _, hstates => hstates
  | alternative :: rest, _, _, states, h, hstates =>
      paired_assembleAlternatives rest _ _ _ h.2
        (((paired_assemble alternative states h.1 hstates).link id).link id)

end

/-- The copies of capturing groups in an automaton, in the order in which they
    were built, have the numbers of their parentheses, at their starts and at
    their ends. -/
def NumberedByParenthesis (regex : Regex) (states : List State) : Prop :=
  captureNumbers states = regex.expression.parenthesisNumbers 1 ∧ Paired states

/-- The groups in step, one by one: where a copy is built, the group is come to
    once, and the groups that open before it are come to as often as there are
    of them. -/
theorem inStep_iff {visits : List Visit} {counter number : Nat} :
    InStep counter number visits ↔ ∀ k visit, visits[k]? = some visit →
      0 < visit.times * visit.copies →
        visit.times = 1 ∧ counter + totalVisits (visits.take k) = number + k := by
  induction visits generalizing counter number with
  | nil =>
      refine iff_of_true trivial fun k visit hvisit => ?_
      rw [List.getElem?_nil] at hvisit
      cases hvisit
  | cons first rest ih =>
      rw [InStep, ih]
      refine ⟨fun h k visit hvisit hbuilt => ?_, fun h => ⟨fun hbuilt => ?_,
        fun k visit hvisit hbuilt => ?_⟩⟩
      · rcases k with _ | k
        · rw [List.getElem?_cons_zero, Option.some.injEq] at hvisit
          subst hvisit
          exact h.1 hbuilt
        · rw [List.getElem?_cons_succ] at hvisit
          have hrest := h.2 k visit hvisit hbuilt
          rw [List.take_succ_cons, totalVisits_cons]
          omega
      · exact h 0 first List.getElem?_cons_zero hbuilt
      · have hrest := h (k + 1) visit (by rw [List.getElem?_cons_succ]; exact hvisit) hbuilt
        rw [List.take_succ_cons, totalVisits_cons] at hrest
        omega

/-- The numbers in the automaton of a pattern, against those of the
    parentheses. -/
theorem buildRegex_draws {regex : Regex} {element : NfaElement} {nfa : Nfa}
    (hbuild : (buildRegex regex).run {} = .ok (element, nfa)) :
    (∃ counter, Draws regex.expression.visits regex.expression.parenthesisNumbers 1 counter
        (captureNumbers nfa.states)) ∧ Paired nfa.states := by
  rcases buildRegex_eq_ok hbuild with ⟨result, hrun, -, hstates⟩
  have hN : NodePredicate.Implies {} (fun c => ¬ c.IsCapture) :=
    ⟨id, id, fun item _ => item.isLeaf_condition.1.not_isCapture, fun _ _ => id, fun _ _ => id⟩
  have hplan := planRegex_forall hN regex regex.expression.forall_default 1 result hrun
  have hpaired : Paired [] := by
    have hnil : ∀ q, outgoing [] q = [] := fun _ => rfl
    intro s g
    simp only [hnil, List.not_mem_nil, exists_false]
  rw [hstates]
  refine ⟨?_, paired_assemble result.1 [] hplan hpaired⟩
  have hnumbers := numbersFrom_assemble result.1 [] 0 hplan (Nat.zero_le _)
  have hnil : numbersFrom 0 [] = [] := rfl
  rw [hnil, List.nil_append] at hnumbers
  rw [captureNumbers_eq, hnumbers]
  rw [planRegex, run_bind_eq_ok] at hrun
  rcases hrun with ⟨inner, hinner, hrun⟩
  rw [run_pure_eq_ok] at hrun
  subst hrun
  have hdraws := planExpression_draws regex.expression 1 inner hinner
  refine ⟨inner.2, ?_⟩
  -- A leading anchor has no number.
  cases regex.startOfStringAnchor with
  | false => exact hdraws
  | true => exact hdraws

/-- The tree of `(a){2}`. -/
def groupTwice : Regex :=
  { expression := .mk [.mk [.group (.mk false
      (some (.mk [.mk [.singleMatch { matchItem := .character (codePoint 'a') }]]))
      (some {
        type := .range
        rangeQuantifier := some { exactlyLowerBoundTimes := true, lowerBound := 2 } }))]] }

/-- For every tree that is built: the copies of its capturing groups are
    numbered by their parentheses if and only if every group of which a copy is
    built is come to once, and the groups that open before it are come to as
    often as there are of them. -/
theorem buildRegex_numbered_iff (regex : Regex) (element : NfaElement) (nfa : Nfa)
    (hbuild : (buildRegex regex).run {} = .ok (element, nfa)) :
    NumberedByParenthesis regex nfa.states ↔
      ∀ k visit, regex.expression.visits[k]? = some visit → 0 < visit.times * visit.copies →
        visit.times = 1 ∧ totalVisits (regex.expression.visits.take k) = k := by
  rcases buildRegex_draws hbuild with ⟨⟨counter, hdraws⟩, hpaired⟩
  unfold NumberedByParenthesis
  rw [and_iff_left hpaired, (hdraws.2 1).2, inStep_iff]
  refine forall_congr' fun k => forall_congr' fun visit => ?_
  refine imp_congr_right fun _ => imp_congr_right fun _ => and_congr_right fun _ => ?_
  omega

/-- For instance in the tree of `(a){2}`: both copies of the group have number 1. -/
theorem buildRegex_numbered_iff_groupTwice :
    ∃ element nfa, (buildRegex groupTwice).run {} = .ok (element, nfa) ∧
      groupTwice.expression.parenthesisNumbers 1 = [1, 1] ∧
      NumberedByParenthesis groupTwice nfa.states := by
  have hparse : parseRegex [byte '(', byte 'a', byte ')', byte '{', byte '2', byte '}'] =
      .ok ⟨groupTwice, []⟩ := rfl
  rcases parseRegex_builds hparse with ⟨element, nfa, hbuild⟩
  refine ⟨element, nfa, hbuild, rfl, (buildRegex_numbered_iff groupTwice element nfa hbuild).mpr ?_⟩
  intro k visit hvisit _
  have hvisits : groupTwice.expression.visits = [⟨1, 2⟩] := rfl
  rw [hvisits] at hvisit ⊢
  cases k with
  | zero =>
      rw [List.getElem?_cons_zero, Option.some.injEq] at hvisit
      rw [← hvisit]
      exact ⟨rfl, rfl⟩
  | succ k =>
      rw [List.getElem?_cons_succ, List.getElem?_nil] at hvisit
      cases hvisit

/-- The pattern `((a)){2}`: a capturing group inside one that is built twice. -/
def nestedTwice : Regex :=
  { expression := .mk [.mk [.group (.mk false
      (some (.mk [.mk [.group (.mk false
        (some (.mk [.mk [.singleMatch { matchItem := .character (codePoint 'a') }]])) none)]]))
      (some {
        type := .range
        rangeQuantifier := some { exactlyLowerBoundTimes := true, lowerBound := 2 } }))]] }

/-- The automaton of `((a)){2}`. -/
def nestedTwiceNfa : Nfa :=
  { currentId := 22
    currentGroupId := 4
    states := [
      { id := 0, transitions := [⟨2, .epsilon⟩] },
      { id := 1 },
      { id := 2, transitions := [⟨4, .groupCaptureStart 1⟩] },
      { id := 3, transitions := [⟨12, .epsilon⟩] },
      { id := 4, transitions := [⟨6, .epsilon⟩] },
      { id := 5, transitions := [⟨3, .groupCaptureEnd 1⟩] },
      { id := 6, transitions := [⟨8, .groupCaptureStart 2⟩] },
      { id := 7, transitions := [⟨5, .epsilon⟩] },
      { id := 8, transitions := [⟨10, .epsilon⟩] },
      { id := 9, transitions := [⟨7, .groupCaptureEnd 2⟩] },
      { id := 10, transitions := [⟨11, .char (codePoint 'a')⟩] },
      { id := 11, transitions := [⟨9, .epsilon⟩] },
      { id := 12, transitions := [⟨14, .groupCaptureStart 1⟩] },
      { id := 13, transitions := [⟨1, .epsilon⟩] },
      { id := 14, transitions := [⟨16, .epsilon⟩] },
      { id := 15, transitions := [⟨13, .groupCaptureEnd 1⟩] },
      { id := 16, transitions := [⟨18, .groupCaptureStart 3⟩] },
      { id := 17, transitions := [⟨15, .epsilon⟩] },
      { id := 18, transitions := [⟨20, .epsilon⟩] },
      { id := 19, transitions := [⟨17, .groupCaptureEnd 3⟩] },
      { id := 20, transitions := [⟨21, .char (codePoint 'a')⟩] },
      { id := 21, transitions := [⟨19, .epsilon⟩] }] }

/-- The second copy of the inner group has number 3, and the parenthesis is the
    second one. -/
theorem buildRegex_misnumbers_nestedTwice :
    parseRegex [byte '(', byte '(', byte 'a', byte ')', byte ')', byte '{', byte '2', byte '}']
        = .ok ⟨nestedTwice, []⟩ ∧
      (buildRegex nestedTwice).run {} = .ok (⟨0, 1⟩, nestedTwiceNfa) ∧
      nestedTwice.expression.parenthesisNumbers 1 = [1, 2, 1, 2] ∧
      captureNumbers nestedTwiceNfa.states = [1, 2, 1, 3] ∧
      ¬ NumberedByParenthesis nestedTwice nestedTwiceNfa.states := by
  refine ⟨rfl, by decide +kernel, rfl, rfl, fun h => ?_⟩
  have hexpected : [1, 2, 1, 3] = [1, 2, 1, 2] := h.1
  exact absurd hexpected (by decide)

end Grep

end CodingChallenges
