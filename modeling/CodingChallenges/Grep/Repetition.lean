import CodingChallenges.Grep.Bounds

/-!
# Quantified Items

What the search returns for one item with a quantifier.

The builder adds the epsilon into an operand before the one around it for a
greedy quantifier and after it for a lazy one. The search is breadth first,
and returns a shortest run whatever the order. Every repetition takes the same
number of transitions, so the shortest run is the one with the fewest
repetitions, and greedy and lazy quantifiers both match as little as they can
(`matchOne_quantified`). A lazy one is meant to. A greedy one does as meant
only where the input, or the quantifier itself, leaves no choice.

`Repeats` says of a plan that crossing it does what a condition does a number
of times and that its cost is affine in that number. Joining two plans adds
both up, which is all the loops of the range quantifier need.

## Main definitions

* `MatchItem.accepts`: The characters an item stands for.
* `available`: How many leading characters an item accepts.
* `Quantifier.minimum`, `Quantifier.maximum`: The bounds of a quantifier.
* `Repeats`: A plan that repeats a condition.
* `Allowed`, `Preferred`: The numbers of repetitions, and the best of them.

## Theorems

* `acts_item_iff`: What an item reads inside the input.
* `repeats_quantified`: The plan of a quantified item.
* `matchOne_quantified`: The fewest repetitions are returned.
* `matchOne_preferred_iff`: When these are the ones to prefer.
-/

namespace CodingChallenges

namespace Grep

/-- A range of characters, or the one character. -/
def CharacterRange.accepts (r : CharacterRange) (c : Nat) : Bool :=
  match r.endChar with
  | some last => r.start ≤ c && c ≤ last
  | none => c == r.start

/-- The characters an item of a bracket group stands for. -/
def CharacterGroupItem.accepts : CharacterGroupItem → Nat → Bool
  | .characterClass c, x => c.type.test x
  | .unicodeCategory _, _ => false
  | .characterRange r, x => r.accepts x
  | .character c, x => x == c

/-- The characters an item stands for. -/
def MatchItem.accepts : MatchItem → Nat → Bool
  | .anyCharacter, _ => true
  | .characterClass (.characterGroup g), x =>
    (g.characterGroupItems.any (·.accepts x)).xor g.negativeModifier
  | .characterClass (.characterClass c), x => c.type.test x
  | .characterClass (.unicodeCategory _), _ => false
  | .character c, x => x == c

/-- How many characters the item accepts from a position on. -/
def availableFrom (item : MatchItem) (input : List Nat) (position : Nat) : Nat :=
  ((input.drop position).takeWhile item.accepts).length

/-- How many leading characters the item accepts. -/
def available (item : MatchItem) (input : List Nat) : Nat :=
  availableFrom item input 0

section Items

theorem processOneCharacter_cons (t : Nat) (test : Nat → Bool) (x : Nat) (rest : List Nat) :
    processOneCharacter t test (x :: rest) false
      = if test x then some { offset := 1, toStateId := t } else none := by
  simp only [processOneCharacter, Bool.xor_false]

/-- The items of a bracket group, tried one after the other. -/
theorem processGroupItems_cons (t : Nat) (negate : Bool) (x : Nat) (rest : List Nat)
    {items : List CharacterGroupItem} (h : ∀ c, .unicodeCategory c ∉ items) :
    processGroupItems t negate (x :: rest) items
      = .ok (if (items.any (·.accepts x)).xor negate then some { offset := 1, toStateId := t }
          else none) := by
  induction items with
  | nil => cases negate <;> rfl
  | cons item items ih =>
      have hrest := ih fun c hc => h c (List.mem_cons_of_mem item hc)
      have hitem : processGroupItem t item (x :: rest)
          = .ok (if item.accepts x then some { offset := 1, toStateId := t } else none) := by
        cases item with
        | unicodeCategory c => exact absurd List.mem_cons_self (h c)
        | characterClass c => exact congrArg Except.ok (processOneCharacter_cons t _ x rest)
        | characterRange r => exact congrArg Except.ok (processOneCharacter_cons t _ x rest)
        | character c => exact congrArg Except.ok (processOneCharacter_cons t _ x rest)
      unfold processGroupItems
      rw [hitem, ok_bind, List.any_cons]
      cases item.accepts x with
      | true => cases negate <;> rfl
      | false => exact hrest

/-- What an item reads in front of a character. -/
theorem leafOffset_item {item : MatchItem} (h : item.NoUnicode) {input : List Nat} {s x : Nat}
    (hx : input[s]? = some x) :
    leafOffset input item.condition s = .ok (if item.accepts x then some 1 else none) := by
  have hdrop : input.drop s = x :: input.drop (s + 1) := by
    rcases List.getElem?_eq_some_iff.mp hx with ⟨hs, rfl⟩
    exact List.drop_eq_getElem_cons hs
  have hsingle : ∀ test : Nat → Bool,
      (processOneCharacter 0 test (x :: input.drop (s + 1)) false).map TransitionResult.offset
        = if test x then some 1 else none := by
    intro test
    rw [processOneCharacter_cons]
    cases test x <;> rfl
  unfold leafOffset
  rw [hdrop]
  rcases item with _ | (g | c | u) | c
  · rfl
  · simp only [MatchItem.condition, processTransition, processCharacterGroupTransition,
      processGroupItems_cons 0 g.negativeModifier x _ h, ok_bind, pure_eq_ok, map_ok,
      MatchItem.accepts]
    exact congrArg Except.ok (apply_ite (Option.map TransitionResult.offset) _ _ _)
  · exact congrArg Except.ok (hsingle c.type.test)
  · exact absurd h id
  · exact congrArg Except.ok (hsingle (· == c))

/-- At the end of the input an item reads nothing, except for the dot. -/
theorem leafOffset_item_end {item : MatchItem} (hdot : item ≠ .anyCharacter) {input : List Nat}
    {s : Nat} (hs : input[s]? = none) (n : Nat) :
    leafOffset input item.condition s ≠ .ok (some n) := by
  have hdrop : input.drop s = [] := by
    rw [List.getElem?_eq_none_iff] at hs
    exact List.drop_eq_nil_of_le hs
  unfold leafOffset
  rw [hdrop]
  intro h
  rcases item with _ | (g | c | u) | c
  · exact hdot rfl
  · cases h
  · cases h
  · cases h
  · cases h

/-- What an item reads inside the input: one character it accepts. -/
theorem acts_item_iff {item : MatchItem} (h : item.NoUnicode) {input : List Nat} {d d' : Data}
    (hle : d'.1 ≤ input.length) :
    Acts input item.condition d d' ↔
      d' = (d.1 + 1, d.2) ∧ ∃ x, input[d.1]? = some x ∧ item.accepts x = true := by
  rw [acts_leaf_iff item.isLeaf_condition.1]
  refine ⟨fun hacts => ?_, fun hread => ?_⟩
  · rcases hacts with ⟨offset, hoffset, rfl⟩
    cases hx : input[d.1]? with
    | some x =>
        rw [leafOffset_item h hx] at hoffset
        cases haccepts : item.accepts x with
        | true =>
            rw [haccepts] at hoffset
            cases hoffset
            exact ⟨rfl, x, rfl, haccepts⟩
        | false =>
            rw [haccepts] at hoffset
            cases hoffset
    -- At the end only a dot reads on, and that leads out of the input.
    | none =>
        exfalso
        by_cases hdot : item = .anyCharacter
        · subst hdot
          cases hoffset
          rw [List.getElem?_eq_none_iff] at hx
          simp only at hle
          omega
        · exact leafOffset_item_end hdot hx offset hoffset
  · rcases hread with ⟨rfl, x, hx, haccepts⟩
    refine ⟨1, ?_, rfl⟩
    rw [leafOffset_item h hx, haccepts]
    rfl

/-- So many repetitions inside the input: the item accepts so many characters. -/
theorem runs_item_iff {item : MatchItem} (h : item.NoUnicode) {input : List Nat} {k : Nat}
    {d d' : Data} (hle : d'.1 ≤ input.length) :
    Runs (Acts input item.condition) k d d' ↔
      d' = (d.1 + k, d.2) ∧ k ≤ availableFrom item input d.1 := by
  induction k generalizing d with
  | zero =>
      simp only [Runs.zero_iff, Nat.add_zero, Nat.zero_le, and_true]
      exact eq_comm
  | succ k ih =>
      have hcount : ∀ x, input[d.1]? = some x → item.accepts x = true →
          availableFrom item input d.1 = availableFrom item input (d.1 + 1) + 1 := by
        intro x hx haccepts
        rcases List.getElem?_eq_some_iff.mp hx with ⟨hs, rfl⟩
        unfold availableFrom
        rw [List.drop_eq_getElem_cons hs, List.takeWhile_cons, haccepts]
        rfl
      rw [Runs.succ_iff]
      refine ⟨fun hruns => ?_, fun hread => ?_⟩
      · rcases hruns with ⟨m, hfirst, hrest⟩
        -- The rest of the run does not go back, so the first character is inside the input.
        have hm : m.1 ≤ d'.1 := by
          refine hrest.preserves (P := fun e => m.1 ≤ e.1) (fun a b ha hab => ?_) (Nat.le_refl _)
          exact Nat.le_trans ha hab.position_le
        rcases (acts_item_iff h (Nat.le_trans hm hle)).mp hfirst with ⟨rfl, x, hx, haccepts⟩
        rcases ih.mp hrest with ⟨rfl, hk⟩
        simp only at hk ⊢
        rw [hcount x hx haccepts]
        exact ⟨by rw [Nat.add_right_comm, Nat.add_assoc], by omega⟩
      · rcases hread with ⟨rfl, hk⟩
        -- A first character is accepted, since at least one is.
        have hfirst : ∃ x, input[d.1]? = some x ∧ item.accepts x = true := by
          unfold availableFrom at hk
          cases hdrop : input.drop d.1 with
          | nil =>
              rw [hdrop] at hk
              exact absurd hk (Nat.not_succ_le_zero k)
          | cons x rest =>
              have hx : input[d.1]? = some x := by
                rw [← List.head?_drop, hdrop]
                rfl
              rw [hdrop, List.takeWhile_cons] at hk
              by_cases haccepts : item.accepts x = true
              · exact ⟨x, hx, haccepts⟩
              · rw [if_neg haccepts] at hk
                exact absurd hk (Nat.not_succ_le_zero k)
        rcases hfirst with ⟨x, hx, haccepts⟩
        rw [hcount x hx haccepts] at hk
        simp only at hle
        have hstep : Acts input item.condition d (d.1 + 1, d.2) := by
          rw [acts_item_iff h (by simp only; omega)]
          exact ⟨rfl, x, hx, haccepts⟩
        refine ⟨_, hstep, ih.mpr ⟨?_, by simp only; omega⟩⟩
        simp only [Prod.mk.injEq, and_true]
        omega

end Items

/-- The fewest repetitions of a quantifier. -/
def Quantifier.minimum (quantifier : Quantifier) : Nat :=
  match quantifier.type with
  | .zeroOrMore => 0
  | .oneOrMore => 1
  | .zeroOrOne => 0
  | .range => (quantifier.rangeQuantifier.map RangeQuantifier.lowerBound).getD 0

/-- The most repetitions a range quantifier allows, if it has a bound. -/
def RangeQuantifier.maximum (range : RangeQuantifier) : Option Nat :=
  match range.upperBound with
  | some upperBound => some upperBound
  | none => if range.exactlyLowerBoundTimes then some range.lowerBound else none

/-- The most repetitions of a quantifier, if it has a bound. -/
def Quantifier.maximum (quantifier : Quantifier) : Option Nat :=
  match quantifier.type with
  | .zeroOrMore => none
  | .oneOrMore => none
  | .zeroOrOne => some 1
  | .range => quantifier.rangeQuantifier.bind RangeQuantifier.maximum

/-- The bounds are bounds, and in order. -/
theorem RangeQuantifier.allows_iff {range : RangeQuantifier} (h : range.WellShaped) (k : Nat) :
    range.Allows k ↔ range.lowerBound ≤ k ∧ ∀ u ∈ range.maximum, k ≤ u := by
  rcases range with ⟨exactly, lower, upper⟩
  unfold RangeQuantifier.Allows RangeQuantifier.maximum
  cases upper with
  | some upper => simp only [Option.mem_some_iff, forall_eq']
  | none =>
      cases exactly with
      | true =>
          simp only [if_true, Option.mem_some_iff, forall_eq']
          omega
      | false =>
          simp only [Bool.false_eq_true, if_false, Option.mem_def, reduceCtorEq, false_implies,
            implies_true, and_true]

theorem RangeQuantifier.lowerBound_le {range : RangeQuantifier} (h : range.WellShaped) :
    ∀ u ∈ range.maximum, range.lowerBound ≤ u := by
  rcases range with ⟨exactly, lower, upper⟩
  unfold RangeQuantifier.maximum
  cases upper with
  | some upper =>
      intro u hu
      cases hu
      exact h.2
  | none =>
      cases exactly with
      | true =>
          intro u hu
          cases hu
          exact Nat.le_refl lower
      | false =>
          intro u hu
          cases hu

theorem Quantifier.allows_iff {quantifier : Quantifier} (h : quantifier.WellShaped) (k : Nat) :
    quantifier.Allows k ↔ quantifier.minimum ≤ k ∧ ∀ u ∈ quantifier.maximum, k ≤ u := by
  rcases quantifier with ⟨type, range, lazyModifier⟩
  unfold Quantifier.Allows Quantifier.minimum Quantifier.maximum
  cases type with
  | zeroOrMore =>
      simp only [Nat.zero_le, Option.mem_def, reduceCtorEq, false_implies, implies_true, and_self]
  | oneOrMore =>
      simp only [Option.mem_def, reduceCtorEq, false_implies, implies_true, and_true]
  | zeroOrOne => simp only [Nat.zero_le, Option.mem_some_iff, forall_eq', true_and]
  | range =>
      rcases h rfl with ⟨numbers, hnumbers, hshape⟩
      have hsome : range = some numbers := hnumbers
      subst hsome
      exact RangeQuantifier.allows_iff hshape k

theorem Quantifier.allows_minimum {quantifier : Quantifier} (h : quantifier.WellShaped) :
    quantifier.Allows quantifier.minimum := by
  rw [quantifier.allows_iff h]
  refine ⟨Nat.le_refl _, ?_⟩
  rcases quantifier with ⟨type, range, lazyModifier⟩
  unfold Quantifier.minimum Quantifier.maximum
  intro u hu
  cases type with
  | zeroOrMore => exact Nat.zero_le u
  | oneOrMore => cases hu
  | zeroOrOne => exact Nat.zero_le u
  | range =>
      rcases h rfl with ⟨numbers, hnumbers, hshape⟩
      have hsome : range = some numbers := hnumbers
      subst hsome
      exact RangeQuantifier.lowerBound_le hshape u hu

/-- Crossing the plan does what the condition does as often as `count` permits,
    and every time costs two transitions. -/
structure Repeats (condition : TransitionConditionType) (plan : Plan) (base : Nat)
    (count : Nat → Prop) : Prop where
  cost_pos : ∀ k, count k → 0 < base + 2 * k
  crossing_iff : ∀ input d n d', plan.crossing (Acts input) d n d' ↔
    ∃ k, count k ∧ Runs (Acts input condition) k d d' ∧ n + 1 = base + 2 * k

section Plans

variable {condition : TransitionConditionType}

theorem Repeats.congr {plan : Plan} {base : Nat} {count count' : Nat → Prop}
    (h : Repeats condition plan base count) (hcount : ∀ k, count k ↔ count' k) :
    Repeats condition plan base count' := by
  have heq : count = count' := funext fun k => propext (hcount k)
  rwa [← heq]

theorem repeats_basic : Repeats condition (.basic condition) 0 (· = 1) := by
  refine ⟨fun k hk => by omega, fun input d n d' => ?_⟩
  simp only [Plan.crossing, CostRel.atom, exists_eq_left, Runs.succ_iff, Runs.zero_iff,
    exists_eq_right]
  rw [and_comm]
  refine and_congr_right fun _ => ?_
  omega

theorem repeats_epsilon : Repeats condition (.basic .epsilon) 2 (· = 0) := by
  refine ⟨fun k hk => by omega, fun input d n d' => ?_⟩
  simp only [Plan.crossing, CostRel.atom, exists_eq_left, Runs.zero_iff, acts_epsilon_iff]
  rw [and_comm, eq_comm]
  refine and_congr_right fun _ => ?_
  omega

/-- Joining two plans adds up their costs and repetitions. -/
theorem Repeats.concat {first second : Plan} {base base' : Nat} {count count' : Nat → Prop}
    (h : Repeats condition first base count) (h' : Repeats condition second base' count') :
    Repeats condition (.concat first second) (base + base')
      (fun k => ∃ i j, count i ∧ count' j ∧ k = i + j) := by
  refine ⟨fun k hk => ?_, fun input d n d' => ?_⟩
  · rcases hk with ⟨i, j, hi, -, rfl⟩
    have hpos := h.cost_pos i hi
    omega
  · rw [Plan.crossing]
    refine ⟨fun hcross => ?_, fun hruns => ?_⟩
    · rcases hcross with ⟨n₁, m, n₂, hfirst, hrest, rfl⟩
      rcases CostRel.tick_seq_iff.mp hrest with ⟨n₃, hsecond, rfl⟩
      rcases (h.crossing_iff input d n₁ m).mp hfirst with ⟨i, hi, hruns₁, hcost₁⟩
      rcases (h'.crossing_iff input m n₃ d').mp hsecond with ⟨j, hj, hruns₂, hcost₂⟩
      exact ⟨i + j, ⟨i, j, hi, hj, rfl⟩, hruns₁.trans hruns₂, by omega⟩
    · rcases hruns with ⟨_, ⟨i, j, hi, hj, rfl⟩, hruns, hcost⟩
      rcases hruns.split with ⟨m, hruns₁, hruns₂⟩
      have hpos₁ := h.cost_pos i hi
      have hpos₂ := h'.cost_pos j hj
      have hfirst := (h.crossing_iff input d (base + 2 * i - 1) m).mpr
        ⟨i, hi, hruns₁, by omega⟩
      have hsecond := (h'.crossing_iff input m (base' + 2 * j - 1) d').mpr
        ⟨j, hj, hruns₂, by omega⟩
      exact ⟨_, m, _, hfirst, CostRel.tick_seq_iff.mpr ⟨_, hsecond, rfl⟩, by omega⟩

/-- A plan that crosses any allowed number of rounds of the condition, behind a
    tick or not. -/
theorem repeats_rounds {plan : Plan} {count : Nat → Prop} {R : List Nat → CostRel Data}
    (hR : ∀ input, R input
      = CostRel.many count ((CostRel.atom (Acts input condition)).seq CostRel.tick)) :
    ((∀ input, plan.crossing (Acts input) = CostRel.tick.seq (R input)) →
      Repeats condition plan 2 count) ∧
    ((∀ input, plan.crossing (Acts input) = R input) → (∀ k, count k → 1 ≤ k) →
      Repeats condition plan 1 count) := by
  have hmany : ∀ input d n d', R input d n d' ↔
      ∃ k, count k ∧ Runs (Acts input condition) k d d' ∧ n = 2 * k := by
    intro input d n d'
    rw [hR]
    simp only [CostRel.many, CostRel.power_atom_tick_iff, and_comm]
  refine ⟨fun hplan => ⟨fun k _ => by omega, fun input d n d' => ?_⟩,
    fun hplan hpos => ⟨fun k _ => by omega, fun input d n d' => ?_⟩⟩
  · rw [hplan, CostRel.tick_seq_iff]
    simp only [hmany]
    refine ⟨fun h => ?_, fun h => ?_⟩
    · rcases h with ⟨m, ⟨k, hk, hruns, rfl⟩, rfl⟩
      exact ⟨k, hk, hruns, by omega⟩
    · rcases h with ⟨k, hk, hruns, hcost⟩
      exact ⟨2 * k, ⟨k, hk, hruns, rfl⟩, by omega⟩
  · rw [hplan, hmany]
    refine exists_congr fun k => and_congr_right fun _ => and_congr_right fun _ => ?_
    omega

theorem repeats_star (lazyModifier : Bool) :
    Repeats condition (.star lazyModifier (.basic condition)) 2 (fun _ => True) :=
  (repeats_rounds fun _ => rfl).1 fun _ => by simp only [Plan.crossing]

theorem repeats_plus (lazyModifier : Bool) :
    Repeats condition (.plus lazyModifier (.basic condition)) 1 (1 ≤ ·) :=
  (repeats_rounds fun _ => rfl).2 (fun _ => by simp only [Plan.crossing]) fun _ hk => hk

theorem repeats_option (lazyModifier : Bool) :
    Repeats condition (.option lazyModifier (.basic condition)) 2 (· ≤ 1) :=
  (repeats_rounds fun _ => rfl).1 fun _ => by simp only [Plan.crossing]

/-- A copy of the condition, with what is put around it. -/
theorem repeats_wrap (copy : Copy) :
    ∃ base, Repeats condition (copy.wrap (.basic condition)) base copy.Allows := by
  cases copy with
  | plain => exact ⟨_, repeats_basic⟩
  | star lazyModifier => exact ⟨_, repeats_star lazyModifier⟩
  | plus lazyModifier => exact ⟨_, repeats_plus lazyModifier⟩
  | option lazyModifier => exact ⟨_, repeats_option lazyModifier⟩

/-- The copies of a row add their repetitions, at a fixed cost. -/
theorem repeats_row (copies : List Copy) {first : Plan} {base : Nat} {allowed : Nat → Prop}
    (h : Repeats condition first base allowed) (groupId : Nat) :
    ∃ plan base', (planRow (return .basic condition) copies first).run groupId
        = .ok (plan, groupId) ∧
      Repeats condition plan base'
        (fun k => ∃ i j, allowed i ∧ RowAllows copies j ∧ k = i + j) := by
  induction copies generalizing first base allowed with
  | nil =>
      refine ⟨first, base, rfl, h.congr fun k => ?_⟩
      simp only [RowAllows, exists_and_left, exists_eq_left, Nat.add_zero, exists_eq_right']
  | cons copy copies ih =>
      rcases repeats_wrap copy with ⟨base', hcopy⟩
      rcases ih (h.concat hcopy) with ⟨plan, base'', hrun, hplan⟩
      refine ⟨plan, base'', hrun, hplan.congr fun k => ⟨fun hk => ?_, fun hk => ?_⟩⟩
      · rcases hk with ⟨_, l, ⟨i, j, hi, hj, rfl⟩, hl, rfl⟩
        exact ⟨i, j + l, hi, ⟨j, l, hj, hl, rfl⟩, Nat.add_assoc i j l⟩
      · rcases hk with ⟨i, _, hi, ⟨j, l, hj, hl, rfl⟩, rfl⟩
        exact ⟨i + j, l, ⟨i, j, hi, hj, rfl⟩, hl, (Nat.add_assoc i j l).symm⟩

theorem repeats_unrolling (condition : TransitionConditionType) (u : Unrolling) (groupId : Nat) :
    ∃ plan base, (u.plan (return .basic condition)).run groupId = .ok (plan, groupId) ∧
      Repeats condition plan base u.Allows := by
  cases u with
  | behindEpsilon copies =>
      have hepsilon : Repeats condition (.basic .epsilon) 2 (· = 0) := repeats_epsilon
      rcases repeats_row copies hepsilon groupId with ⟨plan, base, hrun, hplan⟩
      refine ⟨plan, base, hrun, hplan.congr fun k => ?_⟩
      simp only [Unrolling.Allows, exists_and_left, exists_eq_left, Nat.zero_add, exists_eq_right']
  | inRow first others =>
      rcases repeats_wrap first with ⟨base, hfirst⟩
      exact (repeats_row others hfirst groupId).imp fun plan hplan => hplan

/-- The plan of a quantified item repeats its condition as often as the
    quantifier allows. -/
theorem repeats_quantified (condition : TransitionConditionType) (quantifier : Quantifier)
    (hshape : quantifier.WellShaped) (groupId : Nat) :
    ∃ plan base, (planQuantified (some quantifier) (return .basic condition)).run groupId
        = .ok (plan, groupId) ∧ Repeats condition plan base quantifier.Allows := by
  rcases exists_unrolling hshape with ⟨u, hunrolling, hallows⟩
  rcases repeats_unrolling condition u groupId with ⟨plan, base, hrun, hplan⟩
  rw [planQuantified_eq _ hunrolling]
  exact ⟨plan, base, hrun, hplan.congr hallows⟩

end Plans

/-- The pattern that consists of one item and its quantifier. -/
def quantifiedItem (item : MatchItem) (quantifier : Quantifier) : Regex :=
  { expression := .mk [.mk [.singleMatch { matchItem := item, quantifier := some quantifier }]] }

/-- The numbers of repetitions the quantifier and the input allow at position
    zero. -/
def Allowed (item : MatchItem) (quantifier : Quantifier) (input : List Nat) (k : Nat) : Prop :=
  quantifier.Allows k ∧ k ≤ available item input

/-- The greatest of them, or the least for a lazy quantifier. -/
def Preferred (item : MatchItem) (quantifier : Quantifier) (input : List Nat) (k : Nat) : Prop :=
  Allowed item quantifier input k ∧ ∀ k', Allowed item quantifier input k' →
    if quantifier.lazyModifier then k ≤ k' else k' ≤ k

/-- The result is the whole match of the preferred repetitions, and there is
    none exactly when no number of repetitions is allowed. -/
def ReturnsPreferred (item : MatchItem) (quantifier : Quantifier) (input : List Nat)
    (result : Option MatchResult) : Prop :=
  (∀ k, Preferred item quantifier input k → result = some ⟨[⟨0, some 0, some k⟩]⟩) ∧
    (result = none ↔ ¬ ∃ k, Allowed item quantifier input k)

section Search

variable {item : MatchItem} {quantifier : Quantifier} {plan : Plan} {base : Nat}
  {count : Nat → Prop} {nfa : Nfa}

/-- The automaton of the pattern is that of a plan repeating the item. -/
theorem buildRegex_quantifiedItem (item : MatchItem) (hshape : quantifier.WellShaped) :
    ∃ plan base nfa, Repeats item.condition plan base quantifier.Allows ∧
      (buildRegex (quantifiedItem item quantifier)).run {} = .ok (⟨0, 1⟩, nfa) ∧
      nfa.states = ((Plan.alternation [plan]).assemble []).2 := by
  rcases repeats_quantified item.condition quantifier hshape 1 with ⟨plan, base, hrun, hplan⟩
  have hregex : (planRegex (quantifiedItem item quantifier)).run 1
      = .ok (.alternation [plan], 1) := by
    simp only [planRegex, quantifiedItem, planExpression, planAlternatives, planSubExpression,
      planSubExpressionItem, planItems, StateT.run_bind, hrun, ok_bind, StateT.run_pure,
      pure_eq_ok, Bool.false_eq_true, if_false]
  refine ⟨plan, base, Nfa.ofStates ((Plan.alternation [plan]).assemble []).2 1, hplan, ?_, rfl⟩
  rw [buildRegex_eq, hregex]
  rfl

theorem crossing_single (hplan : Repeats item.condition plan base count) {input : List Nat}
    {d d' : Data} {n : Nat} :
    (Plan.alternation [plan]).crossing (Acts input) d n d' ↔
      ∃ k, count k ∧ Runs (Acts input item.condition) k d d' ∧ n = base + 2 * k + 1 := by
  rw [Plan.crossing, Plan.crossingAlternatives]
  simp only [Plan.crossingAlternatives, or_false, CostRel.tick_seq_iff, CostRel.seq_tick_iff,
    hplan.crossing_iff]
  refine ⟨fun h => ?_, fun h => ?_⟩
  · rcases h with ⟨_, ⟨m, ⟨k, hk, hruns, hcost⟩, rfl⟩, rfl⟩
    exact ⟨k, hk, hruns, by omega⟩
  · rcases h with ⟨k, hk, hruns, rfl⟩
    have hpos := hplan.cost_pos k hk
    exact ⟨_, ⟨base + 2 * k - 1, ⟨k, hk, hruns, by omega⟩, rfl⟩, by omega⟩

/-- The accepting runs: one for each number of repetitions, two transitions
    apart. -/
theorem accepts_quantifiedItem_iff (hitem : item.NoUnicode)
    (hplan : Repeats item.condition plan base count)
    (hstates : nfa.states = ((Plan.alternation [plan]).assemble []).2) (input : List Nat) (n : Nat)
    (c : MatchState) :
    (compiled ⟨0, 1⟩ nfa).Accepts input 0 n c ↔
      ∃ k, count k ∧ k ≤ available item input ∧ c = ⟨k, 1, none⟩ ∧ n = base + 2 * k + 1 := by
  have hstart : (compiled ⟨0, 1⟩ nfa).startAt 0 = configuration (0, (0, none)) := rfl
  have hcross := fun d : Data =>
    runs_assemble_iff input (Plan.alternation [plan]) (n := n) (0, none) d
  unfold Matcher.Accepts
  rw [hstart]
  simp only [compiled, hstates]
  refine ⟨fun h => ?_, fun h => ?_⟩
  · rcases h with ⟨hstate, hruns⟩
    have hc : c = configuration (1, (c.inputPosition, c.groupRanges)) := by
      rw [configuration, ← hstate]
    rw [hc] at hruns
    -- The last step is an epsilon, taken inside the input.
    have hle : c.inputPosition ≤ input.length := by
      rcases n with _ | n
      · rw [Runs.zero_iff] at hruns
        have hids : 0 = 1 := congrArg MatchState.currentStateId hruns
        exact absurd hids Nat.zero_ne_one
      · rcases hruns.unsnoc with ⟨b, -, hlast⟩
        have hb : b = configuration (b.currentStateId, (b.inputPosition, b.groupRanges)) := rfl
        rw [hb, transits_configuration_iff] at hlast
        have hexit := alternation_exit input [plan] hlast.2 rfl
        simp only [Prod.mk.injEq] at hexit
        rw [hexit.1]
        exact hlast.1
    rw [runs_transits_iff hle] at hruns
    rcases (crossing_single hplan).mp ((hcross _).mp hruns) with ⟨k, hk, hrepeat, hcost⟩
    rcases (runs_item_iff hitem hle).mp hrepeat with ⟨hdata, havailable⟩
    simp only [Nat.zero_add, Prod.mk.injEq] at hdata
    refine ⟨k, hk, havailable, ?_, hcost⟩
    rw [hc, hdata.1, hdata.2]
    rfl
  · rcases h with ⟨k, hk, havailable, rfl, rfl⟩
    have hle : k ≤ input.length :=
      Nat.le_trans havailable ((List.takeWhile_sublist _).length_le)
    have hrepeat : Runs (Acts input item.condition) k (0, none) (k, none) :=
      (runs_item_iff hitem hle).mpr ⟨by rw [Nat.zero_add], havailable⟩
    refine ⟨rfl, (runs_transits_iff (y := (1, (k, none))) hle).mpr ?_⟩
    exact (hcross _).mpr ((crossing_single hplan).mpr ⟨k, hk, hrepeat, rfl⟩)

theorem targetsExist_quantifiedItem
    (hbuild : (buildRegex (quantifiedItem item quantifier)).run {} = .ok (⟨0, 1⟩, nfa)) :
    TargetsExist (compiled ⟨0, 1⟩ nfa).states := by
  have hback : (quantifiedItem item quantifier).expression.Forall noBackreference :=
    ⟨⟨⟨trivial, trivial⟩, trivial⟩, trivial⟩
  have h := buildRegex_conditions hbuild noBackreference_implies_not_isCapture
    (fun _ => ⟨trivial, trivial⟩) hback
  exact targetsExist_of_outgoing fun q transition hmem => (h q transition hmem).1

/-- The fewest repetitions are returned, by greedy and lazy quantifiers alike. -/
theorem matchOne_quantified (hitem : item.NoUnicode) (hshape : quantifier.WellShaped) :
    ∃ nfa, (buildRegex (quantifiedItem item quantifier)).run {} = .ok (⟨0, 1⟩, nfa) ∧
      ∀ input result, matchOne (compiled ⟨0, 1⟩ nfa) input = .ok result →
        result = if quantifier.minimum ≤ available item input then
          some ⟨[⟨0, some 0, some quantifier.minimum⟩]⟩ else none := by
  rcases buildRegex_quantifiedItem item hshape with
    ⟨plan, base, nfa, hplan, hbuild, hstates⟩
  refine ⟨nfa, hbuild, fun input result hresult => ?_⟩
  have htargets := targetsExist_quantifiedItem hbuild
  have haccepts := fun {n c} => accepts_quantifiedItem_iff hitem hplan hstates input n c
  cases result with
  | none =>
      rw [if_neg]
      intro hle
      have hrun := haccepts.mpr ⟨_, quantifier.allows_minimum hshape, hle, rfl, rfl⟩
      exact matchOneFrom_none htargets (Nat.zero_le _) hresult hrun
  | some result =>
      rcases matchOneFrom_some htargets (Nat.zero_le _) hresult with
        ⟨n, c, hrun, rfl, hshortest⟩
      rcases haccepts.mp hrun with ⟨k, hallows, hk, rfl, rfl⟩
      have hmin := ((quantifier.allows_iff hshape k).mp hallows).1
      rw [if_pos (Nat.le_trans hmin hk)]
      -- The run with the fewest repetitions is no shorter, so it is this one.
      have hleast := hshortest _ _ (haccepts.mpr
        ⟨_, quantifier.allows_minimum hshape, Nat.le_trans hmin hk, rfl, rfl⟩)
      have heq : k = quantifier.minimum := by omega
      rw [heq]
      rfl

end Search

/-- The most repetitions of the quantifier among so many available ones. -/
def Quantifier.cutOff (quantifier : Quantifier) (count : Nat) : Nat :=
  match quantifier.maximum with
  | some upper => min upper count
  | none => count

theorem allowed_iff {item : MatchItem} {quantifier : Quantifier} (hshape : quantifier.WellShaped)
    {input : List Nat} {k : Nat} :
    Allowed item quantifier input k ↔
      quantifier.minimum ≤ k ∧ k ≤ quantifier.cutOff (available item input) := by
  unfold Allowed Quantifier.cutOff
  rw [quantifier.allows_iff hshape]
  cases quantifier.maximum with
  | none =>
      simp only [Option.mem_def, reduceCtorEq, false_implies, implies_true, and_true]
  | some upper =>
      simp only [Option.mem_some_iff, forall_eq', Nat.le_min, and_assoc]

/-- For every item without unicode categories, every quantifier the parser
    builds, and every input: what is returned, if nothing is thrown, is the
    whole match of the preferred number of repetitions, if and only if the
    quantifier is lazy or the most repetitions that the input and the quantifier
    leave are no more than its fewest. -/
theorem matchOne_preferred_iff (item : MatchItem) (quantifier : Quantifier)
    (hitem : item.NoUnicode) (hshape : quantifier.WellShaped) :
    ∃ element nfa, (buildRegex (quantifiedItem item quantifier)).run {} = .ok (element, nfa) ∧
      ∀ input result, matchOne (compiled element nfa) input = .ok result →
        (ReturnsPreferred item quantifier input result ↔
          quantifier.lazyModifier = true ∨
            quantifier.cutOff (available item input) ≤ quantifier.minimum) := by
  rcases matchOne_quantified hitem hshape with ⟨nfa, hbuild, hfewest⟩
  refine ⟨_, nfa, hbuild, fun input result hresult => ?_⟩
  have hcases := hfewest input result hresult
  have hcut : quantifier.cutOff (available item input) ≤ available item input := by
    unfold Quantifier.cutOff
    split <;> omega
  have hminimum : Allowed item quantifier input quantifier.minimum ↔
      quantifier.minimum ≤ quantifier.minimum ∧
        quantifier.minimum ≤ quantifier.cutOff (available item input) := allowed_iff hshape
  by_cases hle : quantifier.minimum ≤ available item input
  · have hallowed : Allowed item quantifier input quantifier.minimum :=
      ⟨quantifier.allows_minimum hshape, hle⟩
    rw [if_pos hle] at hcases
    have hsome : result = none ↔ ¬ ∃ k, Allowed item quantifier input k := by
      refine iff_of_false ?_ (fun hno => hno ⟨_, hallowed⟩)
      rw [hcases]
      exact Option.some_ne_none _
    unfold ReturnsPreferred
    rw [and_iff_left hsome, hcases]
    unfold Preferred
    cases hlazy : quantifier.lazyModifier with
    | true =>
        -- The search finds the fewest repetitions, which is what a lazy quantifier asks for.
        refine iff_of_true (fun k hk => ?_) (Or.inl rfl)
        have hge := ((allowed_iff hshape).mp hk.1).1
        have hkle := hk.2 _ hallowed
        rw [if_pos rfl] at hkle
        rw [Nat.le_antisymm hge hkle]
    | false =>
        simp only [Bool.false_eq_true, if_false, false_or, Option.some.injEq, MatchResult.mk.injEq,
          List.cons.injEq, Range.mk.injEq, and_true, true_and]
        -- A greedy one asks for the most, so there must not be more than the fewest.
        refine ⟨fun h => ?_, fun h k hk => ?_⟩
        · have hgreatest : Allowed item quantifier input
              (quantifier.cutOff (available item input)) := by
            rw [allowed_iff hshape]
            exact ⟨(hminimum.mp hallowed).2, Nat.le_refl _⟩
          have heq := h _ ⟨hgreatest, fun k' hk' => ((allowed_iff hshape).mp hk').2⟩
          omega
        · have hbounds := (allowed_iff hshape).mp hk.1
          omega
  · rw [if_neg hle] at hcases
    -- Too few characters are accepted: no number of repetitions is allowed.
    have hno : ¬ ∃ k, Allowed item quantifier input k := by
      intro hex
      rcases hex with ⟨k, hk⟩
      have hbounds := (allowed_iff hshape).mp hk
      omega
    refine iff_of_true ⟨fun k hk => absurd ⟨k, hk.1⟩ hno, iff_of_true hcases hno⟩ (Or.inr ?_)
    omega

/-- The greedy star. -/
def greedyStar : Quantifier := { type := .zeroOrMore }

theorem matchOne_preferred_iff_star :
    ∃ element nfa, (buildRegex (quantifiedItem (.character (codePoint 'a')) greedyStar)).run {}
        = .ok (element, nfa) ∧
      ∀ input result, matchOne (compiled element nfa) input = .ok result →
        (ReturnsPreferred (.character (codePoint 'a')) greedyStar input result ↔
          greedyStar.lazyModifier = true ∨
            greedyStar.cutOff (available (.character (codePoint 'a')) input)
              ≤ greedyStar.minimum) :=
  matchOne_preferred_iff (.character (codePoint 'a')) greedyStar trivial
    (fun h => absurd h (by decide))

/-- The automaton of `a*`. -/
def starNfa : Nfa :=
  { currentId := 6
    states := [
      { id := 0, transitions := [⟨4, .epsilon⟩] },
      { id := 1 },
      { id := 2, transitions := [⟨3, .char (codePoint 'a')⟩] },
      { id := 3, transitions := [⟨2, .epsilon⟩, ⟨5, .epsilon⟩] },
      { id := 4, transitions := [⟨2, .epsilon⟩, ⟨5, .epsilon⟩] },
      { id := 5, transitions := [⟨1, .epsilon⟩] }] }

/-- One repetition of `a*` is possible on a line with one `a`, and the empty
    match is returned. -/
theorem matchOne_star_empty :
    parseRegex [byte 'a', byte '*']
        = .ok ⟨quantifiedItem (.character (codePoint 'a')) greedyStar, []⟩ ∧
      (buildRegex (quantifiedItem (.character (codePoint 'a')) greedyStar)).run {}
        = .ok (⟨0, 1⟩, starNfa) ∧
      matchOne (compiled ⟨0, 1⟩ starNfa) [codePoint 'a'] = .ok (some ⟨[⟨0, some 0, some 0⟩]⟩) ∧
      Preferred (.character (codePoint 'a')) greedyStar [codePoint 'a'] 1 ∧
      ¬ ReturnsPreferred (.character (codePoint 'a')) greedyStar [codePoint 'a']
        (some ⟨[⟨0, some 0, some 0⟩]⟩) := by
  have hpreferred : Preferred (.character (codePoint 'a')) greedyStar [codePoint 'a'] 1 :=
    ⟨⟨trivial, by decide⟩, fun k' hk' => hk'.2⟩
  refine ⟨rfl, rfl, by decide, hpreferred, fun h => ?_⟩
  have hone := h.1 1 hpreferred
  exact absurd hone (by decide)

end Grep

end CodingChallenges
