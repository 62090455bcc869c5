import CodingChallenges.Library.Outcomes
import CodingChallenges.Library.CountedRuns
import CodingChallenges.Grep.Matcher

/-!
# What Transitions Do

The transition relation of an automaton, and what each kind of transition does
to a configuration.

`Transits` is the relation between a configuration and the ones the matcher
pushes for it. A transition never looks at the identifiers of the states it
connects, so what it does is a relation between positions and captures alone,
`Acts`. The relation leaves out one thing the matcher does: it does not ask
the position to be inside the input, which the matcher does by throwing.
Positions never decrease (`Acts.position_le`), so a run that ends inside the
input never left it, and the two relations have the same runs there
(`runs_transits_iff`).

`processTransition_leaf` separates the transitions that only read the input
from those that touch the captures: what the former do depends on the position
alone.

## Main definitions

* `Transits`: One permitted transition of the automaton.
* `outgoing`: The transitions out of a state, none for an unknown state.
* `Acts`: What a condition does to a position and captures.
* `TransitionConditionType.IsLeaf`: The condition only reads the input.
* `leafOffset`: What such a condition consumes at a position.
* `nfaStep`: The transition relation over `Acts`.

## Theorems

* `processTransition_eq`: Transitions do not look at state identifiers.
* `branch_eq_ok_iff`: A pushed configuration, in terms of `Acts`.
* `acts_leaf_iff`, `acts_epsilon_iff`, `acts_captureStart_iff`,
  `acts_captureEnd_iff`: What each kind of condition does.
* `Acts.position_le`: Positions never decrease.
* `runs_transits_iff`: Runs that end inside the input.
-/

namespace CodingChallenges

namespace Grep

/-- One transition of the automaton that `process_transition` permits. -/
def Transits (states : List State) (input : List Nat) (s s' : MatchState) : Prop :=
  ∃ state transition, states[s.currentStateId]? = some state ∧
    transition ∈ state.transitions ∧ branch input s transition = .ok (some s')

/-- The transitions out of a state, none for an unknown state. -/
def outgoing (states : List State) (q : Nat) : List Transition :=
  match states[q]? with
  | some state => state.transitions
  | none => []

/-- What a run carries from state to state. -/
abbrev Data := Nat × Option (List Range)

/-- The configuration at a state with given data. -/
def configuration (x : Nat × Data) : MatchState :=
  { inputPosition := x.2.1, currentStateId := x.1, groupRanges := x.2.2 }

/-- What a condition does to a position and captures. -/
def Acts (input : List Nat) (condition : TransitionConditionType) (d d' : Data) : Prop :=
  ∃ result branchState,
    processTransition input (configuration (0, d)) 0 condition (input.drop d.1) false
      = .ok (some result, branchState) ∧
    d' = (d.1 + result.offset, branchState.groupRanges)

/-- The transition relation, on states and data. -/
def nfaStep (states : List State) (input : List Nat) (x y : Nat × Data) : Prop :=
  ∃ transition ∈ outgoing states x.1, transition.toState = y.1 ∧
    Acts input transition.condition x.2 y.2

/-- The condition only reads the input. -/
def TransitionConditionType.IsLeaf : TransitionConditionType → Prop
  | .groupCaptureStart _ => False
  | .groupCaptureEnd _ => False
  | .backreference _ => False
  | _ => True

/-- What a condition consumes at a position, when it does not look at the
    captures. -/
def leafOffset (input : List Nat) (condition : TransitionConditionType) (position : Nat) :
    Except Exception (Option Nat) :=
  (processTransition input { inputPosition := position, currentStateId := 0 } 0 condition
    (input.drop position) false).map (fun r => r.1.map TransitionResult.offset)

/-- The result of a transition with another target state. -/
def retarget (toStateId : Nat) (result : TransitionResult) : TransitionResult :=
  { result with toStateId }

theorem processOneCharacter_retarget (toStateId : Nat) (test : Nat → Bool)
    (input : List Nat) (negate : Bool) :
    processOneCharacter toStateId test input negate
      = (processOneCharacter 0 test input negate).map (retarget toStateId) := by
  cases input with
  | nil => rfl
  | cons c rest =>
      simp only [processOneCharacter]
      cases test c ^^ negate <;> rfl

theorem processGroupItem_retarget (toStateId : Nat) (item : CharacterGroupItem)
    (input : List Nat) :
    processGroupItem toStateId item input
      = (processGroupItem 0 item input).map (Option.map (retarget toStateId)) := by
  cases item with
  | unicodeCategory _ => rfl
  | characterClass c =>
      exact congrArg Except.ok (processOneCharacter_retarget toStateId _ input false)
  | characterRange r =>
      exact congrArg Except.ok (processOneCharacter_retarget toStateId _ input false)
  | character c =>
      exact congrArg Except.ok (processOneCharacter_retarget toStateId _ input false)

theorem processGroupItems_retarget (toStateId : Nat) (negate : Bool) (input : List Nat)
    (items : List CharacterGroupItem) :
    processGroupItems toStateId negate input items
      = (processGroupItems 0 negate input items).map (Option.map (retarget toStateId)) := by
  induction items with
  | nil => cases negate <;> rfl
  | cons item rest ih =>
      unfold processGroupItems
      rw [processGroupItem_retarget]
      cases processGroupItem 0 item input with
      | error e => rfl
      | ok result =>
          cases result with
          | none => exact ih
          | some result => cases negate <;> rfl

/-- A transition does not look at the identifiers of the states it connects:
    they only pass through. -/
theorem processTransition_eq (input : List Nat) (position : Nat) (q t : Nat)
    (captures : Option (List Range)) (condition : TransitionConditionType)
    (rest : List Nat) (negate : Bool) :
    processTransition input (configuration (q, (position, captures))) t condition rest negate
      = (processTransition input (configuration (0, (position, captures))) 0 condition rest
          negate).map (fun r =>
            (r.1.map (retarget t), configuration (q, (position, r.2.groupRanges)))) := by
  cases condition with
  | epsilon => rfl
  | matchAnyCharacter => rfl
  | unicodeCategoryName _ => rfl
  | char c =>
      exact congrArg (fun r => Except.ok (r, _)) (processOneCharacter_retarget t _ rest negate)
  | characterClass c =>
      exact congrArg (fun r => Except.ok (r, _)) (processOneCharacter_retarget t _ rest negate)
  | characterRange r =>
      exact congrArg (fun r => Except.ok (r, _)) (processOneCharacter_retarget t _ rest negate)
  | characterGroup g =>
      cases rest with
      | nil => rfl
      | cons c rest =>
          simp only [processTransition, processCharacterGroupTransition]
          rw [processGroupItems_retarget]
          cases processGroupItems 0 g.negativeModifier (c :: rest) g.characterGroupItems <;> rfl
  | anchor a =>
      -- The test looks at the position only.
      have hanchor : ∀ q t, processAnchorTransition input (configuration (q, (position, captures)))
          t a = if a.type.test input position then some { offset := 0, toStateId := t }
            else none := fun _ _ => rfl
      simp only [processTransition, hanchor]
      cases a.type.test input position <;> rfl
  | startOfStringAnchor =>
      simp only [processTransition, processStartOfStringAnchorTransition, configuration]
      cases position <;> rfl
  | groupCaptureStart n => rfl
  | groupCaptureEnd n =>
      simp only [processTransition, processGroupCaptureEndTransition, configuration]
      cases captures with
      | none => rfl
      | some groupRanges =>
          simp only
          -- Whether the group can be left depends on the captures, not on the state.
          cases endRange n position groupRanges <;> rfl
  | backreference b =>
      simp only [processTransition, processBackreferenceTransition, configuration]
      cases captures with
      | none => rfl
      | some groupRanges =>
          simp only
          split
          · split <;> rfl
          · rfl

/-- The configurations a transition pushes. -/
theorem branch_eq_ok_iff (input : List Nat) (s s' : MatchState) (transition : Transition) :
    branch input s transition = .ok (some s') ↔
      s.inputPosition ≤ input.length ∧ s'.currentStateId = transition.toState ∧
        Acts input transition.condition (s.inputPosition, s.groupRanges)
          (s'.inputPosition, s'.groupRanges) := by
  rcases s with ⟨position, q, captures⟩
  rcases s' with ⟨position', q', captures'⟩
  by_cases hle : position ≤ input.length
  · have hsubstr : substr input position = .ok (input.drop position) := if_pos hle
    have heq := processTransition_eq input position q transition.toState captures
      transition.condition (input.drop position) false
    simp only [configuration] at heq
    simp only [branch, hsubstr, ok_bind, heq, hle, true_and, Acts, configuration]
    generalize processTransition input ⟨position, 0, captures⟩ 0 transition.condition
      (input.drop position) false = run
    rcases run with e | ⟨_ | ⟨offset, target⟩, branchState⟩
    · simp only [map_error, error_bind, reduceCtorEq, false_and, exists_false, and_false]
    · simp only [map_ok, Option.map_none, ok_bind, pure_eq_ok, Except.ok.injEq, reduceCtorEq,
        Prod.mk.injEq, false_and, exists_false, and_false]
    · simp only [map_ok, Option.map_some, ok_bind, pure_eq_ok, Except.ok.injEq, retarget,
        Option.some.injEq, MatchState.mk.injEq, Prod.mk.injEq]
      constructor
      · rintro ⟨rfl, rfl, rfl⟩
        exact ⟨rfl, _, _, ⟨rfl, rfl⟩, rfl, rfl⟩
      · rintro ⟨rfl, _, _, ⟨rfl, rfl⟩, rfl, rfl⟩
        exact ⟨rfl, rfl, rfl⟩
  · have hsubstr : substr input position = .error .outOfRange := if_neg hle
    simp only [branch, hsubstr, error_bind, reduceCtorEq, hle, false_and]

theorem mem_outgoing_iff {states : List State} {q : Nat} {transition : Transition} :
    transition ∈ outgoing states q ↔
      ∃ state, states[q]? = some state ∧ transition ∈ state.transitions := by
  unfold outgoing
  cases states[q]? with
  | none => simp only [List.not_mem_nil, reduceCtorEq, false_and, exists_false]
  | some state => simp only [Option.some.injEq, exists_eq_left']

/-- The transition relation is `Transits` without the test that the position
    is inside the input. -/
theorem transits_configuration_iff {states : List State} {input : List Nat}
    {x y : Nat × Data} :
    Transits states input (configuration x) (configuration y) ↔
      x.2.1 ≤ input.length ∧ nfaStep states input x y := by
  unfold Transits nfaStep
  constructor
  · rintro ⟨state, transition, hstate, hmem, hbranch⟩
    rw [branch_eq_ok_iff] at hbranch
    rcases hbranch with ⟨hle, htarget, hacts⟩
    exact ⟨hle, transition, mem_outgoing_iff.mpr ⟨state, hstate, hmem⟩, htarget.symm, hacts⟩
  · rintro ⟨hle, transition, hmem, htarget, hacts⟩
    rcases mem_outgoing_iff.mp hmem with ⟨state, hstate, hmem⟩
    exact ⟨state, transition, hstate, hmem,
      (branch_eq_ok_iff input _ _ transition).mpr ⟨hle, htarget.symm, hacts⟩⟩

/-- A condition that only reads the input does the same whatever the captures
    are, and leaves them alone. -/
theorem processTransition_leaf {condition : TransitionConditionType} (hleaf : condition.IsLeaf)
    (input : List Nat) (position : Nat) (captures : Option (List Range))
    (rest : List Nat) (negate : Bool) :
    processTransition input (configuration (0, (position, captures))) 0 condition rest negate
      = (processTransition input (configuration (0, (position, none))) 0 condition rest
          negate).map (fun r => (r.1, configuration (0, (position, captures)))) := by
  cases condition with
  | groupCaptureStart n => exact absurd hleaf id
  | groupCaptureEnd n => exact absurd hleaf id
  | backreference b => exact absurd hleaf id
  | characterGroup g =>
      simp only [processTransition]
      cases processCharacterGroupTransition 0 g rest <;> rfl
  | _ => rfl

theorem acts_leaf_iff {condition : TransitionConditionType} (hleaf : condition.IsLeaf)
    (input : List Nat) (d d' : Data) :
    Acts input condition d d' ↔
      ∃ offset, leafOffset input condition d.1 = .ok (some offset) ∧ d' = (d.1 + offset, d.2) := by
  rcases d with ⟨position, captures⟩
  have hconf : ({ inputPosition := position, currentStateId := 0 } : MatchState)
      = configuration (0, (position, none)) := rfl
  simp only [Acts, leafOffset, hconf]
  rw [processTransition_leaf hleaf]
  generalize processTransition input (configuration (0, (position, none))) 0 condition
    (input.drop position) false = run
  rcases run with e | ⟨_ | ⟨offset, target⟩, branchState⟩
  · simp only [map_error, reduceCtorEq, false_and, exists_false]
  · simp only [map_ok, Option.map_none, Except.ok.injEq, Prod.mk.injEq, reduceCtorEq, false_and,
      exists_false]
  · simp only [map_ok, Option.map_some, Except.ok.injEq, Prod.mk.injEq, Option.some.injEq]
    constructor
    · rintro ⟨_, _, ⟨rfl, rfl⟩, rfl⟩
      exact ⟨offset, rfl, rfl⟩
    · rintro ⟨_, rfl, rfl⟩
      exact ⟨_, _, ⟨rfl, rfl⟩, rfl⟩

theorem acts_epsilon_iff (input : List Nat) (d d' : Data) :
    Acts input .epsilon d d' ↔ d' = d := by
  rw [acts_leaf_iff (show TransitionConditionType.IsLeaf .epsilon from trivial)]
  constructor
  · rintro ⟨offset, hoffset, rfl⟩
    cases hoffset
    rfl
  · rintro rfl
    exact ⟨0, rfl, rfl⟩

theorem acts_captureStart_iff (input : List Nat) (n : Nat) (d d' : Data) :
    Acts input (.groupCaptureStart n) d d' ↔
      d' = (d.1, some (startRange n d.1 (d.2.getD []))) := by
  constructor
  · rintro ⟨result, branchState, hrun, rfl⟩
    cases hrun
    rfl
  · rintro rfl
    exact ⟨_, _, rfl, rfl⟩

theorem acts_captureEnd_iff (input : List Nat) (n : Nat) (d d' : Data) :
    Acts input (.groupCaptureEnd n) d d' ↔
      ∃ ranges ranges', d.2 = some ranges ∧ endRange n d.1 ranges = some ranges' ∧
        d' = (d.1, some ranges') := by
  rcases d with ⟨position, captures⟩
  simp only [Acts, processTransition, processGroupCaptureEndTransition, configuration, pure_eq_ok]
  cases captures with
  | none => simp only [Except.ok.injEq, Prod.mk.injEq, reduceCtorEq, false_and, exists_false]
  | some ranges =>
      simp only [Option.some.injEq, exists_and_left, exists_eq_left']
      cases endRange n position ranges with
      | none => simp only [Except.ok.injEq, Prod.mk.injEq, reduceCtorEq, false_and, exists_false]
      | some ranges' =>
          simp only [Except.ok.injEq, Prod.mk.injEq, Option.some.injEq, exists_eq_left']
          constructor
          · rintro ⟨_, _, ⟨rfl, rfl⟩, rfl⟩
            rfl
          · rintro rfl
            exact ⟨_, _, ⟨rfl, rfl⟩, rfl⟩

/-- Positions never decrease. -/
theorem Acts.position_le {input : List Nat} {condition : TransitionConditionType} {d d' : Data}
    (h : Acts input condition d d') : d.1 ≤ d'.1 := by
  rcases h with ⟨result, branchState, -, rfl⟩
  exact Nat.le_add_right d.1 result.offset

theorem nfaStep.position_le {states : List State} {input : List Nat} {x y : Nat × Data}
    (h : nfaStep states input x y) : x.2.1 ≤ y.2.1 := by
  rcases h with ⟨transition, -, -, hacts⟩
  exact hacts.position_le

theorem runs_nfaStep_position_le {states : List State} {input : List Nat} {n : Nat}
    {x y : Nat × Data} (h : Runs (nfaStep states input) n x y) : x.2.1 ≤ y.2.1 := by
  induction h with
  | refl x => exact Nat.le_refl _
  | head x y _ hstep _ ih => exact Nat.le_trans hstep.position_le ih

/-- A run that ends inside the input was inside it all along, so the matcher
    could take it. -/
theorem runs_transits_iff {states : List State} {input : List Nat} {n : Nat}
    {x y : Nat × Data} (hy : y.2.1 ≤ input.length) :
    Runs (Transits states input) n (configuration x) (configuration y) ↔
      Runs (nfaStep states input) n x y := by
  induction n generalizing x with
  | zero =>
      simp only [Runs.zero_iff]
      constructor
      · intro h
        rcases x with ⟨q, p, c⟩
        rcases y with ⟨q', p', c'⟩
        simp only [configuration, MatchState.mk.injEq] at h
        rcases h with ⟨rfl, rfl, rfl⟩
        rfl
      · rintro rfl
        rfl
  | succ n ih =>
      simp only [Runs.succ_iff]
      constructor
      · rintro ⟨s, hstep, hrest⟩
        have hs : s = configuration (s.currentStateId, (s.inputPosition, s.groupRanges)) := rfl
        rw [hs] at hstep hrest
        exact ⟨_, (transits_configuration_iff.mp hstep).2, ih.mp hrest⟩
      · rintro ⟨z, hstep, hrest⟩
        have hle : x.2.1 ≤ input.length :=
          Nat.le_trans hstep.position_le (Nat.le_trans (runs_nfaStep_position_le hrest) hy)
        exact ⟨configuration z, transits_configuration_iff.mpr ⟨hle, hstep⟩, ih.mpr hrest⟩

end Grep

end CodingChallenges
