import Mathlib.Algebra.Order.BigOperators.Group.List
import Mathlib.Algebra.Order.Group.Nat
import Mathlib.Data.Finset.Prod
import Mathlib.Data.Finset.Option
import CodingChallenges.Library.BreadthFirst
import CodingChallenges.Grep.Construction

/-!
# The Matcher's Search

`match_one_from` is a breadth-first search, and what it returns is right.

The configurations are the nodes, a node's key is what the visited set holds of
it, and expanding a node tries all transitions of its state (`exploration`).
`searchLoop_eq` identifies the matcher's loop with the library's. What is left
to show is what the library asks for: keys tell reachable configurations apart,
and there are finitely many of them.

Both follow from what every reachable configuration looks like (`Proper`): its
position is at most one past the input, its capture list is not empty unless it
is null, and it names each group at most once, with positions of the input.
The first of these is the reason for the bound `searchFuel` to speak of
`input.length + 2` positions: a dot may step past the end.

## Main definitions

* `exploration`: The search as an instance of the library's.
* `Proper`: What every reachable configuration looks like.
* `boundedLists`: All lists over a finite set up to a length.
* `TargetsExist`: All transitions lead to existing states.
* `Matcher.Accepts`: A run of permitted transitions that accepts.

## Theorems

* `searchLoop_eq`: The matcher's loop is the library's.
* `Acts.position_le_length`: Only a dot steps past the end of the input.
* `Proper.transits`, `proper_of_reachable`: The invariant.
* `length_keys_le`: There are finitely many keys.
* `matchOneFrom_some`, `matchOneFrom_none`: The two ways a search ends.
* `matchOneFrom_correct`: The search terminates, is sound and complete, and
  returns a shortest run.
-/

namespace CodingChallenges

namespace Grep

/-- The search over configurations. -/
def exploration (matcher : Matcher) (input : List Nat) :
    Exploration Exception MatchState VisitedKey where
  expand c :=
    match matcher.states[c.currentStateId]? with
    | none => .error .outOfRange
    | some state => branches input c state.transitions
  goal c := c.currentStateId == matcher.regexNfaElement.accept
  key := MatchState.visitedKey

/-- The part of a search that walks the configurations. -/
def SearchState.frontier (search : SearchState) : Frontier MatchState VisitedKey :=
  { queue := search.statesToProcess, seen := search.visitedStates }

/-- What the search returns for the configuration it found. -/
def foundResult (startPosition : Nat) (found : Except Exception (Option MatchState)) :
    Except Exception (Option MatchResult) :=
  found.map (Option.map (acceptResult startPosition))

section Loop

variable (matcher : Matcher) (input : List Nat) (startPosition : Nat)

variable {matcher input startPosition} in
/-- A configuration that is new and does not accept is expanded. -/
theorem searchStep_expand {current : MatchState} {queue : List MatchState}
    {visited : List VisitedKey} (hvisited : current.visitedKey ∉ visited)
    (haccept : current.currentStateId ≠ matcher.regexNfaElement.accept) :
    searchStep matcher input startPosition ⟨current :: queue, visited⟩ =
      match (exploration matcher input).expand current with
      | .error e => .done (.error e)
      | .ok pushed => .next ⟨queue ++ pushed, current.visitedKey :: visited⟩ := by
  simp only [searchStep, exploration, hvisited, haccept, if_false]
  cases matcher.states[current.currentStateId]? with
  | none => rfl
  | some state => rfl

/-- One round of the matcher's loop is one round of the library's. -/
theorem searchStep_eq (search : SearchState) :
    searchStep matcher input startPosition search =
      match (exploration matcher input).round search.frontier with
      | .next f => .next { statesToProcess := f.queue, visitedStates := f.seen }
      | .done found => .done (foundResult startPosition found) := by
  rcases search with ⟨queue, visited⟩
  cases queue with
  | nil => rfl
  | cons current queue =>
      unfold SearchState.frontier
      simp only
      -- A round either skips the head, ends with it, throws, or expands it.
      rcases (exploration matcher input).round_cons current queue visited with
        ⟨hseen, heq⟩ | ⟨hseen, hgoal, heq⟩ | ⟨hseen, hgoal, e, hexpand, heq⟩ |
          ⟨hseen, hgoal, pushed, hexpand, heq⟩
      · rw [heq]
        have hvisited : current.visitedKey ∈ visited := hseen
        simp only [searchStep, hvisited, if_true]
      · rw [heq]
        have hvisited : current.visitedKey ∉ visited := hseen
        have haccept : current.currentStateId = matcher.regexNfaElement.accept :=
          beq_iff_eq.mp hgoal
        simp only [searchStep, hvisited, haccept, if_true, if_false]
        rfl
      · rw [heq, searchStep_expand hseen (beq_eq_false_iff_ne.mp hgoal), hexpand]
        rfl
      · rw [heq, searchStep_expand hseen (beq_eq_false_iff_ne.mp hgoal), hexpand]
        rfl

/-- The matcher's loop is the library's, with a result built at the end. -/
theorem searchLoop_eq (fuel : Nat) (search : SearchState) :
    searchLoop matcher input startPosition fuel search
      = ((exploration matcher input).loop fuel search.frontier).map
        (foundResult startPosition) := by
  induction fuel generalizing search with
  | zero => rfl
  | succ fuel ih =>
      unfold searchLoop Exploration.loop
      rw [searchStep_eq]
      cases (exploration matcher input).round search.frontier with
      | done found => rfl
      | next f => exact ih _

end Loop

/-- The configurations pushed are those some transition leads to. -/
theorem mem_branches_iff {input : List Nat} {c : MatchState} {transitions : List Transition}
    {pushed : List MatchState} (h : branches input c transitions = .ok pushed) (b : MatchState) :
    b ∈ pushed ↔ ∃ transition ∈ transitions, branch input c transition = .ok (some b) := by
  induction transitions generalizing pushed with
  | nil =>
      cases h
      simp only [List.not_mem_nil, false_and, exists_false]
  | cons transition rest ih =>
      unfold branches at h
      rcases bind_eq_ok.mp h with ⟨first, hfirst, h⟩
      rcases bind_eq_ok.mp h with ⟨more, hmore, h⟩
      cases h
      simp only [List.mem_append, ih hmore, List.mem_cons, exists_eq_or_imp, hfirst,
        Except.ok.injEq, Option.mem_toList]

theorem length_branches_le {input : List Nat} {c : MatchState} {transitions : List Transition}
    {pushed : List MatchState} (h : branches input c transitions = .ok pushed) :
    pushed.length ≤ transitions.length := by
  induction transitions generalizing pushed with
  | nil =>
      cases h
      exact Nat.le_refl 0
  | cons transition rest ih =>
      unfold branches at h
      rcases bind_eq_ok.mp h with ⟨first, -, h⟩
      rcases bind_eq_ok.mp h with ⟨more, hmore, h⟩
      cases h
      have hlen := ih hmore
      have hfirst : first.toList.length ≤ 1 := by
        cases first with
        | none => exact Nat.zero_le 1
        | some b => exact Nat.le_refl 1
      simp only [List.length_append, List.length_cons]
      omega

/-- Expanding a configuration pushes what the transitions permit. -/
theorem mem_expand_iff {matcher : Matcher} {input : List Nat} (c : MatchState)
    (pushed : List MatchState) (h : (exploration matcher input).expand c = .ok pushed)
    (b : MatchState) : b ∈ pushed ↔ Transits matcher.states input c b := by
  simp only [exploration] at h
  cases hstate : matcher.states[c.currentStateId]? with
  | none =>
      rw [hstate] at h
      cases h
  | some state =>
      rw [hstate] at h
      rw [mem_branches_iff h]
      unfold Transits
      simp only [hstate, Option.some.injEq]
      refine ⟨fun hb => ?_, fun hb => ?_⟩
      · rcases hb with ⟨transition, hmem, hbranch⟩
        exact ⟨state, transition, rfl, hmem, hbranch⟩
      · rcases hb with ⟨_, transition, rfl, hmem, hbranch⟩
        exact ⟨transition, hmem, hbranch⟩

section Positions

/-- A look at one character consumes no more than is left. -/
theorem processOneCharacter_offset_le {toStateId : Nat} {test : Nat → Bool} {rest : List Nat}
    {negate : Bool} {result : TransitionResult}
    (h : processOneCharacter toStateId test rest negate = some result) :
    result.offset ≤ rest.length := by
  cases rest with
  | nil => cases h
  | cons c rest =>
      simp only [processOneCharacter] at h
      split at h
      · cases h
        simp only [List.length_cons]
        omega
      · cases h

theorem processGroupItem_offset_le {toStateId : Nat} {item : CharacterGroupItem}
    {rest : List Nat} {result : TransitionResult}
    (h : processGroupItem toStateId item rest = .ok (some result)) :
    result.offset ≤ rest.length := by
  cases item with
  | unicodeCategory _ => cases h
  | characterClass c => exact processOneCharacter_offset_le (Except.ok.inj h)
  | characterRange r => exact processOneCharacter_offset_le (Except.ok.inj h)
  | character c => exact processOneCharacter_offset_le (Except.ok.inj h)

theorem processGroupItems_offset_le {toStateId : Nat} {negate : Bool} {rest : List Nat}
    (hrest : rest ≠ []) {items : List CharacterGroupItem} {result : TransitionResult}
    (h : processGroupItems toStateId negate rest items = .ok (some result)) :
    result.offset ≤ rest.length := by
  have hpos : 1 ≤ rest.length := List.length_pos_iff.mpr hrest
  induction items with
  | nil =>
      simp only [processGroupItems] at h
      cases negate with
      | true =>
          cases h
          exact hpos
      | false => cases h
  | cons item items ih =>
      unfold processGroupItems at h
      rcases bind_eq_ok.mp h with ⟨first, hfirst, h⟩
      cases first with
      | none => exact ih h
      | some found =>
          cases negate with
          | true => cases h
          | false =>
              cases h
              exact processGroupItem_offset_le hfirst

/-- Only a dot consumes more than is left of the input. -/
theorem processTransition_offset_le {input : List Nat} {c : MatchState} {t : Nat}
    {condition : TransitionConditionType} (hdot : condition ≠ .matchAnyCharacter)
    {rest : List Nat} {negate : Bool} {result : TransitionResult} {branchState : MatchState}
    (h : processTransition input c t condition rest negate = .ok (some result, branchState)) :
    result.offset ≤ rest.length := by
  cases condition with
  | matchAnyCharacter => exact absurd rfl hdot
  | unicodeCategoryName _ => cases h
  | epsilon =>
      cases h
      exact Nat.zero_le _
  | groupCaptureStart n =>
      cases h
      exact Nat.zero_le _
  | char c =>
      simp only [processTransition, pure_eq_ok, Except.ok.injEq, Prod.mk.injEq] at h
      exact processOneCharacter_offset_le h.1
  | characterClass c =>
      simp only [processTransition, pure_eq_ok, Except.ok.injEq, Prod.mk.injEq] at h
      exact processOneCharacter_offset_le h.1
  | characterRange r =>
      simp only [processTransition, pure_eq_ok, Except.ok.injEq, Prod.mk.injEq] at h
      exact processOneCharacter_offset_le h.1
  -- A group is tried item by item, and each item reads at most what is there.
  | characterGroup g =>
      simp only [processTransition] at h
      rcases bind_eq_ok.mp h with ⟨first, hfirst, h⟩
      cases h
      cases rest with
      | nil => cases hfirst
      | cons c rest =>
          exact processGroupItems_offset_le (List.cons_ne_nil c rest) hfirst
  | anchor a =>
      simp only [processTransition, processAnchorTransition, pure_eq_ok, Except.ok.injEq,
        Prod.mk.injEq] at h
      rcases h with ⟨h, -⟩
      split at h
      · cases h
        exact Nat.zero_le _
      · cases h
  | startOfStringAnchor =>
      simp only [processTransition, processStartOfStringAnchorTransition, pure_eq_ok,
        Except.ok.injEq, Prod.mk.injEq] at h
      rcases h with ⟨h, -⟩
      split at h
      · cases h
        exact Nat.zero_le _
      · cases h
  | groupCaptureEnd n =>
      simp only [processTransition, processGroupCaptureEndTransition, pure_eq_ok] at h
      split at h
      · cases h
      · split at h
        · cases h
        · cases h
          exact Nat.zero_le _
  | backreference b =>
      simp only [processTransition, processBackreferenceTransition, pure_eq_ok, Except.ok.injEq,
        Prod.mk.injEq] at h
      rcases h with ⟨h, -⟩
      split at h
      · cases h
      · split at h
        · split at h
          · -- What was captured stands here again, so it is no longer than the rest.
            next hprefixed =>
              cases h
              exact (List.isPrefixOf_iff_prefix.mp hprefixed).length_le
          · cases h
        · cases h

/-- Only a dot steps past the end of the input. -/
theorem Acts.position_le_length {input : List Nat} {condition : TransitionConditionType}
    (hdot : condition ≠ .matchAnyCharacter) {d d' : Data} (h : Acts input condition d d')
    (hd : d.1 ≤ input.length) : d'.1 ≤ input.length := by
  rcases h with ⟨result, branchState, hrun, rfl⟩
  have hoffset := processTransition_offset_le hdot hrun
  rw [List.length_drop] at hoffset
  simp only
  omega

/-- A dot steps past the end by one position at most. -/
theorem Acts.position_le_succ {input : List Nat} {condition : TransitionConditionType}
    {d d' : Data} (h : Acts input condition d d') (hd : d.1 ≤ input.length) :
    d'.1 ≤ input.length + 1 := by
  by_cases hdot : condition = .matchAnyCharacter
  · subst hdot
    rcases h with ⟨result, branchState, hrun, rfl⟩
    cases hrun
    simp only
    omega
  · have := h.position_le_length hdot hd
    omega

end Positions

section Captures

/-- The groups a capture list names, in order. -/
def groupIds (ranges : List Range) : List Nat :=
  ranges.map Range.groupId

/-- Entering a group names it, at the end unless it was named before. -/
theorem groupIds_startRange (n position : Nat) (ranges : List Range) :
    groupIds (startRange n position ranges)
      = if n ∈ groupIds ranges then groupIds ranges else groupIds ranges ++ [n] := by
  induction ranges with
  | nil => rfl
  | cons range rest ih =>
      unfold startRange
      by_cases h : range.groupId = n
      · rw [if_pos h]
        have hmem : n ∈ groupIds (range :: rest) := by
          rw [groupIds, List.map_cons, h]
          exact List.mem_cons_self
        rw [if_pos hmem]
        rfl
      · rw [if_neg h]
        have hcons : ∀ l : List Range, groupIds (range :: l) = range.groupId :: groupIds l :=
          fun l => rfl
        rw [hcons, hcons, ih]
        have hiff : n ∈ range.groupId :: groupIds rest ↔ n ∈ groupIds rest := by
          rw [List.mem_cons]
          exact or_iff_right (fun hn => h hn.symm)
        by_cases hmem : n ∈ groupIds rest
        · rw [if_pos hmem, if_pos (hiff.mpr hmem)]
        · rw [if_neg hmem, if_neg (fun hn => hmem (hiff.mp hn))]
          rfl

/-- Leaving a group names no other group. -/
theorem groupIds_endRange {n position : Nat} {ranges ranges' : List Range}
    (h : endRange n position ranges = some ranges') : groupIds ranges' = groupIds ranges := by
  induction ranges generalizing ranges' with
  | nil => cases h
  | cons range rest ih =>
      unfold endRange at h
      split at h
      · cases h
        rfl
      · rw [Option.map_eq_some_iff] at h
        rcases h with ⟨rest', hrest, rfl⟩
        have htail := ih hrest
        unfold groupIds at htail ⊢
        rw [List.map_cons, List.map_cons, htail]

/-- The ends of a range are positions of the input. -/
def Range.Inside (bound : Nat) (range : Range) : Prop :=
  (∀ p ∈ range.fromPosition, p ≤ bound) ∧ ∀ p ∈ range.toPosition, p ≤ bound

theorem inside_startRange {n position bound : Nat} (hposition : position ≤ bound)
    {ranges : List Range} (h : ∀ range ∈ ranges, range.Inside bound) :
    ∀ range ∈ startRange n position ranges, range.Inside bound := by
  have hnone : ∀ p ∈ (none : Option Nat), p ≤ bound := fun p hp => by cases hp
  have hsome : ∀ p ∈ some position, p ≤ bound := fun p hp => by
    cases hp
    exact hposition
  induction ranges with
  | nil =>
      intro range hrange
      rw [startRange, List.mem_singleton] at hrange
      subst hrange
      exact ⟨hsome, hnone⟩
  | cons first rest ih =>
      rw [List.forall_mem_cons] at h
      unfold startRange
      -- The range of the group is replaced where there is one already.
      split
      · exact List.forall_mem_cons.mpr ⟨⟨hsome, hnone⟩, h.2⟩
      · exact List.forall_mem_cons.mpr ⟨h.1, ih h.2⟩

theorem inside_endRange {n position bound : Nat} (hposition : position ≤ bound)
    {ranges ranges' : List Range} (hend : endRange n position ranges = some ranges')
    (h : ∀ range ∈ ranges, range.Inside bound) : ∀ range ∈ ranges', range.Inside bound := by
  induction ranges generalizing ranges' with
  | nil => cases hend
  | cons first rest ih =>
      rw [List.forall_mem_cons] at h
      unfold endRange at hend
      split at hend
      · cases hend
        refine List.forall_mem_cons.mpr ⟨⟨h.1.1, fun p hp => ?_⟩, h.2⟩
        cases hp
        exact hposition
      · rw [Option.map_eq_some_iff] at hend
        rcases hend with ⟨rest', hend, rfl⟩
        exact List.forall_mem_cons.mpr ⟨h.1, ih hend h.2⟩

end Captures

/-- All transitions lead to existing states. -/
def TargetsExist (states : List State) : Prop :=
  ∀ state ∈ states, ∀ transition ∈ state.transitions, transition.toState < states.length

instance (states : List State) : Decidable (TargetsExist states) :=
  inferInstanceAs (Decidable (∀ state ∈ states, ∀ transition ∈ state.transitions,
    transition.toState < states.length))

/-- What every configuration the search reaches looks like. -/
structure Proper (matcher : Matcher) (input : List Nat) (c : MatchState) : Prop where
  state : c.currentStateId = matcher.regexNfaElement.start ∨
    c.currentStateId < matcher.states.length
  position : c.inputPosition ≤ input.length + 1
  notEmpty : c.groupRanges ≠ some []
  distinct : (groupIds (c.groupRanges.getD [])).Nodup
  numbers : ∀ n ∈ groupIds (c.groupRanges.getD []), n ∈ captureNumbers matcher.states
  inside : ∀ range ∈ c.groupRanges.getD [], range.Inside input.length

theorem mem_captureNumbers {states : List State} {q n : Nat} {transition : Transition}
    (h : transition ∈ outgoing states q)
    (hcondition : transition.condition = .groupCaptureStart n) :
    n ∈ captureNumbers states := by
  rcases mem_outgoing_iff.mp h with ⟨state, hstate, hmem⟩
  unfold captureNumbers
  rw [List.mem_flatMap]
  refine ⟨state, List.mem_of_getElem? hstate, ?_⟩
  rw [List.mem_filterMap]
  exact ⟨transition, hmem, by rw [hcondition]⟩

/-- What a configuration may have captured. -/
structure ProperRanges (states : List State) (bound : Nat) (ranges : List Range) : Prop where
  notEmpty : ranges ≠ []
  distinct : (groupIds ranges).Nodup
  numbers : ∀ n ∈ groupIds ranges, n ∈ captureNumbers states
  inside : ∀ range ∈ ranges, range.Inside bound

/-- Entering a group of the automaton adds its number, if it is not there. -/
theorem Proper.startRange {matcher : Matcher} {input : List Nat} {c : MatchState} {n : Nat}
    (h : Proper matcher input c) (hle : c.inputPosition ≤ input.length)
    (hn : n ∈ captureNumbers matcher.states) :
    ProperRanges matcher.states input.length
      (startRange n c.inputPosition (c.groupRanges.getD [])) := by
  have hids := groupIds_startRange n c.inputPosition (c.groupRanges.getD [])
  refine ⟨fun hnil => ?_, ?_, ?_, inside_startRange hle h.inside⟩
  · -- The number of the group is among those that are left.
    have hempty := congrArg groupIds hnil
    rw [hids] at hempty
    split at hempty
    · next hmem =>
        rw [hempty] at hmem
        exact absurd hmem List.not_mem_nil
    · exact absurd hempty (List.append_ne_nil_of_right_ne_nil _ (List.cons_ne_nil n []))
  · rw [hids]
    split
    · exact h.distinct
    · next hnew =>
        refine h.distinct.append (List.nodup_singleton n) fun g hg hg' => ?_
        rw [List.mem_singleton] at hg'
        subst hg'
        exact hnew hg
  · rw [hids]
    intro g hg
    split at hg
    · exact h.numbers g hg
    · rcases List.mem_append.mp hg with hg | hg
      · exact h.numbers g hg
      · rw [List.mem_singleton] at hg
        subst hg
        exact hn

/-- Leaving a group keeps the numbers. -/
theorem Proper.endRange {matcher : Matcher} {input : List Nat} {c : MatchState} {n : Nat}
    {ranges ranges' : List Range} (h : Proper matcher input c)
    (hle : c.inputPosition ≤ input.length)
    (hbefore : c.groupRanges = some ranges)
    (hend : endRange n c.inputPosition ranges = some ranges') :
    ProperRanges matcher.states input.length ranges' := by
  have hids := groupIds_endRange hend
  have hdistinct := h.distinct
  have hnumbers := h.numbers
  have hinside := h.inside
  have hnotEmpty := h.notEmpty
  rw [hbefore] at hnotEmpty
  rw [hbefore, Option.getD_some] at hdistinct hnumbers hinside
  refine ⟨fun hnil => ?_, ?_, ?_, inside_endRange hle hend hinside⟩
  · have hempty := congrArg groupIds hnil
    rw [hids] at hempty
    exact hnotEmpty (congrArg some (List.map_eq_nil_iff.mp hempty))
  · rw [hids]
    exact hdistinct
  · rw [hids]
    exact hnumbers

section Invariant

variable {matcher : Matcher} {input : List Nat}
  (htargets : TargetsExist matcher.states)
include htargets

/-- A transition keeps a configuration proper. -/
theorem Proper.transits {c c' : MatchState} (h : Proper matcher input c)
    (hstep : Transits matcher.states input c c') : Proper matcher input c' := by
  rcases hstep with ⟨state, transition, hstate, hmem, hbranch⟩
  rcases (branch_eq_ok_iff input c c' transition).mp hbranch with ⟨hle, htarget, hacts⟩
  have hstateId : c'.currentStateId < matcher.states.length := by
    rw [htarget]
    exact htargets state (List.mem_of_getElem? hstate) transition hmem
  have hposition : c'.inputPosition ≤ input.length + 1 := hacts.position_le_succ hle
  have hranges : ∀ ranges, c'.groupRanges = some ranges →
      ProperRanges matcher.states input.length ranges → Proper matcher input c' := by
    intro ranges hsome hproper
    refine ⟨Or.inr hstateId, hposition, ?_, ?_, ?_, ?_⟩
    all_goals rw [hsome]
    · exact fun hnil => hproper.notEmpty (Option.some.inj hnil)
    · exact hproper.distinct
    · exact hproper.numbers
    · exact hproper.inside
  by_cases hcapture : transition.condition.IsCapture
  · have hout := mem_outgoing_iff.mpr ⟨state, hstate, hmem⟩
    generalize hcondition : transition.condition = condition at hcapture hacts
    cases condition with
    | groupCaptureStart n =>
        rw [acts_captureStart_iff, Prod.mk.injEq] at hacts
        exact hranges _ hacts.2 (h.startRange hle (mem_captureNumbers hout hcondition))
    | groupCaptureEnd n =>
        rcases (acts_captureEnd_iff input n _ _).mp hacts with ⟨ranges, ranges', hbefore, hend, heq⟩
        rw [Prod.mk.injEq] at heq
        exact hranges _ heq.2 (h.endRange hle hbefore hend)
    | _ => exact absurd hcapture id
  · -- No other condition changes what was captured.
    have hsame := hacts.captures_eq hcapture
    simp only at hsame
    refine ⟨Or.inr hstateId, hposition, ?_, ?_, ?_, ?_⟩
    all_goals rw [hsame]
    · exact h.notEmpty
    · exact h.distinct
    · exact h.numbers
    · exact h.inside

theorem proper_of_reachable {startPosition : Nat} (hstart : startPosition ≤ input.length)
    {c : MatchState}
    (h : Reachable (Transits matcher.states input)
      ⟨startPosition, matcher.regexNfaElement.start, none⟩ c) : Proper matcher input c := by
  rcases h with ⟨n, hruns⟩
  refine hruns.preserves (fun _ _ hc hstep => hc.transits htargets hstep) ?_
  refine ⟨Or.inl rfl, Nat.le_succ_of_le hstart, ?_, List.nodup_nil, ?_, ?_⟩
  · simp only [ne_eq, reduceCtorEq, not_false_eq_true]
  · intro n hn
    exact absurd hn List.not_mem_nil
  · intro range hrange
    exact absurd hrange List.not_mem_nil

end Invariant

/-- Keys tell proper configurations apart: the null list and the empty list have
    the same key, and only one of them occurs. -/
theorem visitedKey_injective {matcher : Matcher} {input : List Nat} {c c' : MatchState}
    (h : Proper matcher input c) (h' : Proper matcher input c')
    (hkey : c.visitedKey = c'.visitedKey) : c = c' := by
  rcases c with ⟨position, q, ranges⟩
  rcases c' with ⟨position', q', ranges'⟩
  simp only [MatchState.visitedKey, Prod.mk.injEq] at hkey
  rcases hkey with ⟨rfl, rfl, hranges⟩
  have hne := h.notEmpty
  have hne' := h'.notEmpty
  -- A null list and an empty one are the only two with one key.
  cases ranges with
  | none =>
      cases ranges' with
      | none => rfl
      | some l' =>
          simp only [Option.getD_none, Option.getD_some] at hranges
          subst hranges
          exact absurd rfl hne'
  | some l =>
      cases ranges' with
      | none =>
          simp only [Option.getD_none, Option.getD_some] at hranges
          subst hranges
          exact absurd rfl hne
      | some l' =>
          simp only [Option.getD_some] at hranges
          rw [hranges]

section Counting

variable {α : Type} [DecidableEq α]

/-- All lists over a finite set that are no longer than a bound. -/
def boundedLists (elements : Finset α) : Nat → Finset (List α)
  | 0 => {[]}
  | bound + 1 =>
    insert [] ((elements ×ˢ boundedLists elements bound).image fun p => p.1 :: p.2)

theorem mem_boundedLists {elements : Finset α} {bound : Nat} {l : List α}
    (hmem : ∀ a ∈ l, a ∈ elements) (hlen : l.length ≤ bound) :
    l ∈ boundedLists elements bound := by
  induction l generalizing bound with
  | nil =>
      cases bound with
      | zero => exact Finset.mem_singleton_self []
      | succ bound => exact Finset.mem_insert_self [] _
  | cons a l ih =>
      cases bound with
      | zero =>
          rw [List.length_cons] at hlen
          omega
      | succ bound =>
          rw [List.length_cons] at hlen
          refine Finset.mem_insert_of_mem (Finset.mem_image.mpr ⟨(a, l), ?_, rfl⟩)
          rw [Finset.mem_product]
          exact ⟨hmem a List.mem_cons_self,
            ih (fun b hb => hmem b (List.mem_cons_of_mem a hb)) (by omega)⟩

/-- Each place of such a list holds one of the elements or nothing. -/
theorem card_boundedLists_le (elements : Finset α) (bound : Nat) :
    (boundedLists elements bound).card ≤ (elements.card + 1) ^ bound := by
  induction bound with
  | zero => exact Nat.le_of_eq (Finset.card_singleton [])
  | succ bound ih =>
      unfold boundedLists
      have hinsert := Finset.card_insert_le ([] : List α)
        ((elements ×ˢ boundedLists elements bound).image fun p => p.1 :: p.2)
      have himage := Finset.card_image_le (s := elements ×ˢ boundedLists elements bound)
        (f := fun p => p.1 :: p.2)
      have hproduct := Finset.card_product elements (boundedLists elements bound)
      have hmul := Nat.mul_le_mul_left elements.card ih
      have hpos : 1 ≤ (elements.card + 1) ^ bound := Nat.one_le_pow _ _ (Nat.succ_pos _)
      have hpow : (elements.card + 1) ^ (bound + 1)
          = elements.card * (elements.card + 1) ^ bound + (elements.card + 1) ^ bound := by
        rw [Nat.pow_succ, Nat.mul_comm, Nat.add_mul, Nat.one_mul]
      omega

end Counting

/-- The ends a range can have. -/
def rangeEnds (positions : Nat) : Finset (Option Nat) :=
  (Finset.range positions).insertNone

/-- The ranges a capture list can hold. -/
def possibleRanges (states : List State) (positions : Nat) : Finset Range :=
  ((captureNumbers states).toFinset ×ˢ rangeEnds positions ×ˢ rangeEnds positions).image
    fun p => { groupId := p.1, fromPosition := p.2.1, toPosition := p.2.2 }

/-- The keys the search can see. -/
def possibleKeys (matcher : Matcher) (input : List Nat) : Finset VisitedKey :=
  insert matcher.regexNfaElement.start (Finset.range matcher.states.length) ×ˢ
    Finset.range (input.length + 2) ×ˢ
      boundedLists (possibleRanges matcher.states (input.length + 2))
        (captureNumbers matcher.states).length

theorem mem_rangeEnds {bound : Nat} {position : Option Nat} (h : ∀ p ∈ position, p ≤ bound) :
    position ∈ rangeEnds (bound + 2) := by
  rw [rangeEnds, Finset.mem_insertNone]
  intro p hp
  have := h p hp
  rw [Finset.mem_range]
  omega

theorem mem_possibleKeys {matcher : Matcher} {input : List Nat} {c : MatchState}
    (h : Proper matcher input c) : c.visitedKey ∈ possibleKeys matcher input := by
  have hposition := h.position
  simp only [possibleKeys, MatchState.visitedKey, Finset.mem_product, Finset.mem_insert,
    Finset.mem_range]
  refine ⟨h.state, by omega, mem_boundedLists (fun range hrange => ?_) ?_⟩
  · rw [possibleRanges, Finset.mem_image]
    have hinside := h.inside range hrange
    refine ⟨(range.groupId, range.fromPosition, range.toPosition), ?_, rfl⟩
    simp only [Finset.mem_product, List.mem_toFinset]
    exact ⟨h.numbers _ (List.mem_map_of_mem hrange), mem_rangeEnds hinside.1,
      mem_rangeEnds hinside.2⟩
  · -- Distinct group numbers, all of them among those the automaton can record.
    have hlen := (h.distinct.subperm h.numbers).length_le
    rwa [groupIds, List.length_map] at hlen

theorem card_possibleKeys_le (matcher : Matcher) (input : List Nat) :
    (possibleKeys matcher input).card ≤
      (matcher.states.length + 1) * ((input.length + 2) *
        ((captureNumbers matcher.states).length * (input.length + 2 + 1) *
          (input.length + 2 + 1) + 1) ^ (captureNumbers matcher.states).length) := by
  have hends : (rangeEnds (input.length + 2)).card = input.length + 2 + 1 := by
    rw [rangeEnds, Finset.card_insertNone, Finset.card_range]
  have hranges : (possibleRanges matcher.states (input.length + 2)).card ≤
      (captureNumbers matcher.states).length * (input.length + 2 + 1) *
        (input.length + 2 + 1) := by
    refine Nat.le_trans Finset.card_image_le ?_
    rw [Finset.card_product, Finset.card_product, hends, Nat.mul_assoc]
    exact Nat.mul_le_mul_right _ (List.toFinset_card_le _)
  have hstates : (insert matcher.regexNfaElement.start
      (Finset.range matcher.states.length)).card ≤ matcher.states.length + 1 := by
    refine Nat.le_trans (Finset.card_insert_le _ _) ?_
    rw [Finset.card_range]
  rw [possibleKeys, Finset.card_product, Finset.card_product, Finset.card_range]
  refine Nat.mul_le_mul hstates (Nat.mul_le_mul_left _ ?_)
  exact Nat.le_trans (card_boundedLists_le _ _)
    (Nat.pow_le_pow_left (Nat.succ_le_succ hranges) _)

/-- A node has no more successors than the automaton has transitions. -/
theorem length_expand_le {matcher : Matcher} {input : List Nat} (c : MatchState)
    (pushed : List MatchState) (h : (exploration matcher input).expand c = .ok pushed) :
    pushed.length ≤ (matcher.states.map fun state => state.transitions.length).sum := by
  simp only [exploration] at h
  cases hstate : matcher.states[c.currentStateId]? with
  | none =>
      rw [hstate] at h
      cases h
  | some state =>
      rw [hstate] at h
      refine Nat.le_trans (length_branches_le h) (List.le_sum_of_mem ?_)
      exact List.mem_map_of_mem (List.mem_of_getElem? hstate)

/-- The configuration a search starts from: no captures yet. -/
def Matcher.startAt (matcher : Matcher) (startPosition : Nat) : MatchState :=
  ⟨startPosition, matcher.regexNfaElement.start, none⟩

/-- A run of `n` permitted transitions from the start to the accept state. -/
def Matcher.Accepts (matcher : Matcher) (input : List Nat) (startPosition n : Nat)
    (c : MatchState) : Prop :=
  c.currentStateId = matcher.regexNfaElement.accept ∧
    Runs (Transits matcher.states input) n (matcher.startAt startPosition) c

section Correctness

variable {matcher : Matcher} {input : List Nat} {startPosition : Nat}
  (htargets : TargetsExist matcher.states) (hstart : startPosition ≤ input.length)
include htargets hstart

theorem exploration_key {c c' : MatchState}
    (hc : Reachable (Transits matcher.states input) (matcher.startAt startPosition) c)
    (hc' : Reachable (Transits matcher.states input) (matcher.startAt startPosition) c')
    (hkey : (exploration matcher input).key c = (exploration matcher input).key c') : c = c' :=
  visitedKey_injective (proper_of_reachable htargets hstart hc)
    (proper_of_reachable htargets hstart hc') hkey

/-- There are finitely many keys. -/
theorem length_keys_le {keys : List VisitedKey} (hnodup : keys.Nodup)
    (hkeys : ∀ k ∈ keys, ∃ c,
      Reachable (Transits matcher.states input) (matcher.startAt startPosition) c ∧
        (exploration matcher input).key c = k) :
    keys.length ≤ (possibleKeys matcher input).card := by
  rw [← List.toFinset_card_of_nodup hnodup]
  refine Finset.card_le_card (fun k hk => ?_)
  rw [List.mem_toFinset] at hk
  rcases hkeys k hk with ⟨c, hc, rfl⟩
  exact mem_possibleKeys (proper_of_reachable htargets hstart hc)

/-- The library's search ends within the rounds the matcher's loop is given, so
    it says what `matchOneFrom` returns. -/
theorem loop_ends : ∃ found,
    (exploration matcher input).loop (searchFuel matcher input)
      ⟨[matcher.startAt startPosition], []⟩ = some found ∧
    matchOneFrom matcher input startPosition = foundResult startPosition found := by
  have hends : ∃ found, (exploration matcher input).loop (searchFuel matcher input)
      ⟨[matcher.startAt startPosition], []⟩ = some found := by
    refine loop_terminates mem_expand_iff
      (fun c c' hc hc' hkey => exploration_key htargets hstart hc hc' hkey)
      (fun keys hnodup hkeys => length_keys_le htargets hstart hnodup hkeys)
      length_expand_le _ _ ⟨0, _, [], (List.append_nil _).symm, Layered.start⟩ ?_
    have hkeys := card_possibleKeys_le matcher input
    have hwidth := Nat.mul_le_mul hkeys
      (Nat.le_add_right (matcher.states.map fun state => state.transitions.length).sum 1)
    simp only [searchFuel, List.length_singleton, List.length_nil, Nat.sub_zero]
    omega
  rcases hends with ⟨found, hfound⟩
  refine ⟨found, hfound, ?_⟩
  have hfrontier : (initialSearch matcher startPosition).frontier
      = ⟨[matcher.startAt startPosition], []⟩ := rfl
  rw [matchOneFrom, searchLoop_eq, hfrontier, hfound]
  rfl

/-- More rounds than `searchFuel` change nothing. -/
theorem searchLoop_eq_matchOneFrom {fuel : Nat} (hfuel : searchFuel matcher input ≤ fuel) :
    searchLoop matcher input startPosition fuel (initialSearch matcher startPosition)
      = some (matchOneFrom matcher input startPosition) := by
  rcases loop_ends htargets hstart with ⟨found, hfound, hresult⟩
  have hfrontier : (initialSearch matcher startPosition).frontier
      = ⟨[matcher.startAt startPosition], []⟩ := rfl
  rw [searchLoop_eq, hfrontier, (exploration matcher input).loop_mono hfuel hfound, hresult]
  rfl

/-- A result is built from the last configuration of a shortest accepting run. -/
theorem matchOneFrom_some {result : MatchResult}
    (h : matchOneFrom matcher input startPosition = .ok (some result)) :
    ∃ n c, matcher.Accepts input startPosition n c ∧ result = acceptResult startPosition c ∧
      ∀ n' c', matcher.Accepts input startPosition n' c' → n ≤ n' := by
  rcases loop_ends htargets hstart with ⟨found, hfound, hresult⟩
  rw [hresult] at h
  rcases found with e | _ | c
  · cases h
  · cases h
  · cases h
    rcases loop_goal mem_expand_iff
      (fun c c' hc hc' hkey => exploration_key htargets hstart hc hc' hkey) hfound with
      ⟨hgoal, n, hruns, hshortest⟩
    exact ⟨n, c, ⟨beq_iff_eq.mp hgoal, hruns⟩, rfl,
      fun n' c' h' => hshortest n' c' (beq_iff_eq.mpr h'.1) h'.2⟩

/-- Without a result there is no accepting run. -/
theorem matchOneFrom_none (h : matchOneFrom matcher input startPosition = .ok none) {n : Nat}
    {c : MatchState} : ¬ matcher.Accepts input startPosition n c := by
  rcases loop_ends htargets hstart with ⟨found, hfound, hresult⟩
  rw [hresult] at h
  rcases found with e | _ | c
  · cases h
  · intro haccepts
    have hgoal := loop_none mem_expand_iff
      (fun c c' hc hc' hkey => exploration_key htargets hstart hc hc' hkey) hfound haccepts.2
    exact (beq_eq_false_iff_ne.mp hgoal) haccepts.1
  · cases h

end Correctness

/-- The search is right. For an automaton whose transitions lead to existing
    states: within `searchFuel` rounds the loop ends, and more rounds change
    nothing; if it does not throw, it returns a result if and only if some run
    of permitted transitions accepts; and the result is built from the last
    configuration of such a run, and no such run is shorter. -/
theorem matchOneFrom_correct (matcher : Matcher) (input : List Nat) (startPosition : Nat)
    (htargets : TargetsExist matcher.states) (hstart : startPosition ≤ input.length) :
    (∀ fuel, searchFuel matcher input ≤ fuel →
      searchLoop matcher input startPosition fuel (initialSearch matcher startPosition)
        = some (matchOneFrom matcher input startPosition)) ∧
    ∀ result, matchOneFrom matcher input startPosition = .ok result →
      (result.isSome ↔ ∃ n c, matcher.Accepts input startPosition n c) ∧
      ∀ r, result = some r → ∃ n c, matcher.Accepts input startPosition n c ∧
        r = acceptResult startPosition c ∧
        ∀ n' c', matcher.Accepts input startPosition n' c' → n ≤ n' := by
  refine ⟨fun fuel hfuel => searchLoop_eq_matchOneFrom htargets hstart hfuel,
    fun result h => ?_⟩
  cases result with
  | none =>
      refine ⟨iff_of_false Bool.false_ne_true ?_, fun r hr => by cases hr⟩
      intro haccepts
      rcases haccepts with ⟨n, c, haccepts⟩
      exact matchOneFrom_none htargets hstart h haccepts
  | some result =>
      rcases matchOneFrom_some htargets hstart h with ⟨n, c, haccepts, heq, hshortest⟩
      refine ⟨iff_of_true rfl ⟨n, c, haccepts⟩, fun r hr => ?_⟩
      cases hr
      exact ⟨n, c, haccepts, heq, hshortest⟩

/-- An automaton with an epsilon cycle through a capturing group. -/
def capturingLoop : Matcher :=
  { regexNfaElement := { start := 0, accept := 3 }
    states := [
      { id := 0, transitions := [⟨1, .groupCaptureStart 1⟩, ⟨3, .char (codePoint 'b')⟩] },
      { id := 1, transitions := [⟨2, .epsilon⟩, ⟨2, .char (codePoint 'a')⟩] },
      { id := 2, transitions := [⟨0, .groupCaptureEnd 1⟩] },
      { id := 3 }] }

theorem matchOneFrom_correct_capturingLoop :
    (∀ fuel, searchFuel capturingLoop [97, 98] ≤ fuel →
      searchLoop capturingLoop [97, 98] 0 fuel (initialSearch capturingLoop 0)
        = some (matchOneFrom capturingLoop [97, 98] 0)) ∧
    ∀ result, matchOneFrom capturingLoop [97, 98] 0 = .ok result →
      (result.isSome ↔ ∃ n c, capturingLoop.Accepts [97, 98] 0 n c) ∧
      ∀ r, result = some r → ∃ n c, capturingLoop.Accepts [97, 98] 0 n c ∧
        r = acceptResult 0 c ∧
        ∀ n' c', capturingLoop.Accepts [97, 98] 0 n' c' → n ≤ n' :=
  matchOneFrom_correct capturingLoop [97, 98] 0 (by decide) (by decide)

end Grep

end CodingChallenges
