import CodingChallenges.Grep.Compiled
import CodingChallenges.Grep.GroupNumbers

/-!
# Captures Are Well Formed

What the ranges of a returned result look like.

Three things come together. Positions never decrease along a run, so a range
that was entered at one position and left at a later one is in order, however
often its group was entered before (`Recorded.startRange`,
`Recorded.endRange`). The groups of an automaton are numbered from one on, and
copies of a group share its number, so no group has the number of the whole
match (`planRegex_atLeast`). And the accept state is entered by epsilons only, so
the step into it was tried at a position of the input and did not leave it
(`compiled_exit`): a dot that steps past the end never ends a match.

## Main definitions

* `numbersAtLeast`: The numbers that a planner gives are not below a bound.
* `Range.Recorded`: A range that was entered, and left no earlier.
* `MatchResult.WellFormed`: The ranges of a result.

## Theorems

* `planRegex_atLeast`: Groups are numbered from the counter on.
* `compiled_exit`: The last step of an accepting run does not move.
* `Recorded.transits`: What a transition keeps of the ranges.
* `parseRegex_captures`: The ranges of every result are well formed.
-/

namespace CodingChallenges

namespace Grep

section Numbers

theorem Plan.groupNumbersOfAlternatives_eq (alternatives : List Plan) :
    Plan.groupNumbersOfAlternatives alternatives = alternatives.flatMap Plan.groupNumbers := by
  induction alternatives with
  | nil => rfl
  | cons alternative rest ih =>
      rw [Plan.groupNumbersOfAlternatives, ih, List.flatMap_cons]

/-- Started with a counter that is not below the bound, planning leaves one that is not, and
    neither are the numbers in the plan. -/
def numbersAtLeast (bound : Nat) : PlanInvariant {} where
  counter groupId := bound ≤ groupId
  plan plan := ∀ n ∈ plan.groupNumbers, bound ≤ n
  mayThrow := True
  next h := Nat.le_succ_of_le h
  epsilon := List.forall_mem_nil _
  startOfStringAnchor := List.forall_mem_nil _
  matchItem _ _ := List.forall_mem_nil _
  anchor _ _ := List.forall_mem_nil _
  backreference _ _ := List.forall_mem_nil _
  concat hfirst hsecond := List.forall_mem_append.mpr ⟨hfirst, hsecond⟩
  wrap copy _ h := by cases copy <;> exact h
  capture hcounter h := List.forall_mem_cons.mpr ⟨hcounter, h⟩
  alternation h n hn := by
    rw [Plan.groupNumbers, Plan.groupNumbersOfAlternatives_eq, List.mem_flatMap] at hn
    rcases hn with ⟨alternative, hmem, hn⟩
    exact h alternative hmem n hn
  throws _ _ := trivial

/-- Groups are numbered from the counter on. -/
theorem planExpression_atLeast (expression : Expression) {counter : Nat} {result : Plan × Nat}
    (hrun : (planExpression expression).run counter = .ok result) :
    ∀ n ∈ result.1.groupNumbers, counter ≤ n :=
  ((planExpression_keeps (numbersAtLeast counter) expression expression.forall_default).of_run
    (Nat.le_refl counter) hrun).1

theorem planRegex_atLeast (regex : Regex) {counter : Nat} {result : Plan × Nat}
    (hrun : (planRegex regex).run counter = .ok result) :
    ∀ n ∈ result.1.groupNumbers, counter ≤ n :=
  ((planRegex_keeps (numbersAtLeast counter) regex regex.expression.forall_default).of_run
    (Nat.le_refl counter) hrun).1

end Numbers

section Compiled

variable {regex : Regex} {element : NfaElement} {nfa : Nfa}
  (hbuild : (buildRegex regex).run {} = .ok (element, nfa))
include hbuild

/-- No group has the number of the whole match. -/
theorem captureNumbers_pos : ∀ n ∈ captureNumbers nfa.states, 0 < n := by
  rcases buildRegex_eq_ok hbuild with ⟨result, hrun, -, hstates⟩
  have hN : NodePredicate.Implies {} (fun c => ¬ c.IsCapture) :=
    ⟨id, id, fun item _ => item.isLeaf_condition.1.not_isCapture, fun _ _ => id, fun _ _ => id⟩
  have hplan := planRegex_forall hN regex regex.expression.forall_default 1 result hrun
  have hnumbers := numbersFrom_assemble result.1 [] 0 hplan (Nat.zero_le _)
  have hnil : numbersFrom 0 [] = [] := rfl
  rw [hnil, List.nil_append] at hnumbers
  rw [hstates, captureNumbers_eq, hnumbers]
  exact planRegex_atLeast regex hrun

/-- A step into the accept state is an epsilon. -/
theorem compiled_exit (input : List Nat) {x y : Nat × Data}
    (hstep : nfaStep nfa.states input x y) (hy : y.1 = element.accept) : y.2 = x.2 := by
  rcases buildRegex_eq_ok hbuild with ⟨result, hrun, helement, hstates⟩
  rw [hstates] at hstep
  rw [helement] at hy
  rw [planRegex, run_bind_eq_ok] at hrun
  rcases hrun with ⟨inner, hinner, hrun⟩
  rw [run_pure_eq_ok] at hrun
  subst hrun
  rcases hexpression : regex.expression with ⟨alternatives⟩
  rw [hexpression, planExpression, run_bind_eq_ok] at hinner
  rcases hinner with ⟨plans, -, hinner⟩
  rw [run_pure_eq_ok] at hinner
  subst hinner
  -- The pattern may begin with an anchor in front of its alternatives.
  cases hanchor : regex.startOfStringAnchor with
  | true =>
      rw [hanchor] at hstep hy
      exact concat_alternation_exit input .startOfStringAnchor plans.1 hstep hy
  | false =>
      rw [hanchor] at hstep hy
      exact alternation_exit input plans.1 hstep hy

end Compiled

/-- The range was entered, not before the one position, and if it was left then
    no earlier than that; both up to the other position. -/
def Range.Recorded (startPosition position : Nat) (range : Range) : Prop :=
  ∃ first, range.fromPosition = some first ∧ startPosition ≤ first ∧ first ≤ position ∧
    ∀ last ∈ range.toPosition, first ≤ last ∧ last ≤ position

section Recorded

variable {startPosition position : Nat}

theorem Range.Recorded.mono {range : Range} {position' : Nat}
    (h : range.Recorded startPosition position) (hle : position ≤ position') :
    range.Recorded startPosition position' := by
  rcases h with ⟨first, hfrom, hstart, hfirst, hto⟩
  refine ⟨first, hfrom, hstart, Nat.le_trans hfirst hle, fun last hlast => ?_⟩
  rcases hto last hlast with ⟨horder, hend⟩
  exact ⟨horder, Nat.le_trans hend hle⟩

/-- Entering a group begins its range anew. -/
theorem recorded_startRange {n : Nat} (hle : startPosition ≤ position) {ranges : List Range}
    (h : ∀ range ∈ ranges, range.Recorded startPosition position) :
    ∀ range ∈ startRange n position ranges, range.Recorded startPosition position := by
  have hnew : ∀ id : Nat, Range.Recorded startPosition position ⟨id, some position, none⟩ :=
    fun id => ⟨position, rfl, hle, Nat.le_refl position, fun last hlast => by cases hlast⟩
  induction ranges with
  | nil => exact List.forall_mem_singleton.mpr (hnew n)
  | cons first rest ih =>
      rw [List.forall_mem_cons] at h
      unfold startRange
      split
      · exact List.forall_mem_cons.mpr ⟨hnew first.groupId, h.2⟩
      · exact List.forall_mem_cons.mpr ⟨h.1, ih h.2⟩

/-- Leaving a group ends its range where the run is, which is not before the
    place where it was entered. -/
theorem recorded_endRange {n : Nat} {ranges ranges' : List Range}
    (hend : endRange n position ranges = some ranges')
    (h : ∀ range ∈ ranges, range.Recorded startPosition position) :
    ∀ range ∈ ranges', range.Recorded startPosition position := by
  induction ranges generalizing ranges' with
  | nil => cases hend
  | cons range rest ih =>
      rw [List.forall_mem_cons] at h
      unfold endRange at hend
      split at hend
      · cases hend
        rcases h.1 with ⟨first, hfrom, hstart, hfirst, -⟩
        refine List.forall_mem_cons.mpr ⟨⟨first, hfrom, hstart, hfirst, fun last hlast => ?_⟩, h.2⟩
        cases hlast
        exact ⟨hfirst, Nat.le_refl position⟩
      · rw [Option.map_eq_some_iff] at hend
        rcases hend with ⟨rest', hend, rfl⟩
        exact List.forall_mem_cons.mpr ⟨h.1, ih hend h.2⟩

end Recorded

/-- What a search has recorded when it comes to a configuration. -/
def MatchState.Recorded (startPosition : Nat) (c : MatchState) : Prop :=
  startPosition ≤ c.inputPosition ∧
    ∀ range ∈ c.groupRanges.getD [], range.Recorded startPosition c.inputPosition

/-- A transition keeps the ranges recorded. -/
theorem MatchState.Recorded.transits {states : List State} {input : List Nat}
    {startPosition : Nat} {c c' : MatchState} (h : c.Recorded startPosition)
    (hstep : Transits states input c c') : c'.Recorded startPosition := by
  rcases hstep with ⟨state, transition, -, -, hbranch⟩
  rcases (branch_eq_ok_iff input c c' transition).mp hbranch with ⟨-, -, hacts⟩
  have hforward : c.inputPosition ≤ c'.inputPosition := hacts.position_le
  refine ⟨Nat.le_trans h.1 hforward, ?_⟩
  by_cases hcapture : transition.condition.IsCapture
  · generalize transition.condition = condition at hcapture hacts
    cases condition with
    | groupCaptureStart n =>
        rw [acts_captureStart_iff, Prod.mk.injEq] at hacts
        rw [hacts.1, hacts.2]
        exact recorded_startRange h.1 h.2
    | groupCaptureEnd n =>
        rcases (acts_captureEnd_iff input n _ _).mp hacts with ⟨ranges, ranges', hranges, hend, heq⟩
        rw [Prod.mk.injEq] at heq
        have hbefore := h.2
        simp only at hranges hend
        rw [hranges] at hbefore
        rw [heq.1, heq.2]
        exact recorded_endRange hend hbefore
    | _ => exact absurd hcapture id
  · -- No other condition changes what was captured.
    have hsame := hacts.captures_eq hcapture
    simp only at hsame
    rw [hsame]
    exact fun range hrange => (h.2 range hrange).mono hforward

/-- The ranges of a result: the whole match from the start position on, inside
    the input, and behind it the groups, with numbers of their own, each inside
    the match. -/
def MatchResult.WellFormed (input : List Nat) (startPosition : Nat) (result : MatchResult) :
    Prop :=
  ∃ last groups, result.groupRanges = ⟨0, some startPosition, some last⟩ :: groups ∧
    startPosition ≤ last ∧ last ≤ input.length ∧
    (∀ range ∈ groups, ∃ first second, range.fromPosition = some first ∧
      range.toPosition = some second ∧ startPosition ≤ first ∧ first ≤ second ∧ second ≤ last) ∧
    (groupIds groups).Nodup ∧ ∀ n ∈ groupIds groups, n ≠ 0

/-- What is left of recorded ranges when the unfinished ones are erased. -/
theorem wellFormed_acceptResult {matcher : Matcher} {input : List Nat} {startPosition : Nat}
    {c : MatchState} (hproper : Proper matcher input c)
    (hpos : ∀ n ∈ captureNumbers matcher.states, 0 < n) (hrecorded : c.Recorded startPosition)
    (hle : c.inputPosition ≤ input.length) :
    (acceptResult startPosition c).WellFormed input startPosition := by
  refine ⟨c.inputPosition, _, rfl, hrecorded.1, hle, fun range hrange => ?_, ?_, ?_⟩
  · rw [List.mem_filter] at hrange
    rcases hrecorded.2 range hrange.1 with ⟨first, hfrom, hstart, -, hto⟩
    have hcomplete := hrange.2
    rw [Range.isComplete, Bool.and_eq_true, Option.isSome_iff_exists, Option.isSome_iff_exists]
      at hcomplete
    rcases hcomplete.2 with ⟨second, hsecond⟩
    exact ⟨first, second, hfrom, hsecond, hstart, hto second hsecond⟩
  · exact hproper.distinct.sublist (List.filter_sublist.map Range.groupId)
  · intro n hn
    rcases List.mem_map.mp hn with ⟨range, hrange, rfl⟩
    have hmem := hproper.numbers range.groupId
      (List.mem_map_of_mem (List.mem_of_mem_filter hrange))
    exact Nat.ne_of_gt (hpos _ hmem)

/-- For every pattern the parser accepts, every input and every start position
    in it: the ranges of a result are well formed. -/
theorem parseRegex_captures (p : List Byte) (regex : Regex) (rest : List Byte)
    (hparse : parseRegex p = .ok ⟨regex, rest⟩) :
    ∃ element nfa, (buildRegex regex).run {} = .ok (element, nfa) ∧
      ∀ (input : List Nat) (startPosition : Nat), startPosition ≤ input.length →
        ∀ result, matchOneFrom (compiled element nfa) input startPosition = .ok (some result) →
          result.WellFormed input startPosition := by
  rcases parseRegex_builds hparse with ⟨element, nfa, hbuild⟩
  refine ⟨element, nfa, hbuild, fun input startPosition hstart result hresult => ?_⟩
  have htargets : TargetsExist (compiled element nfa).states :=
    parseRegex_targetsExist hparse hbuild
  rcases matchOneFrom_some htargets hstart hresult with ⟨n, c, ⟨haccept, hruns⟩, rfl, -⟩
  have hrecorded : c.Recorded startPosition :=
    hruns.preserves (fun _ _ h hstep => h.transits hstep)
      ⟨Nat.le_refl startPosition, fun range hrange => absurd hrange List.not_mem_nil⟩
  refine wellFormed_acceptResult (proper_of_reachable htargets hstart ⟨n, hruns⟩)
    (captureNumbers_pos hbuild) hrecorded ?_
  rcases n with _ | n
  · rw [Runs.zero_iff] at hruns
    rw [← hruns]
    exact hstart
  · -- The last step was tried inside the input, and did not move.
    rcases hruns.unsnoc with ⟨b, -, hlast⟩
    have hb : b = configuration (b.currentStateId, (b.inputPosition, b.groupRanges)) := rfl
    have hc : c = configuration (c.currentStateId, (c.inputPosition, c.groupRanges)) := rfl
    rw [hb, hc, transits_configuration_iff] at hlast
    have hexit := compiled_exit hbuild input hlast.2 haccept
    simp only [Prod.mk.injEq] at hexit
    rw [hexit.1]
    exact hlast.1

/-- The pattern `(a)`, whose one group is the whole match. -/
theorem parseRegex_captures_group :
    ∃ element nfa, (buildRegex
        { expression := .mk [.mk [.group (.mk false (some (.mk [.mk [.singleMatch
          { matchItem := .character (codePoint 'a') }]])) none)]] }).run {} = .ok (element, nfa) ∧
      ∀ (input : List Nat) (startPosition : Nat), startPosition ≤ input.length →
        ∀ result, matchOneFrom (compiled element nfa) input startPosition = .ok (some result) →
          result.WellFormed input startPosition :=
  parseRegex_captures [byte '(', byte 'a', byte ')'] _ [] rfl

end Grep

end CodingChallenges
