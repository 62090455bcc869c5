import CodingChallenges.Grep.Compiled

/-!
# Positions Stay Inside the Input

When a search stays inside the input, and that it throws nothing then.

Without unicode categories the matcher throws at one place, the suffix it takes
of the input, and there only for a position past the end. Every reading
transition but one looks whether a character is left. The dot does not: at the
end of the input it steps past it, and the configuration it pushes makes the
search throw as soon as it is expanded.

So a search stays inside the input exactly if no dot is tried at its end.
`InBounds.next` is the step of the induction for one direction; for the other
one, the round that tries a dot at the end is followed by one whose queue holds
a position past the end.

## Main definitions

* `noUnicode`: There are no unicode categories.
* `SearchNext`: One round of the search that goes on.
* `Matcher.Queues`, `Matcher.Expands`: What the rounds of a search work on.
* `Matcher.DotsHaveInput`: No dot is tried at the end of the input.
* `Matcher.Outruns`: A configuration past the end of the input is expanded.

## Theorems

* `processTransition_ok`: A transition alone throws nothing.
* `searchStep_cons`: The rounds of the search.
* `searchNext_cases`, `searchStep_throws`: Those that go on, and those that throw.
* `queues_inside_iff`: When a search stays inside the input.
* `matchOneFrom_ok`: It throws nothing then.
* `matchOneFrom_ok_iff`: When a search throws nothing.
* `parseRegex_inside_iff`: The same for every pattern.
-/

namespace CodingChallenges

namespace Grep

/-- The item is no unicode category, and no bracket group with one. -/
def MatchItem.NoUnicode : MatchItem → Prop
  | .characterClass (.unicodeCategory _) => False
  | .characterClass (.characterGroup g) => ∀ c, .unicodeCategory c ∉ g.characterGroupItems
  | _ => True

/-- There are no unicode categories. -/
def noUnicode : NodePredicate := { onMatchItem := MatchItem.NoUnicode }

/-- The condition asks for no unicode category. -/
def TransitionConditionType.NoUnicode : TransitionConditionType → Prop
  | .unicodeCategoryName _ => False
  | .characterGroup g => ∀ c, .unicodeCategory c ∉ g.characterGroupItems
  | _ => True

theorem MatchItem.NoUnicode.condition {item : MatchItem} (h : item.NoUnicode) :
    item.condition.NoUnicode := by
  rcases item with _ | (_ | _ | _) | _
  · exact trivial
  · exact h
  · exact trivial
  · exact h
  · exact trivial

theorem noUnicode_implies :
    noUnicode.Implies (fun c => c.NoUnicode ∧ ¬ c.IsCapture) :=
  ⟨⟨trivial, id⟩, ⟨trivial, id⟩,
    fun item hitem => ⟨MatchItem.NoUnicode.condition hitem,
      item.isLeaf_condition.1.not_isCapture⟩,
    fun _ _ => ⟨trivial, id⟩, fun _ _ => ⟨trivial, id⟩⟩

section Transitions

theorem processGroupItems_ok (toStateId : Nat) (negate : Bool) (input : List Nat)
    {items : List CharacterGroupItem} (h : ∀ c, .unicodeCategory c ∉ items) :
    ∃ result, processGroupItems toStateId negate input items = .ok result := by
  induction items with
  | nil => exact ⟨_, rfl⟩
  | cons item rest ih =>
      have hrest := ih fun c hc => h c (List.mem_cons_of_mem item hc)
      have hitem : ∃ found, processGroupItem toStateId item input = .ok found := by
        cases item with
        | unicodeCategory c => exact absurd List.mem_cons_self (h c)
        | characterClass c => exact ⟨_, rfl⟩
        | characterRange r => exact ⟨_, rfl⟩
        | character c => exact ⟨_, rfl⟩
      rcases hitem with ⟨found, hfound⟩
      unfold processGroupItems
      rw [hfound, ok_bind]
      cases found with
      | none => exact hrest
      | some result => exact ⟨_, rfl⟩

/-- A transition alone throws nothing. -/
theorem processTransition_ok {condition : TransitionConditionType} (h : condition.NoUnicode)
    (input : List Nat) (c : MatchState) (t : Nat) (rest : List Nat) (negate : Bool) :
    ∃ result, processTransition input c t condition rest negate = .ok result := by
  cases condition with
  | unicodeCategoryName n => exact absurd h id
  | characterGroup g =>
      have hgroup : ∃ found, processCharacterGroupTransition t g rest = .ok found := by
        cases rest with
        | nil => exact ⟨_, rfl⟩
        | cons first more => exact processGroupItems_ok t _ _ h
      rcases hgroup with ⟨found, hfound⟩
      simp only [processTransition, hfound, ok_bind]
      exact ⟨_, rfl⟩
  | _ => exact ⟨_, rfl⟩

/-- Inside the input the loop over the transitions of a state throws nothing. -/
theorem branches_ok {input : List Nat} {c : MatchState} (hc : c.inputPosition ≤ input.length)
    {transitions : List Transition}
    (h : ∀ transition ∈ transitions, transition.condition.NoUnicode) :
    ∃ pushed, branches input c transitions = .ok pushed := by
  induction transitions with
  | nil => exact ⟨[], rfl⟩
  | cons transition rest ih =>
      rcases ih fun t ht => h t (List.mem_cons_of_mem transition ht) with ⟨more, hmore⟩
      rcases processTransition_ok (h transition List.mem_cons_self) input c transition.toState
        (input.drop c.inputPosition) false with ⟨⟨result, branchState⟩, hrun⟩
      have hsubstr : substr input c.inputPosition = .ok (input.drop c.inputPosition) := if_pos hc
      have hbranch : ∃ b, branch input c transition = .ok b := by
        unfold branch
        rw [hsubstr, ok_bind, hrun, ok_bind]
        cases result with
        | none => exact ⟨none, rfl⟩
        | some result => exact ⟨some _, rfl⟩
      rcases hbranch with ⟨b, hb⟩
      unfold branches
      rw [hb, ok_bind, hmore, ok_bind]
      exact ⟨_, rfl⟩

end Transitions

section Rounds

variable (matcher : Matcher) (input : List Nat) (startPosition : Nat)

/-- What one round does with the head of the queue: skip it, accept it, throw,
    or expand it. -/
theorem searchStep_cons (c : MatchState) (queue : List MatchState) (visited : List VisitedKey) :
    (c.visitedKey ∈ visited ∧
      searchStep matcher input startPosition ⟨c :: queue, visited⟩ = .next ⟨queue, visited⟩) ∨
    (c.visitedKey ∉ visited ∧ c.currentStateId = matcher.regexNfaElement.accept ∧
      searchStep matcher input startPosition ⟨c :: queue, visited⟩
        = .done (.ok (some (acceptResult startPosition c)))) ∨
    (c.visitedKey ∉ visited ∧ c.currentStateId ≠ matcher.regexNfaElement.accept ∧
      ((matcher.states[c.currentStateId]? = none ∧
        searchStep matcher input startPosition ⟨c :: queue, visited⟩
          = .done (.error .outOfRange)) ∨
      ∃ state, matcher.states[c.currentStateId]? = some state ∧
        ((∃ e, branches input c state.transitions = .error e ∧
          searchStep matcher input startPosition ⟨c :: queue, visited⟩ = .done (.error e)) ∨
        ∃ pushed, branches input c state.transitions = .ok pushed ∧
          searchStep matcher input startPosition ⟨c :: queue, visited⟩
            = .next ⟨queue ++ pushed, c.visitedKey :: visited⟩))) := by
  unfold searchStep
  by_cases hvisited : c.visitedKey ∈ visited
  · left
    exact ⟨hvisited, if_pos hvisited⟩
  · right
    simp only [hvisited, if_false, not_false_eq_true, true_and]
    by_cases haccept : c.currentStateId = matcher.regexNfaElement.accept
    · left
      exact ⟨haccept, if_pos haccept⟩
    · right
      simp only [haccept, if_false, ne_eq, not_false_eq_true, true_and]
      cases hstate : matcher.states[c.currentStateId]? with
      | none => exact Or.inl ⟨rfl, rfl⟩
      | some state =>
          refine Or.inr ⟨state, rfl, ?_⟩
          cases hbranches : branches input c state.transitions with
          | error e => exact Or.inl ⟨e, rfl, by simp only [hbranches]⟩
          | ok pushed => exact Or.inr ⟨pushed, rfl, by simp only [hbranches]⟩

/-- One round of the search that goes on. -/
def SearchNext (search search' : SearchState) : Prop :=
  searchStep matcher input startPosition search = .next search'

/-- The configuration is in the queue after some rounds. -/
def Matcher.Queues (c : MatchState) : Prop :=
  ∃ n search, Runs (SearchNext matcher input startPosition) n
      (initialSearch matcher startPosition) search ∧ c ∈ search.statesToProcess

/-- Some round pops the configuration and tries its transitions. -/
def Matcher.Expands (c : MatchState) : Prop :=
  ∃ n search queue, Runs (SearchNext matcher input startPosition) n
      (initialSearch matcher startPosition) search ∧
    search.statesToProcess = c :: queue ∧ c.visitedKey ∉ search.visitedStates ∧
      c.currentStateId ≠ matcher.regexNfaElement.accept

/-- Whenever a dot is tried, a character is left. -/
def Matcher.DotsHaveInput : Prop :=
  ∀ c, matcher.Expands input startPosition c →
    ∀ transition ∈ outgoing matcher.states c.currentStateId,
      transition.condition = .matchAnyCharacter → c.inputPosition < input.length

/-- Some round expands a configuration past the end of the input that has
    transitions to try. -/
def Matcher.Outruns : Prop :=
  ∃ c, matcher.Expands input startPosition c ∧ input.length < c.inputPosition ∧
    outgoing matcher.states c.currentStateId ≠ []

/-- A search that ended did so in a round after finitely many others. -/
theorem searchLoop_eq_some {fuel : Nat} {search : SearchState}
    {result : Except Exception (Option MatchResult)}
    (h : searchLoop matcher input startPosition fuel search = some result) :
    ∃ n search', Runs (SearchNext matcher input startPosition) n search search' ∧
      searchStep matcher input startPosition search' = .done result := by
  induction fuel generalizing search with
  | zero => cases h
  | succ fuel ih =>
      unfold searchLoop at h
      cases hstep : searchStep matcher input startPosition search with
      | done result' =>
          rw [hstep] at h
          cases h
          exact ⟨0, search, Runs.refl search, hstep⟩
      | next search₁ =>
          rw [hstep] at h
          rcases ih h with ⟨n, search', hruns, hlast⟩
          exact ⟨n + 1, search', Runs.head search search₁ search' hstep hruns, hlast⟩

/-- A round that ends the search after finitely many others is its last one. -/
theorem searchLoop_of_runs {n : Nat} {search search' : SearchState}
    {result : Except Exception (Option MatchResult)}
    (hruns : Runs (SearchNext matcher input startPosition) n search search')
    (hlast : searchStep matcher input startPosition search' = .done result) (k : Nat) :
    searchLoop matcher input startPosition (n + 1 + k) search = some result := by
  induction hruns with
  | refl _ =>
      rw [Nat.zero_add, Nat.add_comm]
      unfold searchLoop
      rw [hlast]
  | @head m a b _ hstep _ ih =>
      have hfuel : m + 1 + 1 + k = m + 1 + k + 1 := by omega
      rw [hfuel]
      unfold searchLoop
      rw [hstep]
      exact ih hlast

end Rounds

section Heads

variable {matcher : Matcher} {input : List Nat} {startPosition : Nat} {queue : List MatchState}
  {visited : List VisitedKey}

/-- A round that goes on takes the head away, and puts its branches at the end of the queue
    unless its key was seen. -/
theorem searchNext_cases {search : SearchState}
    (h : SearchNext matcher input startPosition ⟨queue, visited⟩ search) :
    ∃ c rest, queue = c :: rest ∧
      (search = ⟨rest, visited⟩ ∨
        (c.visitedKey ∉ visited ∧ c.currentStateId ≠ matcher.regexNfaElement.accept ∧
          ∃ state pushed, matcher.states[c.currentStateId]? = some state ∧
            branches input c state.transitions = .ok pushed ∧
              search = ⟨rest ++ pushed, c.visitedKey :: visited⟩)) := by
  unfold SearchNext at h
  cases queue with
  | nil => cases h
  | cons c rest =>
      refine ⟨c, rest, rfl, ?_⟩
      rcases searchStep_cons matcher input startPosition c rest visited with
        ⟨-, heq⟩ | ⟨-, -, heq⟩ | ⟨hvisited, haccept, ⟨-, heq⟩ | ⟨state, hstate, hcases⟩⟩
      · rw [heq] at h
        cases h
        exact Or.inl rfl
      · rw [heq] at h
        cases h
      · rw [heq] at h
        cases h
      · rcases hcases with ⟨e, -, heq⟩ | ⟨pushed, hbranches, heq⟩
        · rw [heq] at h
          cases h
        · rw [heq] at h
          cases h
          exact Or.inr ⟨hvisited, haccept, state, pushed, hstate, hbranches, rfl⟩

/-- A round throws at the head of the queue, for want of its state or in one of its
    transitions. -/
theorem searchStep_throws {e : Exception}
    (h : searchStep matcher input startPosition ⟨queue, visited⟩ = .done (.error e)) :
    ∃ c rest, queue = c :: rest ∧ c.visitedKey ∉ visited ∧
      c.currentStateId ≠ matcher.regexNfaElement.accept ∧
        (matcher.states[c.currentStateId]? = none ∨
          ∃ state, matcher.states[c.currentStateId]? = some state ∧
            branches input c state.transitions = .error e) := by
  cases queue with
  | nil => cases h
  | cons c rest =>
      refine ⟨c, rest, rfl, ?_⟩
      rcases searchStep_cons matcher input startPosition c rest visited with
        ⟨-, heq⟩ | ⟨-, -, heq⟩ | ⟨hvisited, haccept, ⟨hnone, -⟩ | ⟨state, hstate, hcases⟩⟩
      · rw [heq] at h
        cases h
      · rw [heq] at h
        cases h
      · exact ⟨hvisited, haccept, Or.inl hnone⟩
      · rcases hcases with ⟨e', hbranches, heq⟩ | ⟨pushed, -, heq⟩
        · rw [heq] at h
          cases h
          exact ⟨hvisited, haccept, Or.inr ⟨state, hstate, hbranches⟩⟩
        · rw [heq] at h
          cases h

end Heads

/-- The queue holds positions of the input and states of the automaton. -/
def SearchState.InBounds (matcher : Matcher) (input : List Nat) (search : SearchState) : Prop :=
  ∀ c ∈ search.statesToProcess,
    c.inputPosition ≤ input.length ∧ c.currentStateId < matcher.states.length

section Inside

variable {matcher : Matcher} {input : List Nat} {startPosition : Nat}
  (htargets : TargetsExist matcher.states)
include htargets

/-- A round that tries no dot at the end keeps the queue inside the input. -/
theorem SearchState.InBounds.next {search search' : SearchState}
    (h : search.InBounds matcher input)
    (hdots : ∀ c queue, search.statesToProcess = c :: queue →
      c.visitedKey ∉ search.visitedStates →
      c.currentStateId ≠ matcher.regexNfaElement.accept →
      ∀ transition ∈ outgoing matcher.states c.currentStateId,
        transition.condition = .matchAnyCharacter → c.inputPosition < input.length)
    (hstep : SearchNext matcher input startPosition search search') :
    search'.InBounds matcher input := by
  rcases search with ⟨queue, visited⟩
  rcases searchNext_cases hstep with ⟨c, queue, rfl, hcases⟩
  have hc := h c List.mem_cons_self
  have hrest : ∀ b ∈ queue,
      b.inputPosition ≤ input.length ∧ b.currentStateId < matcher.states.length :=
    fun b hb => h b (List.mem_cons_of_mem c hb)
  rcases hcases with rfl | ⟨hvisited, haccept, state, pushed, hstate, hbranches, rfl⟩
  · exact hrest
  · -- The queue behind is as it was, and what was pushed comes from a transition.
    intro b hb
    rcases List.mem_append.mp hb with hb | hb
    · exact hrest b hb
    · rcases (mem_branches_iff hbranches b).mp hb with ⟨transition, hmem, hbranch⟩
      rcases (branch_eq_ok_iff input c b transition).mp hbranch with ⟨-, htarget, hacts⟩
      refine ⟨?_, ?_⟩
      · by_cases hdot : transition.condition = .matchAnyCharacter
        · -- The one transition that does not look whether a character is left.
          have hlt := hdots c queue rfl hvisited haccept transition
            (mem_outgoing_iff.mpr ⟨state, hstate, hmem⟩) hdot
          rw [hdot] at hacts
          rcases hacts with ⟨result, branchState, hrun, hdata⟩
          cases hrun
          rw [Prod.mk.injEq] at hdata
          have hone : b.inputPosition = c.inputPosition + 1 := hdata.1
          omega
        · exact hacts.position_le_length hdot hc.1
      · rw [htarget]
        exact htargets state (List.mem_of_getElem? hstate) transition hmem

variable (hstart : startPosition ≤ input.length)
  (hstartState : matcher.regexNfaElement.start < matcher.states.length)
include hstart hstartState

/-- Without a dot tried at the end every queue stays inside the input. -/
theorem inBounds_of_runs (hdots : matcher.DotsHaveInput input startPosition) {n : Nat}
    {search : SearchState}
    (h : Runs (SearchNext matcher input startPosition) n (initialSearch matcher startPosition)
      search) : search.InBounds matcher input := by
  induction n generalizing search with
  | zero =>
      rw [Runs.zero_iff] at h
      subst h
      intro c hc
      rw [initialSearch, List.mem_singleton] at hc
      subst hc
      exact ⟨hstart, hstartState⟩
  | succ n ih =>
      rcases h.unsnoc with ⟨before, hbefore, hlast⟩
      refine (ih hbefore).next htargets (fun c queue hqueue hvisited haccept => ?_) hlast
      exact hdots c ⟨n, before, queue, hbefore, hqueue, hvisited, haccept⟩

variable (hunicode : ∀ q, ∀ transition ∈ outgoing matcher.states q, transition.condition.NoUnicode)
include hunicode

/-- A search that stays inside the input throws nothing. -/
theorem matchOneFrom_ok (hdots : matcher.DotsHaveInput input startPosition) :
    ∃ result, matchOneFrom matcher input startPosition = .ok result := by
  have hloop := searchLoop_eq_matchOneFrom htargets hstart (Nat.le_refl (searchFuel matcher input))
  cases hresult : matchOneFrom matcher input startPosition with
  | ok result => exact ⟨result, rfl⟩
  | error e =>
      exfalso
      rw [hresult] at hloop
      rcases searchLoop_eq_some matcher input startPosition hloop with
        ⟨n, ⟨queue, visited⟩, hruns, hlast⟩
      have hin := inBounds_of_runs htargets hstart hstartState hdots hruns
      rcases searchStep_throws hlast with ⟨c, queue, rfl, -, -, hnone | ⟨state, hstate, herror⟩⟩
      · have hc := hin c List.mem_cons_self
        rw [List.getElem?_eq_none_iff] at hnone
        omega
      · have hc := hin c List.mem_cons_self
        have hok := branches_ok hc.1 fun transition hmem =>
          hunicode c.currentStateId transition (mem_outgoing_iff.mpr ⟨state, hstate, hmem⟩)
        rcases hok with ⟨pushed, hpushed⟩
        rw [hpushed] at herror
        cases herror

omit hstart hunicode in
/-- The queue only holds states of the automaton. -/
theorem queue_states {n : Nat} {search : SearchState}
    (h : Runs (SearchNext matcher input startPosition) n (initialSearch matcher startPosition)
      search) : ∀ c ∈ search.statesToProcess, c.currentStateId < matcher.states.length := by
  induction n generalizing search with
  | zero =>
      rw [Runs.zero_iff] at h
      subst h
      intro c hc
      rw [initialSearch, List.mem_singleton] at hc
      subst hc
      exact hstartState
  | succ n ih =>
      rcases h.unsnoc with ⟨⟨queue, visited⟩, hbefore, hlast⟩
      have hqueue := ih hbefore
      rcases searchNext_cases hlast with ⟨c, queue, rfl, hcases⟩
      have hrest : ∀ b ∈ queue, b.currentStateId < matcher.states.length :=
        fun b hb => hqueue b (List.mem_cons_of_mem c hb)
      rcases hcases with rfl | ⟨-, -, state, pushed, hstate, hbranches, rfl⟩
      · exact hrest
      · -- What is pushed stands at the target of a transition.
        intro b hb
        rcases List.mem_append.mp hb with hb | hb
        · exact hrest b hb
        · rcases (mem_branches_iff hbranches b).mp hb with ⟨transition, hmem, hbranch⟩
          rcases (branch_eq_ok_iff input c b transition).mp hbranch with ⟨-, htarget, -⟩
          rw [htarget]
          exact htargets state (List.mem_of_getElem? hstate) transition hmem

omit htargets hstart hstartState hunicode in
/-- Behind the end of the input every transition throws. -/
theorem branches_past {c : MatchState} {transitions : List Transition}
    (hpast : input.length < c.inputPosition) (hne : transitions ≠ []) :
    branches input c transitions = .error .outOfRange := by
  rcases List.exists_cons_of_ne_nil hne with ⟨first, rest, rfl⟩
  have hsubstr : substr input c.inputPosition = .error .outOfRange :=
    if_neg (Nat.not_le_of_lt hpast)
  rw [branches, branch, hsubstr]
  rfl

/-- A search throws exactly if it expands a configuration past the end of the
    input that has transitions to try. -/
theorem matchOneFrom_ok_iff :
    (∃ result, matchOneFrom matcher input startPosition = .ok result) ↔
      ¬ matcher.Outruns input startPosition := by
  have hloop : ∀ k, searchLoop matcher input startPosition (searchFuel matcher input + k)
      (initialSearch matcher startPosition) = some (matchOneFrom matcher input startPosition) :=
    fun k => searchLoop_eq_matchOneFrom htargets hstart (Nat.le_add_right _ k)
  refine ⟨fun hok houtruns => ?_, fun hinside => ?_⟩
  · rcases hok with ⟨result, hresult⟩
    rcases houtruns with ⟨c, hexpands, hpast, hne⟩
    -- The search comes to this configuration, and throws there at its first transition.
    rcases hexpands with ⟨n, ⟨queue', visited⟩, queue, hruns, hqueue, hvisited, haccept⟩
    simp only at hqueue hvisited
    subst hqueue
    rcases List.exists_mem_of_ne_nil _ hne with ⟨transition, hmem⟩
    rcases mem_outgoing_iff.mp hmem with ⟨state, hstate, htransition⟩
    have hthrows : branches input c state.transitions = .error .outOfRange :=
      branches_past hpast (List.ne_nil_of_mem htransition)
    have hlast : searchStep matcher input startPosition ⟨c :: queue, visited⟩
        = .done (.error .outOfRange) := by
      unfold searchStep
      simp only [hvisited, if_false, haccept, hstate, hthrows]
    have hthrown := searchLoop_of_runs matcher input startPosition hruns hlast
      (searchFuel matcher input)
    rw [Nat.add_comm, hloop, hresult] at hthrown
    cases hthrown
  · cases hresult : matchOneFrom matcher input startPosition with
    | ok result => exact ⟨result, rfl⟩
    | error e =>
        exfalso
        have hend := hloop 0
        rw [hresult] at hend
        rcases searchLoop_eq_some matcher input startPosition hend with
          ⟨n, ⟨queue, visited⟩, hruns, hlast⟩
        -- What was thrown was thrown at the head of the queue, by one of its transitions.
        rcases searchStep_throws hlast with
          ⟨c, queue, rfl, hvisited, haccept, hnone | ⟨state, hsome, herror⟩⟩
        · have hstate := queue_states htargets hstartState hruns c List.mem_cons_self
          rw [List.getElem?_eq_none_iff] at hnone
          omega
        · refine hinside ⟨c, ⟨n, _, queue, hruns, rfl, hvisited, haccept⟩, ?_, ?_⟩
          · -- Inside the input no transition throws.
            by_contra hle
            rcases branches_ok (Nat.le_of_not_lt hle) fun transition hmem =>
              hunicode c.currentStateId transition
                (mem_outgoing_iff.mpr ⟨state, hsome, hmem⟩) with ⟨pushed, hpushed⟩
            rw [hpushed] at herror
            cases herror
          · intro hnil
            unfold outgoing at hnil
            rw [hsome] at hnil
            simp only at hnil
            rw [hnil] at herror
            cases herror

/-- A search stays inside the input exactly if it tries no dot at its end. -/
theorem queues_inside_iff :
    (∀ c, matcher.Queues input startPosition c → c.inputPosition ≤ input.length) ↔
      matcher.DotsHaveInput input startPosition := by
  refine ⟨fun h c hexpands transition hmem hdot => ?_, fun hdots c hqueues => ?_⟩
  · rcases hexpands with ⟨n, ⟨queue', visited⟩, queue, hruns, hqueue, hvisited, haccept⟩
    simp only at hqueue hvisited
    subst hqueue
    have hle := h c ⟨n, _, hruns, List.mem_cons_self⟩
    by_contra hge
    rcases mem_outgoing_iff.mp hmem with ⟨state, hstate, htransition⟩
    have hok := branches_ok hle fun t ht =>
      hunicode c.currentStateId t (mem_outgoing_iff.mpr ⟨state, hstate, ht⟩)
    rcases hok with ⟨pushed, hpushed⟩
    -- The dot pushes a configuration one past the end.
    let past : MatchState := ⟨c.inputPosition + 1, transition.toState, c.groupRanges⟩
    have hpast : past ∈ pushed := by
      rw [mem_branches_iff hpushed]
      refine ⟨transition, htransition, ?_⟩
      rw [branch_eq_ok_iff, hdot]
      exact ⟨hle, rfl, _, _, rfl, rfl⟩
    have hnext : SearchNext matcher input startPosition ⟨c :: queue, visited⟩
        ⟨queue ++ pushed, c.visitedKey :: visited⟩ := by
      unfold SearchNext searchStep
      simp only [hvisited, if_false, haccept, hstate, hpushed]
    have hinside := h past ⟨n + 1, _, hruns.tail hnext, List.mem_append_right queue hpast⟩
    have hpos : past.inputPosition = c.inputPosition + 1 := rfl
    omega
  · rcases hqueues with ⟨n, search, hruns, hmem⟩
    exact (inBounds_of_runs htargets hstart hstartState hdots hruns c hmem).1

end Inside

/-- Every pattern the parser accepts is built, and without unicode categories a
    search for it stays inside the input, and throws nothing, exactly if it
    tries no dot at the end of the input. -/
theorem parseRegex_inside_iff (p : List Byte) (regex : Regex) (rest : List Byte)
    (hparse : parseRegex p = .ok ⟨regex, rest⟩) (hunicode : regex.expression.Forall noUnicode) :
    ∃ element nfa, (buildRegex regex).run {} = .ok (element, nfa) ∧
      ∀ (input : List Nat) (startPosition : Nat), startPosition ≤ input.length →
        (((∀ c, (compiled element nfa).Queues input startPosition c →
            c.inputPosition ≤ input.length) ∧
          ∃ result, matchOneFrom (compiled element nfa) input startPosition = .ok result) ↔
        (compiled element nfa).DotsHaveInput input startPosition) := by
  rcases parseRegex_builds hparse with ⟨element, nfa, hbuild⟩
  refine ⟨element, nfa, hbuild, fun input startPosition hstart => ?_⟩
  have htargets : TargetsExist (compiled element nfa).states :=
    parseRegex_targetsExist hparse hbuild
  have hstartState := buildRegex_start_lt hbuild
  have hconditions := buildRegex_conditions hbuild noUnicode_implies
    (fun _ => ⟨trivial, trivial⟩) hunicode
  have hno : ∀ q, ∀ transition ∈ outgoing (compiled element nfa).states q,
      transition.condition.NoUnicode :=
    fun q transition hmem => (hconditions q transition hmem).2
  rw [← queues_inside_iff htargets hstart hstartState hno, and_iff_left_iff_imp,
    queues_inside_iff htargets hstart hstartState hno]
  exact fun hdots => matchOneFrom_ok htargets hstart hstartState hno hdots

/-- The pattern `.`. -/
def dotRegex : Regex :=
  { expression := .mk [.mk [.singleMatch { matchItem := .anyCharacter }]] }

theorem parseRegex_inside_iff_dot :
    ∃ element nfa, (buildRegex dotRegex).run {} = .ok (element, nfa) ∧
      ∀ (input : List Nat) (startPosition : Nat), startPosition ≤ input.length →
        (((∀ c, (compiled element nfa).Queues input startPosition c →
            c.inputPosition ≤ input.length) ∧
          ∃ result, matchOneFrom (compiled element nfa) input startPosition = .ok result) ↔
        (compiled element nfa).DotsHaveInput input startPosition) :=
  parseRegex_inside_iff [byte '.'] dotRegex [] rfl ⟨⟨⟨trivial, trivial⟩, trivial⟩, trivial⟩

/-- The automaton of `.`. -/
def dotNfa : Nfa :=
  { currentId := 4
    states := [
      { id := 0, transitions := [⟨2, .epsilon⟩] },
      { id := 1 },
      { id := 2, transitions := [⟨3, .matchAnyCharacter⟩] },
      { id := 3, transitions := [⟨1, .epsilon⟩] }] }

/-- On the empty input its queue holds a position past the end, and the search
    throws. -/
theorem parseRegex_inside_dot :
    parseRegex [byte '.'] = .ok ⟨dotRegex, []⟩ ∧ dotRegex.expression.Forall noUnicode ∧
      (buildRegex dotRegex).run {} = .ok (⟨0, 1⟩, dotNfa) ∧
      ¬ (∀ c, (compiled ⟨0, 1⟩ dotNfa).Queues [] 0 c → c.inputPosition ≤ ([] : List Nat).length) ∧
      matchOneFrom (compiled ⟨0, 1⟩ dotNfa) [] 0 = .error .outOfRange := by
  refine ⟨rfl, ⟨⟨⟨trivial, trivial⟩, trivial⟩, trivial⟩, rfl, fun h => ?_, rfl⟩
  have hfirst : SearchNext (compiled ⟨0, 1⟩ dotNfa) [] 0 (initialSearch (compiled ⟨0, 1⟩ dotNfa) 0)
      ⟨[⟨0, 2, none⟩], [(0, 0, [])]⟩ := rfl
  have hsecond : SearchNext (compiled ⟨0, 1⟩ dotNfa) [] 0 ⟨[⟨0, 2, none⟩], [(0, 0, [])]⟩
      ⟨[⟨1, 3, none⟩], [(2, 0, []), (0, 0, [])]⟩ := rfl
  have hpast := h ⟨1, 3, none⟩ ⟨2, _, (Runs.single hfirst).tail hsecond, List.mem_cons_self⟩
  exact absurd hpast (by decide)

end Grep

end CodingChallenges
