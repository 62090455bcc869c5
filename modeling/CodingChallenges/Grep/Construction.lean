import CodingChallenges.Grep.Denotation

/-!
# The Construction Is Correct

Facts about every transition of an automaton, and the theorem about the
automaton of a pattern.

The states of an automaton are labelled with the groups that are open there:
those entered on every way to the state and not left since. `Labelled` says of
every transition at once that its target exists, that its condition has a
property all conditions of the plan have, and that the labels at its two ends
fit its condition. Assembling a plan keeps this, with the groups around the
plan as a parameter (`assemble_labelled`): the two primitives that add states
and transitions keep it, and each construct only uses those.

On a run the groups open at a state have been entered (`Opens.transits`), so
the end of a group always finds a range to close.

## Main definitions

* `TransitionConditionType.Fits`: The labels at the ends of a transition.
* `Labelled`: The three facts about every transition.
* `Opens`: The groups open at a configuration's state have been entered.

## Theorems

* `assemble_labelled`: Assembled plans are labelled.
* `captureEnd_permitted`: The end of a group never blocks.
* `buildRegex_denotes`: The automaton of a pattern means the pattern.
-/

namespace CodingChallenges

namespace Grep

/-- The groups open behind a transition were open in front of it, or are opened
    by it; a group that ends is open. -/
def TransitionConditionType.Fits (source target : Set Nat) : TransitionConditionType → Prop
  | .groupCaptureStart g => target ⊆ insert g source
  | .groupCaptureEnd g => g ∈ source ∧ target ⊆ source
  | _ => target ⊆ source

/-- The condition enters or leaves a group. -/
def TransitionConditionType.IsCapture : TransitionConditionType → Prop
  | .groupCaptureStart _ => True
  | .groupCaptureEnd _ => True
  | _ => False

/-- Every transition leads to an existing state, has a condition with the given
    property, and fits the labels of the states it connects. -/
def Labelled (P : TransitionConditionType → Prop) (label : Nat → Set Nat)
    (states : List State) : Prop :=
  ∀ q, ∀ transition ∈ outgoing states q,
    transition.toState < states.length ∧ P transition.condition ∧
      transition.condition.Fits (label q) (label transition.toState)

section Labels

variable {P : TransitionConditionType → Prop} {label : Nat → Set Nat} {states : List State}

theorem lt_length_of_mem_outgoing {q : Nat} {transition : Transition}
    (h : transition ∈ outgoing states q) : q < states.length := by
  by_contra hge
  rw [outgoing_eq_nil _ (by omega)] at h
  exact absurd h List.not_mem_nil

/-- Only the labels of existing states matter. -/
theorem Labelled.congr {label' : Nat → Set Nat} (h : Labelled P label states)
    (hsame : ∀ q, q < states.length → label' q = label q) : Labelled P label' states := by
  intro q transition hmem
  rcases h q transition hmem with ⟨hlt, hP, hfits⟩
  rw [hsame q (lt_length_of_mem_outgoing hmem), hsame _ hlt]
  exact ⟨hlt, hP, hfits⟩

/-- A new state may be given any label. -/
theorem Labelled.newState (h : Labelled P label states) (openGroups : Set Nat) :
    Labelled P (Function.update label states.length openGroups) (newState states) := by
  have hsame : Labelled P (Function.update label states.length openGroups) states :=
    h.congr fun q hq => Function.update_of_ne (by omega) _ _
  intro q transition hmem
  rw [outgoing_newState] at hmem
  rcases hsame q transition hmem with ⟨hlt, hP, hfits⟩
  rw [length_newState]
  exact ⟨by omega, hP, hfits⟩

/-- A new transition between existing states whose labels fit. -/
theorem Labelled.link {source target : Nat} {condition : TransitionConditionType}
    (h : Labelled P label states) (htarget : target < states.length) (hP : P condition)
    (hfits : condition.Fits (label source) (label target)) :
    Labelled P label (link states source target condition) := by
  intro q transition hmem
  rw [length_link]
  -- Only the source has a transition more, and it comes behind the others.
  by_cases hq : q = source
  · subst hq
    have hlt : q < states.length := by
      have := lt_length_of_mem_outgoing hmem
      rwa [length_link] at this
    rw [outgoing_link_self _ hlt, List.mem_append, List.mem_singleton] at hmem
    rcases hmem with hmem | rfl
    · exact h q transition hmem
    · exact ⟨htarget, hP, hfits⟩
  · rw [outgoing_link_of_ne _ hq] at hmem
    exact h q transition hmem

/-- Two epsilon transitions between states of one label. -/
theorem Labelled.fork {source first second : Nat} (h : Labelled P label states)
    (hP : P .epsilon) (hfirst : first < states.length) (hsecond : second < states.length)
    (hfits₁ : label first = label source) (hfits₂ : label second = label source)
    (lazyModifier : Bool) :
    Labelled P label (fork states source first second lazyModifier) := by
  unfold Grep.fork
  split
  · exact (h.link hsecond hP hfits₂.subset).link (by rwa [length_link]) hP hfits₁.subset
  · exact (h.link hfirst hP hfits₁.subset).link (by rwa [length_link]) hP hfits₂.subset

/-- Two new states with the same label. -/
theorem Labelled.newStates (h : Labelled P label states) (openGroups : Set Nat) :
    ∃ label', Labelled P label' (Grep.newState (Grep.newState states)) ∧
      (∀ q, q < states.length → label' q = label q) ∧
      label' states.length = openGroups ∧ label' (states.length + 1) = openGroups := by
  have hboth := (h.newState openGroups).newState openGroups
  rw [length_newState] at hboth
  refine ⟨_, hboth, fun q hq => ?_, ?_, ?_⟩
  · rw [Function.update_of_ne (by omega), Function.update_of_ne (by omega)]
  · rw [Function.update_of_ne (by omega), Function.update_self]
  · rw [Function.update_self]

theorem fits_of_not_isCapture {condition : TransitionConditionType}
    (hcapture : ¬ condition.IsCapture) {source target : Set Nat} (h : target = source) :
    condition.Fits source target := by
  cases condition with
  | groupCaptureStart g => exact absurd trivial hcapture
  | groupCaptureEnd g => exact absurd trivial hcapture
  | _ => exact h.subset

end Labels

/-- The lengths an assembled plan is known by. -/
theorem assemble_bounds (plan : Plan) (states : List State) :
    states.length ≤ (plan.assemble states).2.length ∧
      (plan.assemble states).1.start < (plan.assemble states).2.length ∧
      states.length ≤ (plan.assemble states).1.accept ∧
      (plan.assemble states).1.accept < (plan.assemble states).2.length := by
  rcases assemble_isPiece [] plan states with ⟨hpiece, hext⟩
  exact ⟨hext.length_le, hpiece.start_lt, hpiece.accept_ge, hpiece.accept_lt⟩

/-- Labels for all states, the earlier ones keeping theirs, and the entry and
    exit of the new piece labelled with the groups around it. -/
structure LabelsPiece (P : TransitionConditionType → Prop) (label : Nat → Set Nat)
    (states states' : List State) (e : NfaElement) (openGroups : Set Nat)
    (label' : Nat → Set Nat) : Prop where
  labelled : Labelled P label' states'
  same : ∀ q, q < states.length → label' q = label q
  start_eq : label' e.start = openGroups
  accept_eq : label' e.accept = openGroups

section Assembling

variable {P : TransitionConditionType → Prop} (hglue : P .epsilon ∧
  ∀ g, P (.groupCaptureStart g) ∧ P (.groupCaptureEnd g))
include hglue

section Pieces

variable {label label₁ label₂ : Nat → Set Nat} {states : List State} {openGroups : Set Nat}
  {body first second : Plan}

/-- Two pieces that are linked have the same groups around them. -/
theorem LabelsPiece.concat
    (h₁ : LabelsPiece P label states (first.assemble states).2 (first.assemble states).1
      openGroups label₁)
    (h₂ : LabelsPiece P label₁ (first.assemble states).2
      (second.assemble (first.assemble states).2).2
      (second.assemble (first.assemble states).2).1 openGroups label₂) :
    LabelsPiece P label states ((Plan.concat first second).assemble states).2
      ((Plan.concat first second).assemble states).1 openGroups label₂ := by
  rcases assemble_bounds first states with ⟨hle₁, hs₁, -, ha₁⟩
  rcases assemble_bounds second (first.assemble states).2 with ⟨hle₂, hs₂, -, ha₂⟩
  have haccept := (h₂.same _ ha₁).trans h₁.accept_eq
  refine ⟨h₂.labelled.link hs₂ hglue.1 ?_, fun q hq => ?_, ?_, h₂.accept_eq⟩
  · exact (h₂.start_eq.trans haccept.symm).subset
  · rw [h₂.same q (by omega), h₁.same q hq]
  · exact (h₂.same _ hs₁).trans h₁.start_eq

theorem LabelsPiece.star (lazyModifier : Bool)
    (h₁ : LabelsPiece P label states (body.assemble states).2 (body.assemble states).1
      openGroups label₁) :
    ∃ label', LabelsPiece P label states ((Plan.star lazyModifier body).assemble states).2
      ((Plan.star lazyModifier body).assemble states).1 openGroups label' := by
  rcases assemble_bounds body states with ⟨hle, hs, -, ha⟩
  -- Both new states are outside of the groups of the body, like its own ends.
  rcases h₁.labelled.newStates openGroups with ⟨label₂, h₂, hsame, hstart, haccept⟩
  have hentry := (hsame _ hs).trans h₁.start_eq
  have hexit := (hsame _ ha).trans h₁.accept_eq
  refine ⟨label₂, (h₂.fork hglue.1 ?_ ?_ ?_ ?_ _).fork hglue.1 ?_ ?_ ?_ ?_ _,
    fun q hq => ?_, hstart, haccept⟩
  · simp only [length_newState]
    omega
  · simp only [length_newState]
    omega
  · exact hentry.trans hstart.symm
  · exact haccept.trans hstart.symm
  · simp only [length_fork, length_newState]
    omega
  · simp only [length_fork, length_newState]
    omega
  · exact hentry.trans hexit.symm
  · exact haccept.trans hexit.symm
  · rw [hsame q (by omega), h₁.same q hq]

/-- The body is entered directly, so only its exit is new. -/
theorem LabelsPiece.plus (lazyModifier : Bool)
    (h₁ : LabelsPiece P label states (body.assemble states).2 (body.assemble states).1
      openGroups label₁) :
    ∃ label', LabelsPiece P label states ((Plan.plus lazyModifier body).assemble states).2
      ((Plan.plus lazyModifier body).assemble states).1 openGroups label' := by
  rcases assemble_bounds body states with ⟨hle, hs, -, ha⟩
  have h₂ := h₁.labelled.newState openGroups
  have hsame : ∀ q, q < (body.assemble states).2.length →
      Function.update label₁ (body.assemble states).2.length openGroups q = label₁ q :=
    fun q hq => Function.update_of_ne (by omega) _ _
  have hentry := (hsame _ hs).trans h₁.start_eq
  have hexit := (hsame _ ha).trans h₁.accept_eq
  have haccept : Function.update label₁ (body.assemble states).2.length openGroups
      (body.assemble states).2.length = openGroups := Function.update_self _ _ _
  refine ⟨_, h₂.fork hglue.1 ?_ ?_ ?_ ?_ _, fun q hq => ?_, hentry, haccept⟩
  · simp only [length_newState]
    omega
  · simp only [length_newState]
    omega
  · exact hentry.trans hexit.symm
  · exact haccept.trans hexit.symm
  · rw [hsame q (by omega), h₁.same q hq]

theorem LabelsPiece.option (lazyModifier : Bool)
    (h₁ : LabelsPiece P label states (body.assemble states).2 (body.assemble states).1
      openGroups label₁) :
    ∃ label', LabelsPiece P label states ((Plan.option lazyModifier body).assemble states).2
      ((Plan.option lazyModifier body).assemble states).1 openGroups label' := by
  rcases assemble_bounds body states with ⟨hle, hs, -, ha⟩
  rcases h₁.labelled.newStates openGroups with ⟨label₂, h₂, hsame, hstart, haccept⟩
  have hentry := (hsame _ hs).trans h₁.start_eq
  have hexit := (hsame _ ha).trans h₁.accept_eq
  refine ⟨label₂, (h₂.fork hglue.1 ?_ ?_ ?_ ?_ _).link ?_ hglue.1 ?_,
    fun q hq => ?_, hstart, haccept⟩
  · simp only [length_newState]
    omega
  · simp only [length_newState]
    omega
  · exact hentry.trans hstart.symm
  · exact haccept.trans hstart.symm
  · simp only [length_fork, length_newState]
    omega
  · exact (haccept.trans hexit.symm).subset
  · rw [hsame q (by omega), h₁.same q hq]

/-- The body is assembled behind the two new states, with the group added to the
    open ones. -/
theorem LabelsPiece.capture (groupId : Nat)
    (hsame₁ : ∀ q, q < states.length → label₁ q = label q)
    (hstart₁ : label₁ states.length = openGroups)
    (haccept₁ : label₁ (states.length + 1) = openGroups)
    (h₂ : LabelsPiece P label₁ (newState (newState states))
      (body.assemble (newState (newState states))).2
      (body.assemble (newState (newState states))).1 (insert groupId openGroups) label₂) :
    LabelsPiece P label states ((Plan.capture groupId body).assemble states).2
      ((Plan.capture groupId body).assemble states).1 openGroups label₂ := by
  rcases assemble_bounds body (newState (newState states)) with ⟨hle, hs, -, ha⟩
  simp only [length_newState] at hle
  have hkeep : ∀ q, q < states.length + 2 → label₂ q = label₁ q := fun q hq =>
    h₂.same q (by simp only [length_newState]; omega)
  have hstart := (hkeep states.length (by omega)).trans hstart₁
  have haccept := (hkeep (states.length + 1) (by omega)).trans haccept₁
  refine ⟨(h₂.labelled.link hs (hglue.2 groupId).1 ?_).link ?_ (hglue.2 groupId).2 ?_,
    fun q hq => ?_, hstart, haccept⟩
  · exact (h₂.start_eq.trans (by rw [hstart])).subset
  · simp only [length_link]
    omega
  · -- The group that ends is open where the body ends.
    refine ⟨?_, ?_⟩
    · rw [h₂.accept_eq]
      exact Set.mem_insert _ _
    · rw [h₂.accept_eq, haccept]
      exact Set.subset_insert _ _
  · rw [hkeep q (by omega), hsame₁ q hq]

end Pieces

mutual

/-- Assembling a plan of conditions with the property inside a context of open
    groups. -/
theorem assemble_labelled : ∀ (plan : Plan) (states : List State) (label : Nat → Set Nat)
    (openGroups : Set Nat), plan.Forall (fun c => P c ∧ ¬ c.IsCapture) → Labelled P label states →
    ∃ label', LabelsPiece P label states (plan.assemble states).2 (plan.assemble states).1
      openGroups label'
  | .basic condition, states, label, openGroups, hP, h => by
      rcases h.newStates openGroups with ⟨label', hlabel, hsame, hstart, haccept⟩
      refine ⟨label', hlabel.link ?_ hP.1 ?_, hsame, hstart, haccept⟩
      · simp only [length_newState]
        omega
      · exact fits_of_not_isCapture hP.2 (haccept.trans hstart.symm)
  | .concat first second, states, label, openGroups, hP, h => by
      rcases assemble_labelled first states label openGroups hP.1 h with ⟨label₁, h₁⟩
      rcases assemble_labelled second _ label₁ openGroups hP.2 h₁.labelled with ⟨label₂, h₂⟩
      exact ⟨label₂, LabelsPiece.concat hglue h₁ h₂⟩
  | .star lazyModifier body, states, label, openGroups, hP, h => by
      rcases assemble_labelled body states label openGroups hP h with ⟨label₁, h₁⟩
      exact LabelsPiece.star hglue lazyModifier h₁
  | .plus lazyModifier body, states, label, openGroups, hP, h => by
      rcases assemble_labelled body states label openGroups hP h with ⟨label₁, h₁⟩
      exact LabelsPiece.plus hglue lazyModifier h₁
  | .option lazyModifier body, states, label, openGroups, hP, h => by
      rcases assemble_labelled body states label openGroups hP h with ⟨label₁, h₁⟩
      exact LabelsPiece.option hglue lazyModifier h₁
  | .capture groupId body, states, label, openGroups, hP, h => by
      rcases h.newStates openGroups with ⟨label₁, h₁, hsame₁, hstart₁, haccept₁⟩
      -- Inside a copy its own group is open, too.
      rcases assemble_labelled body _ label₁ (insert groupId openGroups) hP h₁ with ⟨label₂, h₂⟩
      exact ⟨label₂, LabelsPiece.capture hglue groupId hsame₁ hstart₁ haccept₁ h₂⟩
  | .alternation alternatives, states, label, openGroups, hP, h => by
      rcases h.newStates openGroups with ⟨label₁, h₁, hsame₁, hstart₁, haccept₁⟩
      -- The loop over the alternatives leaves the labels of the two outer states alone.
      rcases assembleAlternatives_labelled alternatives states.length (states.length + 1) _ label₁
        hP h₁ (by simp only [length_newState]; omega) (by simp only [length_newState]; omega)
        (haccept₁.trans hstart₁.symm) with ⟨label₂, h₂, hsame₂⟩
      simp only [length_newState] at hsame₂
      refine ⟨label₂, h₂, fun q hq => ?_, ?_, ?_⟩
      · rw [hsame₂ q (by omega), hsame₁ q hq]
      · exact (hsame₂ states.length (by omega)).trans hstart₁
      · exact (hsame₂ (states.length + 1) (by omega)).trans haccept₁

theorem assembleAlternatives_labelled : ∀ (alternatives : List Plan) (start accept : Nat)
    (states : List State) (label : Nat → Set Nat),
    Plan.ForallAlternatives (fun c => P c ∧ ¬ c.IsCapture) alternatives →
    Labelled P label states → start < states.length → accept < states.length →
    label accept = label start →
    ∃ label', Labelled P label' (Plan.assembleAlternatives start accept alternatives states) ∧
      ∀ q, q < states.length → label' q = label q
  | [], _, _, states, label, _, h, _, _, _ => ⟨label, h, fun _ _ => rfl⟩
  | alternative :: rest, start, accept, states, label, hP, h, hstart, haccept, hsame => by
      rcases assemble_labelled alternative states label (label start) hP.1 h with ⟨label₁, h₁⟩
      rcases assemble_bounds alternative states with ⟨hle, hs, -, ha⟩
      -- The two ends were labelled before the alternative was, and keep their labels.
      have hkeep₁ := h₁.same start hstart
      have hkeep₂ := h₁.same accept haccept
      have hentry : Labelled P label₁ (link (alternative.assemble states).2 start
          (alternative.assemble states).1.start .epsilon) :=
        h₁.labelled.link hs hglue.1 (h₁.start_eq.trans hkeep₁.symm).subset
      have hlinked : Labelled P label₁ (link (link (alternative.assemble states).2 start
          (alternative.assemble states).1.start .epsilon)
          (alternative.assemble states).1.accept accept .epsilon) :=
        hentry.link (by rw [length_link]; omega) hglue.1
          (hkeep₂.trans (hsame.trans h₁.accept_eq.symm)).subset
      rcases assembleAlternatives_labelled rest start accept _ label₁ hP.2 hlinked
        (by simp only [length_link]; omega) (by simp only [length_link]; omega)
        (by rw [hkeep₁, hkeep₂, hsame]) with ⟨label₂, h₂, hsame₂⟩
      simp only [length_link] at hsame₂
      refine ⟨label₂, h₂, fun q hq => ?_⟩
      rw [hsame₂ q (by omega), h₁.same q hq]

end

/-- Every transition of an assembled plan, with no group open at its ends. -/
theorem assembled_labelled {plan : Plan} (hP : plan.Forall (fun c => P c ∧ ¬ c.IsCapture)) :
    ∃ label, Labelled P label (plan.assemble []).2 ∧ label (plan.assemble []).1.start = ∅ := by
  have hnil : Labelled P (fun _ => ∅) [] := fun q transition hmem => by
    rw [outgoing_eq_nil _ (Nat.zero_le q)] at hmem
    exact absurd hmem List.not_mem_nil
  rcases assemble_labelled hglue plan [] _ ∅ hP hnil with ⟨label, h⟩
  exact ⟨label, h.labelled, h.start_eq⟩

end Assembling

/-- The groups open at the configuration's state have been entered. -/
def Opens (label : Nat → Set Nat) (c : MatchState) : Prop :=
  ∀ g ∈ label c.currentStateId, Entered c.groupRanges g

/-- Only the conditions that enter or leave a group change the captures. -/
theorem Acts.captures_eq {input : List Nat} {condition : TransitionConditionType} {d d' : Data}
    (hcapture : ¬ condition.IsCapture) (h : Acts input condition d d') : d'.2 = d.2 := by
  cases condition with
  | groupCaptureStart g => exact absurd trivial hcapture
  | groupCaptureEnd g => exact absurd trivial hcapture
  | backreference b =>
      rcases h with ⟨result, branchState, hrun, rfl⟩
      simp only [processTransition, pure_eq_ok, Except.ok.injEq, Prod.mk.injEq] at hrun
      rw [← hrun.2]
      rfl
  | _ =>
      rcases (acts_leaf_iff (by exact trivial) input d d').mp h with ⟨offset, -, rfl⟩
      rfl

section Runs

variable {P : TransitionConditionType → Prop} {label : Nat → Set Nat} {states : List State}
  {input : List Nat}

/-- What is entered in front of a transition fits the groups open behind it. -/
theorem Opens.transits (hlabel : Labelled P label states) {c c' : MatchState}
    (h : Opens label c) (hstep : Transits states input c c') : Opens label c' := by
  rcases hstep with ⟨state, transition, hstate, hmem, hbranch⟩
  rcases (branch_eq_ok_iff input c c' transition).mp hbranch with ⟨-, htarget, hacts⟩
  rcases hlabel _ transition (mem_outgoing_iff.mpr ⟨state, hstate, hmem⟩) with ⟨-, -, hfits⟩
  intro g hg
  rw [htarget] at hg
  -- Only the conditions of groups change the captures, or open a group.
  by_cases hcapture : transition.condition.IsCapture
  · generalize transition.condition = condition at hcapture hacts hfits
    cases condition with
    | groupCaptureStart n =>
        rw [acts_captureStart_iff, Prod.mk.injEq] at hacts
        rw [hacts.2]
        rcases hfits hg with rfl | hg
        · exact (entered_captureStart c.groupRanges g c.inputPosition).1
        · exact (entered_captureStart c.groupRanges n c.inputPosition).2 g (h g hg)
    | groupCaptureEnd n =>
        rcases (acts_captureEnd_iff input n _ _).mp hacts with ⟨ranges, ranges', hranges, hend, heq⟩
        rw [Prod.mk.injEq] at heq
        -- The end of a group closes its range, but the range stays.
        have hg' := h g (hfits.2 hg)
        simp only at hranges
        rw [hranges, entered_some_iff] at hg'
        rw [heq.2, entered_some_iff, endRange_mem hend]
        exact hg'
    | _ => exact absurd hcapture id
  · have hsubset : label transition.toState ⊆ label c.currentStateId := by
      generalize transition.condition = condition at hcapture hfits
      cases condition with
      | groupCaptureStart n => exact absurd trivial hcapture
      | groupCaptureEnd n => exact absurd trivial hcapture
      | _ => exact hfits
    have hkeep := hacts.captures_eq hcapture
    simp only at hkeep
    rw [hkeep]
    exact h g (hsubset hg)

/-- At a configuration whose open groups have been entered, the end of a group
    is permitted. -/
theorem captureEnd_permitted (hlabel : Labelled P label states) {c : MatchState}
    (h : Opens label c) (hle : c.inputPosition ≤ input.length) {transition : Transition}
    (hmem : transition ∈ outgoing states c.currentStateId) {g : Nat}
    (hcondition : transition.condition = .groupCaptureEnd g) :
    ∃ c', branch input c transition = .ok (some c') := by
  rcases hlabel _ transition hmem with ⟨-, -, hfits⟩
  rw [hcondition] at hfits
  rcases h g hfits.1 with ⟨ranges, hranges, hrange⟩
  rcases (endRange_isSome_iff g c.inputPosition ranges).mpr hrange with ⟨ranges', hend⟩
  refine ⟨⟨c.inputPosition, transition.toState, some ranges'⟩, ?_⟩
  rw [branch_eq_ok_iff, hcondition]
  refine ⟨hle, rfl, ?_⟩
  rw [acts_captureEnd_iff]
  exact ⟨ranges, ranges', hranges, hend, rfl⟩

end Runs

/-- Without backreferences, all conditions a plan is given only read the
    input. -/
theorem noBackreference_implies_isLeaf :
    noBackreference.Implies TransitionConditionType.IsLeaf :=
  ⟨trivial, trivial, fun item _ => item.isLeaf_condition.1, fun _ _ => trivial,
    fun _ h => absurd h id⟩

theorem TransitionConditionType.IsLeaf.not_isCapture {condition : TransitionConditionType}
    (h : condition.IsLeaf) : ¬ condition.IsCapture := by
  cases condition with
  | groupCaptureStart g => exact absurd h id
  | groupCaptureEnd g => exact absurd h id
  | _ => exact id

theorem noBackreference_implies_not_isCapture :
    noBackreference.Implies (fun c => True ∧ ¬ c.IsCapture) := by
  have h := noBackreference_implies_isLeaf
  exact ⟨⟨trivial, h.epsilon.not_isCapture⟩, ⟨trivial, h.startOfStringAnchor.not_isCapture⟩,
    fun item hitem => ⟨trivial, (h.matchItem item hitem).not_isCapture⟩,
    fun a ha => ⟨trivial, (h.anchor a ha).not_isCapture⟩,
    fun b hb => ⟨trivial, (h.backreference b hb).not_isCapture⟩⟩

/-- The runs of an assembled plan from start to accept connect the positions
    the plan connects. -/
theorem runs_assembled_iff {plan : Plan} (hleaf : plan.Forall TransitionConditionType.IsLeaf)
    {input : List Nat} {s e : Nat} (he : e ≤ input.length) :
    (∃ n captures, Runs (Transits (plan.assemble []).2 input) n
        ⟨s, (plan.assemble []).1.start, none⟩ ⟨e, (plan.assemble []).1.accept, captures⟩) ↔
      plan.Connects input s e := by
  have hforgets := crossing_forgets input plan hleaf
  constructor
  · rintro ⟨n, captures, hruns⟩
    have hcross := (runs_assemble_iff input plan _ _).mp
      ((runs_transits_iff (x := (_, (s, none))) (y := (_, (e, captures))) he).mp hruns)
    exact ⟨n, (hforgets.sound _ n _ hcross).2.1 he⟩
  · rintro ⟨n, hmoves⟩
    rcases hforgets.complete s n e hmoves none with ⟨captures, hcross⟩
    exact ⟨n, captures, (runs_transits_iff (x := (_, (s, none))) (y := (_, (e, captures))) he).mpr
      ((runs_assemble_iff input plan _ _).mpr hcross)⟩

/-- The automaton of a pattern means the pattern: for a tree without
    backreferences, with quantifiers as the parser builds them, the builder
    succeeds, its runs from start to accept connect the positions the meaning
    connects, and the end of a group blocks none of its runs. -/
theorem buildRegex_denotes (regex : Regex) (hback : regex.expression.Forall noBackreference)
    (hshape : regex.expression.Forall wellShaped) :
    ∃ element nfa, (buildRegex regex).run {} = .ok (element, nfa) ∧ ∀ input : List Nat,
      (∀ s e, s ≤ input.length → e ≤ input.length →
        ((∃ n captures, Runs (Transits nfa.states input) n ⟨s, element.start, none⟩
          ⟨e, element.accept, captures⟩) ↔ regex.Meaning input s e)) ∧
      (∀ s n c, Runs (Transits nfa.states input) n ⟨s, element.start, none⟩ c →
        c.inputPosition ≤ input.length →
        ∀ transition ∈ outgoing nfa.states c.currentStateId, ∀ g,
          transition.condition = .groupCaptureEnd g →
            ∃ c', branch input c transition = .ok (some c')) := by
  rcases planRegex_denotes regex hback hshape 1 with ⟨⟨plan, groupId⟩, hrun, hconnects⟩
  have hleaf := planRegex_forall noBackreference_implies_isLeaf regex hback 1 _ hrun
  have hcapture := planRegex_forall noBackreference_implies_not_isCapture regex hback 1 _ hrun
  rcases assembled_labelled ⟨trivial, fun _ => ⟨trivial, trivial⟩⟩ hcapture with
    ⟨label, hlabel, hstart⟩
  refine ⟨_, _, by rw [buildRegex_eq, hrun, map_ok, assembled], fun input => ⟨?_, ?_⟩⟩
  · intro s e _ he
    exact (runs_assembled_iff hleaf he).trans (hconnects input s e)
  · intro s n c hruns hle transition hmem g hcondition
    -- No group is open at the start, and every step keeps the open ones entered.
    have hopens : Opens label c := by
      refine hruns.preserves (fun _ _ h hstep => h.transits hlabel hstep) (fun g hg => ?_)
      rw [hstart] at hg
      exact absurd hg (Set.notMem_empty g)
    exact captureEnd_permitted hlabel hopens hle hmem hcondition

/-- The pattern `(a)*b{1,2}`, with one capturing group. -/
def groupThenRange : Regex :=
  { expression := .mk [.mk [
      .group (.mk false
        (some (.mk [.mk [.singleMatch { matchItem := .character (codePoint 'a') }]]))
        (some { type := .zeroOrMore })),
      .singleMatch {
        matchItem := .character (codePoint 'b')
        quantifier := some {
          type := .range
          rangeQuantifier := some { lowerBound := 1, upperBound := some 2 } } }]] }

theorem buildRegex_denotes_groupThenRange :
    ∃ element nfa, (buildRegex groupThenRange).run {} = .ok (element, nfa) ∧ ∀ input : List Nat,
      (∀ s e, s ≤ input.length → e ≤ input.length →
        ((∃ n captures, Runs (Transits nfa.states input) n ⟨s, element.start, none⟩
          ⟨e, element.accept, captures⟩) ↔ groupThenRange.Meaning input s e)) ∧
      (∀ s n c, Runs (Transits nfa.states input) n ⟨s, element.start, none⟩ c →
        c.inputPosition ≤ input.length →
        ∀ transition ∈ outgoing nfa.states c.currentStateId, ∀ g,
          transition.condition = .groupCaptureEnd g →
            ∃ c', branch input c transition = .ok (some c')) := by
  refine buildRegex_denotes groupThenRange ?_ ?_
  · simp only [groupThenRange, Expression.Forall, Expression.ForallAlternatives,
      SubExpression.Forall, SubExpression.ForallItems, SubExpressionItem.Forall, Group.Forall,
      NodePredicate.onOptionalQuantifier, noBackreference, and_self]
  · simp only [groupThenRange, Expression.Forall, Expression.ForallAlternatives,
      SubExpression.Forall, SubExpression.ForallItems, SubExpressionItem.Forall, Group.Forall,
      NodePredicate.onOptionalQuantifier, wellShaped, Quantifier.WellShaped,
      RangeQuantifier.WellShaped, reduceCtorEq, false_implies, and_self, and_true, true_and]
    exact fun _ => ⟨_, rfl, rfl, by decide⟩

end Grep

end CodingChallenges
