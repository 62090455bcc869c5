import CodingChallenges.Library.Fragment
import CodingChallenges.Grep.Plan
import CodingChallenges.Grep.Transitions

/-!
# What Assembled Plans Do

The states a plan adds form a fragment, and its meaning is read off the plan.

`Plan.crossing` gives every plan a relation between the data on entry and on
exit, with the number of transitions in between, once it is said what each
condition does to the data. With `Acts` for that, the data are the position and
the captures, and `assemble_isPiece` shows that the states `Plan.assemble` adds
realise the relation: they are an interval of identifiers, closed up to one
accept state that has no transitions of its own yet. The states that were there
before keep theirs (`Extends`), so a piece once built stays what it is,
whatever is added later.

The proof is an induction over the plan. All it has to know about each
construct is which transitions the new states got, which `outgoing_link` and
its companions compute, and the rest is the library's lemma for the construct.

## Main definitions

* `Plan.crossing`: What crossing a plan does, and how many transitions it takes.
* `interior`: The identifiers from a bound on, without the accept state.
* `IsPiece`: The last states of an automaton are a fragment.
* `Extends`: States were added and the earlier ones left alone.
* `IsAlternation`: What the loop over alternatives leaves behind.

## Theorems

* `outgoing_link_self`, `outgoing_link_of_ne`, `mem_outgoing_fork_self`,
  `outgoing_fork_of_ne`: The transitions after adding some.
* `assemble_isPiece`: An assembled plan is a piece with the plan's crossing.
* `runs_assemble_iff`: The runs of an automaton from its start to its accept
  state.
* `alternation_exit`, `concat_alternation_exit`: The last step into an
  alternation's accept state.
-/

namespace CodingChallenges

namespace Grep

section Outgoing

variable (states : List State)

@[simp] theorem outgoing_newState (q : Nat) :
    outgoing (newState states) q = outgoing states q := by
  unfold outgoing newState
  rcases Nat.lt_trichotomy q states.length with h | h | h
  · rw [List.getElem?_append_left h]
  · rw [h, List.getElem?_append_right (Nat.le_refl _), Nat.sub_self,
      List.getElem?_eq_none (Nat.le_refl _)]
    rfl
  · rw [List.getElem?_eq_none (Nat.le_of_lt h), List.getElem?_eq_none]
    simp only [List.length_append, List.length_singleton]
    omega

theorem outgoing_eq_nil {q : Nat} (h : states.length ≤ q) : outgoing states q = [] := by
  unfold outgoing
  rw [List.getElem?_eq_none h]

theorem outgoing_link_self {source : Nat} (h : source < states.length) (target : Nat)
    (condition : TransitionConditionType) :
    outgoing (link states source target condition) source
      = outgoing states source ++ [⟨target, condition⟩] := by
  unfold outgoing link
  rw [List.getElem?_modify_eq, List.getElem?_eq_getElem h]
  rfl

theorem outgoing_link_of_ne {source q : Nat} (h : q ≠ source) (target : Nat)
    (condition : TransitionConditionType) :
    outgoing (link states source target condition) q = outgoing states q := by
  unfold outgoing link
  rw [List.getElem?_modify_ne _ _ (Ne.symm h)]

theorem mem_outgoing_fork_self {source : Nat} (h : source < states.length)
    (first second : Nat) (lazyModifier : Bool) (transition : Transition) :
    transition ∈ outgoing (fork states source first second lazyModifier) source ↔
      transition ∈ outgoing states source ∨ transition = ⟨first, .epsilon⟩ ∨
        transition = ⟨second, .epsilon⟩ := by
  have hlink : ∀ t, source < (link states source t .epsilon).length := fun t => by
    rw [length_link]
    exact h
  unfold fork
  cases lazyModifier with
  | true =>
      -- A lazy fork has its two transitions the other way round, which is nothing to membership.
      rw [if_pos rfl, outgoing_link_self _ (hlink second), outgoing_link_self _ h]
      simp only [List.mem_append, List.mem_singleton, or_assoc]
      exact or_congr_right or_comm
  | false =>
      rw [if_neg Bool.false_ne_true, outgoing_link_self _ (hlink first), outgoing_link_self _ h]
      simp only [List.mem_append, List.mem_singleton, or_assoc]

theorem outgoing_fork_of_ne {source q : Nat} (h : q ≠ source) (first second : Nat)
    (lazyModifier : Bool) :
    outgoing (fork states source first second lazyModifier) q = outgoing states q := by
  unfold fork
  split <;> rw [outgoing_link_of_ne _ h, outgoing_link_of_ne _ h]

end Outgoing

section Steps

variable {states : List State} {input : List Nat}

/-- A state with a single transition is a link. -/
theorem link_of_outgoing {q t : Nat} {condition : TransitionConditionType}
    (h : outgoing states q = [⟨t, condition⟩]) :
    Link (nfaStep states input) q (Acts input condition) t := by
  intro d x
  simp only [nfaStep, h, List.mem_singleton, exists_eq_left]
  constructor
  · rintro ⟨rfl, hacts⟩
    exact ⟨rfl, hacts⟩
  · rintro ⟨rfl, hacts⟩
    exact ⟨rfl, hacts⟩

/-- A state with epsilon transitions only is a fork. -/
theorem fork_of_outgoing {q : Nat} {targets : Set Nat}
    (h : ∀ transition, transition ∈ outgoing states q ↔
      transition.condition = .epsilon ∧ transition.toState ∈ targets) :
    Fork (nfaStep states input) q targets := by
  intro d x
  constructor
  · rintro ⟨⟨t, condition⟩, hmem, rfl, hacts⟩
    rcases (h _).mp hmem with ⟨rfl, ht⟩
    exact ⟨ht, (acts_epsilon_iff input d x.2).mp hacts⟩
  · rintro ⟨ht, hd⟩
    exact ⟨⟨x.1, .epsilon⟩, (h _).mpr ⟨rfl, ht⟩, rfl, (acts_epsilon_iff input d x.2).mpr hd⟩

theorem fork_two {q first second : Nat}
    (h : ∀ transition, transition ∈ outgoing states q ↔
      transition = ⟨first, .epsilon⟩ ∨ transition = ⟨second, .epsilon⟩) :
    Fork (nfaStep states input) q {first, second} := by
  refine fork_of_outgoing (fun transition => ?_)
  rcases transition with ⟨t, condition⟩
  rw [h]
  simp only [Transition.mk.injEq, Set.mem_insert_iff, Set.mem_singleton_iff]
  tauto

theorem fork_one {q t : Nat} (h : outgoing states q = [⟨t, .epsilon⟩]) :
    Fork (nfaStep states input) q {t} := by
  refine fork_of_outgoing (fun transition => ?_)
  rcases transition with ⟨t', condition⟩
  rw [h]
  simp only [List.mem_singleton, Transition.mk.injEq, Set.mem_singleton_iff]
  tauto

/-- The steps of two automata agree at states with the same transitions. -/
theorem nfaStep_congr {states' : List State} {q : Nat}
    (h : outgoing states' q = outgoing states q) (d : Data) (x : Nat × Data) :
    nfaStep states' input (q, d) x ↔ nfaStep states input (q, d) x := by
  simp only [nfaStep, h]

theorem epsilon_tick (input : List Nat) : CostRel.atom (Acts input .epsilon) = CostRel.tick := by
  funext d n d'
  simp only [CostRel.atom, CostRel.tick, acts_epsilon_iff]

end Steps

mutual

/-- What crossing a plan does to the data and how many transitions it takes,
    given what each condition does. -/
def Plan.crossing {D : Type} (act : TransitionConditionType → D → D → Prop) : Plan → CostRel D
  | .basic condition => CostRel.atom (act condition)
  | .concat first second => (first.crossing act).seq (CostRel.tick.seq (second.crossing act))
  | .star _ body =>
    CostRel.tick.seq (CostRel.many (fun _ => True) ((body.crossing act).seq CostRel.tick))
  | .plus _ body => CostRel.many (fun k => 1 ≤ k) ((body.crossing act).seq CostRel.tick)
  | .option _ body =>
    CostRel.tick.seq (CostRel.many (fun k => k ≤ 1) ((body.crossing act).seq CostRel.tick))
  | .capture groupId body =>
    (CostRel.atom (act (.groupCaptureStart groupId))).seq
      ((body.crossing act).seq (CostRel.atom (act (.groupCaptureEnd groupId))))
  | .alternation alternatives => Plan.crossingAlternatives act alternatives

/-- What crossing one of several alternatives does. -/
def Plan.crossingAlternatives {D : Type} (act : TransitionConditionType → D → D → Prop) :
    List Plan → CostRel D
  | [] => fun _ _ _ => False
  | alternative :: rest => fun d n d' =>
    (CostRel.tick.seq ((alternative.crossing act).seq CostRel.tick)) d n d' ∨
      Plan.crossingAlternatives act rest d n d'

end

/-- The identifiers from `lo` to below `hi`, without the accept state. -/
def interior (lo hi : Nat) (accept : Nat) : Set Nat :=
  {q | lo ≤ q ∧ q < hi ∧ q ≠ accept}

/-- The states from `lo` on are a fragment whose accept state has no
    transitions yet. -/
structure IsPiece (input : List Nat) (lo : Nat) (states : List State) (e : NfaElement)
    (R : CostRel Data) : Prop where
  start_ge : lo ≤ e.start
  start_lt : e.start < states.length
  accept_ge : lo ≤ e.accept
  accept_lt : e.accept < states.length
  outgoing_accept : outgoing states e.accept = []
  fragment : Fragment (nfaStep states input) (interior lo states.length e.accept) e.start e.accept R

/-- A piece stays a fragment when only its accept state and states outside it
    get transitions. -/
theorem IsPiece.fragment_of_outgoing {input : List Nat} {lo : Nat} {states : List State}
    {e : NfaElement} {R : CostRel Data} (h : IsPiece input lo states e R) (states' : List State)
    (hsame : ∀ q ∈ interior lo states.length e.accept, outgoing states' q = outgoing states q) :
    Fragment (nfaStep states' input) (interior lo states.length e.accept) e.start e.accept R :=
  h.fragment.congr (fun q hq d x => nfaStep_congr (hsame q hq) d x)

/-- The identifiers of a construct: those of its body, and two that were
    allocated next to them. -/
theorem mem_interior_iff {lo hi : Nat} {accept q : Nat} :
    q ∈ interior lo hi accept ↔ lo ≤ q ∧ q < hi ∧ q ≠ accept := Iff.rfl

section Constructs

variable {input : List Nat} {lo : Nat} {states : List State}

/-- A construct between two new states, the second of which has no transitions yet. -/
theorem IsPiece.between {n : Nat} {R : CostRel Data} (hlo : lo ≤ n)
    (hlength : n + 1 < states.length) (haccept : outgoing states (n + 1) = [])
    (hfragment : Fragment (nfaStep states input) (interior lo states.length (n + 1)) n (n + 1) R) :
    IsPiece input lo states { start := n, accept := n + 1 } R :=
  ⟨hlo, Nat.lt_of_succ_lt hlength, Nat.le_succ_of_le hlo, hlength, haccept, hfragment⟩

theorem isPiece_basic (condition : TransitionConditionType) :
    IsPiece input states.length (Plan.assemble (.basic condition) states).2
      (Plan.assemble (.basic condition) states).1 (CostRel.atom (Acts input condition)) := by
  have hlen : states.length < (newState (newState states)).length := by
    simp only [length_newState]
    omega
  have hstart : outgoing (link (newState (newState states)) states.length (states.length + 1)
      condition) states.length = [⟨states.length + 1, condition⟩] := by
    rw [outgoing_link_self _ hlen, outgoing_newState, outgoing_newState,
      outgoing_eq_nil _ (Nat.le_refl _), List.nil_append]
  have haccept : outgoing (link (newState (newState states)) states.length (states.length + 1)
      condition) (states.length + 1) = [] := by
    rw [outgoing_link_of_ne _ (by omega), outgoing_newState, outgoing_newState,
      outgoing_eq_nil _ (by omega)]
  have hinterior : interior states.length (states.length + 1 + 1) (states.length + 1)
      = {states.length} := by
    ext q
    simp only [mem_interior_iff, Set.mem_singleton_iff]
    omega
  refine ⟨Nat.le_refl _, ?_, Nat.le_succ _, ?_, haccept, ?_⟩
  · simp only [Plan.assemble, length_link, length_newState]
    omega
  · simp only [Plan.assemble, length_link, length_newState]
    omega
  · simp only [Plan.assemble, length_link, length_newState, hinterior]
    exact Fragment.atom (link_of_outgoing hstart) (by omega)

theorem IsPiece.concat {mid : List State} {states' : List State} {e₁ e₂ : NfaElement}
    {R₁ R₂ : CostRel Data} (h₁ : IsPiece input lo mid e₁ R₁)
    (h₂ : IsPiece input mid.length states' e₂ R₂)
    (hkeep : ∀ q, q < mid.length → outgoing states' q = outgoing mid q) :
    IsPiece input lo (link states' e₁.accept e₂.start .epsilon)
      { start := e₁.start, accept := e₂.accept } (R₁.seq (CostRel.tick.seq R₂)) := by
  have hge := h₂.start_ge
  have hlt := h₂.start_lt
  have ha₁ := h₁.accept_lt
  have ha₂ := h₂.accept_ge
  -- The accept state of the first piece had no transitions, so now it has the one to the second.
  have hjoint : outgoing (link states' e₁.accept e₂.start .epsilon) e₁.accept
      = [⟨e₂.start, .epsilon⟩] := by
    rw [outgoing_link_self _ (by omega), hkeep _ ha₁, h₁.outgoing_accept, List.nil_append]
  have hother : ∀ q, q ≠ e₁.accept →
      outgoing (link states' e₁.accept e₂.start .epsilon) q = outgoing states' q :=
    fun q hq => outgoing_link_of_ne _ hq _ _
  have hfirst := h₁.fragment_of_outgoing _ (fun q hq => (hother q hq.2.2).trans (hkeep q hq.2.1))
  have hsecond := h₂.fragment_of_outgoing _ (fun q hq => hother q (by
    have := hq.1
    omega))
  refine ⟨h₁.start_ge, ?_, ?_, ?_, ?_, ?_⟩
  · have := h₁.start_lt
    simp only [length_link]
    omega
  · have := h₁.accept_ge
    simp only
    omega
  · simp only [length_link]
    exact h₂.accept_lt
  · rw [hother _ (by simp only; omega)]
    exact h₂.outgoing_accept
  · rw [← epsilon_tick input]
    refine hfirst.seq hsecond (link_of_outgoing hjoint) (fun q => ?_) (fun h => h.2.2 rfl)
    have := h₁.accept_ge
    simp only [mem_interior_iff, length_link]
    omega

theorem IsPiece.star {e : NfaElement} {R : CostRel Data} (h : IsPiece input lo states e R)
    (lazyModifier : Bool) :
    IsPiece input lo
      (fork (fork (newState (newState states)) states.length e.start (states.length + 1)
        lazyModifier) e.accept e.start (states.length + 1) lazyModifier)
      { start := states.length, accept := states.length + 1 }
      (CostRel.tick.seq (CostRel.many (fun _ => True) (R.seq CostRel.tick))) := by
  have haccept := h.accept_lt
  -- The new states have no transitions until the forks give them some.
  have hfresh : ∀ q, outgoing (newState (newState states)) q = outgoing states q := fun q => by
    rw [outgoing_newState, outgoing_newState]
  refine .between (h.accept_ge.trans haccept.le) ?_ ?_ ?_
  · simp only [length_fork, length_newState]
    omega
  · rw [outgoing_fork_of_ne _ (by omega), outgoing_fork_of_ne _ (by omega), hfresh,
      outgoing_eq_nil _ (by omega)]
  · have hbody := h.fragment_of_outgoing (fork (fork (newState (newState states))
      states.length e.start (states.length + 1) lazyModifier) e.accept e.start
      (states.length + 1) lazyModifier) (fun q hq => by
        have := hq.2.1
        rw [outgoing_fork_of_ne _ hq.2.2, outgoing_fork_of_ne _ (by omega), hfresh])
    refine hbody.star (fork_two (fun transition => ?_)) (fork_two (fun transition => ?_))
      (fun q => ?_) (fun hc => hc.2.2 rfl)
    · rw [outgoing_fork_of_ne _ (by omega), mem_outgoing_fork_self _ (by
        simp only [length_newState]
        omega), hfresh, outgoing_eq_nil _ (Nat.le_refl _)]
      simp only [List.not_mem_nil, false_or]
    · rw [mem_outgoing_fork_self _ (by
        simp only [length_fork, length_newState]
        omega), outgoing_fork_of_ne _ (by omega), hfresh, h.outgoing_accept]
      simp only [List.not_mem_nil, false_or]
    · have := h.accept_ge
      simp only [mem_interior_iff, length_fork, length_newState]
      omega

theorem IsPiece.plus {e : NfaElement} {R : CostRel Data} (h : IsPiece input lo states e R)
    (lazyModifier : Bool) :
    IsPiece input lo (fork (newState states) e.accept e.start states.length lazyModifier)
      { start := e.start, accept := states.length }
      (CostRel.many (fun k => 1 ≤ k) (R.seq CostRel.tick)) := by
  have haccept := h.accept_lt
  refine ⟨h.start_ge, ?_, ?_, ?_, ?_, ?_⟩
  · have := h.start_lt
    simp only [length_fork, length_newState]
    omega
  · have := h.accept_ge
    simp only
    omega
  · simp only [length_fork, length_newState]
    omega
  · rw [outgoing_fork_of_ne _ (by simp only; omega), outgoing_newState,
      outgoing_eq_nil _ (Nat.le_refl _)]
  · have hbody := h.fragment_of_outgoing
      (fork (newState states) e.accept e.start states.length lazyModifier)
      (fun q hq => by rw [outgoing_fork_of_ne _ hq.2.2, outgoing_newState])
    refine hbody.plus (fork_two (fun transition => ?_)) (fun q => ?_) (fun hc => hc.2.2 rfl)
    · rw [mem_outgoing_fork_self _ (by
        simp only [length_newState]
        omega), outgoing_newState, h.outgoing_accept]
      simp only [List.not_mem_nil, false_or]
    · have := h.accept_ge
      simp only [mem_interior_iff, length_fork, length_newState]
      omega

theorem IsPiece.option {e : NfaElement} {R : CostRel Data} (h : IsPiece input lo states e R)
    (lazyModifier : Bool) :
    IsPiece input lo
      (link (fork (newState (newState states)) states.length e.start (states.length + 1)
        lazyModifier) e.accept (states.length + 1) .epsilon)
      { start := states.length, accept := states.length + 1 }
      (CostRel.tick.seq (CostRel.many (fun k => k ≤ 1) (R.seq CostRel.tick))) := by
  have haccept := h.accept_lt
  have hfresh : ∀ q, outgoing (newState (newState states)) q = outgoing states q := fun q => by
    rw [outgoing_newState, outgoing_newState]
  refine .between (h.accept_ge.trans haccept.le) ?_ ?_ ?_
  · simp only [length_link, length_fork, length_newState]
    omega
  · rw [outgoing_link_of_ne _ (by omega), outgoing_fork_of_ne _ (by omega), hfresh,
      outgoing_eq_nil _ (by omega)]
  · have hbody := h.fragment_of_outgoing (link (fork (newState (newState states))
      states.length e.start (states.length + 1) lazyModifier) e.accept (states.length + 1)
      .epsilon) (fun q hq => by
        have := hq.2.1
        rw [outgoing_link_of_ne _ hq.2.2, outgoing_fork_of_ne _ (by omega), hfresh])
    refine hbody.option (fork_two (fun transition => ?_)) (fork_one ?_) (fun q => ?_)
      (fun hc => hc.2.2 rfl)
    · rw [outgoing_link_of_ne _ (by omega), mem_outgoing_fork_self _ (by
        simp only [length_newState]
        omega), hfresh, outgoing_eq_nil _ (Nat.le_refl _)]
      simp only [List.not_mem_nil, false_or]
    · rw [outgoing_link_self _ (by
        simp only [length_fork, length_newState]
        omega), outgoing_fork_of_ne _ (by omega), hfresh, h.outgoing_accept, List.nil_append]
    · have := h.accept_ge
      simp only [mem_interior_iff, length_link, length_fork, length_newState]
      omega

/-- A capturing group: its two states come first, the body after them. -/
theorem IsPiece.capture {states' : List State} {e : NfaElement} {R : CostRel Data} (groupId : Nat)
    (h : IsPiece input (states.length + 2) states' e R) (hlen : states.length + 2 ≤ states'.length)
    (hstart : outgoing states' states.length = [])
    (haccept : outgoing states' (states.length + 1) = []) :
    IsPiece input states.length
      (link (link states' states.length e.start (.groupCaptureStart groupId))
        e.accept (states.length + 1) (.groupCaptureEnd groupId))
      { start := states.length, accept := states.length + 1 }
      ((CostRel.atom (Acts input (.groupCaptureStart groupId))).seq
        (R.seq (CostRel.atom (Acts input (.groupCaptureEnd groupId))))) := by
  have hge := h.accept_ge
  have hlt := h.accept_lt
  refine .between (Nat.le_refl _) ?_ ?_ ?_
  · simp only [length_link]
    omega
  · rw [outgoing_link_of_ne _ (by omega), outgoing_link_of_ne _ (by omega)]
    exact haccept
  · have hbody := h.fragment_of_outgoing (link (link states' states.length e.start
      (.groupCaptureStart groupId)) e.accept (states.length + 1) (.groupCaptureEnd groupId))
      (fun q hq => by
        have := hq.1
        rw [outgoing_link_of_ne _ hq.2.2, outgoing_link_of_ne _ (by omega)])
    -- The body is entered by the start of the group and left by its end.
    refine hbody.wrap (link_of_outgoing ?_) (link_of_outgoing ?_) (fun q => ?_)
      (fun hc => hc.2.2 rfl)
    · rw [outgoing_link_of_ne _ (by omega), outgoing_link_self _ (by omega), hstart,
        List.nil_append]
    · rw [outgoing_link_self _ (by rw [length_link]; exact hlt), outgoing_link_of_ne _ (by omega),
        h.outgoing_accept, List.nil_append]
    · simp only [mem_interior_iff, length_link]
      omega

end Constructs

/-- Further states were added, and the earlier ones kept their transitions. -/
structure Extends (states states' : List State) : Prop where
  length_le : states.length ≤ states'.length
  outgoing_eq : ∀ q, q < states.length → outgoing states' q = outgoing states q

namespace Extends

variable {states states' states'' : List State}

theorem trans (h : Extends states states') (h' : Extends states' states'') :
    Extends states states'' :=
  ⟨Nat.le_trans h.length_le h'.length_le, fun q hq =>
    (h'.outgoing_eq q (Nat.lt_of_lt_of_le hq h.length_le)).trans (h.outgoing_eq q hq)⟩

theorem newState (h : Extends states states') : Extends states (newState states') := by
  refine ⟨?_, fun q hq => ?_⟩
  · rw [length_newState]
    exact Nat.le_succ_of_le h.length_le
  · rw [outgoing_newState]
    exact h.outgoing_eq q hq

theorem link (h : Extends states states') {source : Nat} (hs : states.length ≤ source)
    (target : Nat) (condition : TransitionConditionType) :
    Extends states (link states' source target condition) := by
  refine ⟨?_, fun q hq => ?_⟩
  · rw [length_link]
    exact h.length_le
  · rw [outgoing_link_of_ne _ (by omega)]
    exact h.outgoing_eq q hq

theorem fork (h : Extends states states') {source : Nat} (hs : states.length ≤ source)
    (first second : Nat) (lazyModifier : Bool) :
    Extends states (fork states' source first second lazyModifier) := by
  refine ⟨?_, fun q hq => ?_⟩
  · rw [length_fork]
    exact h.length_le
  · rw [outgoing_fork_of_ne _ (by omega)]
    exact h.outgoing_eq q hq

theorem rfl : Extends states states :=
  ⟨Nat.le_refl _, fun _ _ => Eq.refl _⟩

end Extends

/-- What the loop over the alternatives leaves behind: one branch for each of
    them, entered from the common start state and left towards the common
    accept state. -/
structure IsAlternation (input : List Nat) (start accept : Nat) (states states' : List State)
    (branches : List (Branch Nat Data)) : Prop where
  length_le : states.length ≤ states'.length
  outgoing_eq : ∀ q, q < states.length → q ≠ start → outgoing states' q = outgoing states q
  outgoing_start : outgoing states' start
    = outgoing states start ++ branches.map (fun b => ⟨b.start, .epsilon⟩)
  outgoing_accept : ∀ b ∈ branches, outgoing states' b.accept = [⟨accept, .epsilon⟩]
  mem_iff : ∀ q, states.length ≤ q ∧ q < states'.length ↔
    ∃ b ∈ branches, q ∈ b.interior ∨ q = b.accept
  fragment : ∀ b ∈ branches,
    Fragment (nfaStep states' input) b.interior b.start b.accept b.meaning

namespace IsAlternation

variable {input : List Nat} {start accept : Nat} {states states' : List State}
  {branches : List (Branch Nat Data)}

/-- One more alternative in front: its branch is built first, and the loop over
    the others leaves it alone. -/
theorem cons {built : List State} {e : NfaElement} {R : CostRel Data}
    (hstart : start < states.length)
    (hpiece : IsPiece input states.length built e R) (hext : Extends states built)
    (h : IsAlternation input start accept
      (link (link built start e.start .epsilon) e.accept accept .epsilon) states' branches) :
    IsAlternation input start accept states states'
      ({ interior := interior states.length built.length e.accept, start := e.start,
         accept := e.accept, meaning := R } :: branches) := by
  have hge := hpiece.accept_ge
  have hlt := hpiece.accept_lt
  have hlen := hext.length_le
  have hlen' := h.length_le
  have hkeep := h.outgoing_eq
  simp only [length_link] at hlen' hkeep
  -- The two links of this branch are the last transitions of their states so far.
  have haccept : outgoing states' e.accept = [⟨accept, .epsilon⟩] := by
    rw [hkeep _ hlt (by omega), outgoing_link_self _ (by rw [length_link]; exact hlt),
      outgoing_link_of_ne _ (by omega), hpiece.outgoing_accept, List.nil_append]
  have hinner : ∀ q ∈ interior states.length built.length e.accept,
      outgoing states' q = outgoing built q := fun q hq => by
    have hq₁ := hq.1
    have hq₂ := hq.2.1
    rw [hkeep _ hq₂ (by omega), outgoing_link_of_ne _ hq.2.2, outgoing_link_of_ne _ (by omega)]
  refine ⟨by omega, fun q hq hqs => ?_, ?_, ?_, fun q => ?_, ?_⟩
  · rw [hkeep _ (by omega) hqs, outgoing_link_of_ne _ (by omega), outgoing_link_of_ne _ hqs]
    exact hext.outgoing_eq q hq
  · rw [h.outgoing_start, outgoing_link_of_ne _ (by omega), outgoing_link_self _ (by omega),
      hext.outgoing_eq _ hstart, List.map_cons, List.append_assoc, List.singleton_append]
  · intro b hb
    rcases List.mem_cons.mp hb with rfl | hb
    · exact haccept
    · exact h.outgoing_accept b hb
  · have hmem := h.mem_iff q
    simp only [length_link] at hmem
    simp only [List.mem_cons, exists_eq_or_imp, ← hmem, mem_interior_iff]
    omega
  · intro b hb
    rcases List.mem_cons.mp hb with rfl | hb
    · exact hpiece.fragment_of_outgoing _ hinner
    · exact h.fragment b hb

/-- The loop over the alternatives, run on two fresh states, builds a piece. -/
theorem isPiece {R : CostRel Data}
    (h : IsAlternation input states.length (states.length + 1) (newState (newState states)) states'
      branches)
    (hR : ∀ d n d', R d n d' ↔
      ∃ b ∈ branches, (CostRel.tick.seq (b.meaning.seq CostRel.tick)) d n d') :
    IsPiece input states.length states'
      { start := states.length, accept := states.length + 1 } R := by
  have hlen := h.length_le
  simp only [length_newState] at hlen
  refine ⟨Nat.le_refl _, by simp only; omega, Nat.le_succ _, by simp only; omega, ?_, ?_⟩
  · rw [h.outgoing_eq _ (by simp only [length_newState]; omega) (by simp only; omega),
      outgoing_newState, outgoing_newState, outgoing_eq_nil _ (by simp only; omega)]
  · refine (Fragment.alternation h.fragment (fork_of_outgoing ?_)
      (fun b hb => fork_one (h.outgoing_accept b hb)) (fun q => ?_)
      (fun hc => hc.2.2 rfl)).congr_rel (fun d n d' => (hR d n d').symm)
    · rintro ⟨t, condition⟩
      rw [h.outgoing_start, outgoing_newState, outgoing_newState,
        outgoing_eq_nil _ (Nat.le_refl _), List.nil_append]
      simp only [List.mem_map, Transition.mk.injEq, Set.mem_ofPred_eq]
      constructor
      · rintro ⟨b, hb, rfl, rfl⟩
        exact ⟨rfl, b, hb, rfl⟩
      · rintro ⟨rfl, b, hb, rfl⟩
        exact ⟨b, hb, rfl, rfl⟩
    · have hmem := h.mem_iff q
      simp only [length_newState] at hmem
      rw [← hmem]
      simp only [mem_interior_iff]
      omega

theorem extends_states
    (h : IsAlternation input states.length (states.length + 1) (newState (newState states)) states'
      branches) : Extends states states' := by
  have hlen := h.length_le
  simp only [length_newState] at hlen
  refine ⟨by omega, fun q hq => ?_⟩
  rw [h.outgoing_eq _ (by simp only [length_newState]; omega) (by omega), outgoing_newState,
    outgoing_newState]

end IsAlternation

mutual

/-- An assembled plan is a piece with the plan's crossing, and leaves the
    earlier states alone. -/
theorem assemble_isPiece (input : List Nat) : ∀ (plan : Plan) (states : List State),
    IsPiece input states.length (plan.assemble states).2 (plan.assemble states).1
        (plan.crossing (Acts input)) ∧
      Extends states (plan.assemble states).2
  | .basic condition, states =>
      ⟨isPiece_basic condition,
        Extends.rfl.newState.newState.link (Nat.le_refl _) _ _⟩
  | .concat first second, states => by
      rcases assemble_isPiece input first states with ⟨hfirst, hext₁⟩
      rcases assemble_isPiece input second (first.assemble states).2 with ⟨hsecond, hext₂⟩
      exact ⟨hfirst.concat hsecond hext₂.outgoing_eq,
        (hext₁.trans hext₂).link hfirst.accept_ge _ _⟩
  | .star lazyModifier body, states => by
      rcases assemble_isPiece input body states with ⟨hbody, hext⟩
      exact ⟨hbody.star lazyModifier,
        (hext.newState.newState.fork hext.length_le _ _ _).fork hbody.accept_ge _ _ _⟩
  | .plus lazyModifier body, states => by
      rcases assemble_isPiece input body states with ⟨hbody, hext⟩
      exact ⟨hbody.plus lazyModifier, hext.newState.fork hbody.accept_ge _ _ _⟩
  | .option lazyModifier body, states => by
      rcases assemble_isPiece input body states with ⟨hbody, hext⟩
      exact ⟨hbody.option lazyModifier,
        (hext.newState.newState.fork hext.length_le _ _ _).link hbody.accept_ge _ _⟩
  | .capture groupId body, states => by
      rcases assemble_isPiece input body (newState (newState states)) with ⟨hbody, hext⟩
      have hlen := hext.length_le
      have hkeep := hext.outgoing_eq
      have hge := hbody.accept_ge
      simp only [length_newState, outgoing_newState] at hbody hlen hkeep hge
      -- The body is assembled behind the two states, which have no transitions yet.
      refine ⟨hbody.capture groupId hlen ?_ ?_, ?_⟩
      · rw [hkeep _ (by omega), outgoing_eq_nil _ (Nat.le_refl _)]
      · rw [hkeep _ (by omega), outgoing_eq_nil _ (by omega)]
      · exact ((Extends.rfl.newState.newState.trans hext).link (Nat.le_refl _) _ _).link
          (by omega) _ _
  | .alternation alternatives, states => by
      rcases assembleAlternatives_isAlternation input alternatives states.length
        (states.length + 1) (newState (newState states)) (by simp only [length_newState]; omega)
        (by simp only [length_newState]; omega) with ⟨branches, halt, hcross⟩
      exact ⟨halt.isPiece hcross, halt.extends_states⟩

theorem assembleAlternatives_isAlternation (input : List Nat) :
    ∀ (alternatives : List Plan) (start accept : Nat) (states : List State),
      start < states.length → accept < states.length →
      ∃ branches, IsAlternation input start accept states
          (Plan.assembleAlternatives start accept alternatives states) branches ∧
        ∀ d n d', Plan.crossingAlternatives (Acts input) alternatives d n d' ↔
          ∃ b ∈ branches, (CostRel.tick.seq (b.meaning.seq CostRel.tick)) d n d'
  | [], start, accept, states, _, _ => by
      refine ⟨[], ⟨Nat.le_refl _, fun _ _ _ => rfl, ?_, ?_, ?_, ?_⟩, ?_⟩
      · exact (List.append_nil _).symm
      · exact fun b hb => absurd hb List.not_mem_nil
      · intro q
        simp only [List.not_mem_nil, false_and, exists_false, iff_false, Plan.assembleAlternatives]
        omega
      · exact fun b hb => absurd hb List.not_mem_nil
      · intro d n d'
        simp only [Plan.crossingAlternatives, List.not_mem_nil, false_and, exists_false]
  | alternative :: rest, start, accept, states, hstart, haccept => by
      rcases assemble_isPiece input alternative states with ⟨hpiece, hext⟩
      have hlen := hext.length_le
      rcases assembleAlternatives_isAlternation input rest start accept
        (link (link (alternative.assemble states).2 start (alternative.assemble states).1.start
          .epsilon) (alternative.assemble states).1.accept accept .epsilon)
        (by simp only [length_link]; omega) (by simp only [length_link]; omega)
        with ⟨branches, halt, hcross⟩
      refine ⟨_, halt.cons hstart hpiece hext, fun d n d' => ?_⟩
      simp only [Plan.crossingAlternatives, List.mem_cons, exists_eq_or_imp]
      exact or_congr_right (hcross d n d')

end

/-- The runs of an automaton from its start to its accept state are the
    crossings of its plan. -/
theorem runs_assemble_iff (input : List Nat) (plan : Plan) {n : Nat} (d d' : Data) :
    Runs (nfaStep (plan.assemble []).2 input) n ((plan.assemble []).1.start, d)
        ((plan.assemble []).1.accept, d') ↔ plan.crossing (Acts input) d n d' := by
  rcases assemble_isPiece input plan [] with ⟨hpiece, -⟩
  generalize (plan.assemble []).1 = e at hpiece ⊢
  generalize (plan.assemble []).2 = states at hpiece ⊢
  -- Every location is in the universe, so the accept state is left out of a run's way by hand.
  have huniv : ∀ {m : Nat} {x y : Nat × Data}, Runs (nfaStep states input) m x y ↔
      Runs (Inside (nfaStep states input) Set.univ) m x y := by
    intro m x y
    constructor
    · exact fun h => h.mono (fun _ _ hstep => ⟨trivial, hstep⟩)
    · exact fun h => h.mono (fun _ _ hstep => hstep.2)
  have hstuck : ∀ {m : Nat} {c c' : Data},
      Runs (Inside (nfaStep states input) Set.univ) m (e.accept, c) (e.accept, c') →
        m = 0 ∧ c = c' := by
    intro m c c' h
    cases h with
    | refl => exact ⟨rfl, rfl⟩
    | head _ y _ hstep _ =>
        rcases hstep.2 with ⟨transition, hmem, -⟩
        rw [hpiece.outgoing_accept] at hmem
        exact absurd hmem List.not_mem_nil
  rw [huniv]
  constructor
  · intro h
    rcases hpiece.fragment.exits (fun hc => hc.2.2 rfl) h (Or.inl hpiece.fragment.start_mem) with
      ⟨n₁, c, n₂, hfirst, hlast, rfl⟩
    rcases hstuck hlast with ⟨rfl, rfl⟩
    exact (hpiece.fragment.runs_iff d n₁ c).mp hfirst
  · intro h
    exact ((hpiece.fragment.runs_iff d n d').mpr h).mono (fun _ _ hstep => ⟨trivial, hstep.2⟩)

/-- The accept state of an alternation is entered by epsilons only, as far as the
    states of the alternation are concerned. -/
theorem assembleAlternatives_exit (input : List Nat) (alternatives : List Plan)
    (states : List State) {x y : Nat × Data} (hx : states.length ≤ x.1)
    (hstep : nfaStep (Plan.assembleAlternatives states.length (states.length + 1) alternatives
      (newState (newState states))) input x y)
    (hy : y.1 = states.length + 1) : y.2 = x.2 := by
  have hlen : (newState (newState states)).length = states.length + 2 := by
    rw [length_newState, length_newState]
  rcases assembleAlternatives_isAlternation input alternatives states.length (states.length + 1)
    (newState (newState states)) (by omega) (by omega) with ⟨branches, halt, -⟩
  have hfresh : ∀ q, states.length ≤ q → outgoing (newState (newState states)) q = [] := by
    intro q hq
    rw [outgoing_newState, outgoing_newState, outgoing_eq_nil _ hq]
  have hmem := halt.mem_iff
  rw [hlen] at hmem
  have hepsilon : ∀ t : Nat, outgoing (Plan.assembleAlternatives states.length (states.length + 1)
      alternatives (newState (newState states))) x.1 = [⟨t, .epsilon⟩] → y.2 = x.2 := by
    intro t ht
    have hlinks : Link (nfaStep _ input) x.1 (Acts input .epsilon) t := link_of_outgoing ht
    have hlink := (hlinks x.2 y).mp hstep
    exact (acts_epsilon_iff input x.2 y.2).mp hlink.2
  rcases hstep with ⟨transition, htransition, htarget, hacts⟩
  rcases Nat.lt_or_ge x.1 (states.length + 2) with hlt | hge
  · have hcases : x.1 = states.length ∨ x.1 = states.length + 1 := by omega
    rcases hcases with hstart | haccept
    · rw [hstart, halt.outgoing_start, hfresh _ (Nat.le_refl _), List.nil_append] at htransition
      rcases List.mem_map.mp htransition with ⟨b, -, rfl⟩
      exact (acts_epsilon_iff input x.2 y.2).mp hacts
    · rw [haccept, halt.outgoing_eq _ (by omega) (by omega), hfresh _ (Nat.le_succ _)]
        at htransition
      exact absurd htransition List.not_mem_nil
  · have hlt := lt_of_not_ge fun hout => by
      rw [outgoing_eq_nil _ hout] at htransition
      exact absurd htransition List.not_mem_nil
    rcases (hmem x.1).mp ⟨hge, hlt⟩ with ⟨b, hb, hinside | hexit⟩
    · -- Inside a branch a step stays above the two states of the alternation.
      have hclosed := (halt.fragment b hb).closed x.1 hinside x.2 y
        ⟨transition, htransition, htarget, hacts⟩
      have habove := ((hmem y.1).mpr ⟨b, hb, hclosed⟩).1
      omega
    · exact hepsilon (states.length + 1) (by rw [hexit, halt.outgoing_accept b hb])

/-- The accept state of an alternation is entered by epsilons only. -/
theorem alternation_exit (input : List Nat) (alternatives : List Plan) {x y : Nat × Data}
    (hstep : nfaStep ((Plan.alternation alternatives).assemble []).2 input x y)
    (hy : y.1 = ((Plan.alternation alternatives).assemble []).1.accept) : y.2 = x.2 :=
  assembleAlternatives_exit input alternatives [] (Nat.zero_le _) hstep hy

/-- So is the accept state of an alternation behind another transition. -/
theorem concat_alternation_exit (input : List Nat) (condition : TransitionConditionType)
    (alternatives : List Plan) {x y : Nat × Data}
    (hstep : nfaStep ((Plan.concat (.basic condition) (.alternation alternatives)).assemble []).2
      input x y)
    (hy : y.1
      = ((Plan.concat (.basic condition) (.alternation alternatives)).assemble []).1.accept) :
    y.2 = x.2 := by
  rcases assemble_isPiece input (.alternation alternatives) ((Plan.basic condition).assemble []).2
    with ⟨-, hext⟩
  have hlen : ((Plan.basic condition).assemble []).2.length = 2 := rfl
  have hle := hext.length_le
  have haccept : y.1 = 3 := hy
  have hstates : ((Plan.concat (.basic condition) (.alternation alternatives)).assemble []).2
      = link ((Plan.alternation alternatives).assemble ((Plan.basic condition).assemble []).2).2
        1 2 .epsilon := rfl
  rw [hstates] at hstep
  rcases Nat.lt_or_ge x.1 2 with hlt | hge
  · -- The first two states lead to one another and to the start of the alternation.
    rcases hstep with ⟨transition, htransition, htarget, -⟩
    rcases Nat.le_one_iff_eq_zero_or_eq_one.mp (Nat.le_of_lt_succ hlt) with hzero | hone
    · have hout : outgoing ((Plan.basic condition).assemble []).2 0 = [⟨1, condition⟩] := rfl
      rw [hzero, outgoing_link_of_ne _ Nat.zero_ne_one, hext.outgoing_eq 0 (by omega), hout,
        List.mem_singleton] at htransition
      subst htransition
      have hone : 1 = y.1 := htarget
      omega
    · have hout : outgoing ((Plan.basic condition).assemble []).2 1 = [] := rfl
      rw [hone, outgoing_link_self _ (by omega), hext.outgoing_eq 1 (by omega), hout,
        List.nil_append, List.mem_singleton] at htransition
      subst htransition
      have htwo : 2 = y.1 := htarget
      omega
  · have hbelow : nfaStep
        ((Plan.alternation alternatives).assemble ((Plan.basic condition).assemble []).2).2
        input x y := by
      rcases hstep with ⟨transition, htransition, htarget, hacts⟩
      rw [outgoing_link_of_ne _ (by omega)] at htransition
      exact ⟨transition, htransition, htarget, hacts⟩
    exact assembleAlternatives_exit input alternatives ((Plan.basic condition).assemble []).2 hge
      hbelow haccept

end Grep

end CodingChallenges
