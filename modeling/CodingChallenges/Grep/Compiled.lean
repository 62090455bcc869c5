import CodingChallenges.Grep.ParserSoundness
import CodingChallenges.Grep.Search

/-!
# The Automata of Parsed Patterns

What can be said of an automaton from the tree it was built from, whatever the
input.

The builder throws in one place only, at a range quantifier without its
numbers, which the parser never leaves out. So a parsed pattern is always built
(`parseRegex_builds`). What the automaton asks of the input are the conditions
of the leaves of the tree, epsilons, and the captures of groups, so a property
of all leaves is a property of all transitions (`buildRegex_conditions`).

## Main definitions

* `NodePredicate.ShapesQuantifiers`: Enough about quantifiers to be built.
* `compiled`: The matcher of an automaton that was built.

## Theorems

* `planRegex_succeeds`: Trees with well-shaped quantifiers are planned.
* `parseRegex_builds`: Parsed patterns are built.
* `buildRegex_conditions`: What all leaves satisfy, all transitions satisfy.
* `parseRegex_targetsExist`: All transitions lead to existing states.
-/

namespace CodingChallenges

namespace Grep

section Trees

variable {N : NodePredicate}

/-- The predicate asks of quantifiers at least that they are well shaped. -/
def NodePredicate.ShapesQuantifiers (N : NodePredicate) : Prop :=
  ∀ quantifier, N.onQuantifier quantifier → quantifier.WellShaped

/-- Nothing is claimed but that planning does not throw. -/
def NodePredicate.ShapesQuantifiers.invariant (hN : N.ShapesQuantifiers) : PlanInvariant N where
  counter _ := True
  plan _ := True
  mayThrow := False
  next _ := trivial
  epsilon := trivial
  startOfStringAnchor := trivial
  matchItem _ _ := trivial
  anchor _ _ := trivial
  backreference _ _ := trivial
  concat _ _ := trivial
  wrap _ _ _ := trivial
  capture _ _ := trivial
  alternation _ := trivial
  throws _ h := by
    rcases hN _ h rfl with ⟨numbers, hnumbers, -⟩
    cases hnumbers

/-- A tree whose quantifiers are well shaped is planned. -/
theorem planRegex_succeeds (hN : N.ShapesQuantifiers) (regex : Regex)
    (h : regex.expression.Forall N) (groupId : Nat) :
    ∃ result, (planRegex regex).run groupId = .ok result := by
  have hends := planRegex_keeps hN.invariant regex h groupId trivial
  cases hrun : (planRegex regex).run groupId with
  | ok result => exact ⟨result, rfl⟩
  | error e =>
      rw [hrun] at hends
      exact absurd hends id

/-- A tree whose quantifiers are well shaped is built. -/
theorem buildRegex_succeeds (hN : N.ShapesQuantifiers) (regex : Regex)
    (h : regex.expression.Forall N) :
    ∃ element nfa, (buildRegex regex).run {} = .ok (element, nfa) := by
  rcases planRegex_succeeds hN regex h 1 with ⟨result, hrun⟩
  exact ⟨_, _, by rw [buildRegex_eq, hrun, map_ok, assembled]⟩

end Trees

/-- Every pattern the parser accepts is built. -/
theorem parseRegex_builds {p rest : List Byte} {regex : Regex}
    (h : parseRegex p = .ok ⟨regex, rest⟩) :
    ∃ element nfa, (buildRegex regex).run {} = .ok (element, nfa) :=
  buildRegex_succeeds (N := ordered) (fun _ hq => hq) regex (parseRegex_ordered h).2

/-- The matcher of an automaton that was built. -/
def compiled (element : NfaElement) (nfa : Nfa) : Matcher :=
  { regexNfaElement := element, states := nfa.states }

section Conditions

variable {N : NodePredicate} {P : TransitionConditionType → Prop} {regex : Regex}
  {element : NfaElement} {nfa : Nfa}

/-- An automaton that was built is the one assembled from a plan. -/
theorem buildRegex_eq_ok (h : (buildRegex regex).run {} = .ok (element, nfa)) :
    ∃ result, (planRegex regex).run 1 = .ok result ∧
      element = (result.1.assemble []).1 ∧ nfa.states = (result.1.assemble []).2 := by
  rw [buildRegex_eq, map_eq_ok] at h
  rcases h with ⟨result, hrun, heq⟩
  simp only [assembled, Prod.mk.injEq] at heq
  rcases heq with ⟨rfl, rfl⟩
  exact ⟨result, hrun, rfl, rfl⟩

/-- What holds of the conditions of all leaves, of epsilons, and of captures
    holds of the conditions of all transitions, and these lead to states of the
    automaton. -/
theorem buildRegex_conditions (hbuild : (buildRegex regex).run {} = .ok (element, nfa))
    (hN : N.Implies (fun c => P c ∧ ¬ c.IsCapture))
    (hcapture : ∀ g, P (.groupCaptureStart g) ∧ P (.groupCaptureEnd g))
    (h : regex.expression.Forall N) :
    ∀ q, ∀ transition ∈ outgoing nfa.states q,
      transition.toState < nfa.states.length ∧ P transition.condition := by
  rcases buildRegex_eq_ok hbuild with ⟨result, hrun, -, hstates⟩
  have hplan := planRegex_forall hN regex h 1 result hrun
  rcases assembled_labelled ⟨hN.epsilon.1, hcapture⟩ hplan with ⟨label, hlabel, -⟩
  intro q transition hmem
  rw [hstates] at hmem ⊢
  exact ⟨(hlabel q transition hmem).1, (hlabel q transition hmem).2.1⟩

/-- The runs of the automaton from start to accept connect the positions the
    pattern means, if it has no backreferences. -/
theorem runs_compiled_iff (hbuild : (buildRegex regex).run {} = .ok (element, nfa))
    (hback : regex.expression.Forall noBackreference) (hshape : regex.expression.Forall wellShaped)
    {input : List Nat} {s e : Nat} (he : e ≤ input.length) :
    (∃ n captures, Runs (Transits nfa.states input) n ⟨s, element.start, none⟩
        ⟨e, element.accept, captures⟩) ↔ regex.Meaning input s e := by
  rcases buildRegex_eq_ok hbuild with ⟨result, hrun, helement, hstates⟩
  rcases planRegex_denotes regex hback hshape 1 with ⟨result', hrun', hconnects⟩
  rw [hrun, Except.ok.injEq] at hrun'
  subst hrun'
  have hleaf := planRegex_forall noBackreference_implies_isLeaf regex hback 1 result hrun
  rw [helement, hstates]
  exact (runs_assembled_iff hleaf he).trans (hconnects input s e)

theorem buildRegex_start_lt (hbuild : (buildRegex regex).run {} = .ok (element, nfa)) :
    element.start < nfa.states.length := by
  rcases buildRegex_eq_ok hbuild with ⟨result, -, helement, hstates⟩
  rw [helement, hstates]
  exact (assemble_bounds result.1 []).2.1

theorem targetsExist_of_outgoing {states : List State}
    (h : ∀ q, ∀ transition ∈ outgoing states q, transition.toState < states.length) :
    TargetsExist states := by
  intro state hstate transition hmem
  rcases List.getElem?_of_mem hstate with ⟨q, hq⟩
  exact h q transition (mem_outgoing_iff.mpr ⟨state, hq, hmem⟩)

/-- All transitions of the automaton of a parsed pattern lead to its states. -/
theorem parseRegex_targetsExist {p rest : List Byte} (hparse : parseRegex p = .ok ⟨regex, rest⟩)
    (hbuild : (buildRegex regex).run {} = .ok (element, nfa)) : TargetsExist nfa.states := by
  have hN : ordered.Implies (fun c => True ∧ ¬ c.IsCapture) :=
    ⟨⟨trivial, id⟩, ⟨trivial, id⟩,
      fun item _ => ⟨trivial, item.isLeaf_condition.1.not_isCapture⟩,
      fun _ _ => ⟨trivial, id⟩, fun _ _ => ⟨trivial, id⟩⟩
  have h := buildRegex_conditions hbuild hN (fun _ => ⟨trivial, trivial⟩)
    (parseRegex_ordered hparse).2
  exact targetsExist_of_outgoing fun q transition hmem => (h q transition hmem).1

end Conditions

end Grep

end CodingChallenges
