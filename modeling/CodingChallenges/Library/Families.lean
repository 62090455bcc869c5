import CodingChallenges.Library.Traces
import Mathlib.Tactic.SplitIfs

/-!
# Families of Machines

Machines that run side by side and know nothing of each other.

A step of the family is a step of one of its members, and new members may join, all in the same
first state. What becomes of a member then depends on its own events alone, in whatever order
the events of the others come between them.

## Main definitions

* `FamilyStep`: A step of one of the members.
* `eventsOf`: The events of a member.

## Theorems

* `Trace.member`: What a run of the family is to one of its members.
-/

namespace CodingChallenges

variable {S E : Type*}

/-- One of the members takes a step, and others may join. -/
def FamilyStep (start : S) (step : S → E → S → Prop) (family : List S) (event : Nat × E)
    (family' : List S) : Prop :=
  ∃ s s' born, family[event.1]? = some s ∧ step s event.2 s' ∧
    family' = family.set event.1 s' ++ List.replicate born start

/-- A member that has not joined yet is in the first state. -/
def memberOf (start : S) (family : List S) (i : Nat) : S :=
  (family[i]?).getD start

/-- The events of a member. -/
def eventsOf (i : Nat) (events : List (Nat × E)) : List E :=
  (events.filter fun event => event.1 = i).map Prod.snd

theorem memberOf_replicate (start : S) (family : List S) (born i : Nat) :
    memberOf start (family ++ List.replicate born start) i = memberOf start family i := by
  unfold memberOf
  rw [List.getElem?_append]
  split_ifs with hlt
  · rfl
  · rw [List.getElem?_eq_none (Nat.le_of_not_lt hlt), List.getElem?_replicate]
    split_ifs <;> rfl

theorem memberOf_set_self (start : S) {family : List S} {i : Nat} {s s' : S}
    (h : family[i]? = some s) : memberOf start (family.set i s') i = s' := by
  rcases List.getElem?_eq_some_iff.mp h with ⟨hlt, -⟩
  simp only [memberOf, List.length_set, hlt, getElem?_pos, List.getElem_set_self, Option.getD_some]

theorem memberOf_set_ne (start : S) (family : List S) {i j : Nat} (s' : S) (hne : i ≠ j) :
    memberOf start (family.set i s') j = memberOf start family j := by
  simp only [memberOf, ne_eq, hne, not_false_eq_true, List.getElem?_set_ne]

/-- What becomes of a member is a run of its own, with its events only. -/
theorem Trace.member {start : S} {step : S → E → S → Prop} {family family' : List S}
    {t : List (List S × (Nat × E))} (h : Trace (FamilyStep start step) family t family') (i : Nat) :
    ∃ t', Trace step (memberOf start family i) t' (memberOf start family' i) ∧
      t'.map Prod.snd = eventsOf i (t.map Prod.snd) := by
  induction h with
  | nil family => exact ⟨[], Trace.nil _, rfl⟩
  | cons family event next t family' hstep _ ih =>
      rcases hstep with ⟨s, s', born, hs, hown, rfl⟩
      rcases ih with ⟨t', ht', hevents⟩
      rw [memberOf_replicate] at ht'
      by_cases hi : event.1 = i
      · -- The member itself takes the step.
        subst hi
        have hmember : memberOf start family event.1 = s := by
          rw [memberOf, hs]
          rfl
        rw [memberOf_set_self start hs] at ht'
        refine ⟨(s, event.2) :: t', ?_, ?_⟩
        · rw [hmember]
          exact Trace.cons s event.2 s' t' _ hown ht'
        · simp only [List.map_cons, hevents, eventsOf, decide_true, List.filter_cons_of_pos]
      · -- The step of another member leaves it as it is.
        rw [memberOf_set_ne start family s' hi] at ht'
        refine ⟨t', ht', ?_⟩
        rw [hevents]
        simp only [eventsOf, List.map_cons, hi, decide_false, Bool.false_eq_true, not_false_eq_true,
          List.filter_cons_of_neg]

end CodingChallenges
