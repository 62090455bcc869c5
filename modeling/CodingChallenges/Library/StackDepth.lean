import Mathlib.Data.List.Infix

/-!
# The Depth of a Stack

When a stack runs out under a sequence of pushes and pops.

An element of the sequence pushes, pops, or does neither. A stack of some height runs out within
the sequence if some beginning of it has more pops than there are elements on the stack and
pushes in it.

## Main definitions

* `RunsOut`: The stack runs out within the sequence.

## Theorems

* `runsOut_push`, `runsOut_pop`, `runsOut_neither`: One element at the front.
-/

namespace CodingChallenges

variable {α : Type} (pushes pops : α → Bool)

/-- A stack runs out within a sequence. -/
def RunsOut (height : Nat) (text : List α) : Prop :=
  ∃ front, front <+: text ∧ height + front.countP pushes < front.countP pops

variable {pushes pops}

theorem not_runsOut_nil (height : Nat) : ¬ RunsOut pushes pops height [] := by
  rintro ⟨front, hfront, hlt⟩
  rw [List.prefix_nil.mp hfront] at hlt
  exact absurd hlt (Nat.not_lt_zero _)

/-- A beginning of the sequence is empty, or begins with its first element. -/
theorem runsOut_cons_iff {height : Nat} {x : α} {text : List α} :
    RunsOut pushes pops height (x :: text) ↔
      ∃ front, front <+: text ∧
        height + (x :: front).countP pushes < (x :: front).countP pops := by
  constructor
  · rintro ⟨front, hfront, hlt⟩
    cases front with
    | nil => exact absurd hlt (Nat.not_lt_zero _)
    | cons y front =>
        rcases List.cons_prefix_cons.mp hfront with ⟨rfl, hrest⟩
        exact ⟨front, hrest, hlt⟩
  · rintro ⟨front, hfront, hlt⟩
    exact ⟨x :: front, List.cons_prefix_cons.mpr ⟨rfl, hfront⟩, hlt⟩

section Cons

variable {height : Nat} {x : α} (text : List α)

theorem runsOut_push (hpush : pushes x = true) (hpop : ¬ pops x = true) :
    RunsOut pushes pops height (x :: text) ↔ RunsOut pushes pops (height + 1) text := by
  rw [runsOut_cons_iff]
  simp only [List.countP_cons_of_pos hpush, List.countP_cons_of_neg hpop, RunsOut, Nat.add_assoc,
    Nat.add_comm 1]

theorem runsOut_neither (hpush : ¬ pushes x = true) (hpop : ¬ pops x = true) :
    RunsOut pushes pops height (x :: text) ↔ RunsOut pushes pops height text := by
  rw [runsOut_cons_iff]
  simp only [List.countP_cons_of_neg hpush, List.countP_cons_of_neg hpop, RunsOut]

theorem runsOut_pop (hpush : ¬ pushes x = true) (hpop : pops x = true) :
    RunsOut pushes pops height (x :: text) ↔
      height = 0 ∨ RunsOut pushes pops (height - 1) text := by
  rw [runsOut_cons_iff]
  simp only [List.countP_cons_of_neg hpush, List.countP_cons_of_pos hpop, RunsOut]
  constructor
  · rintro ⟨front, hfront, hlt⟩
    by_cases hzero : height = 0
    · exact Or.inl hzero
    · exact Or.inr ⟨front, hfront, by omega⟩
  -- On an empty stack the pop itself is the beginning that runs it out.
  · rintro (hzero | ⟨front, hfront, hlt⟩)
    · refine ⟨[], List.nil_prefix, ?_⟩
      rw [hzero, List.countP_nil, List.countP_nil]
      exact Nat.zero_lt_one
    · exact ⟨front, hfront, by omega⟩

end Cons

end CodingChallenges
