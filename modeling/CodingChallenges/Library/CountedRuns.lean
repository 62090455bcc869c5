import Mathlib.Logic.Relation

/-!
# Counted Runs

Chains of steps of an arbitrary relation, counted.

`Relation.ReflTransGen` forgets how long a chain is, and both uses made of
runs here need the length: a breadth-first search returns a run no longer run
can beat, and the pieces of an automaton are compared by what their runs cost.
The same notion read over a relation between positions is the `n`-fold
iteration of that relation.

## Main definitions

* `Runs`: A chain of exactly `n` steps.

## Theorems

* `Runs.trans`: Chains compose, and their lengths add.
* `Runs.tail`, `Runs.unsnoc`: A chain grows and is taken apart at its end.
* `Runs.split`: A chain is cut at any count.
* `Runs.preserves`: What every step preserves, a chain preserves.
* `Runs.map`: A step-by-step simulation carries chains over.
-/

namespace CodingChallenges

/-- A chain of exactly `n` steps from one element to another. -/
inductive Runs {α : Type*} (step : α → α → Prop) : Nat → α → α → Prop where
  | refl (a : α) : Runs step 0 a a
  | head {n : Nat} (a b c : α) (hstep : step a b) (hrest : Runs step n b c) :
      Runs step (n + 1) a c

namespace Runs

variable {α β : Type*} {step : α → α → Prop} {step' : β → β → Prop}

theorem single {a b : α} (h : step a b) : Runs step 1 a b :=
  Runs.head a b b h (Runs.refl b)

theorem trans {m n : Nat} {a b c : α} (h₁ : Runs step m a b) (h₂ : Runs step n b c) :
    Runs step (m + n) a c := by
  induction h₁ with
  | refl a => simpa only [Nat.zero_add] using h₂
  | @head k a b' _ hstep _ ih =>
      have hlen : k + 1 + n = (k + n) + 1 := by omega
      rw [hlen]
      exact Runs.head a b' c hstep (ih h₂)

theorem tail {n : Nat} {a b c : α} (h : Runs step n a b) (hstep : step b c) :
    Runs step (n + 1) a c :=
  h.trans (single hstep)

@[simp] theorem zero_iff {a b : α} : Runs step 0 a b ↔ a = b := by
  constructor
  · intro h
    cases h
    rfl
  · rintro rfl
    exact Runs.refl a

theorem succ_iff {n : Nat} {a c : α} :
    Runs step (n + 1) a c ↔ ∃ b, step a b ∧ Runs step n b c := by
  constructor
  · intro h
    cases h with
    | head _ b _ hstep hrest => exact ⟨b, hstep, hrest⟩
  · rintro ⟨b, hstep, hrest⟩
    exact Runs.head a b c hstep hrest

/-- A chain cut after its first `m` steps. -/
theorem split {m n : Nat} {a c : α} (h : Runs step (m + n) a c) :
    ∃ b, Runs step m a b ∧ Runs step n b c := by
  induction m generalizing a with
  | zero => exact ⟨a, Runs.refl a, by simpa only [Nat.zero_add] using h⟩
  | succ k ih =>
      have hlen : k + 1 + n = (k + n) + 1 := by omega
      rw [hlen, succ_iff] at h
      rcases h with ⟨a', hstep, hrest⟩
      rcases ih hrest with ⟨b, hfirst, hlast⟩
      exact ⟨b, Runs.head a a' b hstep hfirst, hlast⟩

/-- A chain of positive length, with its last step taken off. -/
theorem unsnoc {n : Nat} {a c : α} (h : Runs step (n + 1) a c) :
    ∃ b, Runs step n a b ∧ step b c := by
  rcases h.split with ⟨b, hfirst, hlast⟩
  rw [succ_iff] at hlast
  rcases hlast with ⟨c', hstep, hnil⟩
  rw [zero_iff] at hnil
  subst hnil
  exact ⟨b, hfirst, hstep⟩

/-- What every step preserves, a chain preserves. -/
theorem preserves {P : α → Prop} (hP : ∀ a b, P a → step a b → P b) {n : Nat} {a b : α}
    (h : Runs step n a b) (ha : P a) : P b := by
  induction h with
  | refl _ => exact ha
  | head a b _ hstep _ ih => exact ih (hP a b ha hstep)

/-- A map that carries each step out of an invariant set to a step carries
    whole chains over. -/
theorem map {P : α → Prop} {f : α → β} (hP : ∀ a b, P a → step a b → P b)
    (hf : ∀ a b, P a → step a b → step' (f a) (f b)) {n : Nat} {a b : α}
    (h : Runs step n a b) (ha : P a) : Runs step' n (f a) (f b) := by
  induction h with
  | refl a => exact Runs.refl (f a)
  | head a b _ hstep _ ih =>
      exact Runs.head (f a) (f b) _ (hf a b ha hstep) (ih (hP a b ha hstep))

/-- A stronger step relation has fewer chains. -/
theorem mono {step₂ : α → α → Prop} (hle : ∀ a b, step a b → step₂ a b) {n : Nat} {a b : α}
    (h : Runs step n a b) : Runs step₂ n a b :=
  h.map (P := fun _ => True) (f := id) (fun _ _ _ _ => trivial) (fun a b _ => hle a b) trivial

end Runs

end CodingChallenges
