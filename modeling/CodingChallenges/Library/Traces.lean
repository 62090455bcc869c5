import Mathlib.Init

/-!
# Traces

Runs of a labelled transition system, as the list of their steps.

An invariant of a system that is only kept by the steps that meet some condition
says something about the runs all of whose steps do. To state the condition, a
run has to show its steps: a trace records each of them, together with the state
it is taken in.

## Main definitions

* `Trace`: A run and its steps.
* `traceOf`: The run of a system in which an event leads to one state only.
* `Since`: Something has happened in a run, and nothing has undone it since.

## Theorems

* `Trace.append`, `Trace.of_append`, `Trace.split`: Runs compose and come apart.
* `Trace.invariant`, `Trace.preserved`: What the steps of a run preserve.
* `Trace.invariant_iff`: An invariant that is lost by every other step.
* `Trace.broken`: What is lost by one step, and never comes back.
* `Trace.simulates`: The run of another system that a run amounts to.
* `Trace.holds_iff_since`: What some steps bring about and others undo.
-/

namespace CodingChallenges

/-- A run from one state to another. Its steps are listed with the states they are
    taken in. -/
inductive Trace {S : Type*} {E : Type*} (step : S → E → S → Prop) :
    S → List (S × E) → S → Prop where
  | nil (s : S) : Trace step s [] s
  | cons (s : S) (e : E) (s' : S) (t : List (S × E)) (u : S) (hstep : step s e s')
      (hrest : Trace step s' t u) : Trace step s ((s, e) :: t) u

/-- The steps of a run, and the state at its end. -/
def traceOf {S : Type*} {E : Type*} (next : S → E → S) (s : S) : List E → List (S × E) × S
  | [] => ([], s)
  | e :: events =>
    let rest := traceOf next (next s e) events
    ((s, e) :: rest.1, rest.2)

theorem trace_traceOf {S : Type*} {E : Type*} {step : S → E → S → Prop} {next : S → E → S} {s : S}
    {events : List E} (h : ∀ x ∈ (traceOf next s events).1, step x.1 x.2 (next x.1 x.2)) :
    Trace step s (traceOf next s events).1 (traceOf next s events).2 := by
  induction events generalizing s with
  | nil => exact Trace.nil s
  | cons e events ih =>
      rw [traceOf, List.forall_mem_cons] at h
      exact Trace.cons s e _ _ _ h.1 (ih h.2)

/-- A step of the run brings something about, and no step behind it undoes it. -/
def Since {S : Type*} {E : Type*} (Sets Undoes : S → E → Prop) (t : List (S × E)) : Prop :=
  ∃ t₁ x t₂, t = t₁ ++ x :: t₂ ∧ Sets x.1 x.2 ∧ ∀ y ∈ t₂, ¬ Undoes y.1 y.2

theorem not_since_nil {S : Type*} {E : Type*} (Sets Undoes : S → E → Prop) :
    ¬ Since Sets Undoes [] := by
  rintro ⟨t₁, x, t₂, hsplit, -, -⟩
  exact List.append_ne_nil_of_right_ne_nil t₁ (List.cons_ne_nil x t₂) hsplit.symm

theorem since_cons {S : Type*} {E : Type*} {Sets Undoes : S → E → Prop} {x : S × E}
    {t : List (S × E)} :
    Since Sets Undoes (x :: t) ↔
      (Sets x.1 x.2 ∧ ∀ y ∈ t, ¬ Undoes y.1 y.2) ∨ Since Sets Undoes t := by
  constructor
  · rintro ⟨t₁, x', t₂, hsplit, hsets, hundoes⟩
    cases t₁ with
    | nil =>
        rw [List.nil_append, List.cons.injEq] at hsplit
        rcases hsplit with ⟨rfl, rfl⟩
        exact Or.inl ⟨hsets, hundoes⟩
    | cons x₁ t₁ =>
        rw [List.cons_append, List.cons.injEq] at hsplit
        exact Or.inr ⟨t₁, x', t₂, hsplit.2, hsets, hundoes⟩
  · rintro (⟨hsets, hundoes⟩ | ⟨t₁, x', t₂, rfl, hsets, hundoes⟩)
    · exact ⟨[], x, t, rfl, hsets, hundoes⟩
    · exact ⟨x :: t₁, x', t₂, rfl, hsets, hundoes⟩

namespace Trace

variable {S E : Type*} {step : S → E → S → Prop}

theorem single {s s' : S} {e : E} (h : step s e s') : Trace step s [(s, e)] s' :=
  Trace.cons s e s' [] s' h (Trace.nil s')

theorem append {s u v : S} {t t' : List (S × E)} (h : Trace step s t u)
    (h' : Trace step u t' v) : Trace step s (t ++ t') v := by
  induction h with
  | nil s => exact h'
  | cons s e s' t u hstep _ ih => exact Trace.cons s e s' (t ++ t') v hstep (ih h')

theorem of_append {s u : S} {t t' : List (S × E)} (h : Trace step s (t ++ t') u) :
    ∃ v, Trace step s t v ∧ Trace step v t' u := by
  induction t generalizing s with
  | nil => exact ⟨s, Trace.nil s, h⟩
  | cons x t ih =>
      cases h with
      | cons _ e s' _ _ hstep hrest =>
          rcases ih hrest with ⟨v, hfirst, hlast⟩
          exact ⟨v, Trace.cons s e s' t v hstep hfirst, hlast⟩

/-- A run, taken apart at one of its steps. -/
theorem split {s u : S} {t : List (S × E)} (h : Trace step s t u) {x : S × E} (hx : x ∈ t) :
    ∃ t₁ t₂ s', t = t₁ ++ x :: t₂ ∧ Trace step s t₁ x.1 ∧ step x.1 x.2 s' ∧
      Trace step s' t₂ u := by
  induction h with
  | nil s => exact absurd hx List.not_mem_nil
  | cons s e s' t u hstep hrest ih =>
      rcases List.mem_cons.mp hx with rfl | hx
      · exact ⟨[], t, s', rfl, Trace.nil s, hstep, hrest⟩
      · rcases ih hx with ⟨t₁, t₂, s'', rfl, hfirst, hthen, hlast⟩
        exact ⟨(s, e) :: t₁, t₂, s'', rfl, Trace.cons s e s' t₁ x.1 hstep hfirst, hthen, hlast⟩

/-- What every step that meets a condition preserves holds all along a run whose
    steps meet it. -/
theorem invariant {Inv : S → Prop} {Meets : S → E → Prop}
    (hkeeps : ∀ s e s', Inv s → Meets s e → step s e s' → Inv s')
    {s u : S} {t : List (S × E)} (h : Trace step s t u) (hs : Inv s)
    (hmeets : ∀ x ∈ t, Meets x.1 x.2) : (∀ x ∈ t, Inv x.1) ∧ Inv u := by
  induction h with
  | nil s => exact ⟨fun x hx => absurd hx List.not_mem_nil, hs⟩
  | cons s e s' t u hstep _ ih =>
      rw [List.forall_mem_cons] at hmeets
      have hs' : Inv s' := hkeeps s e s' hs hmeets.1 hstep
      rcases ih hs' hmeets.2 with ⟨hall, hu⟩
      exact ⟨List.forall_mem_cons.mpr ⟨hs, hall⟩, hu⟩

/-- What every step preserves holds all along a run. -/
theorem preserved {Inv : S → Prop} (hkeeps : ∀ s e s', Inv s → step s e s' → Inv s')
    {s u : S} {t : List (S × E)} (h : Trace step s t u) (hs : Inv s) :
    (∀ x ∈ t, Inv x.1) ∧ Inv u :=
  h.invariant (fun s e s' hinv (_ : True) hstep => hkeeps s e s' hinv hstep) hs
    fun _ _ => trivial

/-- If every step keeps the invariant exactly if it meets the condition, then the
    invariant holds all along a run exactly if all steps of the run meet it. -/
theorem invariant_iff {Inv : S → Prop} {Meets : S → E → Prop}
    (hkeeps : ∀ s e s', Inv s → step s e s' → (Inv s' ↔ Meets s e))
    {s u : S} {t : List (S × E)} (h : Trace step s t u) (hs : Inv s) :
    ((∀ x ∈ t, Inv x.1) ∧ Inv u) ↔ ∀ x ∈ t, Meets x.1 x.2 := by
  constructor
  · intro hall
    induction h with
    | nil s => exact fun x hx => absurd hx List.not_mem_nil
    | cons s e s' t u hstep hrest ih =>
        rcases hall with ⟨hall, hu⟩
        rw [List.forall_mem_cons] at hall
        -- The state behind the step is the first state of the rest.
        have hs' : Inv s' := by
          cases hrest with
          | nil => exact hu
          | cons => exact (List.forall_mem_cons.mp hall.2).1
        exact List.forall_mem_cons.mpr ⟨(hkeeps s e s' hs hstep).mp hs', ih hs' ⟨hall.2, hu⟩⟩
  · intro hmeets
    exact h.invariant (fun s e s' hinv hm hstep => (hkeeps s e s' hinv hstep).mpr hm) hs hmeets

/-- If a step that fails the condition breaks something that no step mends, then it
    is broken at the end of every run with such a step. -/
theorem broken {Inv Broken : S → Prop} {Meets : S → E → Prop}
    (hkeeps : ∀ s e s', Inv s → step s e s' → Inv s')
    (hbreaks : ∀ s e s', Inv s → ¬ Meets s e → step s e s' → Broken s')
    (hstays : ∀ s e s', Inv s → Broken s → step s e s' → Broken s')
    {s u : S} {t : List (S × E)} (h : Trace step s t u) (hs : Inv s)
    (hfails : Broken s ∨ ∃ x ∈ t, ¬ Meets x.1 x.2) : Broken u := by
  induction h with
  | nil s =>
      rcases hfails with hbroken | ⟨x, hx, _⟩
      · exact hbroken
      · exact absurd hx List.not_mem_nil
  | cons s e s' t u hstep _ ih =>
      refine ih (hkeeps s e s' hs hstep) ?_
      rcases hfails with hbroken | ⟨x, hx, hx'⟩
      · exact Or.inl (hstays s e s' hs hbroken hstep)
      · rcases List.mem_cons.mp hx with rfl | hx
        · exact Or.inl (hbreaks s e s' hs hx' hstep)
        · exact Or.inr ⟨x, hx, hx'⟩

/-- A run of one system is a run of another if every step of the one is either none
    or one of the other. A condition on steps that is read the same way on both sides
    holds of the one run exactly if it does of the other. -/
theorem simulates {A F : Type*} {step' : A → F → A → Prop} {R : S → A → Prop}
    {Meets : S → E → Prop} {Meets' : A → F → Prop}
    (hsim : ∀ s e s' a, R s a → step s e s' →
      (R s' a ∧ Meets s e) ∨ ∃ f a', step' a f a' ∧ R s' a' ∧ (Meets s e ↔ Meets' a f))
    {s u : S} {t : List (S × E)} (h : Trace step s t u) {a : A} (hs : R s a) :
    ∃ t' b, Trace step' a t' b ∧ R u b ∧
      ((∀ x ∈ t, Meets x.1 x.2) ↔ ∀ x ∈ t', Meets' x.1 x.2) := by
  induction h generalizing a with
  | nil s =>
      refine ⟨[], a, Trace.nil a, hs, iff_of_true ?_ ?_⟩
      · exact fun x hx => absurd hx List.not_mem_nil
      · exact fun x hx => absurd hx List.not_mem_nil
  | cons s e s' t u hstep _ ih =>
      rcases hsim s e s' a hs hstep with ⟨hs', hmeets⟩ | ⟨f, a', hstep', hs', hmeets⟩
      · -- The other system does not move.
        rcases ih hs' with ⟨t', b, ht', hu, hall⟩
        refine ⟨t', b, ht', hu, ?_⟩
        rw [List.forall_mem_cons, hall]
        exact and_iff_right hmeets
      · rcases ih hs' with ⟨t', b, ht', hu, hall⟩
        refine ⟨(a, f) :: t', b, Trace.cons a f a' t' b hstep' ht', hu, ?_⟩
        rw [List.forall_mem_cons, List.forall_mem_cons, hall, hmeets]

/-- What holds exactly behind the steps that bring it about, and until a step that undoes it,
    holds at the end of a run if it was brought about and not undone since, or if it held
    from the beginning on. The steps need only be told apart in states that are alive. -/
theorem holds_iff_since {Holds Alive : S → Prop} {Sets Undoes : S → E → Prop}
    (hkeeps : ∀ s e s', Alive s → Alive s' → step s e s' →
      (Holds s' ↔ Sets s e ∨ (Holds s ∧ ¬ Undoes s e)))
    {s u : S} {t : List (S × E)} (h : Trace step s t u) (halive : ∀ x ∈ t, Alive x.1)
    (hu : Alive u) :
    Holds u ↔ Since Sets Undoes t ∨ (Holds s ∧ ∀ x ∈ t, ¬ Undoes x.1 x.2) := by
  induction h with
  | nil s =>
      rw [or_iff_right (not_since_nil _ _)]
      exact (and_iff_left fun x hx => absurd hx List.not_mem_nil).symm
  | cons s e s' t u hstep hrest ih =>
      rw [List.forall_mem_cons] at halive
      have hs' : Alive s' := by
        cases hrest with
        | nil => exact hu
        | cons => exact (List.forall_mem_cons.mp halive.2).1
      rw [ih halive.2 hu, hkeeps s e s' halive.1 hs' hstep, since_cons, List.forall_mem_cons,
        or_and_right, and_assoc, ← or_assoc, or_comm (a := Since Sets Undoes t)]

end Trace

end CodingChallenges
