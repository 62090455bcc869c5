import Mathlib.Init

/-!
# Reasoning About Fallible Computations

How a chain of computations in `Except` is taken apart.

The rewriting rules evaluate a chain whose first link is known. The inversion
lemmas go the other way: from a chain that succeeded they recover what each
link returned, so that proofs about long monadic definitions peel one
computation off at a time instead of unfolding the monad.

What is known of a link that may do either is what holds of its value if it succeeds, and of its
error if it fails.

## Main definitions

* `Ends`: What holds of the error or of the value.

## Theorems

* `ok_bind`, `error_bind`, `map_ok`, `map_error`: Evaluating a chain.
* `bind_eq_ok`, `map_eq_ok`, `mapError_eq_ok`: Inverting a successful chain.
* `bind_eq_error`: Inverting a chain that failed.
* `Ends.bind`, `Ends.imp`: What a chain may end with, from what its links may.
-/

namespace CodingChallenges

variable {ε α β : Type}

@[simp] theorem ok_bind (a : α) (f : α → Except ε β) : (Except.ok a >>= f) = f a := rfl

@[simp] theorem error_bind (e : ε) (f : α → Except ε β) :
    (Except.error e >>= f) = Except.error e := rfl

@[simp] theorem pure_eq_ok (a : α) : (pure a : Except ε α) = Except.ok a := rfl

@[simp] theorem throw_eq_error (e : ε) : (throw e : Except ε α) = Except.error e := rfl

@[simp] theorem map_ok (f : α → β) (a : α) : (Except.ok a : Except ε α).map f = .ok (f a) := rfl

@[simp] theorem map_error (f : α → β) (e : ε) :
    (Except.error e : Except ε α).map f = .error e := rfl

/-- A chain that succeeded: what its first link returned, and that the rest
    succeeded on it. -/
theorem bind_eq_ok {x : Except ε α} {f : α → Except ε β} {b : β} :
    (x >>= f) = .ok b ↔ ∃ a, x = .ok a ∧ f a = .ok b := by
  cases x with
  | error e => simp only [error_bind, reduceCtorEq, false_and, exists_false]
  | ok a => simp only [ok_bind, Except.ok.injEq, exists_eq_left']

/-- A chain that failed: at its first link, or behind it. -/
theorem bind_eq_error {x : Except ε α} {f : α → Except ε β} {e : ε} :
    (x >>= f) = .error e ↔ x = .error e ∨ ∃ a, x = .ok a ∧ f a = .error e := by
  cases x with
  | error e' =>
      simp only [error_bind, Except.error.injEq, reduceCtorEq, false_and, exists_false, or_false]
  | ok a => simp only [ok_bind, Except.ok.injEq, exists_eq_left', reduceCtorEq, false_or]

theorem map_eq_ok {x : Except ε α} {f : α → β} {b : β} :
    x.map f = .ok b ↔ ∃ a, x = .ok a ∧ f a = b := by
  cases x with
  | error e => simp only [map_error, reduceCtorEq, false_and, exists_false]
  | ok a => simp only [map_ok, Except.ok.injEq, exists_eq_left']

/-- Renaming the error does not touch a value. -/
theorem mapError_eq_ok {ε' : Type} {x : Except ε α} {f : ε → ε'} {a : α} :
    x.mapError f = .ok a ↔ x = .ok a := by
  cases x with
  | error e => exact iff_of_false nofun nofun
  | ok b =>
      constructor
      · intro h
        exact congrArg Except.ok (Except.ok.inj h)
      · intro h
        exact congrArg Except.ok (Except.ok.inj h)

/-- The computation fails with an error of the one kind, or returns a value of the other. -/
def Ends (E : ε → Prop) (P : α → Prop) : Except ε α → Prop
  | .ok a => P a
  | .error e => E e

theorem Ends.imp {E E' : ε → Prop} {P P' : α → Prop} {x : Except ε α} (h : Ends E P x)
    (hE : ∀ e, E e → E' e) (hP : ∀ a, P a → P' a) : Ends E' P' x := by
  cases x with
  | error e => exact hE e h
  | ok a => exact hP a h

theorem Ends.bind {E : ε → Prop} {P : α → Prop} {Q : β → Prop} {x : Except ε α}
    {f : α → Except ε β} (hx : Ends E P x) (hf : ∀ a, P a → Ends E Q (f a)) :
    Ends E Q (x >>= f) := by
  cases x with
  | error e => exact hx
  | ok a => exact hf a hx

end CodingChallenges
