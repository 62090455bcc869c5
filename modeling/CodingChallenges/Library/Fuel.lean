import CodingChallenges.Library.Outcomes

/-!
# Programs With Fuel

Loops and recursions that are given fuel, and what it means that they return.

A program gets a number of rounds and fails when it runs out of them. It returns a value if
it does so with every number from some bound on. This is total correctness: a program
that does not end fails with every number, and one that fails for another reason does
so too. The bound is never named, so programs are put together without counting
rounds.

A loop over the numbers of a range needs no fuel. What holds before it and is kept by every
round holds behind it.

## Main definitions

* `Returns`: The program ends with the value.
* `forRange`: The loop over a range.

## Theorems

* `Returns.unique`: A program returns one value.
* `returns_ok`, `Returns.bind`, `Returns.andThen`, `Returns.succ`: How programs are put together.
* `forRange_ends`, `forRange_invariant`: The rules of the loop, when its rounds may fail and when
  they do not.
-/

namespace CodingChallenges

variable {ε α β σ : Type}

/-- With enough fuel the program ends with the value. -/
def Returns (p : Nat → Except ε α) (a : α) : Prop :=
  ∃ n, ∀ m, n ≤ m → p m = .ok a

theorem returns_ok (a : α) : Returns (fun _ => (.ok a : Except ε α)) a :=
  ⟨0, fun _ _ => rfl⟩

theorem Returns.unique {p : Nat → Except ε α} {a b : α} (ha : Returns p a)
    (hb : Returns p b) : a = b := by
  rcases ha with ⟨n, hn⟩
  rcases hb with ⟨n', hn'⟩
  have h := (hn (max n n') (Nat.le_max_left n n')).symm.trans
    (hn' (max n n') (Nat.le_max_right n n'))
  exact Except.ok.inj h

/-- One program after the other. -/
theorem Returns.bind {p : Nat → Except ε α} {f : α → Nat → Except ε β} {a : α} {b : β}
    (ha : Returns p a) (hb : Returns (f a) b) :
    Returns (fun m => p m >>= fun x => f x m) b := by
  rcases ha with ⟨n, hn⟩
  rcases hb with ⟨n', hn'⟩
  refine ⟨max n n', fun m hm => ?_⟩
  simp only [hn m (by omega), ok_bind, hn' m (by omega)]

/-- A program and a step that needs no fuel. -/
theorem Returns.andThen {p : Nat → Except ε α} {f : α → Except ε β} {a : α} {b : β}
    (ha : Returns p a) (hb : f a = .ok b) :
    Returns (fun m => p m >>= f) b :=
  Returns.bind ha ⟨0, fun _ _ => hb⟩

/-- A round of a loop takes one unit of the fuel. -/
theorem Returns.succ {p : Nat → Except ε α} {a : α}
    (h : Returns (fun m => p (m + 1)) a) : Returns p a := by
  rcases h with ⟨n, hn⟩
  refine ⟨n + 1, fun m hm => ?_⟩
  cases m with
  | zero => exact absurd hm (Nat.not_succ_le_zero n)
  | succ m => exact hn m (Nat.le_of_succ_le_succ hm)

theorem Returns.congr {p q : Nat → Except ε α} {a : α} (h : Returns p a)
    (heq : ∀ m, q m = p m) : Returns q a := by
  rcases h with ⟨n, hn⟩
  exact ⟨n, fun m hm => (heq m).trans (hn m hm)⟩

/-- The loop over the numbers from `index` on, for a number of rounds. -/
def forRange (body : Int → σ → Except ε σ) (index : Int) : Nat → σ → Except ε σ
  | 0, s => .ok s
  | n + 1, s => body index s >>= fun s' => forRange body (index + 1) n s'

/-- What holds before the loop and is kept by every round that does not fail holds behind it. -/
theorem forRange_ends (body : Int → σ → Except ε σ) (E : ε → Prop) (inv : Nat → σ → Prop)
    (index n : Nat) {s : σ} (hstart : inv index s)
    (hstep : ∀ i s, index ≤ i → i < index + n → inv i s → Ends E (inv (i + 1)) (body i s)) :
    Ends E (inv (index + n)) (forRange body index n s) := by
  induction n generalizing index s with
  | zero => exact hstart
  | succ n ih =>
      refine Ends.bind (hstep index s (Nat.le_refl _) (by omega) hstart) fun s' hs' => ?_
      have hrest := ih (index + 1) hs' fun i s hle hlt => hstep i s (by omega) (by omega)
      rwa [Nat.add_assoc, Nat.add_comm 1] at hrest

/-- What holds before the loop and is kept by every round holds behind it. -/
theorem forRange_invariant (body : Int → σ → Except ε σ) (inv : Nat → σ → Prop)
    (index n : Nat) {s : σ} (hstart : inv index s)
    (hstep : ∀ i s, index ≤ i → i < index + n → inv i s →
      ∃ s', body i s = .ok s' ∧ inv (i + 1) s') :
    ∃ s', forRange body index n s = .ok s' ∧ inv (index + n) s' := by
  have hends := forRange_ends body (fun _ => False) inv index n hstart (by
    intro i s hle hlt hinv
    rcases hstep i s hle hlt hinv with ⟨s', hbody, hinv'⟩
    rw [hbody]
    exact hinv')
  cases hloop : forRange body index n s with
  | error e =>
      rw [hloop] at hends
      exact hends.elim
  | ok s' =>
      rw [hloop] at hends
      exact ⟨s', rfl, hends⟩

end CodingChallenges
