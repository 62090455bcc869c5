import CodingChallenges.Library.Traces
import Mathlib.Data.List.Forall2

/-!
# Critical Sections

Programs that share a state under a lock, section by section.

A program of one party is a tree: it is done, or it runs a section and goes on
according to what the section returned. Sections are atomic, and everything else
a party does concerns nobody. So the runs of several parties are the
interleavings of their sections.

What a section does is up to the parameter `perform`. It sees the shared state
and the moment it runs at: the clock, say, or whatever else is not decided by the
program.

## Main definitions

* `Sections`: Programs.
* `Sections.run`: Running a program alone.
* `Pool`, `Turn`: Several programs and a shared state, and one section of one of
  them.
* `Pool.schedule`: Running sections in a given order.
* `Sections.Next`: What a program is about to do.
* `Sections.Uses`: What all sections of a program are like.
* `Sections.Returns`: What a program ends with, whatever its sections return.

## Theorems

* `Sections.run_bind`: Running one program after another.
* `Sections.Uses.run`: What the sections of a program preserve, running it preserves.
* `Pool.trace_schedule`: Every order is that of a run.
-/

namespace CodingChallenges

/-- A program of one party: each section it runs is named, and what follows depends
    on what the section returns. -/
inductive Sections {ℓ : Type} (ρ : ℓ → Type) (α : Type) where
  | done (result : α)
  | locked (op : ℓ) (next : ρ op → Sections ρ α)

namespace Sections

variable {ℓ ε σ : Type} {ρ : ℓ → Type} {α β : Type}

/-- One program behind the other. -/
protected def bind : Sections ρ α → (α → Sections ρ β) → Sections ρ β
  | .done result, f => f result
  | .locked op next, f => .locked op fun r => (next r).bind f

instance : Monad (Sections ρ) where
  pure := .done
  bind := Sections.bind

@[simp] theorem done_bind (a : α) (f : α → Sections ρ β) : Sections.done a >>= f = f a :=
  rfl

theorem bind_assoc {γ : Type} (p : Sections ρ α) (f : α → Sections ρ β) (g : β → Sections ρ γ) :
    p >>= f >>= g = p >>= fun a => f a >>= g := by
  induction p with
  | done result => rfl
  | locked op next ih => exact congrArg (Sections.locked op) (funext ih)

/-- One section, and what it returns. -/
def perform (op : ℓ) : Sections ρ (ρ op) :=
  .locked op .done

@[simp] theorem perform_bind (op : ℓ) (f : ρ op → Sections ρ α) :
    perform op >>= f = .locked op f :=
  rfl

/-- Running a program alone, at one moment. -/
def run (perform : (op : ℓ) → ε → σ → ρ op × σ) (e : ε) : Sections ρ α → σ → α × σ
  | .done result, s => (result, s)
  | .locked op next, s => (next (perform op e s).1).run perform e (perform op e s).2

variable {perform : (op : ℓ) → ε → σ → ρ op × σ}

@[simp] theorem run_done (e : ε) (a : α) (s : σ) :
    (Sections.done a : Sections ρ α).run perform e s = (a, s) :=
  rfl

@[simp] theorem run_locked (e : ε) (op : ℓ) (next : ρ op → Sections ρ α) (s : σ) :
    (Sections.locked op next).run perform e s =
      (next (perform op e s).1).run perform e (perform op e s).2 :=
  rfl

theorem run_bind (e : ε) (p : Sections ρ α) (f : α → Sections ρ β) (s : σ) :
    (p >>= f).run perform e s =
      (f (p.run perform e s).1).run perform e (p.run perform e s).2 := by
  induction p generalizing s with
  | done result => rfl
  | locked op next ih => exact ih (perform op e s).1 (perform op e s).2

/-- The program is about to run a section of the kind `target`, or will after some
    of the kind `through`. -/
def Next (through target : ℓ → Prop) : Sections ρ α → Prop
  | .done _ => False
  | .locked op next => target op ∨ (through op ∧ ∃ r, (next r).Next through target)

/-- All sections of the program are of a kind. -/
def Uses (P : ℓ → Prop) : Sections ρ α → Prop
  | .done _ => True
  | .locked op next => P op ∧ ∀ r, (next r).Uses P

theorem Uses.bind {P : ℓ → Prop} {p : Sections ρ α} {f : α → Sections ρ β} (h : p.Uses P)
    (hf : ∀ a, (f a).Uses P) : (p >>= f).Uses P := by
  induction p with
  | done result => exact hf result
  | locked op next ih => exact ⟨h.1, fun r => ih r (h.2 r)⟩

/-- What the sections of a kind preserve is preserved by running a program of them. -/
theorem Uses.run {P : ℓ → Prop} {Inv : σ → Prop}
    (hkeeps : ∀ op e s, P op → Inv s → Inv (perform op e s).2) {p : Sections ρ α}
    (h : p.Uses P) (e : ε) {s : σ} (hs : Inv s) : Inv (p.run perform e s).2 := by
  induction p generalizing s with
  | done result => exact hs
  | locked op next ih => exact ih _ (h.2 _) (hkeeps op e s h.1 hs)

/-- Whatever its sections return, the program ends with a result of a kind. -/
def Returns (Q : α → Prop) : Sections ρ α → Prop
  | .done result => Q result
  | .locked _ next => ∀ r, (next r).Returns Q

theorem Returns.bind {Q : β → Prop} (p : Sections ρ α) {f : α → Sections ρ β}
    (hf : ∀ a, (f a).Returns Q) : (p >>= f).Returns Q := by
  induction p with
  | done result => exact hf result
  | locked op next ih => exact fun r => ih r

/-- So does running it. -/
theorem Returns.run {Q : α → Prop} {p : Sections ρ α} (h : p.Returns Q) (e : ε) (s : σ) :
    Q (p.run perform e s).1 := by
  induction p generalizing s with
  | done result => exact h
  | locked op next ih => exact ih _ (h _) _

end Sections

/-- A shared state and what is left to do for each party. -/
structure Pool {ℓ : Type} (ρ : ℓ → Type) (σ α : Type) where
  shared : σ
  tasks : List (Sections ρ α)

/-- One party runs one section. -/
inductive Turn {ℓ ε σ : Type} {ρ : ℓ → Type} {α : Type} (perform : (op : ℓ) → ε → σ → ρ op × σ) :
    Pool ρ σ α → ℓ × ε → Pool ρ σ α → Prop where
  | take (s : σ) (before after : List (Sections ρ α)) (op : ℓ) (next : ρ op → Sections ρ α)
      (e : ε) :
      Turn perform ⟨s, before ++ .locked op next :: after⟩ (op, e)
        ⟨(perform op e s).2, before ++ next (perform op e s).1 :: after⟩

/-- A turn leaves the others as they are. -/
theorem getElem?_middle_ne {β : Type} (before after : List β) (x y : β) {i : Nat}
    (hne : i ≠ before.length) :
    (before ++ x :: after)[i]? = (before ++ y :: after)[i]? := by
  by_cases hlt : i < before.length
  · rw [List.getElem?_append_left hlt, List.getElem?_append_left hlt]
  · have hle : before.length ≤ i := Nat.le_of_not_lt hlt
    rw [List.getElem?_append_right hle, List.getElem?_append_right hle]
    obtain ⟨k, hk⟩ : ∃ k, i - before.length = k + 1 := Nat.exists_eq_succ_of_ne_zero (by omega)
    rw [hk, List.getElem?_cons_succ, List.getElem?_cons_succ]

/-- What is related to an element in the middle of a list. -/
theorem forall₂_middle {α β : Type} {R : α → β → Prop} {before after : List α} {x : α}
    {ys : List β} (h : List.Forall₂ R (before ++ x :: after) ys) :
    ∃ before' y after', ys = before' ++ y :: after' ∧ List.Forall₂ R before before' ∧ R x y ∧
      List.Forall₂ R after after' := by
  induction before generalizing ys with
  | nil =>
      rcases List.forall₂_cons_left_iff.mp h with ⟨y, after', hxy, hafter, rfl⟩
      exact ⟨[], y, after', rfl, .nil, hxy, hafter⟩
  | cons b before ih =>
      rcases List.forall₂_cons_left_iff.mp h with ⟨b', ys', hb, hrest, rfl⟩
      rcases ih hrest with ⟨before', y, after', rfl, hbefore, hxy, hafter⟩
      exact ⟨b' :: before', y, after', rfl, .cons hb hbefore, hxy, hafter⟩

section Pools

variable {ℓ ε σ : Type} {ρ : ℓ → Type} {α : Type} {perform : (op : ℓ) → ε → σ → ρ op × σ}

/-- Letting a party run a section, if it is not done. -/
def Pool.advance (perform : (op : ℓ) → ε → σ → ρ op × σ) (p : Pool ρ σ α) (party : Nat) (e : ε) :
    List (Pool ρ σ α × ℓ × ε) × Pool ρ σ α :=
  match p.tasks[party]? with
  | some (.locked op next) =>
    ([(p, op, e)],
      ⟨(perform op e p.shared).2, p.tasks.set party (next (perform op e p.shared).1)⟩)
  | _ => ([], p)

/-- Letting parties run in a given order. -/
def Pool.schedule (perform : (op : ℓ) → ε → σ → ρ op × σ) (p : Pool ρ σ α) :
    List (Nat × ε) → List (Pool ρ σ α × ℓ × ε) × Pool ρ σ α
  | [] => ([], p)
  | (party, e) :: order =>
    ((p.advance perform party e).1 ++ ((p.advance perform party e).2.schedule perform order).1,
      ((p.advance perform party e).2.schedule perform order).2)

theorem Pool.turn_advance {p : Pool ρ σ α} {party : Nat} {e : ε} {op : ℓ}
    {next : ρ op → Sections ρ α} (h : p.tasks[party]? = some (.locked op next)) :
    Turn perform p (op, e) (p.advance perform party e).2 := by
  unfold Pool.advance
  simp only [h]
  rcases p with ⟨s, tasks⟩
  rcases List.getElem?_eq_some_iff.mp h with ⟨hlt, hparty⟩
  have htasks : tasks = tasks.take party ++ .locked op next :: tasks.drop (party + 1) := by
    rw [← hparty, List.getElem_cons_drop, List.take_append_drop]
  have hset : tasks.set party (next (perform op e s).1) =
      tasks.take party ++ next (perform op e s).1 :: tasks.drop (party + 1) := by
    rw [List.set_eq_take_append_cons_drop, if_pos hlt]
  have hturn : Turn perform _ (op, e) _ :=
    Turn.take s (tasks.take party) (tasks.drop (party + 1)) op next e
  rw [← htasks, ← hset] at hturn
  exact hturn

theorem Pool.trace_advance (p : Pool ρ σ α) (party : Nat) (e : ε) :
    Trace (Turn perform) p (p.advance perform party e).1 (p.advance perform party e).2 := by
  cases hparty : p.tasks[party]? with
  | none =>
      have hstays : p.advance perform party e = ([], p) := by
        unfold Pool.advance
        rw [hparty]
      rw [hstays]
      exact Trace.nil p
  | some task =>
      cases task with
      | done result =>
          have hstays : p.advance perform party e = ([], p) := by
            unfold Pool.advance
            rw [hparty]
          rw [hstays]
          exact Trace.nil p
      | locked op next =>
          have hruns : (p.advance perform party e).1 = [(p, op, e)] := by
            unfold Pool.advance
            rw [hparty]
          rw [hruns]
          exact Trace.single (Pool.turn_advance hparty)

/-- Every order is the order of some run. -/
theorem Pool.trace_schedule (p : Pool ρ σ α) (order : List (Nat × ε)) :
    Trace (Turn perform) p (p.schedule perform order).1 (p.schedule perform order).2 := by
  induction order generalizing p with
  | nil => exact Trace.nil p
  | cons x order ih => exact (p.trace_advance x.1 x.2).append (ih (p.advance perform x.1 x.2).2)

end Pools

end CodingChallenges
