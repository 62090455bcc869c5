import CodingChallenges.Library.Sections

/-!
# Programs that Go On Alike

Two states that nobody can tell apart by what sections return.

Which states, moments, sections, replies and results are alike is up to the parameters. Some of
what a section meets is not for the other state to choose: its surroundings there are what they
are, and may depend on all that has been run in it. A likeness asks that sections keep it: whatever
a section does in one of two states, at some moment of the surroundings a section does the like in
the other, unless the two part there. Programs are alike if they run like sections, as long as they
get replies that are alike, and end with results that are. Then every run of alike parties in one
of the states is followed, section by section, by a run of theirs in the other, up to where the
states part.

## Main definitions

* `Following`: A list that follows another one, element by element.
* `Sections.Alike`: Programs that run like sections.
* `Likeness`: What sections cannot tell apart.
* `Likeness.Pools`: Alike parties and states.

## Theorems

* `Following.imp`: Following more loosely.
* `Sections.Alike.bind`: Alike programs one after the other.
* `Sections.Alike.of_uses`: A program that cannot tell replies apart is like itself.
* `Likeness.turn`, `Likeness.run`: A section, and a run, in the other state.
-/

namespace CodingChallenges

variable {ℓ ε σ κ : Type} {ρ : ℓ → Type} {α β : Type}

/-- The second list follows the first one, element by element. What is asked of two elements may
    depend on all that stands before the second one. -/
inductive Following (choose : List β → κ) (R : κ → α → β → Prop) :
    List β → List α → List β → Prop where
  | nil (past : List β) : Following choose R past [] []
  | cons (past : List β) (x : α) (y : β) (xs : List α) (ys : List β) (h : R (choose past) x y)
      (hrest : Following choose R (past ++ [y]) xs ys) :
      Following choose R past (x :: xs) (y :: ys)

theorem Following.imp {choose : List β → κ} {R R' : κ → α → β → Prop}
    (himp : ∀ k x y, R k x y → R' k x y) {past ys : List β} {xs : List α}
    (h : Following choose R past xs ys) : Following choose R' past xs ys := by
  induction h with
  | nil past => exact .nil past
  | cons past x y xs ys hxy _ ih => exact .cons past x y xs ys (himp _ x y hxy) ih

namespace Sections

variable {Operations : ℓ → ℓ → Prop} {Replies : (op op' : ℓ) → ρ op → ρ op' → Prop}
  {Results : α → α → Prop} {Results' : β → β → Prop}

/-- The programs run like sections, as long as the replies are alike, and end with results that
    are alike. -/
inductive Alike (Operations : ℓ → ℓ → Prop) (Replies : (op op' : ℓ) → ρ op → ρ op' → Prop)
    (Results : α → α → Prop) : Sections ρ α → Sections ρ α → Prop where
  | done {a a' : α} (h : Results a a') : Alike Operations Replies Results (.done a) (.done a')
  | locked {op op' : ℓ} {next : ρ op → Sections ρ α} {next' : ρ op' → Sections ρ α}
      (hop : Operations op op')
      (h : ∀ r r', Replies op op' r r' → Alike Operations Replies Results (next r) (next' r')) :
      Alike Operations Replies Results (.locked op next) (.locked op' next')

theorem Alike.bind {p p' : Sections ρ α} {f f' : α → Sections ρ β}
    (h : Alike Operations Replies Results p p')
    (hf : ∀ a a', Results a a' → Alike Operations Replies Results' (f a) (f' a')) :
    Alike Operations Replies Results' (p >>= f) (p' >>= f') := by
  induction h with
  | done ha => exact hf _ _ ha
  | locked hop _ ih => exact .locked hop ih

/-- A program whose sections return the same if they return the like is like itself. -/
theorem Alike.of_uses {p : Sections ρ α} (hresults : ∀ a, Results a a)
    (h : p.Uses fun op => Operations op op ∧ ∀ r r', Replies op op r r' → r = r') :
    Alike Operations Replies Results p p := by
  induction p with
  | done a => exact .done (hresults a)
  | locked op next ih =>
      refine .locked h.1.1 fun r r' hr => ?_
      rw [← h.1.2 r r' hr]
      exact ih r (h.2 r)

/-- What is like a program that is done is done. -/
theorem Alike.of_done {a : α} {p : Sections ρ α}
    (h : Alike Operations Replies Results (.done a) p) : ∃ a', p = .done a' ∧ Results a a' := by
  cases h with
  | done ha => exact ⟨_, rfl, ha⟩

end Sections

/-- What sections cannot tell apart, whatever the surroundings `κ` of the other state are. -/
structure Likeness (perform : (op : ℓ) → ε → σ → ρ op × σ) (κ : Type) where
  States : σ → σ → Prop
  Operations : ℓ → ℓ → Prop
  /-- Moments that are alike, the second one being in the surroundings. -/
  Moments : κ → ε → ε → Prop
  Replies : (op op' : ℓ) → ρ op → ρ op' → Prop
  /-- The states part at this section. -/
  Part : κ → ℓ → ε → σ → σ → Prop
  /-- Unless they part, at some moment a section does the like in the other state. -/
  keeps : ∀ k op op' e s s', Operations op op' → States s s' → ¬ Part k op e s s' →
    ∃ e', Moments k e e' ∧ Replies op op' (perform op e s).1 (perform op' e' s').1 ∧
      States (perform op e s).2 (perform op' e' s').2

namespace Likeness

variable {perform : (op : ℓ) → ε → σ → ρ op × σ} (likeness : Likeness perform κ)
  {Results : α → α → Prop}

/-- The states are alike, and so is what is left to do for each party. -/
def Pools (Results : α → α → Prop) (p q : Pool ρ σ α) : Prop :=
  likeness.States p.shared q.shared ∧
    List.Forall₂ (Sections.Alike likeness.Operations likeness.Replies Results) p.tasks q.tasks

/-- Like sections, run in alike states at alike moments. -/
def Turns (Results : α → α → Prop) (k : κ) (x y : Pool ρ σ α × ℓ × ε) : Prop :=
  likeness.Pools Results x.1 y.1 ∧ likeness.Operations x.2.1 y.2.1 ∧
    likeness.Moments k x.2.2 y.2.2

variable {likeness}

/-- A party that runs a section can run a like one in the other state, unless the states part. -/
theorem turn {p p' q : Pool ρ σ α} {event : ℓ × ε} (k : κ) (hpools : likeness.Pools Results p q)
    (hturn : Turn perform p event p')
    (hpart : ¬ likeness.Part k event.1 event.2 p.shared q.shared) :
    ∃ event' q', Turn perform q event' q' ∧ likeness.Turns Results k (p, event) (q, event') ∧
      likeness.Pools Results p' q' := by
  rcases hturn with ⟨s, before, after, op, next, e⟩
  rcases q with ⟨s', tasks'⟩
  have hpools' := hpools
  rcases hpools' with ⟨hstates, htasks⟩
  -- The same party is about to run a section there.
  rcases forall₂_middle htasks with ⟨before', task', after', hsplit, hbefore, htask, hafter⟩
  simp only at hsplit
  subst hsplit
  cases htask with
  | @locked _ op' _ next' hop hnext =>
      rcases likeness.keeps k op op' e s s' hop hstates hpart with
        ⟨e', hmoments, hreplies, hstates'⟩
      refine ⟨(op', e'), _, Turn.take s' before' after' op' next' e', ⟨hpools, hop, hmoments⟩,
        hstates', ?_⟩
      exact List.rel_append hbefore (List.Forall₂.cons (hnext _ _ hreplies) hafter)

/-- A run in one of the states is followed in the other, whatever the surroundings are there, to
    its end or to a section at which the states part. -/
theorem run {p p' q : Pool ρ σ α} {t : List (Pool ρ σ α × ℓ × ε)}
    (hrun : Trace (Turn perform) p t p') (hpools : likeness.Pools Results p q)
    (choose : List (Pool ρ σ α × ℓ × ε) → κ) (past : List (Pool ρ σ α × ℓ × ε)) :
    ∃ t₁ t₂ p₁ t' q', t = t₁ ++ t₂ ∧ Trace (Turn perform) p t₁ p₁ ∧
      Trace (Turn perform) p₁ t₂ p' ∧ Trace (Turn perform) q t' q' ∧
      Following choose (likeness.Turns Results) past t₁ t' ∧ likeness.Pools Results p₁ q' ∧
      ∀ x ∈ t₂.head?, likeness.Part (choose (past ++ t')) x.2.1 x.2.2 p₁.shared q'.shared := by
  induction hrun generalizing q past with
  | nil p =>
      refine ⟨[], [], p, [], q, rfl, Trace.nil p, Trace.nil p, Trace.nil q, .nil past, hpools, ?_⟩
      exact fun x hx => nomatch hx
  | cons p event next t p' hturn hrest ih =>
      by_cases hpart : likeness.Part (choose past) event.1 event.2 p.shared q.shared
      · -- Nothing is followed from here on.
        refine ⟨[], (p, event) :: t, p, [], q, rfl, Trace.nil p,
          Trace.cons p event next t p' hturn hrest, Trace.nil q, .nil past, hpools, ?_⟩
        intro x hx
        rw [List.head?_cons, Option.mem_some_iff] at hx
        rw [List.append_nil, ← hx]
        exact hpart
      · rcases turn (choose past) hpools hturn hpart with ⟨event', q₁, hturn', hturns, hnext⟩
        rcases ih hnext (past ++ [(q, event')]) with
          ⟨t₁, t₂, p₁, t', q', rfl, hrun₁, hrun₂, hrun', hfollowing, hend, hpart'⟩
        refine ⟨(p, event) :: t₁, t₂, p₁, (q, event') :: t', q', rfl,
          Trace.cons p event next t₁ p₁ hturn hrun₁, hrun₂,
          Trace.cons q event' q₁ t' q' hturn' hrun',
          .cons past (p, event) (q, event') t₁ t' hturns hfollowing, hend, ?_⟩
        rw [List.append_assoc, List.singleton_append] at hpart'
        exact hpart'

end Likeness

end CodingChallenges
