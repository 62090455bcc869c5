import CodingChallenges.Library.Sections

/-!
# Parties that Do Not Meet

Programs that share a state, but keep to parts of it that have nothing in common.

Each party sees the state through a view of its own. If what its sections return and what they
do to its view depends on the view only, and the sections of the others leave its view alone, then
it cannot tell whether it runs among others or by itself: whatever the order the sections run in,
it has come as far as it would have come alone, at the same moments and with the same results.

## Main definitions

* `Sections.runAt`: Running a program alone, each section at a moment of its own.
* `Footprints`: Sections that belong to parties.

## Theorems

* `Footprints.alone`: A party among others and by itself.
-/

namespace CodingChallenges

variable {ℓ ε σ α : Type} {τ : Nat → Type} {ρ : ℓ → Type}

/-- Running a program alone, as far as the moments go. What is left of it, and the state. -/
def Sections.runAt (perform : (op : ℓ) → ε → σ → ρ op × σ) :
    List ε → Sections ρ α → σ → Sections ρ α × σ
  | [], p, s => (p, s)
  | _ :: _, .done result, s => (.done result, s)
  | e :: moments, .locked op next, s =>
    Sections.runAt perform moments (next (perform op e s).1) (perform op e s).2

/-- Each section belongs to a party, which sees a part of the state. -/
structure Footprints (perform : (op : ℓ) → ε → σ → ρ op × σ) (Own : Nat → ℓ → Prop)
    (view : (party : Nat) → σ → τ party) : Prop where
  /-- What a section does in the view of its party depends on the view only. -/
  inside : ∀ party op e s s', Own party op → view party s = view party s' →
    (perform op e s).1 = (perform op e s').1 ∧
      view party (perform op e s).2 = view party (perform op e s').2
  /-- The sections of the others do nothing in it. -/
  frame : ∀ party other op e s, party ≠ other → Own other op →
    view party (perform op e s).2 = view party s

namespace Footprints

variable {perform : (op : ℓ) → ε → σ → ρ op × σ} {Own : Nat → ℓ → Prop}
  {view : (party : Nat) → σ → τ party}

/-- A party among others is as far as it would be alone, and sees the same. -/
theorem alone (h : Footprints perform Own view) {p p' : Pool ρ σ α}
    {t : List (Pool ρ σ α × ℓ × ε)} (hrun : Trace (Turn perform) p t p')
    (howns : ∀ (party : Nat) task, p.tasks[party]? = some task → task.Uses (Own party))
    {party : Nat} {task : Sections ρ α} (htask : p.tasks[party]? = some task) {s : σ}
    (hsees : view party s = view party p.shared) :
    ∃ moments, moments.Sublist (t.map fun x => x.2.2) ∧
      p'.tasks[party]? = some (task.runAt perform moments s).1 ∧
      view party (task.runAt perform moments s).2 = view party p'.shared := by
  induction hrun generalizing task s with
  | nil p => exact ⟨[], List.Sublist.slnil, htask, hsees⟩
  | cons p event next t p' hturn _ ih =>
      rcases hturn with ⟨shared, before, after, op, cont, e⟩
      simp only at htask hsees howns
      have hmiddle : (before ++ Sections.locked op cont :: after)[before.length]? =
          some (.locked op cont) := by
        simp only [List.length_append, List.length_cons, Nat.lt_add_right_iff_pos, Nat.zero_lt_succ,
          getElem?_pos, Std.le_refl, List.getElem_append_right, Nat.sub_self,
          List.getElem_cons_zero]
      have hused := howns _ _ hmiddle
      -- The section leaves every party with a program of its own.
      have howns' : ∀ (party : Nat) task,
          (before ++ cont (perform op e shared).1 :: after)[party]? = some task →
            task.Uses (Own party) := by
        intro other task' htask'
        by_cases hother : other = before.length
        · subst hother
          have hcont : cont (perform op e shared).1 = task' := by
            simpa only [List.length_append, List.length_cons, Nat.lt_add_right_iff_pos,
              Nat.zero_lt_succ, getElem?_pos, Std.le_refl, List.getElem_append_right, Nat.sub_self,
              List.getElem_cons_zero, Option.some.injEq] using htask'
          rw [← hcont]
          exact hused.2 _
        · rw [getElem?_middle_ne before after _ (.locked op cont) hother] at htask'
          exact howns other task' htask'
      by_cases hparty : party = before.length
      · -- The party runs a section itself, and alone it would do the same.
        subst hparty
        rw [hmiddle, Option.some.injEq] at htask
        subst htask
        rcases h.inside _ op e s shared hused.1 hsees with ⟨hreply, hview⟩
        have hnext : (before ++ cont (perform op e shared).1 :: after)[before.length]? =
            some (cont (perform op e s).1) := by
          simp only [List.length_append, List.length_cons, Nat.lt_add_right_iff_pos,
            Nat.zero_lt_succ, getElem?_pos, Std.le_refl, List.getElem_append_right, Nat.sub_self,
            List.getElem_cons_zero, hreply]
        rcases ih howns' hnext hview with ⟨moments, hsub, htask', hview'⟩
        exact ⟨e :: moments, hsub.cons_cons e, htask', hview'⟩
      · rw [getElem?_middle_ne before after _ (cont (perform op e shared).1) hparty] at htask
        have hview := hsees.trans (h.frame party before.length op e shared hparty hused.1).symm
        rcases ih howns' htask hview with ⟨moments, hsub, htask', hview'⟩
        exact ⟨moments, hsub.cons e, htask', hview'⟩

end Footprints

end CodingChallenges
