import Mathlib.Data.List.Basic

/-!
# Runs

A scanner that reads characters of one kind, as many as there are, splits a text into a
run of this kind and what follows. Nothing of the kind comes next, and this is what
makes the split the only one: whatever of the kind stands at the beginning of the text
is part of the run.

## Main definitions

* `Outside`: A text that does not begin with a character of the kind.

## Theorems

* `run_within`: What is of the kind is part of the run.
* `run_append_inj`: There is only one way to split a text.
* `takeWhile_run`, `dropWhile_run`: What a scanner reads of a run and what follows is
  the run.
* `exists_run`: Every text begins with a run.
-/

namespace CodingChallenges

variable {α : Type*} {kind : α → Bool} {c : α} {u u' v v' : List α}

/-- The text does not begin with a character of the kind. -/
def Outside (kind : α → Bool) (v : List α) : Prop :=
  ∀ c, v.head? = some c → kind c = false

theorem outside_nil : Outside kind [] :=
  nofun

theorem outside_cons : Outside kind (c :: v) ↔ kind c = false := by
  constructor
  · intro h
    exact h c rfl
  · intro h c' hc'
    cases hc'
    exact h

/-- What is of the kind is part of the run. -/
theorem run_within (hu : ∀ c ∈ u, kind c = true) (hv : Outside kind v')
    (h : u ++ v = u' ++ v') : u <+: u' := by
  rcases List.append_eq_append_iff.mp h with ⟨w, rfl, -⟩ | ⟨w, rfl, rfl⟩
  · exact List.prefix_append u w
  · cases w with
    | nil => exact ⟨[], by simp only [List.append_nil]⟩
    | cons c w =>
        have hkind := hu c (List.mem_append_right _ List.mem_cons_self)
        rw [outside_cons.mp hv] at hkind
        cases hkind

/-- There is only one way to split a text into a run and what follows. -/
theorem run_append_inj (hu : ∀ c ∈ u, kind c = true) (hu' : ∀ c ∈ u', kind c = true)
    (hv : Outside kind v) (hv' : Outside kind v') (h : u ++ v = u' ++ v') : u = u' ∧ v = v' := by
  have hprefix := run_within hu hv' h
  have hprefix' := run_within hu' hv h.symm
  have heq := hprefix.eq_of_length_le hprefix'.length_le
  rw [heq] at h
  exact ⟨heq, List.append_cancel_left h⟩

/-- What a scanner reads of a run and what follows is the run. -/
theorem takeWhile_run (hu : ∀ c ∈ u, kind c = true) (hv : Outside kind v) :
    (u ++ v).takeWhile kind = u := by
  rw [List.takeWhile_append_of_pos hu]
  cases v with
  | nil => simp only [List.takeWhile_nil, List.append_nil]
  | cons c v => simp [outside_cons.mp hv]

theorem dropWhile_run (hu : ∀ c ∈ u, kind c = true) (hv : Outside kind v) :
    (u ++ v).dropWhile kind = v := by
  have hsplit := List.takeWhile_append_dropWhile (p := kind) (l := u ++ v)
  rw [takeWhile_run hu hv] at hsplit
  exact List.append_cancel_left hsplit

/-- Every text begins with a run, which may be empty. -/
theorem exists_run (kind : α → Bool) (text : List α) :
    ∃ u v, text = u ++ v ∧ (∀ c ∈ u, kind c = true) ∧ Outside kind v := by
  induction text with
  | nil => exact ⟨[], [], rfl, nofun, outside_nil⟩
  | cons c text ih =>
      by_cases hc : kind c = true
      · rcases ih with ⟨u, v, rfl, hu, hv⟩
        exact ⟨c :: u, v, rfl, List.forall_mem_cons.mpr ⟨hc, hu⟩, hv⟩
      · exact ⟨[], c :: text, rfl, nofun, outside_cons.mpr (Bool.not_eq_true _ ▸ hc)⟩

end CodingChallenges
