import Mathlib.Data.List.Rotate

/-!
# Round Robin

Who is served when those that stand in a circle are served in turn.

There are two views of it. In the one, a place of the circle is remembered, and the next
one that is served is the first behind it that may be. In the other, those that may be
served stand in a queue, and whoever was served goes to its end. The queue of the second
view is what is seen from the remembered place in the first: nobody in front of the one
that is served could have been, so that the queue behind him is the same one, turned.

That everybody is served equally often is plain in a queue. Somebody with `n` others behind
him was served `(k + n) / m` times after `k` turns of a queue of `m`.

## Main definitions

* `behind`: The places of a circle, from the one behind a given place round to it.
* `turns`: The places among them that may be served.
* `served`: Who is served in a number of turns of a queue.

## Theorems

* `getElem?_behind`: The places are counted on, and wrap around.
* `turns_of_find?`: Serving the first place that may be served turns the queue.
* `mem_turns`, `nodup_turns`, `length_turns`: Who stands in the queue.
* `count_served`: How often somebody is served.
* `served_fair`: Everybody is served equally often, up to one turn.
-/

namespace CodingChallenges

section Circle

/-- The places of a circle of `n`, from the one behind the given one round to itself. -/
def behind (n place : Nat) : List Nat :=
  (List.range n).rotate (place + 1)

@[simp] theorem length_behind (n place : Nat) : (behind n place).length = n := by
  rw [behind, List.length_rotate, List.length_range]

theorem getElem?_behind {n k : Nat} (place : Nat) (hk : k < n) :
    (behind n place)[k]? = some ((place + 1 + k) % n) := by
  have hrange : k < (List.range n).length := by rwa [List.length_range]
  rw [behind, List.getElem?_rotate hrange, List.length_range, Nat.add_comm k,
    List.getElem?_range (Nat.mod_lt _ (Nat.zero_lt_of_lt hk))]

theorem mem_behind {n place other : Nat} : other ∈ behind n place ↔ other < n := by
  rw [behind, List.mem_rotate, List.mem_range]

/-- The circle, seen from another place. -/
theorem behind_of_split {n place other : Nat} {before after : List Nat}
    (h : behind n place = before ++ other :: after) :
    behind n other = after ++ before ++ [other] := by
  have hlength : before.length < n := by
    rw [← length_behind n place, h, List.length_append, List.length_cons]
    omega
  -- The other place is as far behind the first one as places stand between them.
  have hother : other = (place + 1 + before.length) % n := by
    have hget := getElem?_behind place hlength
    rwa [h, List.getElem?_append_right (Nat.le_refl _), Nat.sub_self, List.getElem?_cons_zero,
      Option.some.injEq] at hget
  have hrotate : behind n other = (behind n place).rotate (before.length + 1) := by
    rw [behind, behind, List.rotate_rotate, ← List.rotate_mod, ← List.rotate_mod _ (_ + _),
      List.length_range, hother, Nat.mod_add_mod, Nat.add_assoc (place + 1)]
  calc behind n other = ((before ++ [other]) ++ after).rotate (before ++ [other]).length := by
        rw [hrotate, h, List.length_append, List.length_singleton, List.append_assoc,
          List.singleton_append]
    _ = after ++ before ++ [other] := by
        rw [List.rotate_append_length_eq, List.append_assoc]

variable (may : Nat → Bool)

/-- The places that may be served, in the order in which it is their turn. -/
def turns (n place : Nat) : List Nat :=
  (behind n place).filter may

variable {may : Nat → Bool} {n place : Nat}

theorem mem_turns {other : Nat} : other ∈ turns may n place ↔ other < n ∧ may other = true := by
  rw [turns, List.mem_filter, mem_behind]

theorem nodup_turns (may : Nat → Bool) (n place : Nat) : (turns may n place).Nodup :=
  (List.nodup_rotate.mpr List.nodup_range).filter _

theorem length_turns (may : Nat → Bool) (n place : Nat) :
    (turns may n place).length = (List.range n).countP may := by
  rw [turns, ← List.countP_eq_length_filter]
  exact (List.rotate_perm _ _).countP_eq _

/-- The first place that may be served goes to the end of the queue. -/
theorem turns_of_find? {other : Nat} (h : (behind n place).find? may = some other) :
    ∃ others, turns may n place = other :: others ∧ turns may n other = others ++ [other] := by
  rcases List.find?_eq_some_iff_append.mp h with ⟨hmay, before, after, hsplit, hbefore⟩
  have hnone : before.filter may = [] := by
    rw [List.filter_eq_nil_iff]
    intro x hx
    simpa only [Bool.not_eq_true', Bool.not_eq_true] using hbefore x hx
  refine ⟨after.filter may, ?_, ?_⟩
  · rw [turns, hsplit, List.filter_append, hnone, List.nil_append, List.filter_cons_of_pos hmay]
  · rw [turns, behind_of_split hsplit, List.filter_append, List.filter_append, hnone,
      List.append_nil, List.filter_cons_of_pos hmay, List.filter_nil]

theorem turns_of_find?_none (h : (behind n place).find? may = none) : turns may n place = [] := by
  rw [turns, List.filter_eq_nil_iff]
  exact List.find?_eq_none.mp h

end Circle

section Queue

variable {α : Type*}

/-- Who is served in a number of turns, if whoever was served goes to the end of the queue. -/
def served : List α → Nat → List α
  | _, 0 => []
  | [], _ + 1 => []
  | a :: others, k + 1 => a :: served (others ++ [a]) k

theorem served_nil (k : Nat) : served ([] : List α) k = [] := by
  cases k with
  | zero => rfl
  | succ k => rfl

variable [DecidableEq α]

/-- How often somebody is served, by how many stand behind him. -/
theorem count_served {before after : List α} {a : α} (hbefore : a ∉ before) (hafter : a ∉ after)
    (k : Nat) :
    (served (before ++ a :: after) k).count a =
      (k + after.length) / (before.length + 1 + after.length) := by
  induction k generalizing before after with
  | zero => rw [served, List.count_nil, Nat.div_eq_of_lt (by omega)]
  | succ k ih =>
      cases before with
      | nil =>
          -- It is his turn, and now all the others stand in front of him.
          have hrest := ih hafter List.not_mem_nil
          rw [List.length_nil, Nat.add_zero] at hrest
          rw [List.nil_append, served, List.count_cons_self, hrest, List.length_nil,
            show k + 1 + after.length = k + (after.length + 1) by omega,
            show 0 + 1 + after.length = after.length + 1 by omega,
            Nat.add_zero, Nat.add_div_right k (Nat.succ_pos _)]
      -- Somebody else is served, and stands behind him from now on.
      | cons b before =>
          rw [List.mem_cons, not_or] at hbefore
          have hafter' : a ∉ after ++ [b] := by
            rw [List.mem_append, List.mem_singleton, not_or]
            exact ⟨hafter, hbefore.1⟩
          have hrest := ih hbefore.2 hafter'
          rw [List.length_append, List.length_singleton] at hrest
          rw [List.cons_append, served, List.count_cons_of_ne (Ne.symm hbefore.1),
            List.append_assoc, List.cons_append, hrest, List.length_cons,
            show k + (after.length + 1) = k + 1 + after.length by omega,
            show before.length + 1 + (after.length + 1) = before.length + 1 + 1 + after.length
              by omega]

/-- In any number of turns everybody is served equally often, up to one turn: the number of
    turns, divided by the length of the queue, is rounded down or up. -/
theorem served_fair {queue : List α} {a : α} (hnodup : queue.Nodup) (ha : a ∈ queue) (k : Nat) :
    (served queue k).count a = k / queue.length ∨
      (served queue k).count a = (k + queue.length - 1) / queue.length := by
  rcases List.append_of_mem ha with ⟨before, after, rfl⟩
  rw [List.nodup_middle, List.nodup_cons, List.mem_append, not_or] at hnodup
  rw [count_served hnodup.1.1 hnodup.1.2, List.length_append, List.length_cons]
  have hlow := Nat.div_le_div_right (c := before.length + (after.length + 1))
    (Nat.le_add_right k after.length)
  have hhigh := Nat.div_le_div_right (c := before.length + (after.length + 1))
    (show k + after.length ≤ k + (before.length + (after.length + 1)) - 1 by omega)
  have hnext : (k + (before.length + (after.length + 1)) - 1) / (before.length + (after.length + 1))
      ≤ k / (before.length + (after.length + 1)) + 1 := by
    rw [← Nat.add_div_right k (by omega)]
    exact Nat.div_le_div_right (Nat.sub_le _ _)
  rw [show before.length + 1 + after.length = before.length + (after.length + 1) by omega]
  omega

end Queue

end CodingChallenges
