import CodingChallenges.Library.Traces
import Mathlib.Algebra.BigOperators.Group.List.Basic
import Mathlib.Algebra.Ring.Nat

/-!
# Read, Modify, Write

A counter that is incremented in two steps.

Each party increments the counter a number of times. It reads the value, and some
time later it writes the value it read, plus one. Other parties may come in
between.

If no party reads while another is between its two steps, the counter counts. If
one does, it is behind from then on. The value never gets ahead of the number of
writes; two parties that hold a value cannot both be up to date once one of them
has written, and whoever writes an outdated value takes the counter and everybody
who reads it then along. So the final value tells whether there was any overlap
(`Counter.counts_iff`).

## Main definitions

* `Counter`: The counter and where its parties are.
* `Counter.Step`: One of them reads or writes.
* `Counter.Exclusive`: A read while nobody is between the two steps.

## Theorems

* `Counter.Bounded.step`: The counter never gets ahead.
* `Counter.counts_iff`: When the counter counts.
-/

namespace CodingChallenges

/-- How often a party has still to begin, and what it has read and not written back. -/
structure Party where
  left : Nat
  held : Option Int

/-- The writes a party has still to make. -/
def Party.todo (p : Party) : Nat :=
  p.left + if p.held.isSome then 1 else 0

/-- A counter, and who increments it. -/
structure Counter where
  value : Int
  parties : List Party

/-- What a party does to the counter. -/
inductive Access where
  | read
  | write

namespace Counter

/-- The writes that are still to be made. -/
def todo (c : Counter) : Nat :=
  (c.parties.map Party.todo).sum

/-- A party reads the counter, or writes back what it has read plus one. -/
inductive Step : Counter → Access → Counter → Prop where
  | read (value : Int) (before after : List Party) (left : Nat) :
      Step ⟨value, before ++ ⟨left + 1, none⟩ :: after⟩ .read
        ⟨value, before ++ ⟨left, some value⟩ :: after⟩
  | write (value : Int) (before after : List Party) (left : Nat) (held : Int) :
      Step ⟨value, before ++ ⟨left, some held⟩ :: after⟩ .write
        ⟨held + 1, before ++ ⟨left, none⟩ :: after⟩

/-- A read, if it is one, comes while nobody is between the two steps. -/
def Exclusive (c : Counter) : Access → Prop
  | .read => ∀ p ∈ c.parties, p.held = none
  | .write => True

/-- Every value that is about is at least the first and leaves room for the writes
    that are still to be made. -/
def Bounded (first target : Int) (c : Counter) : Prop :=
  (first ≤ c.value ∧ c.value + c.todo ≤ target) ∧
    ∀ p ∈ c.parties, ∀ held, p.held = some held → first ≤ held ∧ held + c.todo ≤ target

/-- How many parties are between the two steps. -/
def holders (c : Counter) : Nat :=
  c.parties.countP fun p => p.held.isSome

/-- The counter is up to date, and so is the one party that may hold its value. -/
def UpToDate (target : Int) (c : Counter) : Prop :=
  c.value + c.todo = target ∧ c.holders ≤ 1 ∧
    ∀ p ∈ c.parties, ∀ held, p.held = some held → held = c.value

/-- Two parties hold a value, so that one of them will be outdated; or one is; or
    everything is. -/
def Behind (target : Int) (c : Counter) : Prop :=
  2 ≤ c.holders ∨
    (∃ p ∈ c.parties, ∃ held, p.held = some held ∧ held + c.todo < target) ∨
    (c.value + c.todo < target ∧
      ∀ p ∈ c.parties, ∀ held, p.held = some held → held + c.todo < target)

section Splitting

variable {value : Int} {before after : List Party} {p : Party}

theorem todo_split : todo ⟨value, before ++ p :: after⟩ =
    todo ⟨value, before ++ after⟩ + p.todo := by
  unfold todo
  simp only [List.map_append, List.map_cons, List.sum_append, List.sum_cons]
  omega

theorem holders_split : holders ⟨value, before ++ p :: after⟩ =
    holders ⟨value, before ++ after⟩ + if p.held.isSome then 1 else 0 := by
  unfold holders
  simp only [List.countP_append, List.countP_cons]
  omega

theorem forall_split {P : Party → Prop} :
    (∀ q ∈ before ++ p :: after, P q) ↔ (∀ q ∈ before ++ after, P q) ∧ P p := by
  rw [List.forall_mem_append, List.forall_mem_append, List.forall_mem_cons]
  exact ⟨fun ⟨hb, hp, ha⟩ => ⟨⟨hb, ha⟩, hp⟩, fun ⟨⟨hb, ha⟩, hp⟩ => ⟨hb, hp, ha⟩⟩

theorem mem_split {q : Party} : q ∈ before ++ p :: after ↔ q ∈ before ++ after ∨ q = p := by
  rw [List.mem_append, List.mem_append, List.mem_cons]
  tauto

theorem holders_eq_zero {c : Counter} (h : c.holders = 0) : ∀ p ∈ c.parties, p.held = none := by
  intro p hp
  have hnone := List.countP_eq_zero.mp h p hp
  rwa [Option.not_isSome_iff_eq_none] at hnone

theorem exists_holder {c : Counter} (h : 0 < c.holders) :
    ∃ p ∈ c.parties, ∃ held, p.held = some held := by
  rcases List.countP_pos_iff.mp h with ⟨p, hp, hsome⟩
  exact ⟨p, hp, Option.isSome_iff_exists.mp hsome⟩

/-- Reading postpones a write. -/
theorem todo_read (left : Nat) : todo ⟨value, before ++ ⟨left, some value⟩ :: after⟩ =
    todo ⟨value, before ++ ⟨left + 1, none⟩ :: after⟩ := by
  rw [todo_split, todo_split]
  rfl

theorem todo_write (left : Nat) (held value' : Int) :
    todo ⟨value, before ++ ⟨left, some held⟩ :: after⟩ =
      todo ⟨value', before ++ ⟨left, none⟩ :: after⟩ + 1 := by
  rw [todo_split, todo_split]
  rfl

end Splitting

/-- The counter never gets ahead of the writes. -/
theorem Bounded.step {first target : Int} {c c' : Counter} {access : Access}
    (h : c.Bounded first target) (hstep : Step c access c') : c'.Bounded first target := by
  cases hstep with
  | read value before after left =>
      rcases h with ⟨hvalue, hheld⟩
      rw [forall_split] at hheld
      refine ⟨?_, ?_⟩
      · rw [todo_read]
        exact hvalue
      · rw [forall_split, todo_read]
        refine ⟨hheld.1, fun held hsome => ?_⟩
        cases hsome
        exact hvalue
  | write value before after left held =>
      rcases h with ⟨-, hheld⟩
      rw [forall_split] at hheld
      rw [todo_write left held (held + 1)] at hheld
      -- The one that writes was counted among those still to come, and is not any longer.
      have hown := hheld.2 held rfl
      refine ⟨?_, ?_⟩
      · push_cast at hown
        constructor <;> simp only <;> omega
      · rw [forall_split]
        refine ⟨fun q hq other hother => ?_, fun other hother => by cases hother⟩
        have hq' := hheld.1 q hq other hother
        push_cast at hq'
        exact ⟨hq'.1, by omega⟩

theorem UpToDate.step {target : Int} {c c' : Counter} {access : Access} (h : c.UpToDate target)
    (hexclusive : c.Exclusive access) (hstep : Step c access c') : c'.UpToDate target := by
  cases hstep with
  | read value before after left =>
      rcases h with ⟨hvalue, -, -⟩
      have hnone := (forall_split.mp hexclusive).1
      refine ⟨?_, ?_, ?_⟩
      · rw [todo_read]
        exact hvalue
      · rw [holders_split]
        have hzero : holders ⟨value, before ++ after⟩ = 0 := by
          refine List.countP_eq_zero.mpr fun q hq => ?_
          rw [hnone q hq]
          decide
        rw [hzero]
        exact Nat.le_refl 1
      · rw [forall_split]
        refine ⟨fun q hq held hheld => ?_, fun held hheld => (Option.some.inj hheld).symm⟩
        rw [hnone q hq] at hheld
        cases hheld
  | write value before after left held =>
      rcases h with ⟨hvalue, hholders, hheld⟩
      -- The party that writes is the only one that holds a value.
      have hown : held = value := (forall_split.mp hheld).2 held rfl
      rw [holders_split] at hholders
      have hzero : holders ⟨value, before ++ after⟩ = 0 := by
        have hone : (if (⟨left, some held⟩ : Party).held.isSome then 1 else 0) = 1 := rfl
        omega
      rw [todo_write left held (held + 1)] at hvalue
      refine ⟨?_, ?_, ?_⟩
      · push_cast at hvalue
        simp only
        omega
      · rw [holders_split]
        change holders ⟨value, before ++ after⟩ + 0 ≤ 1
        omega
      · rw [forall_split]
        refine ⟨fun q hq other hother => ?_, fun other hother => by cases hother⟩
        rw [holders_eq_zero hzero q hq] at hother
        cases hother

/-- A read in between puts the counter behind. -/
theorem behind_of_overlap {target : Int} {c c' : Counter} {access : Access}
    (hexclusive : ¬ c.Exclusive access) (hstep : Step c access c') : c'.Behind target := by
  cases hstep with
  | read value before after left =>
      left
      rw [holders_split]
      have hpos : 0 < holders ⟨value, before ++ after⟩ := by
        by_contra hzero
        refine hexclusive (forall_split.mpr ⟨holders_eq_zero (c := ⟨value, _⟩) ?_, rfl⟩)
        omega
      change 2 ≤ holders ⟨value, before ++ after⟩ + 1
      omega
  | write => exact absurd trivial hexclusive

/-- A read does not catch up. -/
theorem Behind.read {target value : Int} {before after : List Party} {left : Nat}
    (h : Behind target ⟨value, before ++ ⟨left + 1, none⟩ :: after⟩) :
    Behind target ⟨value, before ++ ⟨left, some value⟩ :: after⟩ := by
  rcases h with htwo | ⟨p, hp, held, hheld, hlt⟩ | ⟨hvalue, hall⟩
  · left
    rw [holders_split] at htwo ⊢
    change 2 ≤ holders ⟨value, before ++ after⟩ + 0 at htwo
    omega
  · right
    left
    rw [todo_read]
    rcases mem_split.mp hp with hother | rfl
    · exact ⟨p, mem_split.mpr (Or.inl hother), held, hheld, hlt⟩
    · -- The party that has just read held nothing before.
      cases hheld
  · right
    right
    rw [todo_read]
    refine ⟨hvalue, forall_split.mpr ⟨(forall_split.mp hall).1, fun held hheld => ?_⟩⟩
    cases hheld
    exact hvalue

/-- A write does not catch up either. -/
theorem Behind.write {first target value held : Int} {before after : List Party} {left : Nat}
    (hbounded : Bounded first target ⟨value, before ++ ⟨left, some held⟩ :: after⟩)
    (h : Behind target ⟨value, before ++ ⟨left, some held⟩ :: after⟩) :
    Behind target ⟨held + 1, before ++ ⟨left, none⟩ :: after⟩ := by
  -- Everyone else's value is outdated by this write.
  have hothers : ∀ q ∈ before ++ after, ∀ other, q.held = some other →
      other + todo ⟨held + 1, before ++ ⟨left, none⟩ :: after⟩ < target := by
    intro q hq other hother
    have hroom := ((forall_split.mp hbounded.2).1 q hq other hother).2
    rw [todo_write left held (held + 1)] at hroom
    push_cast at hroom
    omega
  have hbehind : held + todo ⟨value, before ++ ⟨left, some held⟩ :: after⟩ < target →
      Behind target ⟨held + 1, before ++ ⟨left, none⟩ :: after⟩ := by
    intro hlt
    rw [todo_write left held (held + 1)] at hlt
    push_cast at hlt
    right
    right
    refine ⟨by simp only; omega, forall_split.mpr ⟨hothers, fun other hother => ?_⟩⟩
    cases hother
  rcases h with htwo | ⟨p, hp, other, hother, hlt⟩ | ⟨-, hall⟩
  · right
    left
    rw [holders_split] at htwo
    change 2 ≤ holders ⟨value, before ++ after⟩ + 1 at htwo
    have hpos : 0 < holders ⟨value, before ++ after⟩ := by omega
    rcases exists_holder hpos with ⟨q, hq, other, hother⟩
    exact ⟨q, mem_split.mpr (Or.inl hq), other, hother, hothers q hq other hother⟩
  · rcases mem_split.mp hp with hrest | rfl
    · right
      left
      exact ⟨p, mem_split.mpr (Or.inl hrest), other, hother, hothers p hrest other hother⟩
    · -- The outdated value was written, and nothing is up to date any more.
      cases hother
      exact hbehind hlt
  · exact hbehind ((forall_split.mp hall).2 held rfl)

theorem Behind.step {first target : Int} {c c' : Counter} {access : Access}
    (hbounded : c.Bounded first target) (h : c.Behind target) (hstep : Step c access c') :
    c'.Behind target := by
  cases hstep with
  | read value before after left => exact h.read
  | write value before after left held => exact h.write hbounded

/-- A counter and parties that have to increment it so many times. -/
def start (value : Int) (counts : List Nat) : Counter :=
  ⟨value, counts.map fun n => ⟨n, none⟩⟩

section Start

variable {value : Int} {counts : List Nat}

theorem todo_start : (start value counts).todo = counts.sum := by
  unfold todo start
  rw [List.map_map]
  congr 1
  exact List.map_id counts

theorem held_start : ∀ p ∈ (start value counts).parties, p.held = none := by
  intro p hp
  rcases List.mem_map.mp hp with ⟨n, -, rfl⟩
  rfl

theorem bounded_start : (start value counts).Bounded value (value + (counts.sum : Nat)) := by
  refine ⟨⟨Int.le_refl _, ?_⟩, fun p hp held hheld => ?_⟩
  · rw [todo_start]
    exact Int.le_refl _
  · rw [held_start p hp] at hheld
    cases hheld

theorem upToDate_start : (start value counts).UpToDate (value + (counts.sum : Nat)) := by
  refine ⟨?_, ?_, fun p hp held hheld => ?_⟩
  · rw [todo_start]
    rfl
  · have hzero : (start value counts).holders = 0 := by
      refine List.countP_eq_zero.mpr fun p hp => ?_
      rw [held_start p hp]
      decide
    omega
  · rw [held_start p hp] at hheld
    cases hheld

end Start

/-- When all parties are done, the counter has counted their increments exactly if
    nobody read while another was between its two steps. -/
theorem counts_iff {value : Int} {counts : List Nat} {t : List (Counter × Access)} {c : Counter}
    (h : Trace Step (start value counts) t c) (hdone : ∀ p ∈ c.parties, p = ⟨0, none⟩) :
    c.value = value + (counts.sum : Nat) ↔ ∀ x ∈ t, x.1.Exclusive x.2 := by
  have htodo : c.todo = 0 := by
    refine List.sum_eq_zero fun n hn => ?_
    rcases List.mem_map.mp hn with ⟨p, hp, rfl⟩
    rw [hdone p hp]
    rfl
  constructor
  · intro hvalue
    by_contra hfails
    push Not at hfails
    have hbreaks : ∀ (d : Counter) (access : Access) (d' : Counter),
        d.Bounded value (value + (counts.sum : Nat)) → ¬ d.Exclusive access → Step d access d' →
          d'.Behind (value + (counts.sum : Nat)) :=
      fun _ _ _ _ hexclusive hstep => behind_of_overlap hexclusive hstep
    have hbehind : c.Behind (value + (counts.sum : Nat)) :=
      h.broken (fun _ _ _ hinv hstep => hinv.step hstep) hbreaks
        (fun _ _ _ hinv hbehind hstep => Behind.step hinv hbehind hstep) bounded_start
        (Or.inr hfails)
    rcases hbehind with htwo | ⟨p, hp, held, hheld, -⟩ | ⟨hlt, -⟩
    · -- Nobody holds a value any more.
      rcases exists_holder (Nat.lt_of_lt_of_le Nat.two_pos htwo) with ⟨p, hp, held, hheld⟩
      rw [hdone p hp] at hheld
      cases hheld
    · rw [hdone p hp] at hheld
      cases hheld
    · omega
  · intro hall
    have hfinal := (h.invariant (fun _ _ _ hinv hexclusive hstep => hinv.step hexclusive hstep)
      upToDate_start hall).2
    have hvalue := hfinal.1
    omega

end Counter

end CodingChallenges
