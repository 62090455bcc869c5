import Mathlib.Data.Set.Insert
import CodingChallenges.Library.CountedRuns

/-!
# Fragments of a Transition System

Correctness of automaton constructions, one construct at a time.

The states of the system are pairs of a location and some data, and a step may
change both. A fragment is a set of locations entered at one of them and left
only towards one location outside, its accept location; what it means is the
relation, with costs, between the data on entry and the data on arrival. That
meaning depends on the steps out of the interior alone, so it survives whatever
is attached to the accept location or built elsewhere later on
(`Fragment.congr`).

`Fragment.runs_iff_through` is the one decomposition all constructs share: a
run that starts at a fragment's entry and ends outside has to pass its accept
location, and the part before is the fragment's meaning. Each construct then
only says where its few new steps lead, and its meaning follows by peeling
steps off runs. The loop is the one place that needs an induction.

## Main definitions

* `CostRel`: A relation between data and data that also gives a cost.
* `CostRel.Within`: Entry and arrival are related, whatever the cost.
* `CostRel.Possible`: The same relation without the costs.
* `Inside`: The steps out of a set of locations.
* `Link`: All steps out of a location lead to one place, changing the data in
  one way.
* `Fork`: All steps out of a location lead to given places, keeping the data.
* `Fragment`: An interior, an entry, an accept location, and a meaning.

## Theorems

* `Fragment.congr`: Steps from outside the interior do not matter.
* `Fragment.runs_iff_through`: A run through a fragment splits at its accept.
* `Fragment.atom`, `Fragment.seq`, `Fragment.wrap`, `Fragment.alternation`,
  `Fragment.star`, `Fragment.plus`, `Fragment.option`: The constructs.
-/

namespace CodingChallenges

/-- A relation from data to data that gives each pair its possible costs. -/
abbrev CostRel (D : Type*) := D → Nat → D → Prop

namespace CostRel

variable {D : Type*}

/-- One unit of cost, the data changing as `act` says. -/
def atom (act : D → D → Prop) : CostRel D :=
  fun d n d' => n = 1 ∧ act d d'

/-- One unit of cost, the data unchanged. -/
def tick : CostRel D :=
  atom (fun d d' => d' = d)

/-- One relation after the other, the costs added. -/
def seq (R S : CostRel D) : CostRel D :=
  fun d n d' => ∃ n₁ m n₂, R d n₁ m ∧ S m n₂ d' ∧ n = n₁ + n₂

/-- `k` rounds of a relation. -/
def power (R : CostRel D) : Nat → CostRel D
  | 0 => fun d n d' => n = 0 ∧ d' = d
  | k + 1 => seq R (power R k)

/-- As many rounds of a relation as `count` permits. -/
def many (count : Nat → Prop) (R : CostRel D) : CostRel D :=
  fun d n d' => ∃ k, count k ∧ power R k d n d'

theorem tick_seq_iff {R : CostRel D} {d d' : D} {n : Nat} :
    (tick.seq R) d n d' ↔ ∃ m, R d m d' ∧ n = m + 1 := by
  constructor
  · rintro ⟨n₁, m, n₂, ⟨rfl, rfl⟩, hR, rfl⟩
    exact ⟨n₂, hR, by omega⟩
  · rintro ⟨m, hR, rfl⟩
    exact ⟨1, d, m, ⟨rfl, rfl⟩, hR, by omega⟩

theorem seq_tick_iff {R : CostRel D} {d d' : D} {n : Nat} :
    (R.seq tick) d n d' ↔ ∃ m, R d m d' ∧ n = m + 1 := by
  constructor
  · rintro ⟨n₁, m, n₂, hR, ⟨rfl, rfl⟩, rfl⟩
    exact ⟨n₁, hR, by omega⟩
  · rintro ⟨m, hR, rfl⟩
    exact ⟨m, d', 1, hR, ⟨rfl, rfl⟩, rfl⟩

theorem seq_assoc (R S T : CostRel D) : (R.seq S).seq T = R.seq (S.seq T) := by
  funext d n d'
  apply propext
  constructor
  · rintro ⟨n₁, m₁, n₂, ⟨n₃, m₂, n₄, hR, hS, rfl⟩, hT, rfl⟩
    exact ⟨n₃, m₂, n₄ + n₂, hR, ⟨n₄, m₁, n₂, hS, hT, rfl⟩, by omega⟩
  · rintro ⟨n₁, m₁, n₂, hR, ⟨n₃, m₂, n₄, hS, hT, rfl⟩, rfl⟩
    exact ⟨n₁ + n₃, m₂, n₄, ⟨n₁, m₁, n₃, hR, hS, rfl⟩, hT, by omega⟩

/-- At least one round is one round followed by any number of them. -/
theorem many_pos_iff {R : CostRel D} {d d' : D} {n : Nat} :
    many (fun k => 1 ≤ k) R d n d' ↔ (R.seq (many (fun _ => True) R)) d n d' := by
  constructor
  · rintro ⟨k, hk, hpow⟩
    cases k with
    | zero => omega
    | succ j =>
        rcases hpow with ⟨n₁, m, n₂, hR, hrest, rfl⟩
        exact ⟨n₁, m, n₂, hR, ⟨j, trivial, hrest⟩, rfl⟩
  · rintro ⟨n₁, m, n₂, hR, ⟨j, _, hrest⟩, rfl⟩
    exact ⟨j + 1, by omega, n₁, m, n₂, hR, hrest, rfl⟩

/-- Any number of rounds is none at all, or one followed by any number. -/
theorem many_any_iff {R : CostRel D} {d d' : D} {n : Nat} :
    many (fun _ => True) R d n d' ↔
      (n = 0 ∧ d' = d) ∨ (R.seq (many (fun _ => True) R)) d n d' := by
  rw [← many_pos_iff]
  constructor
  · rintro ⟨k, _, hpow⟩
    cases k with
    | zero => exact Or.inl hpow
    | succ j => exact Or.inr ⟨j + 1, by omega, hpow⟩
  · rintro (hnil | ⟨k, _, hpow⟩)
    · exact ⟨0, trivial, hnil⟩
    · exact ⟨k, trivial, hpow⟩

/-- At most one round is none at all, or one. -/
theorem many_le_one_iff {R : CostRel D} {d d' : D} {n : Nat} :
    many (fun k => k ≤ 1) R d n d' ↔ (n = 0 ∧ d' = d) ∨ R d n d' := by
  constructor
  · rintro ⟨k, hk, hpow⟩
    rcases k with _ | _ | k
    · exact Or.inl hpow
    · rcases hpow with ⟨n₁, m, n₂, hR, ⟨rfl, rfl⟩, rfl⟩
      exact Or.inr hR
    · omega
  · rintro (hnil | hR)
    · exact ⟨0, by omega, hnil⟩
    · exact ⟨1, by omega, n, d', 0, hR, ⟨rfl, rfl⟩, rfl⟩

/-- Whatever the cost, the data on entry and on arrival are related. -/
def Within (R : CostRel D) (Q : D → D → Prop) : Prop :=
  ∀ d n d', R d n d' → Q d d'

section Within

variable {Q : D → D → Prop} {R S : CostRel D}

theorem within_atom {act : D → D → Prop} (h : ∀ d d', act d d' → Q d d') :
    Within (atom act) Q :=
  fun d _ d' hact => h d d' hact.2

variable (hrefl : ∀ d, Q d d) (htrans : ∀ d m d', Q d m → Q m d' → Q d d')

include hrefl in
theorem within_tick : Within tick Q := by
  refine within_atom fun d d' heq => ?_
  rw [heq]
  exact hrefl d

include htrans in
theorem Within.seq (hR : Within R Q) (hS : Within S Q) : Within (R.seq S) Q := by
  intro d n d' h
  rcases h with ⟨n₁, m, n₂, h₁, h₂, -⟩
  exact htrans d m d' (hR d n₁ m h₁) (hS m n₂ d' h₂)

include hrefl htrans in
/-- A relation that one round stays within is one that all rounds do, if it is
    reflexive and transitive. -/
theorem Within.many (hR : Within R Q) (count : Nat → Prop) : Within (many count R) Q := by
  have hpower : ∀ k, Within (power R k) Q := by
    intro k
    induction k with
    | zero =>
        intro d n d' h
        rw [h.2]
        exact hrefl d
    | succ k ih => exact hR.seq htrans ih
  intro d n d' h
  rcases h with ⟨k, -, hk⟩
  exact hpower k d n d' hk

end Within

/-- The pairs a relation allows at some cost. -/
def Possible (R : CostRel D) (d d' : D) : Prop :=
  ∃ n, R d n d'

theorem possible_atom {act : D → D → Prop} {d d' : D} : Possible (atom act) d d' ↔ act d d' :=
  ⟨fun ⟨_, _, hact⟩ => hact, fun hact => ⟨1, rfl, hact⟩⟩

theorem possible_seq {R S : CostRel D} {d d' : D} :
    Possible (R.seq S) d d' ↔ ∃ m, Possible R d m ∧ Possible S m d' := by
  constructor
  · rintro ⟨_, n₁, m, n₂, hR, hS, rfl⟩
    exact ⟨m, ⟨n₁, hR⟩, ⟨n₂, hS⟩⟩
  · rintro ⟨m, ⟨n₁, hR⟩, ⟨n₂, hS⟩⟩
    exact ⟨n₁ + n₂, n₁, m, n₂, hR, hS, rfl⟩

@[simp] theorem possible_tick_seq {R : CostRel D} {d d' : D} :
    Possible (tick.seq R) d d' ↔ Possible R d d' := by
  constructor
  · rintro ⟨_, h⟩
    rcases tick_seq_iff.mp h with ⟨m, hR, -⟩
    exact ⟨m, hR⟩
  · rintro ⟨m, hR⟩
    exact ⟨m + 1, tick_seq_iff.mpr ⟨m, hR, rfl⟩⟩

@[simp] theorem possible_seq_tick {R : CostRel D} {d d' : D} :
    Possible (R.seq tick) d d' ↔ Possible R d d' := by
  constructor
  · rintro ⟨_, h⟩
    rcases seq_tick_iff.mp h with ⟨m, hR, -⟩
    exact ⟨m, hR⟩
  · rintro ⟨m, hR⟩
    exact ⟨m + 1, seq_tick_iff.mpr ⟨m, hR, rfl⟩⟩

theorem possible_power {R : CostRel D} {k : Nat} {d d' : D} :
    Possible (power R k) d d' ↔ Runs (Possible R) k d d' := by
  induction k generalizing d with
  | zero =>
      simp only [Possible, power, exists_eq_left, Runs.zero_iff]
      exact eq_comm
  | succ k ih =>
      rw [power, possible_seq, Runs.succ_iff]
      simp only [ih]

/-- Forgetting costs, so many rounds are an iteration of one round. -/
theorem possible_many {count : Nat → Prop} {R : CostRel D} {d d' : D} :
    Possible (many count R) d d' ↔ ∃ k, count k ∧ Runs (Possible R) k d d' := by
  simp only [← possible_power]
  constructor
  · rintro ⟨n, k, hk, hpow⟩
    exact ⟨k, hk, n, hpow⟩
  · rintro ⟨k, hk, n, hpow⟩
    exact ⟨n, k, hk, hpow⟩

/-- A tick after each round makes no difference to what is possible. -/
theorem possible_many_tick {count : Nat → Prop} {R : CostRel D} {d d' : D} :
    Possible (many count (R.seq tick)) d d' ↔ ∃ k, count k ∧ Runs (Possible R) k d d' := by
  have htick : Possible (R.seq tick) = Possible R := by
    funext d d'
    exact propext possible_seq_tick
  rw [possible_many, htick]

/-- Rounds of a single action, each followed by a tick, cost two each. -/
theorem power_atom_tick_iff {act : D → D → Prop} {k n : Nat} {d d' : D} :
    power ((atom act).seq tick) k d n d' ↔ n = 2 * k ∧ Runs act k d d' := by
  induction k generalizing d n with
  | zero =>
      simp only [power, Nat.mul_zero, Runs.zero_iff]
      exact and_congr_right fun _ => eq_comm
  | succ k ih =>
      rw [power, Runs.succ_iff]
      constructor
      · rintro ⟨n₁, m, n₂, hround, hrest, rfl⟩
        rcases seq_tick_iff.mp hround with ⟨j, ⟨rfl, hact⟩, rfl⟩
        rcases ih.mp hrest with ⟨rfl, hruns⟩
        exact ⟨by omega, m, hact, hruns⟩
      · rintro ⟨rfl, m, hact, hruns⟩
        exact ⟨2, m, 2 * k, seq_tick_iff.mpr ⟨1, ⟨rfl, hact⟩, rfl⟩, ih.mpr ⟨rfl, hruns⟩, by omega⟩

end CostRel

section Systems

variable {σ D : Type*} {step step' : σ × D → σ × D → Prop}

/-- A step out of a set of locations. -/
def Inside (step : σ × D → σ × D → Prop) (I : Set σ) (x y : σ × D) : Prop :=
  x.1 ∈ I ∧ step x y

/-- All steps out of `q` lead to `t` and change the data as `act` says. -/
def Link (step : σ × D → σ × D → Prop) (q : σ) (act : D → D → Prop) (t : σ) : Prop :=
  ∀ d x, step (q, d) x ↔ x.1 = t ∧ act d x.2

/-- All steps out of `q` lead to `targets` and keep the data. -/
def Fork (step : σ × D → σ × D → Prop) (q : σ) (targets : Set σ) : Prop :=
  ∀ d x, step (q, d) x ↔ x.1 ∈ targets ∧ x.2 = d

/-- A set of locations entered at `start` and left only towards `accept`, and
    what crossing it does to the data and costs. -/
structure Fragment (step : σ × D → σ × D → Prop) (I : Set σ) (start accept : σ)
    (R : CostRel D) : Prop where
  start_mem : start ∈ I
  accept_notMem : accept ∉ I
  closed : ∀ q ∈ I, ∀ d x, step (q, d) x → x.1 ∈ I ∨ x.1 = accept
  runs_iff : ∀ d n d', Runs (Inside step I) n (start, d) (accept, d') ↔ R d n d'

/-- A run out of a location of the set that ends outside starts with a step. -/
theorem runs_from_mem_iff {J : Set σ} {q t : σ} {d d' : D} {n : Nat} (hq : q ∈ J) (ht : t ∉ J) :
    Runs (Inside step J) n (q, d) (t, d') ↔
      ∃ m x, step (q, d) x ∧ Runs (Inside step J) m x (t, d') ∧ n = m + 1 := by
  constructor
  · intro h
    cases h with
    | refl => exact absurd hq ht
    | @head m _ x _ hstep hrest => exact ⟨m, x, hstep.2, hrest, rfl⟩
  · rintro ⟨m, x, hstep, hrest, rfl⟩
    exact Runs.head _ x _ ⟨hq, hstep⟩ hrest

/-- A run out of a location outside the set has no step. -/
theorem runs_from_notMem_iff {J : Set σ} {q t : σ} {d d' : D} {n : Nat} (hq : q ∉ J) :
    Runs (Inside step J) n (q, d) (t, d') ↔ n = 0 ∧ q = t ∧ d' = d := by
  constructor
  · intro h
    cases h with
    | refl => exact ⟨rfl, rfl, rfl⟩
    | head _ _ _ hstep _ => exact absurd hstep.1 hq
  · rintro ⟨rfl, rfl, rfl⟩
    exact Runs.refl _

/-- A run out of a linked location crosses the link. -/
theorem Link.runs_iff {J : Set σ} {q t u : σ} {act : D → D → Prop} (hl : Link step q act u)
    (hq : q ∈ J) (ht : t ∉ J) {d d' : D} {n : Nat} :
    Runs (Inside step J) n (q, d) (t, d') ↔
      ∃ m e, act d e ∧ Runs (Inside step J) m (u, e) (t, d') ∧ n = m + 1 := by
  rw [runs_from_mem_iff hq ht]
  constructor
  · rintro ⟨m, ⟨u', e⟩, hstep, hrest, rfl⟩
    rw [hl] at hstep
    rcases hstep with ⟨rfl, hact⟩
    exact ⟨m, e, hact, hrest, rfl⟩
  · rintro ⟨m, e, hact, hrest, rfl⟩
    exact ⟨m, (u, e), (hl d (u, e)).mpr ⟨rfl, hact⟩, hrest, rfl⟩

/-- A run out of a forking location takes one of the branches. -/
theorem Fork.runs_iff {J : Set σ} {q t : σ} {targets : Set σ} (hf : Fork step q targets)
    (hq : q ∈ J) (ht : t ∉ J) {d d' : D} {n : Nat} :
    Runs (Inside step J) n (q, d) (t, d') ↔
      ∃ m, ∃ u ∈ targets, Runs (Inside step J) m (u, d) (t, d') ∧ n = m + 1 := by
  rw [runs_from_mem_iff hq ht]
  constructor
  · rintro ⟨m, ⟨u, e⟩, hstep, hrest, rfl⟩
    rw [hf] at hstep
    rcases hstep with ⟨hu, rfl⟩
    exact ⟨m, u, hu, hrest, rfl⟩
  · rintro ⟨m, u, hu, hrest, rfl⟩
    exact ⟨m, (u, d), (hf d (u, d)).mpr ⟨hu, rfl⟩, hrest, rfl⟩

namespace Fragment

variable {I I₁ I₂ J : Set σ} {s a s₁ a₁ s₂ a₂ : σ} {R R₁ R₂ : CostRel D}

/-- Steps from outside the interior do not matter to a fragment. -/
theorem congr (hF : Fragment step I s a R)
    (hsame : ∀ q ∈ I, ∀ d x, step' (q, d) x ↔ step (q, d) x) : Fragment step' I s a R := by
  have hInside : Inside step' I = Inside step I := by
    funext x y
    apply propext
    constructor
    · exact fun h => ⟨h.1, (hsame x.1 h.1 x.2 y).mp h.2⟩
    · exact fun h => ⟨h.1, (hsame x.1 h.1 x.2 y).mpr h.2⟩
  refine ⟨hF.start_mem, hF.accept_notMem, fun q hq d x h => ?_, fun d n d' => ?_⟩
  · exact hF.closed q hq d x ((hsame q hq d x).mp h)
  · rw [hInside]
    exact hF.runs_iff d n d'

theorem congr_rel (hF : Fragment step I s a R) {R' : CostRel D}
    (h : ∀ d n d', R d n d' ↔ R' d n d') : Fragment step I s a R' :=
  ⟨hF.start_mem, hF.accept_notMem, hF.closed, fun d n d' => (hF.runs_iff d n d').trans (h d n d')⟩

/-- A run of a larger set that starts in a fragment and ends outside it passes
    the fragment's accept location. -/
theorem exits (hF : Fragment step I s a R) {t : σ} (ht : t ∉ I) {n : Nat} {x : σ × D} {d' : D}
    (h : Runs (Inside step J) n x (t, d')) (hx : x.1 ∈ I ∨ x.1 = a) :
    ∃ n₁ e n₂, Runs (Inside step I) n₁ x (a, e) ∧ Runs (Inside step J) n₂ (a, e) (t, d') ∧
      n = n₁ + n₂ := by
  generalize hy : (t, d') = y at h
  induction h with
  | refl x =>
      subst hy
      rcases hx with hx | hx
      · exact absurd hx ht
      · simp only at hx
        subst hx
        exact ⟨0, d', 0, Runs.refl _, Runs.refl _, rfl⟩
  | @head m x y z hstep hrest ih =>
      rcases hx with hx | hx
      · rcases ih (hF.closed x.1 hx x.2 y hstep.2) hy with ⟨n₁, e, n₂, hfirst, hlast, hn⟩
        exact ⟨n₁ + 1, e, n₂, Runs.head x y _ ⟨hx, hstep.2⟩ hfirst, hlast, by omega⟩
      · rcases x with ⟨q, e⟩
        simp only at hx
        subst hx
        exact ⟨0, e, m + 1, Runs.refl _, Runs.head _ y z hstep hrest, by omega⟩

/-- A run of a larger set from a fragment's entry to a location outside the
    fragment is a crossing of the fragment and a run from its accept
    location. -/
theorem runs_iff_through (hF : Fragment step I s a R) (hIJ : I ⊆ J) {t : σ} (ht : t ∉ I)
    {n : Nat} {d d' : D} :
    Runs (Inside step J) n (s, d) (t, d') ↔
      ∃ n₁ e n₂, R d n₁ e ∧ Runs (Inside step J) n₂ (a, e) (t, d') ∧ n = n₁ + n₂ := by
  constructor
  · intro h
    rcases hF.exits ht h (Or.inl hF.start_mem) with ⟨n₁, e, n₂, hfirst, hlast, hn⟩
    exact ⟨n₁, e, n₂, (hF.runs_iff d n₁ e).mp hfirst, hlast, hn⟩
  · rintro ⟨n₁, e, n₂, hR, hlast, rfl⟩
    have hfirst : Runs (Inside step J) n₁ (s, d) (a, e) :=
      ((hF.runs_iff d n₁ e).mpr hR).mono (fun _ _ h => ⟨hIJ h.1, h.2⟩)
    exact hfirst.trans hlast

/-- A single link is a fragment. -/
theorem atom {act : D → D → Prop} (hl : Link step s act a) (hne : a ≠ s) :
    Fragment step {s} s a (CostRel.atom act) := by
  refine ⟨rfl, hne, ?_, fun d n d' => ?_⟩
  · rintro q rfl d x hstep
    exact Or.inr ((hl d x).mp hstep).1
  · rw [hl.runs_iff (Set.mem_singleton s) hne]
    constructor
    · rintro ⟨m, e, hact, hrest, rfl⟩
      rw [runs_from_notMem_iff (J := {s}) hne] at hrest
      rcases hrest with ⟨rfl, -, rfl⟩
      exact ⟨rfl, hact⟩
    · rintro ⟨rfl, hact⟩
      exact ⟨0, d', hact, Runs.refl _, rfl⟩

/-- Two fragments joined by a link from the accept location of the first to
    the entry of the second. -/
theorem seq {act : D → D → Prop} (h₁ : Fragment step I₁ s₁ a₁ R₁)
    (h₂ : Fragment step I₂ s₂ a₂ R₂) (hl : Link step a₁ act s₂)
    (hJ : ∀ q, q ∈ J ↔ q ∈ I₁ ∨ q = a₁ ∨ q ∈ I₂) (ha : a₂ ∉ J) :
    Fragment step J s₁ a₂ (R₁.seq ((CostRel.atom act).seq R₂)) := by
  have hI₁ : I₁ ⊆ J := fun q hq => (hJ q).mpr (Or.inl hq)
  have hI₂ : I₂ ⊆ J := fun q hq => (hJ q).mpr (Or.inr (Or.inr hq))
  have ha₁ : a₁ ∈ J := (hJ a₁).mpr (Or.inr (Or.inl rfl))
  refine ⟨hI₁ h₁.start_mem, ha, fun q hq d x hstep => ?_, fun d n d' => ?_⟩
  · rcases (hJ q).mp hq with hq | rfl | hq
    · rcases h₁.closed q hq d x hstep with hx | hx
      · exact Or.inl (hI₁ hx)
      · rw [hx]
        exact Or.inl ha₁
    · rw [((hl d x).mp hstep).1]
      exact Or.inl (hI₂ h₂.start_mem)
    · rcases h₂.closed q hq d x hstep with hx | hx
      · exact Or.inl (hI₂ hx)
      · exact Or.inr hx
  · rw [h₁.runs_iff_through hI₁ (fun hc => ha (hI₁ hc))]
    constructor
    -- A run is cut where it leaves the first fragment, and again behind the link.
    · rintro ⟨n₁, e, n₂, hR₁, hrest, rfl⟩
      rw [hl.runs_iff ha₁ ha] at hrest
      rcases hrest with ⟨m, e', hact, hrest, rfl⟩
      rw [h₂.runs_iff_through hI₂ (fun hc => ha (hI₂ hc))] at hrest
      rcases hrest with ⟨n₃, e'', n₄, hR₂, hrest, rfl⟩
      rw [runs_from_notMem_iff ha] at hrest
      rcases hrest with ⟨rfl, -, rfl⟩
      exact ⟨n₁, e, n₃ + 0 + 1, hR₁, ⟨1, e', n₃, ⟨rfl, hact⟩, hR₂, by omega⟩, rfl⟩
    · rintro ⟨n₁, e, n₂, hR₁, ⟨n₃, e', n₄, ⟨rfl, hact⟩, hR₂, rfl⟩, rfl⟩
      refine ⟨n₁, e, 1 + n₄, hR₁, ?_, rfl⟩
      rw [hl.runs_iff ha₁ ha]
      refine ⟨n₄, e', hact, ?_, by omega⟩
      rw [h₂.runs_iff_through hI₂ (fun hc => ha (hI₂ hc))]
      exact ⟨n₄, d', 0, hR₂, Runs.refl _, rfl⟩

/-- A fragment with a link in front of its entry and one behind its accept
    location. -/
theorem wrap {act₁ act₂ : D → D → Prop} {s₀ a₀ : σ} (hF : Fragment step I s a R)
    (hl₁ : Link step s₀ act₁ s) (hl₂ : Link step a act₂ a₀)
    (hJ : ∀ q, q ∈ J ↔ q = s₀ ∨ q ∈ I ∨ q = a) (ha : a₀ ∉ J) :
    Fragment step J s₀ a₀ ((CostRel.atom act₁).seq (R.seq (CostRel.atom act₂))) := by
  have hI : I ⊆ J := fun q hq => (hJ q).mpr (Or.inr (Or.inl hq))
  have hs₀ : s₀ ∈ J := (hJ s₀).mpr (Or.inl rfl)
  have haJ : a ∈ J := (hJ a).mpr (Or.inr (Or.inr rfl))
  refine ⟨hs₀, ha, fun q hq d x hstep => ?_, fun d n d' => ?_⟩
  · rcases (hJ q).mp hq with rfl | hq | rfl
    · rw [((hl₁ d x).mp hstep).1]
      exact Or.inl (hI hF.start_mem)
    · rcases hF.closed q hq d x hstep with hx | hx
      · exact Or.inl (hI hx)
      · rw [hx]
        exact Or.inl haJ
    · exact Or.inr ((hl₂ d x).mp hstep).1
  · rw [hl₁.runs_iff hs₀ ha]
    constructor
    -- One link leads in and one leads out, each with a step of its own.
    · rintro ⟨m, e, hact₁, hrest, rfl⟩
      rw [hF.runs_iff_through hI (fun hc => ha (hI hc))] at hrest
      rcases hrest with ⟨n₁, e', n₂, hR, hrest, rfl⟩
      rw [hl₂.runs_iff haJ ha] at hrest
      rcases hrest with ⟨m, e'', hact₂, hrest, rfl⟩
      rw [runs_from_notMem_iff ha] at hrest
      rcases hrest with ⟨rfl, -, rfl⟩
      exact ⟨1, e, n₁ + 1, ⟨rfl, hact₁⟩, ⟨n₁, e', 1, hR, ⟨rfl, hact₂⟩, rfl⟩, by omega⟩
    · rintro ⟨n₁, e, n₂, ⟨rfl, hact₁⟩, ⟨n₃, e', n₄, hR, ⟨rfl, hact₂⟩, rfl⟩, rfl⟩
      refine ⟨n₃ + 1, e, hact₁, ?_, by omega⟩
      rw [hF.runs_iff_through hI (fun hc => ha (hI hc))]
      refine ⟨n₃, e', 1, hR, ?_, rfl⟩
      rw [hl₂.runs_iff haJ ha]
      exact ⟨0, d', hact₂, Runs.refl _, rfl⟩

end Fragment

/-- The data of one branch of an alternation. -/
structure Branch (σ D : Type*) where
  interior : Set σ
  start : σ
  accept : σ
  meaning : CostRel D

namespace Fragment

variable {I J : Set σ} {s a : σ} {R : CostRel D}

/-- Branches entered from one forking location and all linked to one accept
    location. -/
theorem alternation {s₀ a₀ : σ} {branches : List (Branch σ D)}
    (hF : ∀ b ∈ branches, Fragment step b.interior b.start b.accept b.meaning)
    (hf : Fork step s₀ {q | ∃ b ∈ branches, q = b.start})
    (hl : ∀ b ∈ branches, Fork step b.accept {a₀})
    (hJ : ∀ q, q ∈ J ↔ q = s₀ ∨ ∃ b ∈ branches, q ∈ b.interior ∨ q = b.accept) (ha : a₀ ∉ J) :
    Fragment step J s₀ a₀ (fun d n d' =>
      ∃ b ∈ branches, (CostRel.tick.seq (b.meaning.seq CostRel.tick)) d n d') := by
  have hI : ∀ b ∈ branches, b.interior ⊆ J :=
    fun b hb q hq => (hJ q).mpr (Or.inr ⟨b, hb, Or.inl hq⟩)
  have hs₀ : s₀ ∈ J := (hJ s₀).mpr (Or.inl rfl)
  have haJ : ∀ b ∈ branches, b.accept ∈ J :=
    fun b hb => (hJ b.accept).mpr (Or.inr ⟨b, hb, Or.inr rfl⟩)
  refine ⟨hs₀, ha, fun q hq d x hstep => ?_, fun d n d' => ?_⟩
  · rcases (hJ q).mp hq with rfl | ⟨b, hb, hq | rfl⟩
    · rcases ((hf d x).mp hstep).1 with ⟨b, hb, hx⟩
      rw [hx]
      exact Or.inl (hI b hb (hF b hb).start_mem)
    · rcases (hF b hb).closed q hq d x hstep with hx | hx
      · exact Or.inl (hI b hb hx)
      · rw [hx]
        exact Or.inl (haJ b hb)
    · exact Or.inr ((hl b hb d x).mp hstep).1
  · rw [hf.runs_iff hs₀ ha]
    constructor
    · rintro ⟨m, u, ⟨b, hb, rfl⟩, hrest, rfl⟩
      -- The branch is run through to its accept location, which leads to the new one.
      rw [(hF b hb).runs_iff_through (hI b hb) (fun hc => ha (hI b hb hc))] at hrest
      rcases hrest with ⟨n₁, e, n₂, hR, hrest, rfl⟩
      rw [(hl b hb).runs_iff (haJ b hb) ha] at hrest
      rcases hrest with ⟨m, u, hu, hrest, rfl⟩
      rw [Set.mem_singleton_iff] at hu
      subst hu
      rw [runs_from_notMem_iff ha] at hrest
      rcases hrest with ⟨rfl, -, rfl⟩
      refine ⟨b, hb, ?_⟩
      rw [CostRel.tick_seq_iff]
      exact ⟨n₁ + 1, CostRel.seq_tick_iff.mpr ⟨n₁, hR, rfl⟩, rfl⟩
    · rintro ⟨b, hb, hrun⟩
      rw [CostRel.tick_seq_iff] at hrun
      rcases hrun with ⟨m, hrun, rfl⟩
      rw [CostRel.seq_tick_iff] at hrun
      rcases hrun with ⟨n₁, hR, rfl⟩
      refine ⟨n₁ + 1, b.start, ⟨b, hb, rfl⟩, ?_, rfl⟩
      rw [(hF b hb).runs_iff_through (hI b hb) (fun hc => ha (hI b hb hc))]
      refine ⟨n₁, d', 1, hR, ?_, rfl⟩
      rw [(hl b hb).runs_iff (haJ b hb) ha]
      exact ⟨0, a₀, rfl, Runs.refl _, rfl⟩

/-- Runs from the accept location of a looped fragment: leave the loop, or go
    round once more. By induction on the length of the run. -/
theorem loop_runs_iff {a₀ : σ} (hF : Fragment step I s a R) (hI : I ⊆ J) (haJ : a ∈ J)
    (hf : Fork step a {s, a₀}) (ha : a₀ ∉ J) {d' : D} :
    ∀ (n : Nat) (d : D), Runs (Inside step J) n (a, d) (a₀, d') ↔
      (CostRel.tick.seq (CostRel.many (fun _ => True) (R.seq CostRel.tick))) d n d' := by
  intro n
  induction n using Nat.strong_induction_on with
  | _ n ih =>
    intro d
    rw [hf.runs_iff haJ ha, CostRel.tick_seq_iff]
    constructor
    · rintro ⟨m, u, hu, hrest, rfl⟩
      refine ⟨m, ?_, rfl⟩
      rw [CostRel.many_any_iff]
      rcases hu with rfl | hu
      · rw [hF.runs_iff_through hI (fun hc => ha (hI hc))] at hrest
        rcases hrest with ⟨n₁, e, n₂, hR, hrest, rfl⟩
        rw [ih n₂ (by omega) e] at hrest
        rw [CostRel.seq_assoc]
        exact Or.inr ⟨n₁, e, n₂, hR, hrest, rfl⟩
      · rw [Set.mem_singleton_iff] at hu
        subst hu
        rw [runs_from_notMem_iff ha] at hrest
        exact Or.inl ⟨hrest.1, hrest.2.2⟩
    · rintro ⟨m, hrest, rfl⟩
      rw [CostRel.many_any_iff] at hrest
      rcases hrest with ⟨rfl, rfl⟩ | hrest
      · exact ⟨0, a₀, Or.inr rfl, Runs.refl _, rfl⟩
      · rw [CostRel.seq_assoc] at hrest
        rcases hrest with ⟨n₁, e, n₂, hR, hrest, rfl⟩
        refine ⟨n₁ + n₂, s, Or.inl rfl, ?_, rfl⟩
        rw [hF.runs_iff_through hI (fun hc => ha (hI hc))]
        exact ⟨n₁, e, n₂, hR, (ih n₂ (by omega) e).mpr hrest, rfl⟩

/-- The steps out of a looped fragment stay in it or leave the loop. -/
theorem loop_closed {a₀ : σ} (hF : Fragment step I s a R) (hI : I ⊆ J) (haJ : a ∈ J)
    (hf : Fork step a {s, a₀}) {q : σ} (hq : q ∈ I ∨ q = a) {d : D} {x : σ × D}
    (hstep : step (q, d) x) : x.1 ∈ J ∨ x.1 = a₀ := by
  rcases hq with hq | rfl
  · rcases hF.closed q hq d x hstep with hx | hx
    · exact Or.inl (hI hx)
    · rw [hx]
      exact Or.inl haJ
  · rcases ((hf d x).mp hstep).1 with hx | hx
    · rw [hx]
      exact Or.inl (hI hF.start_mem)
    · exact Or.inr hx

/-- A fragment repeated once or more: its accept location leads back to its
    entry, or out. -/
theorem plus {a₀ : σ} (hF : Fragment step I s a R) (hf : Fork step a {s, a₀})
    (hJ : ∀ q, q ∈ J ↔ q ∈ I ∨ q = a) (ha : a₀ ∉ J) :
    Fragment step J s a₀ (CostRel.many (fun k => 1 ≤ k) (R.seq CostRel.tick)) := by
  have hI : I ⊆ J := fun q hq => (hJ q).mpr (Or.inl hq)
  have haJ : a ∈ J := (hJ a).mpr (Or.inr rfl)
  refine ⟨hI hF.start_mem, ha, fun q hq d x hstep => ?_, fun d n d' => ?_⟩
  · exact hF.loop_closed hI haJ hf ((hJ q).mp hq) hstep
  · -- The first round enters the body directly, and the others are those of a loop.
    rw [hF.runs_iff_through hI (fun hc => ha (hI hc)), CostRel.many_pos_iff, CostRel.seq_assoc]
    constructor
    · rintro ⟨n₁, e, n₂, hR, hrest, rfl⟩
      exact ⟨n₁, e, n₂, hR, (hF.loop_runs_iff hI haJ hf ha n₂ e).mp hrest, rfl⟩
    · rintro ⟨n₁, e, n₂, hR, hrest, rfl⟩
      exact ⟨n₁, e, n₂, hR, (hF.loop_runs_iff hI haJ hf ha n₂ e).mpr hrest, rfl⟩

/-- A fragment repeated any number of times: a new entry leads where the
    accept location leads, which is back to the old entry, or out. -/
theorem star {s₀ a₀ : σ} (hF : Fragment step I s a R) (hf₀ : Fork step s₀ {s, a₀})
    (hf : Fork step a {s, a₀}) (hJ : ∀ q, q ∈ J ↔ q = s₀ ∨ q ∈ I ∨ q = a) (ha : a₀ ∉ J) :
    Fragment step J s₀ a₀
      (CostRel.tick.seq (CostRel.many (fun _ => True) (R.seq CostRel.tick))) := by
  have hI : I ⊆ J := fun q hq => (hJ q).mpr (Or.inr (Or.inl hq))
  have hs₀ : s₀ ∈ J := (hJ s₀).mpr (Or.inl rfl)
  have haJ : a ∈ J := (hJ a).mpr (Or.inr (Or.inr rfl))
  refine ⟨hs₀, ha, fun q hq d x hstep => ?_, fun d n d' => ?_⟩
  · rcases (hJ q).mp hq with rfl | hq
    · rcases ((hf₀ d x).mp hstep).1 with hx | hx
      · rw [hx]
        exact Or.inl (hI hF.start_mem)
      · exact Or.inr hx
    · -- Inside the loop nothing is new but the way out.
      exact hF.loop_closed hI haJ hf hq hstep
  · -- The new entry forks exactly as the accept location does.
    rw [hf₀.runs_iff hs₀ ha, ← hf.runs_iff haJ ha]
    exact hF.loop_runs_iff hI haJ hf ha n d

/-- A fragment that may be passed by. -/
theorem option {s₀ a₀ : σ} (hF : Fragment step I s a R) (hf₀ : Fork step s₀ {s, a₀})
    (hf : Fork step a {a₀}) (hJ : ∀ q, q ∈ J ↔ q = s₀ ∨ q ∈ I ∨ q = a) (ha : a₀ ∉ J) :
    Fragment step J s₀ a₀
      (CostRel.tick.seq (CostRel.many (fun k => k ≤ 1) (R.seq CostRel.tick))) := by
  have hI : I ⊆ J := fun q hq => (hJ q).mpr (Or.inr (Or.inl hq))
  have hs₀ : s₀ ∈ J := (hJ s₀).mpr (Or.inl rfl)
  have haJ : a ∈ J := (hJ a).mpr (Or.inr (Or.inr rfl))
  refine ⟨hs₀, ha, fun q hq d x hstep => ?_, fun d n d' => ?_⟩
  · rcases (hJ q).mp hq with rfl | hq | rfl
    · rcases ((hf₀ d x).mp hstep).1 with hx | hx
      · rw [hx]
        exact Or.inl (hI hF.start_mem)
      · exact Or.inr hx
    · rcases hF.closed q hq d x hstep with hx | hx
      · exact Or.inl (hI hx)
      · rw [hx]
        exact Or.inl haJ
    · exact Or.inr ((hf d x).mp hstep).1
  · rw [hf₀.runs_iff hs₀ ha, CostRel.tick_seq_iff]
    constructor
    · rintro ⟨m, u, hu, hrest, rfl⟩
      refine ⟨m, ?_, rfl⟩
      rw [CostRel.many_le_one_iff, CostRel.seq_tick_iff]
      -- Either the body is entered, once, or it is passed by.
      rcases hu with rfl | hu
      · rw [hF.runs_iff_through hI (fun hc => ha (hI hc))] at hrest
        rcases hrest with ⟨n₁, e, n₂, hR, hrest, rfl⟩
        rw [hf.runs_iff haJ ha] at hrest
        rcases hrest with ⟨m, u, hu, hrest, rfl⟩
        rw [Set.mem_singleton_iff] at hu
        subst hu
        rw [runs_from_notMem_iff ha] at hrest
        rcases hrest with ⟨rfl, -, rfl⟩
        exact Or.inr ⟨n₁, hR, rfl⟩
      · rw [Set.mem_singleton_iff] at hu
        subst hu
        rw [runs_from_notMem_iff ha] at hrest
        exact Or.inl ⟨hrest.1, hrest.2.2⟩
    · rintro ⟨m, hrest, rfl⟩
      rw [CostRel.many_le_one_iff, CostRel.seq_tick_iff] at hrest
      rcases hrest with ⟨rfl, rfl⟩ | ⟨n₁, hR, rfl⟩
      · exact ⟨0, a₀, Or.inr rfl, Runs.refl _, rfl⟩
      · refine ⟨n₁ + 1, s, Or.inl rfl, ?_, rfl⟩
        rw [hF.runs_iff_through hI (fun hc => ha (hI hc))]
        refine ⟨n₁, d', 1, hR, ?_, rfl⟩
        rw [hf.runs_iff haJ ha]
        exact ⟨0, a₀, rfl, Runs.refl _, rfl⟩

end Fragment

end Systems

end CodingChallenges
