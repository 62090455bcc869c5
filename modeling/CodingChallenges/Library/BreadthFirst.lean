import Mathlib.Data.List.Nodup
import CodingChallenges.Library.CountedRuns

/-!
# Breadth-First Search

A first-in first-out search that may fail, over any kind of node.

The search pops a node, skips it if its key was seen before, stops if it is a
goal, and else expands it, which may raise an error, and pushes what comes out.
Nothing is assumed about keys except that they tell apart the nodes the search
can reach, and nothing about errors except that the search stops at the first.

The queue always holds the rest of one layer followed by part of the next one,
a layer being the nodes at the end of runs of one length. `Layered` says this,
and that everything at the end of a shorter run was expanded. Popping a node
keeps it (`Layered.skip`, `Layered.expand`), and when the front layer is used
up the next one takes its place (`Layered.shift`). So the first goal popped ends
a run no longer than any other run to a goal, and an empty queue means there is
none.

The search terminates because each round shortens the queue or adds a key. If
there are at most `N` keys and an expansion pushes at most `B` nodes, a queue
alone is used up after its length in rounds, and each new key puts off that end
by at most `B`.

## Main definitions

* `Exploration`: How nodes are expanded, recognised as goals, and identified.
* `Frontier`: The queue and the keys seen.
* `Exploration.round`, `Exploration.loop`: The search.
* `Reachable`: A node at the end of some run.
* `Layered`: The layers of a queue.

## Theorems

* `round_eq_next`, `round_eq_done`: What a round that goes on, or one that ends the search, does.
* `layers_reached`: Every frontier the search reaches is layered.
* `loop_goal`: A goal that was found ends a shortest run.
* `loop_none`: If no goal was found there is none.
* `loop_terminates`: The rounds a search can take.
-/

namespace CodingChallenges

/-- How the nodes of a search are expanded, recognised, and identified. -/
structure Exploration (ε α κ : Type) where
  expand : α → Except ε (List α)
  goal : α → Bool
  key : α → κ

/-- The nodes to process and the keys seen. -/
structure Frontier (α κ : Type) where
  queue : List α
  seen : List κ

/-- One round: the search goes on, or ends with a goal, nothing, or an error. -/
inductive Round (ε α κ : Type) where
  | next (frontier : Frontier α κ)
  | done (result : Except ε (Option α))

namespace Exploration

variable {ε α κ : Type} [DecidableEq κ]

/-- One round takes one element off the queue. -/
def round (x : Exploration ε α κ) (frontier : Frontier α κ) : Round ε α κ :=
  match frontier.queue with
  | [] => .done (.ok none)
  | a :: rest =>
    if x.key a ∈ frontier.seen then .next { frontier with queue := rest }
    else if x.goal a then .done (.ok (some a))
    else
      match x.expand a with
      | .error e => .done (.error e)
      | .ok pushed => .next { queue := rest ++ pushed, seen := x.key a :: frontier.seen }

/-- The search with a bound on its rounds; none if the bound is hit. -/
def loop (x : Exploration ε α κ) : Nat → Frontier α κ → Option (Except ε (Option α))
  | 0, _ => none
  | fuel + 1, frontier =>
    match x.round frontier with
    | .done result => some result
    | .next frontier => x.loop fuel frontier

/-- One frontier comes right after another. -/
def Next (x : Exploration ε α κ) (f f' : Frontier α κ) : Prop :=
  x.round f = .next f'

/-- The three rounds that go on or find something, and the two that do not. -/
theorem round_cons (x : Exploration ε α κ) (a : α) (rest : List α) (seen : List κ) :
    (x.key a ∈ seen ∧ x.round ⟨a :: rest, seen⟩ = .next ⟨rest, seen⟩) ∨
    (x.key a ∉ seen ∧ x.goal a = true ∧ x.round ⟨a :: rest, seen⟩ = .done (.ok (some a))) ∨
    (x.key a ∉ seen ∧ x.goal a = false ∧ ∃ e, x.expand a = .error e ∧
      x.round ⟨a :: rest, seen⟩ = .done (.error e)) ∨
    (x.key a ∉ seen ∧ x.goal a = false ∧ ∃ pushed, x.expand a = .ok pushed ∧
      x.round ⟨a :: rest, seen⟩ = .next ⟨rest ++ pushed, x.key a :: seen⟩) := by
  unfold round
  by_cases hseen : x.key a ∈ seen
  · exact Or.inl ⟨hseen, if_pos hseen⟩
  · right
    simp only [hseen, if_false, not_false_eq_true, true_and]
    cases hgoal : x.goal a with
    | true => exact Or.inl ⟨rfl, if_pos rfl⟩
    | false =>
        right
        simp only [Bool.false_eq_true, if_false, true_and]
        cases hexpand : x.expand a with
        | error e => exact Or.inl ⟨e, rfl, rfl⟩
        | ok pushed => exact Or.inr ⟨pushed, rfl, rfl⟩

/-- A round that goes on takes the first node away, and expands it unless its key was seen. -/
theorem round_eq_next {x : Exploration ε α κ} {queue : List α} {seen : List κ}
    {f' : Frontier α κ} (h : x.round ⟨queue, seen⟩ = .next f') :
    ∃ a rest, queue = a :: rest ∧
      ((x.key a ∈ seen ∧ f' = ⟨rest, seen⟩) ∨
        (x.key a ∉ seen ∧ x.goal a = false ∧ ∃ pushed, x.expand a = .ok pushed ∧
          f' = ⟨rest ++ pushed, x.key a :: seen⟩)) := by
  cases queue with
  | nil => cases h
  | cons a rest =>
      refine ⟨a, rest, rfl, ?_⟩
      rcases x.round_cons a rest seen with
        ⟨hseen, heq⟩ | ⟨-, -, heq⟩ | ⟨-, -, e, -, heq⟩ | ⟨hseen, hgoal, pushed, hexpand, heq⟩
      · rw [heq] at h
        cases h
        exact Or.inl ⟨hseen, rfl⟩
      · rw [heq] at h
        cases h
      · rw [heq] at h
        cases h
      · rw [heq] at h
        cases h
        exact Or.inr ⟨hseen, hgoal, pushed, hexpand, rfl⟩

/-- A round that ends the search has no node, or a goal, or one that cannot be expanded. -/
theorem round_eq_done {x : Exploration ε α κ} {queue : List α} {seen : List κ}
    {result : Except ε (Option α)} (h : x.round ⟨queue, seen⟩ = .done result) :
    (queue = [] ∧ result = .ok none) ∨ ∃ a rest, queue = a :: rest ∧
      ((x.goal a = true ∧ result = .ok (some a)) ∨
        ∃ e, x.expand a = .error e ∧ result = .error e) := by
  cases queue with
  | nil =>
      cases h
      exact Or.inl ⟨rfl, rfl⟩
  | cons a rest =>
      refine Or.inr ⟨a, rest, rfl, ?_⟩
      rcases x.round_cons a rest seen with
        ⟨-, heq⟩ | ⟨-, hgoal, heq⟩ | ⟨-, -, e, hexpand, heq⟩ | ⟨-, -, pushed, -, heq⟩
      · rw [heq] at h
        cases h
      · rw [heq] at h
        cases h
        exact Or.inl ⟨hgoal, rfl⟩
      · rw [heq] at h
        cases h
        exact Or.inr ⟨e, hexpand, rfl⟩
      · rw [heq] at h
        cases h

/-- A search that ended did so in a round after finitely many others. -/
theorem loop_eq_some {x : Exploration ε α κ} {fuel : Nat} {f : Frontier α κ}
    {result : Except ε (Option α)} (h : x.loop fuel f = some result) :
    ∃ n f', Runs x.Next n f f' ∧ x.round f' = .done result := by
  induction fuel generalizing f with
  | zero => cases h
  | succ fuel ih =>
      unfold loop at h
      cases hround : x.round f with
      | done result' =>
          rw [hround] at h
          cases h
          exact ⟨0, f, Runs.refl f, hround⟩
      | next f₁ =>
          rw [hround] at h
          rcases ih h with ⟨n, f', hruns, hlast⟩
          exact ⟨n + 1, f', Runs.head f f₁ f' hround hruns, hlast⟩

/-- More rounds than were needed change nothing. -/
theorem loop_mono {x : Exploration ε α κ} {fuel fuel' : Nat} (hle : fuel ≤ fuel')
    {f : Frontier α κ} {result : Except ε (Option α)} (h : x.loop fuel f = some result) :
    x.loop fuel' f = some result := by
  induction fuel generalizing fuel' f with
  | zero => cases h
  | succ fuel ih =>
      obtain ⟨more, rfl⟩ := Nat.exists_eq_add_of_le hle
      have hsucc : fuel + 1 + more = fuel + more + 1 := by omega
      rw [hsucc]
      unfold loop at h ⊢
      cases hround : x.round f with
      | done result' =>
          rw [hround] at h
          exact h
      | next f₁ =>
          rw [hround] at h
          exact ih (Nat.le_add_right fuel more) h

end Exploration

/-- A node at the end of some run. -/
def Reachable {α : Type} (step : α → α → Prop) (s a : α) : Prop :=
  ∃ n, Runs step n s a

/-- The queue is the rest of layer `d` followed by a part of layer `d + 1`: all
    shorter runs end at nodes that were expanded, and what an expansion pushed
    is still queued or was seen itself. -/
structure Layered {ε α κ : Type} (x : Exploration ε α κ) (step : α → α → Prop) (s : α)
    (d : Nat) (now later : List α) (seen : List κ) : Prop where
  now_runs : ∀ a ∈ now, Runs step d s a
  later_runs : ∀ a ∈ later, Runs step (d + 1) s a
  closed : ∀ k ∈ seen, ∃ a pushed, x.key a = k ∧ Reachable step s a ∧ x.goal a = false ∧
    x.expand a = .ok pushed ∧ ∀ b ∈ pushed, x.key b ∈ seen ∨ b ∈ now ∨ b ∈ later
  covers : ∀ m a, m ≤ d → Runs step m s a → x.key a ∈ seen ∨ (m = d ∧ a ∈ now)
  nodup : seen.Nodup

/-- A frontier whose queue is layered. -/
def HasLayers {ε α κ : Type} (x : Exploration ε α κ) (step : α → α → Prop) (s : α)
    (f : Frontier α κ) : Prop :=
  ∃ d now later, f.queue = now ++ later ∧ Layered x step s d now later f.seen

section Layers

variable {ε α κ : Type} {x : Exploration ε α κ} {step : α → α → Prop} {s : α}
  {d : Nat} {a : α} {now later pushed : List α} {seen : List κ}

/-- The frontier with the start node alone. -/
theorem Layered.start : Layered x step s 0 [s] [] [] := by
  refine ⟨fun a ha => ?_, fun a ha => ?_, fun k hk => ?_, fun m a hm hruns => ?_, List.nodup_nil⟩
  · rw [List.mem_singleton] at ha
    subst ha
    exact Runs.refl a
  · exact absurd ha List.not_mem_nil
  · exact absurd hk List.not_mem_nil
  · have hzero : m = 0 := by omega
    subst hzero
    rw [Runs.zero_iff] at hruns
    subst hruns
    exact Or.inr ⟨rfl, List.mem_singleton_self s⟩

/-- A node whose key was seen is dropped. -/
theorem Layered.skip (h : Layered x step s d (a :: now) later seen) (ha : x.key a ∈ seen) :
    Layered x step s d now later seen := by
  refine ⟨fun b hb => h.now_runs b (List.mem_cons_of_mem a hb), h.later_runs, fun k hk => ?_,
    fun m b hm hruns => ?_, h.nodup⟩
  · rcases h.closed k hk with ⟨b, pushed, hkey, hreach, hgoal, hexpand, hpushed⟩
    refine ⟨b, pushed, hkey, hreach, hgoal, hexpand, fun c hc => ?_⟩
    rcases hpushed c hc with hc | hc | hc
    · exact Or.inl hc
    · rcases List.mem_cons.mp hc with rfl | hc
      · exact Or.inl ha
      · exact Or.inr (Or.inl hc)
    · exact Or.inr (Or.inr hc)
  · rcases h.covers m b hm hruns with hb | ⟨hmd, hb⟩
    · exact Or.inl hb
    · rcases List.mem_cons.mp hb with rfl | hb
      · exact Or.inl ha
      · exact Or.inr ⟨hmd, hb⟩

variable (hstep : ∀ a pushed, x.expand a = .ok pushed → ∀ b, b ∈ pushed ↔ step a b)
include hstep

/-- A node is expanded: its successors go to the end of the queue. -/
theorem Layered.expand (h : Layered x step s d (a :: now) later seen) (ha : x.key a ∉ seen)
    (hgoal : x.goal a = false) (hexpand : x.expand a = .ok pushed) :
    Layered x step s d now (later ++ pushed) (x.key a :: seen) := by
  have hruns := h.now_runs a List.mem_cons_self
  refine ⟨fun b hb => h.now_runs b (List.mem_cons_of_mem a hb), fun b hb => ?_, fun k hk => ?_,
    fun m b hm hb => ?_, List.nodup_cons.mpr ⟨ha, h.nodup⟩⟩
  · rcases List.mem_append.mp hb with hb | hb
    · exact h.later_runs b hb
    · exact hruns.tail ((hstep a pushed hexpand b).mp hb)
  · rcases List.mem_cons.mp hk with rfl | hk
    · exact ⟨a, pushed, rfl, ⟨d, hruns⟩, hgoal, hexpand,
        fun b hb => Or.inr (Or.inr (List.mem_append_right later hb))⟩
    · rcases h.closed k hk with ⟨b, pushed', hkey, hreach, hgoal', hexpand', hpushed⟩
      refine ⟨b, pushed', hkey, hreach, hgoal', hexpand', fun c hc => ?_⟩
      rcases hpushed c hc with hc | hc | hc
      · exact Or.inl (List.mem_cons_of_mem _ hc)
      · rcases List.mem_cons.mp hc with rfl | hc
        · exact Or.inl List.mem_cons_self
        · exact Or.inr (Or.inl hc)
      · exact Or.inr (Or.inr (List.mem_append_left pushed hc))
  · rcases h.covers m b hm hb with hb | ⟨hmd, hb⟩
    · exact Or.inl (List.mem_cons_of_mem _ hb)
    · rcases List.mem_cons.mp hb with rfl | hb
      · exact Or.inl List.mem_cons_self
      · exact Or.inr ⟨hmd, hb⟩

variable (hkey : ∀ a b, Reachable step s a → Reachable step s b → x.key a = x.key b → a = b)
include hkey

omit hstep in
/-- A node that was seen is no goal, and what it pushed was seen too or is queued. -/
theorem Layered.of_seen (h : Layered x step s d now later seen) (hreach : Reachable step s a)
    (ha : x.key a ∈ seen) : x.goal a = false ∧ ∃ pushed, x.expand a = .ok pushed ∧
      ∀ b ∈ pushed, x.key b ∈ seen ∨ b ∈ now ∨ b ∈ later := by
  rcases h.closed _ ha with ⟨a', pushed, hkeys, hreach', hgoal, hexpand, hpushed⟩
  have hsame : a' = a := hkey a' a hreach' hreach hkeys
  subst hsame
  exact ⟨hgoal, pushed, hexpand, hpushed⟩

/-- What comes right after a node that was seen was pushed by it, so it was seen
    too or is queued. -/
theorem Layered.successor (h : Layered x step s d now later seen) {m : Nat} {b : α}
    (hruns : Runs step m s a) (ha : x.key a ∈ seen) (hb : step a b) :
    x.key b ∈ seen ∨ b ∈ now ∨ b ∈ later := by
  rcases (h.of_seen hkey ⟨m, hruns⟩ ha).2 with ⟨pushed, hexpand, hpushed⟩
  exact hpushed b ((hstep a pushed hexpand b).mpr hb)

/-- The front layer is used up: the next one takes its place. -/
theorem Layered.shift (h : Layered x step s d [] later seen) :
    Layered x step s (d + 1) later [] seen := by
  refine ⟨h.later_runs, fun a ha => absurd ha List.not_mem_nil, fun k hk => ?_,
    fun m b hm hruns => ?_, h.nodup⟩
  · rcases h.closed k hk with ⟨a, pushed, hkeys, hreach, hgoal, hexpand, hpushed⟩
    refine ⟨a, pushed, hkeys, hreach, hgoal, hexpand, fun b hb => ?_⟩
    rcases hpushed b hb with hb | hb | hb
    · exact Or.inl hb
    · exact absurd hb List.not_mem_nil
    · exact Or.inr (Or.inl hb)
  · -- Shorter runs were covered before, and a run of the new length has a last step.
    rcases Nat.lt_or_eq_of_le hm with hlt | rfl
    · rcases h.covers m b (by omega) hruns with hb | ⟨-, hb⟩
      · exact Or.inl hb
      · exact absurd hb List.not_mem_nil
    · rcases hruns.unsnoc with ⟨a, hfirst, hlast⟩
      rcases h.covers d a (Nat.le_refl d) hfirst with ha | ⟨-, ha⟩
      · rcases h.successor hstep hkey hfirst ha hlast with hb | hb | hb
        · exact Or.inl hb
        · exact absurd hb List.not_mem_nil
        · exact Or.inr ⟨rfl, hb⟩
      · exact absurd ha List.not_mem_nil

/-- The head of a layered queue can be taken to be in the front layer. -/
theorem HasLayers.head {rest : List α} (h : HasLayers x step s ⟨a :: rest, seen⟩) :
    ∃ d now later, rest = now ++ later ∧ Layered x step s d (a :: now) later seen := by
  rcases h with ⟨d, now, later, hqueue, hlayered⟩
  cases now with
  | nil =>
      simp only [List.nil_append] at hqueue
      subst hqueue
      exact ⟨d + 1, rest, [], (List.append_nil rest).symm, hlayered.shift hstep hkey⟩
  | cons b now =>
      simp only [List.cons_append, List.cons.injEq] at hqueue
      rcases hqueue with ⟨rfl, rfl⟩
      exact ⟨d, now, later, rfl, hlayered⟩

variable [DecidableEq κ]

/-- A round keeps the queue layered. -/
theorem HasLayers.next {f f' : Frontier α κ} (h : HasLayers x step s f) (hround : x.Next f f') :
    HasLayers x step s f' := by
  rcases f with ⟨queue, seen⟩
  rcases Exploration.round_eq_next hround with ⟨a, rest, rfl, hcases⟩
  rcases h.head hstep hkey with ⟨d, now, later, rfl, hlayered⟩
  rcases hcases with ⟨hseen, rfl⟩ | ⟨hseen, hgoal, pushed, hexpand, rfl⟩
  · exact ⟨d, now, later, rfl, hlayered.skip hseen⟩
  · exact ⟨d, now, later ++ pushed, List.append_assoc now later pushed,
      hlayered.expand hstep hseen hgoal hexpand⟩

/-- Every frontier the search reaches is layered. -/
theorem layers_reached {n : Nat} {f : Frontier α κ} (h : Runs x.Next n ⟨[s], []⟩ f) :
    HasLayers x step s f :=
  h.preserves (fun _ _ hf hround => hf.next hstep hkey hround) ⟨0, [s], [], rfl, Layered.start⟩

/-- A goal that was found ends a run, and no run to a goal is shorter. -/
theorem loop_goal {fuel : Nat} (h : x.loop fuel ⟨[s], []⟩ = some (.ok (some a))) :
    x.goal a = true ∧ ∃ n, Runs step n s a ∧
      ∀ m b, x.goal b = true → Runs step m s b → n ≤ m := by
  rcases x.loop_eq_some h with ⟨_, ⟨queue, seen⟩, hruns, hlast⟩
  rcases Exploration.round_eq_done hlast with
    ⟨-, hnone⟩ | ⟨c, rest, rfl, ⟨hgoal, hsome⟩ | ⟨e, -, herror⟩⟩
  · cases hnone
  · cases hsome
    rcases (layers_reached hstep hkey hruns).head hstep hkey with ⟨d, now, later, rfl, hlayered⟩
    refine ⟨hgoal, d, hlayered.now_runs a List.mem_cons_self, fun m b hb hbruns => ?_⟩
    -- A shorter run would end at a node that was expanded, and no goal is.
    by_contra hlt
    rcases hlayered.covers m b (by omega) hbruns with hseen | ⟨hmd, -⟩
    · rw [(hlayered.of_seen hkey ⟨m, hbruns⟩ hseen).1] at hb
      cases hb
    · omega
  · cases herror

/-- If the queue ran empty, everything reachable was expanded, so no goal is
    reachable. -/
theorem loop_none {fuel : Nat} (h : x.loop fuel ⟨[s], []⟩ = some (.ok none)) {m : Nat} {b : α}
    (hruns : Runs step m s b) : x.goal b = false := by
  rcases x.loop_eq_some h with ⟨_, ⟨queue, seen⟩, hreached, hlast⟩
  rcases layers_reached hstep hkey hreached with ⟨d, now, later, hqueue, hlayered⟩
  rcases Exploration.round_eq_done hlast with
    ⟨rfl, -⟩ | ⟨c, rest, -, ⟨-, hsome⟩ | ⟨e, -, herror⟩⟩
  · rcases List.append_eq_nil_iff.mp hqueue.symm with ⟨rfl, rfl⟩
    have hall : ∀ m b, Runs step m s b → x.key b ∈ seen := by
      intro m
      induction m with
      | zero =>
          intro b hb
          rcases hlayered.covers 0 b (Nat.zero_le d) hb with hb | ⟨-, hb⟩
          · exact hb
          · exact absurd hb List.not_mem_nil
      | succ m ih =>
          intro b hb
          rcases hb.unsnoc with ⟨a, hfirst, hstep'⟩
          rcases hlayered.successor hstep hkey hfirst (ih a hfirst) hstep' with hb | hb | hb
          · exact hb
          · exact absurd hb List.not_mem_nil
          · exact absurd hb List.not_mem_nil
    exact (hlayered.of_seen hkey ⟨m, hruns⟩ (hall m b hruns)).1
  · cases hsome
  · cases herror

/-- A search ends within as many rounds as its queue is long, put off by at most
    `B` rounds for each key not seen yet. -/
theorem loop_terminates {N B : Nat}
    (hcard : ∀ keys : List κ, keys.Nodup →
      (∀ k ∈ keys, ∃ a, Reachable step s a ∧ x.key a = k) → keys.length ≤ N)
    (hwidth : ∀ a pushed, x.expand a = .ok pushed → pushed.length ≤ B) :
    ∀ fuel f, HasLayers x step s f → f.queue.length + (N - f.seen.length) * B < fuel →
      ∃ result, x.loop fuel f = some result := by
  intro fuel
  induction fuel with
  | zero =>
      intro f _ hlt
      omega
  | succ fuel ih =>
      intro f hlayers hlt
      unfold Exploration.loop
      cases hround : x.round f with
      | done result => exact ⟨result, rfl⟩
      | next f' =>
          have hnext := hlayers.next hstep hkey hround
          refine ih f' hnext ?_
          rcases f with ⟨queue, seen⟩
          -- A skipped head makes the queue shorter, an expanded one the keys that are left.
          rcases Exploration.round_eq_next hround with
            ⟨a, rest, rfl, ⟨-, rfl⟩ | ⟨-, -, pushed, hexpand, rfl⟩⟩
          · simp only [List.length_cons] at hlt ⊢
            omega
          · rcases hnext with ⟨d, now, later, -, hlayered⟩
            -- The new key is one of the `N`, so there was one left to see.
            have hbound := hcard _ hlayered.nodup fun k hk => by
              rcases hlayered.closed k hk with ⟨b, _, hkeys, hreach, -, -, -⟩
              exact ⟨b, hreach, hkeys⟩
            have hpushed := hwidth a pushed hexpand
            simp only [List.length_cons, List.length_append] at hlt hbound ⊢
            have hsplit : N - seen.length = N - (seen.length + 1) + 1 := by omega
            rw [hsplit, Nat.add_mul, Nat.one_mul] at hlt
            omega

end Layers

end CodingChallenges
