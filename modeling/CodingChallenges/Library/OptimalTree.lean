import Mathlib.Data.List.Sort
import Mathlib.Algebra.BigOperators.Group.List.Lemmas
import Mathlib.Algebra.Order.BigOperators.Group.List
import Mathlib.Tactic.Linarith
import CodingChallenges.Library.FullTree

/-!
# The Cheapest Tree for Given Weights

What the cheapest of all full binary trees costs for given weights, and what a merge
of two trees does to it.

The cost is that of merging the two lightest again and again. No tree is cheaper. In
any tree there are two leaves side by side on the lowest level, and moving the two
lightest weights there does not raise the cost, since what they change places with
is heavier and comes to stand higher. Taking the two leaves away leaves a smaller
tree, in which their sum is the weight of the leaf that takes their place.

So a forest can be put together into one tree at the cost of its weights and not
below it. From this follows that merging two trees never makes the rest cheaper than
it was, and merging the two lightest does not make it dearer.

## Main definitions

* `mergeRounds`, `lightestCost`: The cost of always merging the two lightest.
* `FullTree.depths`: How far down the leaves are.

## Theorems

* `FullTree.exists_pruned`: Two leaves side by side on the lowest level.
* `exists_lower`: A light weight can be moved down.
* `lightestCost_le_total`, `lightestCost_le_cost`: No tree is cheaper.
* `exists_joined`, `exists_cheapest`: A forest can be put together at this cost.
* `lightestCost_le_merged`: Merging two does not make the others cheaper.
-/

namespace CodingChallenges

/-- The cost of rounds in which the first two of a list in ascending order are merged. -/
def mergeRounds : Nat → List Nat → Nat
  | rounds + 1, x :: y :: rest => x + y + mergeRounds rounds (rest.orderedInsert (· ≤ ·) (x + y))
  | _, _ => 0

/-- The cost of always merging the two lightest until one is left. -/
def lightestCost (weights : List Nat) : Nat :=
  mergeRounds weights.length (weights.insertionSort (· ≤ ·))

theorem lightestCost_perm {weights weights' : List Nat} (h : weights.Perm weights') :
    lightestCost weights = lightestCost weights' := by
  have hperm : (weights.insertionSort (· ≤ ·)).Perm (weights'.insertionSort (· ≤ ·)) :=
    ((List.perm_insertionSort _ _).trans h).trans (List.perm_insertionSort _ _).symm
  have hsorted : weights.insertionSort (· ≤ ·) = weights'.insertionSort (· ≤ ·) :=
    hperm.eq_of_pairwise' (List.pairwise_insertionSort _ _) (List.pairwise_insertionSort _ _)
  rw [lightestCost, lightestCost, hsorted, h.length_eq]

theorem lightestCost_singleton (x : Nat) : lightestCost [x] = 0 := by
  simp only [lightestCost, List.length_cons, List.length_nil, zero_add, List.insertionSort_cons,
    List.insertionSort_nil, List.orderedInsert_nil, mergeRounds]

/-- The two lightest are merged first. -/
theorem lightestCost_cons_cons {x y : Nat} {rest : List Nat} (hxy : x ≤ y)
    (hrest : ∀ z ∈ rest, y ≤ z) :
    lightestCost (x :: y :: rest) = x + y + lightestCost ((x + y) :: rest) := by
  have hx : ∀ z ∈ y :: rest, x ≤ z := by
    intro z hz
    rcases List.mem_cons.mp hz with rfl | hz
    · exact hxy
    · exact le_trans hxy (hrest z hz)
  rw [lightestCost, List.insertionSort_cons_of_forall_rel _ hx,
    List.insertionSort_cons_of_forall_rel _ hrest, List.length_cons, mergeRounds, lightestCost,
    List.insertionSort_cons, List.length_cons, List.length_cons]

/-! ### The lowest level of a tree -/

namespace FullTree

variable {α : Type}

/-- How far down the leaves are. -/
def depths (t : FullTree α) : List Nat :=
  t.codes.map fun p => p.2.length

theorem depths_leaf (a : α) : depths (leaf a) = [0] := rfl

theorem depths_node (left right : FullTree α) :
    depths (node left right) = left.depths.map (· + 1) ++ right.depths.map (· + 1) := by
  simp only [depths, codes, List.map_append, List.map_map, Function.comp_def, List.length_cons]

/-- The tree has two leaves side by side, with none below them. Without them it is a tree
    again, which has a leaf in their place. -/
def Prunes (t : FullTree α) (d : Nat) : Prop :=
  ∃ (t' : FullTree α) (ds : List Nat), t.depths.Perm ((d + 1) :: (d + 1) :: ds) ∧
    t'.depths.Perm (d :: ds) ∧ ∀ e ∈ ds, e ≤ d + 1

theorem Prunes.le {t : FullTree α} {d : Nat} (h : t.Prunes d) : ∀ e ∈ t.depths, e ≤ d + 1 := by
  rcases h with ⟨t', ds, hperm, -, hds⟩
  intro e he
  rcases List.mem_cons.mp (hperm.mem_iff.mp he) with rfl | he
  · exact le_rfl
  · rcases List.mem_cons.mp he with rfl | he
    · exact le_rfl
    · exact hds e he

theorem Prunes.left {left right : FullTree α} {d : Nat} (h : left.Prunes d)
    (hright : ∀ e ∈ right.depths, e ≤ d + 1) : (node left right).Prunes (d + 1) := by
  rcases h with ⟨left', ds, hperm, hperm', hds⟩
  refine ⟨node left' right, ds.map (· + 1) ++ right.depths.map (· + 1), ?_, ?_, ?_⟩
  · rw [depths_node]
    exact (hperm.map (· + 1)).append_right _
  · rw [depths_node]
    exact (hperm'.map (· + 1)).append_right _
  · intro e he
    rcases List.mem_append.mp he with he | he
    · rcases List.mem_map.mp he with ⟨e', he', rfl⟩
      exact Nat.succ_le_succ (hds e' he')
    · rcases List.mem_map.mp he with ⟨e', he', rfl⟩
      exact Nat.succ_le_succ (hright e' he')

theorem Prunes.swap {left right : FullTree α} {d : Nat} (h : (node left right).Prunes d) :
    (node right left).Prunes d := by
  rcases h with ⟨t', ds, hperm, hperm', hds⟩
  refine ⟨t', ds, ?_, hperm', hds⟩
  rw [depths_node] at hperm ⊢
  exact List.perm_append_comm.trans hperm

/-- On the lowest level of a tree there are two leaves side by side. -/
theorem exists_pruned (left right : FullTree α) : ∃ d, (node left right).Prunes d := by
  have hnode : ∀ t : FullTree α, (∃ a, t = leaf a) ∨ ∃ d, t.Prunes d := by
    intro t
    induction t with
    | leaf a => exact Or.inl ⟨a, rfl⟩
    | node left right ihl ihr =>
        refine Or.inr ?_
        rcases ihl with ⟨a, rfl⟩ | ⟨d, hleft⟩
        · rcases ihr with ⟨b, rfl⟩ | ⟨d', hright⟩
          · exact ⟨0, leaf a, [], List.Perm.refl _, List.Perm.refl _, by simp⟩
          · exact ⟨d' + 1, (hright.left (by simp [depths_leaf])).swap⟩
        · rcases ihr with ⟨b, rfl⟩ | ⟨d', hright⟩
          · exact ⟨d + 1, hleft.left (by simp [depths_leaf])⟩
          · -- The deeper of the two trees has the leaves.
            by_cases hle : d' ≤ d
            · exact ⟨d + 1, hleft.left fun e he => (hright.le e he).trans (by omega)⟩
            · exact ⟨d' + 1, (hright.left fun e he => (hleft.le e he).trans (by omega)).swap⟩
  rcases hnode (node left right) with ⟨a, hfalse⟩ | hprunes
  · cases hfalse
  · exact hprunes

end FullTree

/-! ### The lower bound -/

/-- The cost of weights at given depths. -/
def total (pairs : List (Nat × Nat)) : Nat :=
  (pairs.map fun p => p.1 * p.2).sum

theorem total_cons (x d : Nat) (pairs : List (Nat × Nat)) :
    total ((x, d) :: pairs) = x * d + total pairs := by
  simp only [total, List.map_cons, List.sum_cons]

theorem total_perm {pairs pairs' : List (Nat × Nat)} (h : pairs.Perm pairs') :
    total pairs = total pairs' :=
  (h.map _).sum_eq

/-- A weight that is lightest may change places with one that is lower. -/
theorem exists_lower {x d e : Nat} {pairs : List (Nat × Nat)} (hx : ∀ p ∈ pairs, x ≤ p.1)
    (hd : d ≤ e) (he : e ∈ d :: pairs.map Prod.snd) :
    ∃ pairs', pairs'.map Prod.fst = pairs.map Prod.fst ∧
      (e :: pairs'.map Prod.snd).Perm (d :: pairs.map Prod.snd) ∧
      x * e + total pairs' ≤ x * d + total pairs := by
  induction pairs with
  | nil =>
      rcases List.mem_singleton.mp he with rfl
      exact ⟨[], rfl, List.Perm.refl _, le_rfl⟩
  | cons p pairs ih =>
      by_cases hfirst : e = d
      · subst hfirst
        exact ⟨p :: pairs, rfl, List.Perm.refl _, le_rfl⟩
      by_cases hp : e = p.2
      · -- The two change places.
        refine ⟨(p.1, d) :: pairs, rfl, ?_, ?_⟩
        · rw [List.map_cons, List.map_cons, ← hp]
          exact List.Perm.swap _ _ _
        · have hle : x ≤ p.1 := hx p List.mem_cons_self
          rw [total_cons, show p = (p.1, e) by rw [hp], total_cons]
          nlinarith
      · have he' : e ∈ d :: pairs.map Prod.snd := by
          rw [List.map_cons, List.mem_cons, List.mem_cons] at he
          exact List.mem_cons.mpr (he.imp id fun h => h.resolve_left hp)
        rcases ih (fun q hq => hx q (List.mem_cons_of_mem p hq)) he' with
          ⟨pairs', hfst, hsnd, htotal⟩
        refine ⟨p :: pairs', ?_, ?_, ?_⟩
        · rw [List.map_cons, List.map_cons, hfst]
        · rw [List.map_cons, List.map_cons]
          exact (List.Perm.swap _ _ _).trans ((hsnd.cons p.2).trans (List.Perm.swap _ _ _))
        · rw [show p = (p.1, p.2) from rfl, total_cons, total_cons]
          omega

/-- Two that are lightest, and the others. -/
theorem exists_lightest {β : Type} (f : β → Nat) {items : List β} (h : 2 ≤ items.length) :
    ∃ p q rest, items.Perm (p :: q :: rest) ∧ f p ≤ f q ∧ ∀ r ∈ rest, f q ≤ f r := by
  have hperm := List.perm_insertionSort (fun p q => f p ≤ f q) items
  have hsorted : (items.insertionSort fun p q => f p ≤ f q).Pairwise fun p q => f p ≤ f q := by
    have : IsTrans β fun p q => f p ≤ f q := ⟨fun _ _ _ => le_trans⟩
    have : Std.Total fun p q => f p ≤ f q := ⟨fun _ _ => le_total _ _⟩
    exact List.pairwise_insertionSort _ _
  have hlength := hperm.length_eq
  cases hsort : items.insertionSort fun p q => f p ≤ f q with
  | nil =>
      rw [hsort, List.length_nil] at hlength
      omega
  | cons p rest =>
      cases rest with
      | nil =>
          rw [hsort, List.length_singleton] at hlength
          omega
      | cons q rest =>
          rw [hsort] at hperm hsorted
          rw [List.pairwise_cons, List.pairwise_cons] at hsorted
          exact ⟨p, q, rest, hperm.symm, hsorted.1 q List.mem_cons_self, hsorted.2.1⟩

/-- The lightest weight may stand on the lowest level. -/
theorem exists_lowered {x d e : Nat} {rest : List (Nat × Nat)} {ds : List Nat}
    (hrest : ∀ r ∈ rest, x ≤ r.1) (hds : ∀ c ∈ ds, c ≤ e)
    (h : (d :: rest.map Prod.snd).Perm (e :: ds)) :
    ∃ rest', rest'.map Prod.fst = rest.map Prod.fst ∧ (rest'.map Prod.snd).Perm ds ∧
      x * e + total rest' ≤ x * d + total rest := by
  have hd : d ≤ e := by
    rcases List.mem_cons.mp (h.mem_iff.mp List.mem_cons_self) with rfl | hd
    · exact le_rfl
    · exact hds d hd
  rcases exists_lower hrest hd (h.mem_iff.mpr List.mem_cons_self) with
    ⟨rest', hfst, hsnd, htotal⟩
  exact ⟨rest', hfst, (hsnd.trans h).cons_inv, htotal⟩

/-- The two lightest weights may stand side by side on the lowest level. -/
theorem exists_lowered_pair {pairs : List (Nat × Nat)} {e : Nat} {ds : List Nat}
    (hds : ∀ c ∈ ds, c ≤ e) (h : (pairs.map Prod.snd).Perm (e :: e :: ds)) :
    ∃ x y rest, x ≤ y ∧ (∀ z ∈ rest.map Prod.fst, y ≤ z) ∧
      (pairs.map Prod.fst).Perm (x :: y :: rest.map Prod.fst) ∧ (rest.map Prod.snd).Perm ds ∧
        x * e + (y * e + total rest) ≤ total pairs := by
  have hlength := h.length_eq
  rw [List.length_map, List.length_cons, List.length_cons] at hlength
  rcases exists_lightest Prod.fst (by omega : 2 ≤ pairs.length) with
    ⟨⟨x, dx⟩, ⟨y, dy⟩, rest, hperm, hxy, hrest⟩
  have hsnd : (dx :: dy :: rest.map Prod.snd).Perm (e :: e :: ds) :=
    (hperm.map Prod.snd).symm.trans h
  have hx : ∀ r ∈ (y, dy) :: rest, x ≤ r.1 := by
    intro r hr
    rcases List.mem_cons.mp hr with rfl | hr
    · exact hxy
    · exact le_trans hxy (hrest r hr)
  have hall : ∀ c ∈ e :: ds, c ≤ e := by
    intro c hc
    rcases List.mem_cons.mp hc with rfl | hc
    · exact le_rfl
    · exact hds c hc
  -- First the lightest weight goes down, then the one after it.
  rcases exists_lowered hx hall hsnd with ⟨rest₁, hfst₁, hsnd₁, htotal₁⟩
  rcases List.map_eq_cons_iff.mp hfst₁ with ⟨⟨y', dy'⟩, rest₂, rfl, rfl, hfst₂⟩
  have hlightest : ∀ z ∈ rest.map Prod.fst, y' ≤ z := by
    intro z hz
    rcases List.mem_map.mp hz with ⟨r, hr, rfl⟩
    exact hrest r hr
  have hy : ∀ r ∈ rest₂, y' ≤ r.1 := by
    intro r hr
    refine hlightest r.1 ?_
    rw [← hfst₂]
    exact List.mem_map_of_mem hr
  rcases exists_lowered hy hds hsnd₁ with ⟨rest₃, hfst₃, hsnd₃, htotal₃⟩
  have hfst : rest₃.map Prod.fst = rest.map Prod.fst := hfst₃.trans hfst₂
  refine ⟨x, y', rest₃, hxy, ?_, ?_, hsnd₃, ?_⟩
  · rw [hfst]
    exact hlightest
  · rw [hfst]
    exact hperm.map Prod.fst
  · rw [total_perm hperm]
    simp only [total_cons] at htotal₁ htotal₃ ⊢
    omega

/-- No tree is cheaper, whatever weights stand at its leaves. -/
theorem lightestCost_le_total {α : Type} (t : FullTree α) {pairs : List (Nat × Nat)}
    (h : (pairs.map Prod.snd).Perm t.depths) :
    lightestCost (pairs.map Prod.fst) ≤ total pairs := by
  induction hn : pairs.length generalizing t pairs with
  | zero =>
      rw [List.length_eq_zero_iff.mp hn]
      exact Nat.zero_le _
  | succ n ih =>
      cases t with
      | leaf a =>
          have hlength := h.length_eq
          rw [FullTree.depths_leaf, List.length_map] at hlength
          rcases List.length_eq_one_iff.mp hlength with ⟨p, rfl⟩
          rw [List.map_singleton, lightestCost_singleton]
          exact Nat.zero_le _
      | node left right =>
          rcases FullTree.exists_pruned left right with ⟨d, t', ds, hdepths, hdepths', hds⟩
          rcases exists_lowered_pair hds (h.trans hdepths) with
            ⟨x, y, rest, hxy, hlightest, hfst, hsnd, htotal⟩
          -- Side by side they are one leaf of the smaller tree.
          have hperm : (((x + y, d) :: rest).map Prod.snd).Perm t'.depths :=
            (hsnd.cons d).trans hdepths'.symm
          have hlength : ((x + y, d) :: rest).length = n := by
            have hall := hfst.length_eq
            simp only [List.length_map, List.length_cons] at hall ⊢
            omega
          have hmerged := ih t' hperm hlength
          have hweights : lightestCost (pairs.map Prod.fst) =
              x + y + lightestCost ((x + y) :: rest.map Prod.fst) :=
            (lightestCost_perm hfst).trans (lightestCost_cons_cons hxy hlightest)
          have hexpand : (x + y) * d + (x + y) = x * (d + 1) + y * (d + 1) := by ring
          rw [List.map_cons, total_cons] at hmerged
          rw [hweights]
          simp only at hmerged
          omega

/-- No tree is cheaper for the weights of its symbols. -/
theorem lightestCost_le_cost {α : Type} (w : α → Nat) (t : FullTree α) :
    lightestCost (t.leaves.map w) ≤ t.cost w := by
  have h : ((t.codes.map fun p => (w p.1, p.2.length)).map Prod.snd).Perm t.depths := by
    rw [List.map_map]
    exact List.Perm.refl _
  have hle := lightestCost_le_total t h
  rw [List.map_map, total, List.map_map] at hle
  rw [← FullTree.map_fst_codes, List.map_map]
  exact hle

/-! ### Putting a forest together -/

/-- What the trees of a forest cost and weigh. -/
def forestCost {α : Type} (w : α → Nat) (forest : List (FullTree α)) : Nat :=
  (forest.map (FullTree.cost w)).sum

variable {α : Type} {w : α → Nat} {forest : List (FullTree α)}

theorem forestCost_perm {forest' : List (FullTree α)} (h : forest.Perm forest') :
    forestCost w forest = forestCost w forest' :=
  (h.map _).sum_eq

section leaves

variable (symbols : List α)

theorem flatMap_leaves_leaf : (symbols.map FullTree.leaf).flatMap FullTree.leaves = symbols := by
  induction symbols with
  | nil => rfl
  | cons a symbols ih =>
      rw [List.map_cons, List.flatMap_cons, ih, FullTree.leaves, List.singleton_append]

theorem map_weight_leaf :
    (symbols.map FullTree.leaf).map (FullTree.weight w) = symbols.map w := by
  rw [List.map_map]
  exact List.map_congr_left fun a _ => FullTree.weight_leaf w a

theorem forestCost_leaf : forestCost w (symbols.map FullTree.leaf) = 0 := by
  induction symbols with
  | nil => rfl
  | cons a symbols ih =>
      rw [forestCost] at ih ⊢
      rw [List.map_cons, List.map_cons, List.sum_cons, ih, FullTree.cost_leaf]

end leaves

/-- A forest can be put together at the cost of its weights. -/
theorem exists_joined (w : α → Nat) {forest : List (FullTree α)} (h : forest ≠ []) :
    ∃ t : FullTree α, t.leaves.Perm (forest.flatMap FullTree.leaves) ∧
      t.cost w = forestCost w forest + lightestCost (forest.map (FullTree.weight w)) := by
  induction hn : forest.length generalizing forest with
  | zero => exact absurd (List.length_eq_zero_iff.mp hn) h
  | succ n ih =>
      by_cases hone : n = 0
      · subst hone
        rcases List.length_eq_one_iff.mp hn with ⟨t, rfl⟩
        refine ⟨t, by simp, ?_⟩
        rw [List.map_singleton, lightestCost_singleton]
        simp only [forestCost, List.map_cons, List.map_nil, List.sum_cons, List.sum_nil, add_zero]
      -- The two lightest trees become one, and the forest is shorter.
      rcases exists_lightest (FullTree.weight w) (by omega : 2 ≤ forest.length) with
        ⟨p, q, rest, hperm, hpq, hrest⟩
      have hlength : (FullTree.node p q :: rest).length = n := by
        have hall := hperm.length_eq
        simp only [List.length_cons] at hall ⊢
        omega
      rcases ih (List.cons_ne_nil _ _) hlength with ⟨t, hleaves, hcost⟩
      refine ⟨t, hleaves.trans ?_, ?_⟩
      · refine List.Perm.trans ?_ (hperm.flatMap_right FullTree.leaves).symm
        simp only [List.flatMap_cons, FullTree.leaves, List.append_assoc, List.Perm.refl]
      · have hlightest : ∀ z ∈ rest.map (FullTree.weight w), FullTree.weight w q ≤ z := by
          intro z hz
          rcases List.mem_map.mp hz with ⟨r, hr, rfl⟩
          exact hrest r hr
        rw [hcost, forestCost_perm hperm, lightestCost_perm (hperm.map _), List.map_cons,
          List.map_cons, List.map_cons, lightestCost_cons_cons hpq hlightest, FullTree.weight_node,
          forestCost, forestCost, List.map_cons, List.map_cons, List.map_cons, List.sum_cons,
          List.sum_cons, List.sum_cons, FullTree.cost_node]
        omega

/-- There is a tree that is as cheap as any. -/
theorem exists_cheapest (w : α → Nat) {symbols : List α} (h : symbols ≠ []) :
    ∃ t : FullTree α, t.leaves.Perm symbols ∧ t.cost w = lightestCost (symbols.map w) := by
  rcases exists_joined w (mt List.map_eq_nil_iff.mp h : symbols.map FullTree.leaf ≠ []) with
    ⟨t, hleaves, hcost⟩
  refine ⟨t, ?_, ?_⟩
  · rwa [flatMap_leaves_leaf] at hleaves
  · rw [hcost, forestCost_leaf, map_weight_leaf, Nat.zero_add]

/-- Merging two does not make the others cheaper. -/
theorem lightestCost_le_merged (x y : Nat) (rest : List Nat) :
    lightestCost (x :: y :: rest) ≤ x + y + lightestCost ((x + y) :: rest) := by
  let forest : List (FullTree Nat) := .node (.leaf x) (.leaf y) :: rest.map .leaf
  have hleaves : forest.flatMap FullTree.leaves = x :: y :: rest := by
    simp only [List.flatMap_cons, FullTree.leaves, List.cons_append, List.nil_append,
      List.flatMap_map, List.flatMap_singleton', forest]
  have hweights : forest.map (FullTree.weight id) = (x + y) :: rest := by
    simp only [List.map_cons, FullTree.weight, FullTree.leaves, List.cons_append, List.nil_append,
      id_eq, List.map_nil, List.sum_cons, List.sum_nil, add_zero, List.map_map, Function.comp_def,
      List.map_id_fun', forest]
  have hforest : forestCost id forest = x + y := by
    simp only [forestCost, List.map_cons, FullTree.cost_node, FullTree.cost_leaf, add_zero,
      FullTree.weight_leaf, id_eq, zero_add, List.map_map, Function.comp_def, List.map_const',
      List.sum_cons, List.sum_replicate, nsmul_zero, forest]
  rcases exists_joined id (List.cons_ne_nil _ _ : forest ≠ []) with ⟨t, ht, hcost⟩
  have hle := lightestCost_le_cost id t
  rw [List.map_id, lightestCost_perm ht, hleaves, hcost, hforest, hweights] at hle
  exact hle

end CodingChallenges
