import CodingChallenges.Library.OptimalTree
import CodingChallenges.Compression.SerializedTree

/-!
# Building the Tree

What `build_tree` makes of the nodes in the queue, for any addresses.

The queue always holds a forest, where the value of a node is the weight of its tree. A
round puts the first two trees together, so in the end there is one tree with all the
leaves. What it costs depends on which two these are. Each round adds the weight of what
is merged, and it is harmless if the others can still be merged at the cost that was
possible before. A single round that is not is never made up for.

## Main definitions

* `NodePtr.Stands`, `Heap.Holds`: The trees that the nodes make up.
* `Heap.Harmless`: A round that loses nothing.
* `queuesOf`, `queues`: The queue before each round.
* `symbols`: The bytes that occur.

## Theorems

* `Heap.Holds.push`, `Heap.Holds.mergeTop`: What the operations of the queue do to the
  forest.
* `buildTree_spec`: One tree with all the leaves, which costs what it has to if and only
  if no round has lost anything.
* `construct_spec`: The same for the constructor.
-/

namespace CodingChallenges

namespace Compression

/-! ### The forest in the queue -/

/-- The node makes up the tree, and its value is the weight of the tree. -/
structure NodePtr.Stands (w : UInt8 → Nat) (p : NodePtr) (t : FullTree UInt8) : Prop where
  represents : p.node.Represents t
  value_eq : p.node.value.toNat = t.weight w

/-- The nodes of the heap stand for the trees of the forest. -/
def Heap.Holds (w : UInt8 → Nat) (nodes : Heap) (forest : List (FullTree UInt8)) : Prop :=
  List.Forall₂ (NodePtr.Stands w) nodes forest

/-- The weights of the nodes. -/
def Heap.values (nodes : Heap) : List Nat :=
  nodes.map fun p => p.node.value.toNat

section queue

variable {w : UInt8 → Nat} {nodes : Heap} {forest : List (FullTree UInt8)}

theorem Heap.Holds.values_eq (h : nodes.Holds w forest) :
    nodes.values = forest.map (FullTree.weight w) := by
  induction h with
  | nil => rfl
  | cons hp _ ih => rw [Heap.values, List.map_cons, List.map_cons, hp.value_eq, ← ih, Heap.values]

theorem Heap.Holds.push (h : nodes.Holds w forest) {p : NodePtr} {t : FullTree UInt8}
    (hp : p.Stands w t) :
    ∃ forest', (nodes.push p).Holds w forest' ∧ forest'.Perm (t :: forest) := by
  unfold Heap.push
  induction h with
  | nil => exact ⟨[t], List.Forall₂.cons hp List.Forall₂.nil, List.Perm.refl _⟩
  | @cons q s nodes forest hq hrest ih =>
      by_cases hle : p.address ≤ q.address
      · refine ⟨t :: s :: forest, ?_, List.Perm.refl _⟩
        rw [List.orderedInsert_cons, if_pos hle]
        exact List.Forall₂.cons hp (List.Forall₂.cons hq hrest)
      · rcases ih with ⟨forest', hholds, hperm⟩
        refine ⟨s :: forest', ?_, (hperm.cons s).trans (List.Perm.swap _ _ _)⟩
        rw [List.orderedInsert_cons, if_neg hle]
        exact List.Forall₂.cons hq hholds

/-- The first two trees become one, as the sum of all values is a value. -/
theorem Heap.Holds.mergeTop (h : nodes.Holds w forest) (htwo : 2 ≤ nodes.length)
    (hsum : (forest.map (FullTree.weight w)).sum < 2 ^ 64) (address : Nat) :
    ∃ l r rest forest', forest = l :: r :: rest ∧
      (mergeTop address nodes).Holds w forest' ∧ forest'.Perm (.node l r :: rest) := by
  cases h with
  | nil => simp only [List.length_nil, nonpos_iff_eq_zero, OfNat.ofNat_ne_zero] at htwo
  | @cons left l nodes forest hleft hrest =>
      cases hrest with
      | nil => simp only [List.length_cons, List.length_nil, zero_add, Nat.not_ofNat_le_one] at htwo
      | @cons right r nodes forest hright hrest =>
          rw [List.map_cons, List.map_cons, List.sum_cons, List.sum_cons] at hsum
          have hvalue : (left.node.value + right.node.value).toNat =
              FullTree.weight w (.node l r) := by
            rw [UInt64.toNat_add, hleft.value_eq, hright.value_eq, FullTree.weight_node,
              Nat.mod_eq_of_lt (by omega)]
          have hmerged : NodePtr.Stands w ⟨address, .node none
              (left.node.value + right.node.value) left.node right.node⟩ (.node l r) :=
            ⟨⟨hleft.represents, hright.represents⟩, hvalue⟩
          have hrest' : Heap.Holds w nodes forest := hrest
          rcases hrest'.push hmerged with ⟨forest', hholds, hperm⟩
          exact ⟨l, r, forest, forest', rfl, hholds, hperm⟩

end queue

/-! ### The rounds -/

/-- Before a round: what is merged, and what it takes to merge the others then, is no
    more than what it takes to merge all that are there. -/
def Heap.Harmless : Heap → Prop
  | left :: right :: nodes =>
    left.node.value.toNat + right.node.value.toNat +
        lightestCost ((left.node.value.toNat + right.node.value.toNat) :: Heap.values nodes) ≤
      lightestCost (Heap.values (left :: right :: nodes))
  | _ => True

instance : DecidablePred Heap.Harmless
  | _ :: _ :: _ => inferInstanceAs (Decidable (_ + _ + lightestCost _ ≤ lightestCost _))
  | [_] => inferInstanceAs (Decidable True)
  | [] => inferInstanceAs (Decidable True)

/-- A round that merges the two with the lowest values is harmless. -/
theorem Heap.harmless_of_lightest {left right : NodePtr} {nodes : Heap}
    (hleft : ∀ p ∈ nodes, left.node.value ≤ p.node.value)
    (hright : ∀ p ∈ nodes, right.node.value ≤ p.node.value) :
    Heap.Harmless (left :: right :: nodes) := by
  have hle : ∀ q : NodePtr, (∀ p ∈ nodes, q.node.value ≤ p.node.value) →
      ∀ z ∈ Heap.values nodes, q.node.value.toNat ≤ z := by
    intro q hq z hz
    rcases List.mem_map.mp hz with ⟨p, hp, rfl⟩
    exact UInt64.le_iff_toNat_le.mp (hq p hp)
  show _ ≤ lightestCost (left.node.value.toNat :: right.node.value.toNat :: Heap.values nodes)
  by_cases horder : left.node.value.toNat ≤ right.node.value.toNat
  · rw [lightestCost_cons_cons horder (hle right hright)]
  · rw [lightestCost_perm (List.Perm.swap _ _ _),
      lightestCost_cons_cons (Nat.le_of_not_le horder) (hle left hleft),
      Nat.add_comm right.node.value.toNat]

/-- The queue before each round of `build_tree`. -/
def queuesOf (addresses : Nat → Nat) : Nat → Nat → Heap → List Heap
  | rounds + 1, allocated, nodes =>
    if 2 ≤ nodes.length then
      nodes :: queuesOf addresses rounds (allocated + 1) (mergeTop (addresses allocated) nodes)
    else []
  | 0, _, _ => []

/-- A tree that is made of a forest, and that costs no more than it has to if and only if
    the condition holds. -/
structure Joins (w : UInt8 → Nat) (forest : List (FullTree UInt8)) (t : FullTree UInt8)
    (condition : Prop) : Prop where
  leaves_perm : t.leaves.Perm (forest.flatMap FullTree.leaves)
  le_cost : forestCost w forest + lightestCost (forest.map (FullTree.weight w)) ≤ t.cost w
  cost_eq_iff :
    t.cost w = forestCost w forest + lightestCost (forest.map (FullTree.weight w)) ↔ condition

section rounds

variable {w : UInt8 → Nat} {nodes : Heap} {forest : List (FullTree UInt8)}

theorem joins_singleton (t : FullTree UInt8) : Joins w [t] t True := by
  have hcost : forestCost w [t] + lightestCost ([t].map (FullTree.weight w)) = t.cost w := by
    rw [List.map_singleton, lightestCost_singleton]
    simp only [forestCost, List.map_cons, List.map_nil, List.sum_cons, List.sum_nil, add_zero]
  exact ⟨by simp only [List.flatMap_cons, List.flatMap_nil, List.append_nil,
      List.Perm.refl], hcost.le, iff_of_true hcost.symm trivial⟩

/-- A round: it loses nothing if it is harmless and the rest of the rounds loses nothing. -/
theorem Joins.of_merged {l r t : FullTree UInt8} {rest forest' : List (FullTree UInt8)}
    {condition : Prop} (hnodes : nodes.Holds w (l :: r :: rest))
    (hperm : forest'.Perm (.node l r :: rest)) (h : Joins w forest' t condition) :
    Joins w (l :: r :: rest) t (nodes.Harmless ∧ condition) := by
  rcases h with ⟨hleaves, hle, hiff⟩
  have hforest : forestCost w forest' =
      forestCost w (l :: r :: rest) + (l.weight w + r.weight w) := by
    rw [forestCost_perm hperm]
    simp only [forestCost, List.map_cons, List.sum_cons, FullTree.cost_node]
    omega
  have hweights : lightestCost (forest'.map (FullTree.weight w)) =
      lightestCost ((l.weight w + r.weight w) :: rest.map (FullTree.weight w)) := by
    rw [lightestCost_perm (hperm.map _), List.map_cons, FullTree.weight_node]
  have hharmless : nodes.Harmless ↔ l.weight w + r.weight w +
      lightestCost ((l.weight w + r.weight w) :: rest.map (FullTree.weight w)) ≤
        lightestCost (l.weight w :: r.weight w :: rest.map (FullTree.weight w)) := by
    have hvalues := hnodes.values_eq
    cases hnodes with
    | cons hleft hrest =>
        cases hrest with
        | cons hright hrest =>
            have hrest' := Heap.Holds.values_eq hrest
            rw [Heap.Harmless, hvalues, hrest', hleft.value_eq, hright.value_eq, List.map_cons,
              List.map_cons]
  -- A round never makes the rest cheaper than it was, so what it loses stays lost.
  have hmerged := lightestCost_le_merged (l.weight w) (r.weight w) (rest.map (FullTree.weight w))
  rw [hforest, hweights] at hle hiff
  refine ⟨hleaves.trans ?_, ?_, ?_⟩
  · refine (hperm.flatMap_right FullTree.leaves).trans ?_
    simp only [List.flatMap_cons, FullTree.leaves, List.append_assoc, List.Perm.refl]
  · rw [List.map_cons, List.map_cons]
    omega
  · rw [hharmless, ← hiff, List.map_cons, List.map_cons]
    omega

/-- A single node is the tree. -/
theorem Heap.Holds.joins_of_one (h : nodes.Holds w forest) (hone : nodes.length = 1) :
    ∃ p t, nodes = [p] ∧ p.node.Represents t ∧ Joins w forest t True := by
  rcases List.length_eq_one_iff.mp hone with ⟨p, rfl⟩
  cases h with
  | cons hp hnil =>
      cases hnil with
      | nil => exact ⟨p, _, rfl, hp.represents, joins_singleton _⟩

/-- With enough rounds one tree is left. -/
theorem buildTree_spec (addresses : Nat → Nat) {rounds : Nat} (allocated : Nat)
    (h : nodes.Holds w forest) (hne : forest ≠ []) (hrounds : nodes.length ≤ rounds + 1)
    (hsum : (forest.map (FullTree.weight w)).sum < 2 ^ 64) :
    ∃ p t, buildTree addresses rounds allocated nodes = [p] ∧ p.node.Represents t ∧
      Joins w forest t (∀ queue ∈ queuesOf addresses rounds allocated nodes, queue.Harmless) := by
  have hpos : 0 < nodes.length := by
    rw [List.Forall₂.length_eq h]
    exact List.length_pos_iff.mpr hne
  induction rounds generalizing allocated nodes forest with
  | zero =>
      rcases h.joins_of_one (by omega) with ⟨p, t, hnodes, hp, hjoins⟩
      refine ⟨p, t, by rw [buildTree, hnodes], hp, ?_⟩
      simpa only [queuesOf, List.not_mem_nil, IsEmpty.forall_iff, implies_true] using hjoins
  | succ rounds ih =>
      by_cases htwo : 2 ≤ nodes.length
      · -- The rest of the rounds works on the forest after the first.
        rcases h.mergeTop htwo hsum (addresses allocated) with
          ⟨l, r, rest, forest', rfl, hholds, hperm⟩
        have hlength : (mergeTop (addresses allocated) nodes).length + 1 = nodes.length := by
          have h₁ := List.Forall₂.length_eq h
          have h₂ := List.Forall₂.length_eq hholds
          have h₃ := hperm.length_eq
          simp only [List.length_cons] at h₁ h₃
          omega
        have hne' : forest' ≠ [] := by
          intro hnil
          rw [hnil] at hperm
          exact List.cons_ne_nil _ _ hperm.nil_eq.symm
        have hsum' : (forest'.map (FullTree.weight w)).sum < 2 ^ 64 := by
          rw [(hperm.map _).sum_eq, List.map_cons, List.sum_cons, FullTree.weight_node]
          rw [List.map_cons, List.map_cons, List.sum_cons, List.sum_cons] at hsum
          omega
        rcases ih (allocated + 1) hholds hne' (by omega) hsum' (by omega) with
          ⟨p, t, hbuild, hp, hjoins⟩
        refine ⟨p, t, by rw [buildTree, if_pos htwo, hbuild], hp, ?_⟩
        have hround := hjoins.of_merged h hperm
        simpa only [queuesOf, htwo, ↓reduceIte, List.mem_cons, forall_eq_or_imp] using hround
      · rcases h.joins_of_one (by omega) with ⟨p, t, hnodes, hp, hjoins⟩
        refine ⟨p, t, by rw [buildTree, if_neg htwo, hnodes], hp, ?_⟩
        simpa only [queuesOf, htwo, ↓reduceIte, List.not_mem_nil, IsEmpty.forall_iff,
          implies_true] using hjoins

end rounds

/-! ### The constructor -/

/-- The bytes that occur. -/
def symbols (frequencyMap : FrequencyMap) : List UInt8 :=
  byteIndices.filter fun c => 0 < frequencyMap c

/-- How often a byte occurs. -/
def count (frequencyMap : FrequencyMap) (c : UInt8) : Nat :=
  (frequencyMap c).toNat

/-- The queue before each round of the constructor. -/
def queues (addresses : Nat → Nat) (frequencyMap : FrequencyMap) : List Heap :=
  let (nodes, allocated) := leafNodes addresses frequencyMap byteIndices ([], 0)
  queuesOf addresses nodes.length allocated nodes

theorem mem_byteIndices (c : UInt8) : c ∈ byteIndices := by
  refine List.mem_map.mpr ⟨c.toNat, List.mem_range.mpr c.toNat_lt, ?_⟩
  exact UInt8.ofNat_toNat

theorem nodup_byteIndices : byteIndices.Nodup := by
  refine List.Nodup.map_on ?_ List.nodup_range
  intro x hx y hy hxy
  rw [List.mem_range] at hx hy
  have htoNat := congrArg UInt8.toNat hxy
  rwa [UInt8.toNat_ofNat_of_lt' hx, UInt8.toNat_ofNat_of_lt' hy] at htoNat

section leaves

variable {frequencyMap : FrequencyMap}

theorem mem_symbols {c : UInt8} : c ∈ symbols frequencyMap ↔ 0 < frequencyMap c := by
  rw [symbols, List.mem_filter, decide_eq_true_iff]
  exact and_iff_right (mem_byteIndices c)

theorem nodup_symbols (frequencyMap : FrequencyMap) : (symbols frequencyMap).Nodup :=
  nodup_byteIndices.filter _

/-- Each byte that occurs becomes a leaf. -/
theorem leafNodes_holds (addresses : Nat → Nat) (indices : List UInt8) {nodes : Heap}
    (allocated : Nat) {forest : List (FullTree UInt8)}
    (h : nodes.Holds (count frequencyMap) forest) :
    ∃ forest', (leafNodes addresses frequencyMap indices (nodes, allocated)).1.Holds
        (count frequencyMap) forest' ∧
      forest'.Perm ((indices.filter fun c => 0 < frequencyMap c).map .leaf ++ forest) := by
  induction indices generalizing nodes allocated forest with
  | nil => exact ⟨forest, h, List.Perm.refl _⟩
  | cons c indices ih =>
      rw [leafNodes]
      -- A byte that does not occur is passed over.
      by_cases hc : 0 < frequencyMap c
      · have hleaf : NodePtr.Stands (count frequencyMap)
            ⟨addresses allocated, .node (some c) (frequencyMap c) .null .null⟩ (.leaf c) :=
          ⟨⟨rfl, rfl, rfl⟩, (FullTree.weight_leaf (count frequencyMap) c).symm⟩
        rcases h.push hleaf with ⟨forest₁, hholds₁, hperm₁⟩
        rcases ih (allocated + 1) hholds₁ with ⟨forest₂, hholds₂, hperm₂⟩
        refine ⟨forest₂, ?_, ?_⟩
        · rw [if_pos hc]
          exact hholds₂
        · rw [List.filter_cons_of_pos (by exact decide_eq_true hc), List.map_cons, List.cons_append]
          exact hperm₂.trans ((hperm₁.append_left _).trans List.perm_middle)
      · rcases ih allocated h with ⟨forest', hholds, hperm⟩
        refine ⟨forest', ?_, ?_⟩
        · rw [if_neg hc]
          exact hholds
        · rwa [List.filter_cons_of_neg (by exact mt of_decide_eq_true hc)]

/-- The constructor makes a tree out of the bytes that occur. It costs what it has to if
    and only if every round is harmless. -/
theorem construct_spec (addresses : Nat → Nat) (hne : ∃ c, 0 < frequencyMap c)
    (hsum : (byteIndices.map (count frequencyMap)).sum < 2 ^ 64) :
    ∃ node t, construct addresses frequencyMap = .ok (.ofRoot node) ∧ node.Represents t ∧
      t.leaves.Perm (symbols frequencyMap) ∧
      (t.cost (count frequencyMap) =
          lightestCost ((symbols frequencyMap).map (count frequencyMap)) ↔
        ∀ queue ∈ queues addresses frequencyMap, queue.Harmless) := by
  have hempty : Heap.Holds (count frequencyMap) [] [] := List.Forall₂.nil
  rcases leafNodes_holds addresses byteIndices 0 hempty with ⟨forest, hholds, hperm⟩
  rw [List.append_nil, ← symbols] at hperm
  have hne' : forest ≠ [] := by
    rcases hne with ⟨c, hc⟩
    exact List.ne_nil_of_mem (hperm.mem_iff.mpr (List.mem_map_of_mem (mem_symbols.mpr hc)))
  have hleaves : (forest.flatMap FullTree.leaves).Perm (symbols frequencyMap) := by
    have hflat := hperm.flatMap_right FullTree.leaves
    rwa [flatMap_leaves_leaf] at hflat
  have hweights : (forest.map (FullTree.weight (count frequencyMap))).Perm
      ((symbols frequencyMap).map (count frequencyMap)) := by
    have hmap := hperm.map (FullTree.weight (count frequencyMap))
    rwa [map_weight_leaf] at hmap
  -- At the beginning nothing has been merged, so all of the cost is still to come.
  have hcost : forestCost (count frequencyMap) forest = 0 := by
    rw [forestCost_perm hperm, forestCost_leaf]
  have hsum' : (forest.map (FullTree.weight (count frequencyMap))).sum < 2 ^ 64 := by
    rw [hweights.sum_eq]
    refine lt_of_le_of_lt (List.Sublist.sum_le_sum ?_ fun _ _ => Nat.zero_le _) hsum
    exact List.filter_sublist.map _
  rcases buildTree_spec addresses (leafNodes addresses frequencyMap byteIndices ([], 0)).2 hholds
    hne' (Nat.le_succ _) hsum' with ⟨p, t, hbuild, hp, hjoins⟩
  refine ⟨p.node, t, ?_, hp, hjoins.leaves_perm.trans hleaves, ?_⟩
  · unfold construct
    simp only [hbuild]
  · have hiff := hjoins.cost_eq_iff
    rwa [hcost, Nat.zero_add, lightestCost_perm hweights] at hiff

end leaves

end Compression

end CodingChallenges
