import CodingChallenges.Compression.AddressOrder
import CodingChallenges.Compression.Payload

/-!
# What a Tree Saves

How many bits the payload takes with the codes of a tree, against any other full binary
tree with the same bytes.

The nodes wait in the order of their addresses, so it is up to the allocator whether the
two that are merged in a round are the two that occur least. Where the addresses follow
the counts they are, and no tree does better. With three bytes that is the only way.

## Main definitions

* `HuffmanTree.codedLength`: What all bytes take with the codes of the bit map.
* `HuffmanTree.Optimal`: That no tree with the same bytes takes less.

## Theorems

* `codedLength_eq_cost`: The bit map takes what its tree costs.
* `construct_optimal_iff`: The constructor makes an optimal tree if and only if every
  round is harmless.
* `construct_optimal_of_follows`: The order of the addresses that makes it optimal.
-/

namespace CodingChallenges

namespace Compression

/-- What it takes to write each byte as often as it occurs. -/
def HuffmanTree.codedLength (tree : HuffmanTree) (frequencyMap : FrequencyMap) : Nat :=
  ((symbols frequencyMap).map fun c => count frequencyMap c * (codeOf tree.bitMap c).length).sum

/-- No full binary tree with the bytes that occur takes less. -/
def HuffmanTree.Optimal (tree : HuffmanTree) (frequencyMap : FrequencyMap) : Prop :=
  ∀ t : FullTree UInt8, t.leaves.Perm (symbols frequencyMap) →
    tree.codedLength frequencyMap ≤ t.cost (count frequencyMap)

variable {frequencyMap : FrequencyMap}

theorem codedLength_eq_cost {node : HuffmanTreeNode} {t : FullTree UInt8}
    (h : node.Represents t) (hleaves : t.leaves.Perm (symbols frequencyMap)) :
    (HuffmanTree.ofRoot node).codedLength frequencyMap = t.cost (count frequencyMap) := by
  have hnodup : t.leaves.Nodup := hleaves.nodup_iff.mpr (nodup_symbols frequencyMap)
  have hcodes : ∀ p ∈ t.codes, codeOf (HuffmanTree.ofRoot node).bitMap p.1 = p.2 := by
    intro p hp
    have hmap := (constructBitMap_codes t h hnodup [] fun _ => none).1 p.1 p.2 hp
    exact congrArg (Option.getD · []) hmap
  rw [HuffmanTree.codedLength, ← (hleaves.map _).sum_eq, ← FullTree.map_fst_codes, List.map_map,
    FullTree.cost]
  refine congrArg List.sum (List.map_congr_left fun p hp => ?_)
  rw [Function.comp_apply, hcodes p hp]

/-- The tree is optimal if and only if it costs what always merging the two lightest does. -/
theorem optimal_iff_cost {node : HuffmanTreeNode} {t : FullTree UInt8}
    (h : node.Represents t) (hleaves : t.leaves.Perm (symbols frequencyMap)) :
    (HuffmanTree.ofRoot node).Optimal frequencyMap ↔
      t.cost (count frequencyMap) =
        lightestCost ((symbols frequencyMap).map (count frequencyMap)) := by
  have hle := lightestCost_le_cost (count frequencyMap) t
  rw [lightestCost_perm (hleaves.map _)] at hle
  rw [HuffmanTree.Optimal, codedLength_eq_cost h hleaves]
  constructor
  · intro hoptimal
    have hne : symbols frequencyMap ≠ [] := by
      intro hnil
      rw [hnil] at hleaves
      exact FullTree.leaves_ne_nil t hleaves.eq_nil
    rcases exists_cheapest (count frequencyMap) hne with ⟨s, hs, hcost⟩
    exact le_antisymm (hcost ▸ hoptimal s hs) hle
  · intro heq s hs
    rw [heq, ← lightestCost_perm (hs.map _)]
    exact lightestCost_le_cost _ s

/-- The constructor makes a tree of the bytes that occur. No tree of them is better if and
    only if in each round merging the two that come first is as good as any. -/
theorem construct_optimal_iff (addresses : Nat → Nat) {frequencyMap : FrequencyMap}
    (hne : ∃ c, 0 < frequencyMap c)
    (hsum : (byteIndices.map (count frequencyMap)).sum < 2 ^ 64) :
    ∃ tree t, construct addresses frequencyMap = .ok tree ∧ tree.root.Represents t ∧
      t.leaves.Perm (symbols frequencyMap) ∧
      (tree.Optimal frequencyMap ↔ ∀ queue ∈ queues addresses frequencyMap, queue.Harmless) := by
  rcases construct_spec addresses hne hsum with ⟨node, t, hconstruct, ht, hleaves, hiff⟩
  exact ⟨_, t, hconstruct, ht, hleaves, (optimal_iff_cost ht hleaves).trans hiff⟩

/-- The constructor makes a tree of the bytes that occur. Where the addresses follow the
    counts no tree of them is better. With three bytes at most it is optimal nowhere else, as
    no two nodes have the same address. -/
theorem construct_optimal_of_follows (addresses : Nat → Nat) {frequencyMap : FrequencyMap}
    (hne : ∃ c, 0 < frequencyMap c)
    (hsum : (byteIndices.map (count frequencyMap)).sum < 2 ^ 64) :
    ∃ tree t, construct addresses frequencyMap = .ok tree ∧ tree.root.Represents t ∧
      t.leaves.Perm (symbols frequencyMap) ∧
      (FollowsCounts addresses frequencyMap → tree.Optimal frequencyMap) ∧
      (Function.Injective addresses → (symbols frequencyMap).length ≤ 3 →
        tree.Optimal frequencyMap → FollowsCounts addresses frequencyMap) := by
  rcases construct_optimal_iff addresses hne hsum with ⟨tree, t, hconstruct, ht, hleaves, hiff⟩
  refine ⟨tree, t, hconstruct, ht, hleaves, fun hfollows => ?_,
    fun hinjective hthree hoptimal => ?_⟩
  · exact hiff.mpr (harmless_of_followsCounts hsum hfollows)
  · exact followsCounts_of_harmless hinjective hthree (hiff.mp hoptimal)

/-- Of three bytes the first occurs once and the others five times, and each address is
    higher than the ones before. -/
def ascendingCounts : FrequencyMap :=
  fun c => if c = 0x61 then 1 else if c = 0x62 ∨ c = 0x63 then 5 else 0

/-- The same with the byte that occurs once at the end. -/
def descendingCounts : FrequencyMap :=
  fun c => if c = 0x63 then 1 else if c = 0x61 ∨ c = 0x62 then 5 else 0

theorem construct_optimal_of_follows_ascending :
    ∃ tree t, construct id ascendingCounts = .ok tree ∧ tree.root.Represents t ∧
      t.leaves.Perm (symbols ascendingCounts) ∧ tree.Optimal ascendingCounts := by
  have hne : ∃ c, 0 < ascendingCounts c := ⟨0x61, by decide⟩
  rcases construct_optimal_of_follows id hne (by decide +kernel) with
    ⟨tree, t, hconstruct, ht, hleaves, hoptimal, -⟩
  exact ⟨tree, t, hconstruct, ht, hleaves, hoptimal (by decide +kernel)⟩

/-- The two frequent bytes get together, and the rare one gets the short code. -/
theorem construct_not_optimal_descending :
    ¬ ∀ tree, construct id descendingCounts = .ok tree → tree.Optimal descendingCounts := by
  intro h
  have hlength : (construct id descendingCounts).map (·.codedLength descendingCounts) = .ok 21 := by
    decide +kernel
  cases htree : construct id descendingCounts with
  | error failure =>
      rw [htree] at hlength
      cases hlength
  | ok tree =>
      have hle := h tree htree (.node (.leaf 0x61) (.node (.leaf 0x62) (.leaf 0x63)))
        (by decide +kernel)
      have hlength : tree.codedLength descendingCounts = 21 := by
        rw [htree] at hlength
        exact Except.ok.inj hlength
      have hcost : FullTree.cost (count descendingCounts)
          (.node (.leaf 0x61) (.node (.leaf 0x62) (.leaf 0x63))) = 17 := by decide
      rw [hcost, hlength] at hle
      omega

end Compression

end CodingChallenges
