import CodingChallenges.Compression.Construction

/-!
# The Order of the Addresses

When the queue, which compares pointers, empties itself as `operator>` would have it.

Of a node only its count and its address matter. Huffman's algorithm, on the counts
alone, says which two are to be merged in each round; of equal counts it takes those at
the lower addresses. The addresses follow the counts if these two are always at the
lowest addresses too. Then `build_tree` makes the same choices.

Where a round chooses otherwise the tree may still happen to be as good: with the counts
1, 3, 2 and 2, putting the first two together and then the others costs no more than
anything else. With three counts there is no such luck.

## Main definitions

* `Lighter`: The order of `operator>`.
* `AddressesFollow`, `FollowsCounts`: The addresses follow the counts.

## Theorems

* `harmless_of_follow`: Then no round loses anything.
* `follow_of_harmless_three`: With three nodes the converse holds.
-/

namespace CodingChallenges

namespace Compression

/-- The order of `operator>` on counts with addresses. Of equal counts the one at the lower
    address comes first. -/
def Lighter (p q : Nat × Nat) : Prop :=
  p.1 < q.1 ∨ p.1 = q.1 ∧ p.2 ≤ q.2

instance : DecidableRel Lighter :=
  fun p q => inferInstanceAs (Decidable (p.1 < q.1 ∨ p.1 = q.1 ∧ p.2 ≤ q.2))

instance : Std.Total Lighter where
  total := by
    intro p q
    unfold Lighter
    omega

instance : IsTrans (Nat × Nat) Lighter where
  trans := by
    intro p q r
    unfold Lighter
    omega

theorem Lighter.antisymm {p q : Nat × Nat} (hpq : Lighter p q) (hqp : Lighter q p) : p = q := by
  unfold Lighter at hpq hqp
  exact Prod.ext (by omega) (by omega)

theorem Lighter.le {p q : Nat × Nat} (h : Lighter p q) : p.1 ≤ q.1 := by
  unfold Lighter at h
  omega

/-- Of nodes in the order of their counts, the first two are at the lowest addresses. -/
def LightestLowest (pairs : List (Nat × Nat)) : Prop :=
  ∀ p ∈ pairs.take 2, ∀ other ∈ pairs.drop 2, p.2 < other.2

instance : DecidablePred LightestLowest :=
  fun pairs => inferInstanceAs (Decidable (∀ p ∈ pairs.take 2, ∀ other ∈ pairs.drop 2, _ < _))

/-- A round of Huffman's algorithm. -/
def mergeLightest (address : Nat) : List (Nat × Nat) → List (Nat × Nat)
  | p :: q :: rest => (p.1 + q.1, address) :: rest
  | pairs => pairs

/-- In so many rounds of Huffman's algorithm the addresses follow the counts. -/
def AddressesFollow (addresses : Nat → Nat) : Nat → Nat → List (Nat × Nat) → Prop
  | rounds + 1, allocated, pairs =>
    LightestLowest (pairs.insertionSort Lighter) ∧
      AddressesFollow addresses rounds (allocated + 1)
        (mergeLightest (addresses allocated) (pairs.insertionSort Lighter))
  | 0, _, _ => True

instance AddressesFollow.decidable (addresses : Nat → Nat) :
    (rounds allocated : Nat) → (pairs : List (Nat × Nat)) →
      Decidable (AddressesFollow addresses rounds allocated pairs)
  | rounds + 1, allocated, pairs =>
    have := AddressesFollow.decidable addresses rounds (allocated + 1)
      (mergeLightest (addresses allocated) (pairs.insertionSort Lighter))
    inferInstanceAs (Decidable (_ ∧ _))
  | 0, _, _ => inferInstanceAs (Decidable True)

/-- The counts of the bytes that occur. They get the next addresses, in the order of the
    bytes. -/
def leafPairs (addresses : Nat → Nat) (frequencyMap : FrequencyMap) (indices : List UInt8)
    (allocated : Nat) : List (Nat × Nat) :=
  ((indices.filter fun c => 0 < frequencyMap c).zipIdx allocated).map fun x =>
    (count frequencyMap x.1, addresses x.2)

/-- The addresses follow the counts from the leaves on. -/
def FollowsCounts (addresses : Nat → Nat) (frequencyMap : FrequencyMap) : Prop :=
  AddressesFollow addresses (symbols frequencyMap).length (symbols frequencyMap).length
    (leafPairs addresses frequencyMap byteIndices 0)

instance (addresses : Nat → Nat) (frequencyMap : FrequencyMap) :
    Decidable (FollowsCounts addresses frequencyMap) :=
  AddressesFollow.decidable addresses _ _ _

/-- What matters of a node. -/
def NodePtr.pair (p : NodePtr) : Nat × Nat :=
  (p.node.value.toNat, p.address)

/-- The queue is emptied from the lowest address on. -/
def Heap.InOrder (nodes : Heap) : Prop :=
  nodes.Pairwise fun p q => p.address ≤ q.address

/-- The queue holds these nodes. -/
structure Heap.Shows (nodes : Heap) (pairs : List (Nat × Nat)) : Prop where
  inOrder : nodes.InOrder
  perm : (nodes.map NodePtr.pair).Perm pairs

section queue

variable {nodes : Heap} {pairs : List (Nat × Nat)}

theorem Heap.push_perm (nodes : Heap) (p : NodePtr) : (nodes.push p).Perm (p :: nodes) :=
  List.perm_orderedInsert _ p nodes

theorem Heap.InOrder.push (h : nodes.InOrder) (p : NodePtr) : (nodes.push p).InOrder := by
  unfold Heap.InOrder Heap.push
  induction nodes with
  | nil => exact List.pairwise_singleton _ p
  | cons q nodes ih =>
      rw [Heap.InOrder, List.pairwise_cons] at h
      rw [List.orderedInsert_cons]
      split
      · next hle =>
          refine List.pairwise_cons.mpr ⟨fun r hr => ?_, List.pairwise_cons.mpr h⟩
          rcases List.mem_cons.mp hr with rfl | hr
          · exact hle
          · exact hle.trans (h.1 r hr)
      · next hle =>
          refine List.pairwise_cons.mpr ⟨fun r hr => ?_, ih h.2⟩
          rcases List.mem_cons.mp ((Heap.push_perm nodes p).mem_iff.mp hr) with rfl | hr
          · exact Nat.le_of_not_le hle
          · exact h.1 r hr

theorem Heap.Shows.push (h : nodes.Shows pairs) (p : NodePtr) :
    (nodes.push p).Shows (p.pair :: pairs) :=
  ⟨h.inOrder.push p, ((Heap.push_perm nodes p).map _).trans (h.perm.cons _)⟩

/-- The first two in one order of a list are the first two in another, if these are below all
    the others there. -/
theorem perm_two {p q a b : Nat × Nat} {rest others : List (Nat × Nat)}
    (hperm : (a :: b :: others).Perm (p :: q :: rest)) (ha : ∀ c ∈ b :: others, a.2 ≤ c.2)
    (hb : ∀ c ∈ others, b.2 ≤ c.2) (hp : ∀ c ∈ rest, p.2 < c.2) (hq : ∀ c ∈ rest, q.2 < c.2) :
    (a = p ∧ b = q ∨ a = q ∧ b = p) ∧ others.Perm rest := by
  -- What comes first is not behind any other.
  have hhead : ∀ {x y : Nat × Nat} {xs ys : List (Nat × Nat)}, (x :: xs).Perm (y :: ys) →
      (∀ c ∈ xs, x.2 ≤ c.2) → x.2 ≤ y.2 := by
    intro x y xs ys hperm hx
    rcases List.mem_cons.mp (hperm.mem_iff.mpr List.mem_cons_self) with rfl | hy
    · exact Nat.le_refl _
    · exact hx y hy
  have hsecond : ∀ {x : Nat × Nat}, (∀ c ∈ rest, x.2 < c.2) → (b :: others).Perm (x :: rest) →
      b = x ∧ others.Perm rest := by
    intro x hx hperm
    have hbx : b = x := by
      rcases List.mem_cons.mp (hperm.mem_iff.mp List.mem_cons_self) with hbx | hmem
      · exact hbx
      · have hle := hhead hperm hb
        have hlt := hx b hmem
        omega
    subst hbx
    exact ⟨rfl, hperm.cons_inv⟩
  rcases List.mem_cons.mp (hperm.mem_iff.mp List.mem_cons_self) with rfl | hmem
  · rcases hsecond hq hperm.cons_inv with ⟨hbq, hothers⟩
    exact ⟨Or.inl ⟨rfl, hbq⟩, hothers⟩
  · rcases List.mem_cons.mp hmem with rfl | hrest
    · rcases hsecond hp (hperm.trans (List.Perm.swap _ _ _)).cons_inv with ⟨hbp, hothers⟩
      exact ⟨Or.inr ⟨rfl, hbp⟩, hothers⟩
    · have hle := hhead hperm ha
      have hlt := hp a hrest
      omega

/-- A round in which the addresses follow the counts merges the two lightest. -/
theorem Heap.Shows.round (h : nodes.Shows pairs) (htwo : 2 ≤ nodes.length)
    (hsum : (pairs.map Prod.fst).sum < 2 ^ 64)
    (hlowest : LightestLowest (pairs.insertionSort Lighter)) (address : Nat) :
    nodes.Harmless ∧ (mergeTop address nodes).Shows
      (mergeLightest address (pairs.insertionSort Lighter)) := by
  have hsorted := List.perm_insertionSort Lighter pairs
  have hpairwise := List.pairwise_insertionSort Lighter pairs
  have hperm := h.perm.trans hsorted.symm
  have hinOrder := h.inOrder
  rw [← (hsorted.map Prod.fst).sum_eq] at hsum
  cases nodes with
  | nil => simp only [List.length_nil, nonpos_iff_eq_zero, OfNat.ofNat_ne_zero] at htwo
  | cons left nodes =>
      cases nodes with
      | nil => simp only [List.length_cons, List.length_nil, zero_add, Nat.not_ofNat_le_one] at htwo
      | cons right nodes =>
          generalize pairs.insertionSort Lighter = sorted at *
          have hlength := hperm.length_eq
          rcases sorted with _ | ⟨p, _ | ⟨q, rest⟩⟩
          · simp only [List.map_cons, List.length_cons, List.length_map, List.length_nil,
              Nat.add_eq_zero_iff, List.length_eq_zero_iff, one_ne_zero, and_false,
              and_self] at hlength
          · simp only [List.map_cons, List.length_cons, List.length_map, List.length_nil, zero_add,
              Nat.add_eq_right, Nat.add_eq_zero_iff, List.length_eq_zero_iff, one_ne_zero,
              and_false] at hlength
          · have hp : ∀ c ∈ rest, p.2 < c.2 := hlowest p (by simp only [List.take_succ_cons,
              List.take_zero, List.mem_cons, List.not_mem_nil, or_false, true_or])
            have hq : ∀ c ∈ rest, q.2 < c.2 := hlowest q (by simp only [List.take_succ_cons,
                List.take_zero, List.mem_cons, List.not_mem_nil, or_false, or_true])
            rw [Heap.InOrder, List.pairwise_cons, List.pairwise_cons] at hinOrder
            rw [List.pairwise_cons, List.pairwise_cons] at hpairwise
            have hfirst : ∀ c ∈ right.pair :: nodes.map NodePtr.pair, left.pair.2 ≤ c.2 := by
              intro c hc
              rw [← List.map_cons] at hc
              rcases List.mem_map.mp hc with ⟨r, hr, rfl⟩
              exact hinOrder.1 r hr
            have hsecond : ∀ c ∈ nodes.map NodePtr.pair, right.pair.2 ≤ c.2 := by
              intro c hc
              rcases List.mem_map.mp hc with ⟨r, hr, rfl⟩
              exact hinOrder.2.1 r hr
            rcases perm_two hperm hfirst hsecond hp hq with ⟨htop, hothers⟩
            -- Which of the two is on the left makes no difference.
            have hsame : left.pair.1 + right.pair.1 = p.1 + q.1 ∧
                ∀ c ∈ rest, left.pair.1 ≤ c.1 ∧ right.pair.1 ≤ c.1 := by
              have hpc : ∀ c ∈ rest, p.1 ≤ c.1 :=
                fun c hc => (hpairwise.1 c (List.mem_cons_of_mem q hc)).le
              have hqc : ∀ c ∈ rest, q.1 ≤ c.1 := fun c hc => (hpairwise.2.1 c hc).le
              rcases htop with ⟨rfl, rfl⟩ | ⟨rfl, rfl⟩
              · exact ⟨rfl, fun c hc => ⟨hpc c hc, hqc c hc⟩⟩
              · exact ⟨Nat.add_comm _ _, fun c hc => ⟨hqc c hc, hpc c hc⟩⟩
            have hlightest : ∀ r ∈ nodes, left.pair.1 ≤ r.pair.1 ∧ right.pair.1 ≤ r.pair.1 :=
              fun r hr => hsame.2 _ (hothers.mem_iff.mp (List.mem_map_of_mem hr))
            rw [List.map_cons, List.map_cons, List.sum_cons, List.sum_cons] at hsum
            have hvalue : (left.node.value + right.node.value).toNat = p.1 + q.1 := by
              have hleft : left.node.value.toNat + right.node.value.toNat = p.1 + q.1 := hsame.1
              rw [UInt64.toNat_add, hleft, Nat.mod_eq_of_lt (by omega)]
            refine ⟨Heap.harmless_of_lightest (fun r hr => ?_) fun r hr => ?_, ?_⟩
            · exact UInt64.le_iff_toNat_le.mpr (hlightest r hr).1
            · exact UInt64.le_iff_toNat_le.mpr (hlightest r hr).2
            · have hshows : Heap.Shows nodes rest := ⟨hinOrder.2.2, hothers⟩
              have hpush := hshows.push ⟨address, .node none
                (left.node.value + right.node.value) left.node right.node⟩
              rw [NodePtr.pair, HuffmanTreeNode.value, hvalue] at hpush
              exact hpush

/-- Merging keeps the sum of all counts. -/
theorem sum_mergeLightest (address : Nat) (pairs : List (Nat × Nat)) :
    ((mergeLightest address pairs).map Prod.fst).sum = (pairs.map Prod.fst).sum := by
  rcases pairs with _ | ⟨p, _ | ⟨q, rest⟩⟩
  · rfl
  · rfl
  · simp only [mergeLightest, List.map_cons, List.sum_cons]
    omega

theorem length_mergeLightest_le (address : Nat) (pairs : List (Nat × Nat)) :
    (mergeLightest address pairs).length ≤ pairs.length := by
  rcases pairs with _ | ⟨p, _ | ⟨q, rest⟩⟩
  · exact Nat.le_refl _
  · exact Nat.le_refl _
  · exact Nat.le_succ _

/-- Where the addresses follow the counts, no round loses anything. -/
theorem harmless_of_follow (addresses : Nat → Nat) {rounds : Nat} (allocated : Nat)
    (h : nodes.Shows pairs) (hsum : (pairs.map Prod.fst).sum < 2 ^ 64)
    (hfollow : AddressesFollow addresses rounds allocated pairs) :
    ∀ queue ∈ queuesOf addresses rounds allocated nodes, queue.Harmless := by
  induction rounds generalizing allocated nodes pairs with
  | zero => exact fun queue hqueue => absurd hqueue List.not_mem_nil
  | succ rounds ih =>
      rw [queuesOf]
      by_cases htwo : 2 ≤ nodes.length
      · rcases h.round htwo hsum hfollow.1 (addresses allocated) with ⟨hharmless, hshows⟩
        have hsum' : ((mergeLightest (addresses allocated)
            (pairs.insertionSort Lighter)).map Prod.fst).sum < 2 ^ 64 := by
          rwa [sum_mergeLightest, ((List.perm_insertionSort Lighter pairs).map _).sum_eq]
        rw [if_pos htwo, List.forall_mem_cons]
        exact ⟨hharmless, ih (allocated + 1) hshows hsum' hfollow.2⟩
      · rw [if_neg htwo]
        exact fun queue hqueue => absurd hqueue List.not_mem_nil

end queue

/-! ### Three nodes -/

/-- Of three, what is merged first is no heavier than what is left. -/
theorem le_of_lightestCost_three {a b c : Nat}
    (h : a + b + lightestCost [a + b, c] ≤ lightestCost [a, b, c]) : a ≤ c ∧ b ≤ c := by
  have htwo : ∀ x y : Nat, lightestCost [x, y] = x + y := by
    intro x y
    have hcons : ∀ {x y : Nat}, x ≤ y → lightestCost [x, y] = x + y := by
      intro x y hle
      rw [lightestCost_cons_cons hle (List.forall_mem_nil _), lightestCost_singleton, Nat.add_zero]
    by_cases hle : x ≤ y
    · exact hcons hle
    · rw [lightestCost_perm (List.Perm.swap y x []), hcons (Nat.le_of_not_le hle), Nat.add_comm]
  have hac := lightestCost_le_merged a c [b]
  have hbc := lightestCost_le_merged b c [a]
  rw [htwo, lightestCost_perm ((List.Perm.swap b c []).cons a)] at hac
  rw [htwo, lightestCost_perm (((List.Perm.swap a c []).cons b).trans (List.Perm.swap a b [c]))]
    at hbc
  rw [htwo] at h
  omega

/-- With three nodes at different addresses, a round that loses nothing is one in which the
    addresses follow the counts. -/
theorem follow_of_harmless_three {nodes : Heap} {pairs : List (Nat × Nat)} (h : nodes.Shows pairs)
    (hthree : nodes.length = 3) (hnodup : (pairs.map Prod.snd).Nodup)
    (hharmless : nodes.Harmless) : LightestLowest (pairs.insertionSort Lighter) := by
  rcases List.length_eq_three.mp hthree with ⟨a, b, c, rfl⟩
  have hle : a.pair.1 ≤ c.pair.1 ∧ b.pair.1 ≤ c.pair.1 := le_of_lightestCost_three hharmless
  have hsorted := List.perm_insertionSort Lighter pairs
  have hpairwise := List.pairwise_insertionSort Lighter pairs
  have hperm := h.perm.trans hsorted.symm
  have hinOrder := h.inOrder
  -- The last of the three is heaviest, and at the highest address.
  have hlast : a.pair.2 < c.pair.2 ∧ b.pair.2 < c.pair.2 := by
    have hdistinct : ([a.pair, b.pair, c.pair].map Prod.snd).Nodup :=
      (h.perm.map Prod.snd).nodup_iff.mpr hnodup
    have hac : a.pair.2 ≤ c.pair.2 := by
      rw [Heap.InOrder, List.pairwise_cons] at hinOrder
      exact hinOrder.1 c (by simp only [List.mem_cons, List.not_mem_nil, or_false, or_true])
    have hbc : b.pair.2 ≤ c.pair.2 := by
      rw [Heap.InOrder, List.pairwise_cons, List.pairwise_cons] at hinOrder
      exact hinOrder.2.1 c (by simp only [List.mem_cons, List.not_mem_nil, or_false])
    simp only [List.map_cons, List.map_nil, List.nodup_cons, List.mem_cons, List.not_mem_nil,
      or_false] at hdistinct
    omega
  have hheavy : ∀ p ∈ [a.pair, b.pair, c.pair], Lighter p c.pair := by
    unfold Lighter
    rw [List.forall_mem_cons, List.forall_mem_cons, List.forall_mem_singleton]
    omega
  generalize pairs.insertionSort Lighter = sorted at *
  rcases List.length_eq_three.mp hperm.length_eq.symm with ⟨p, q, r, rfl⟩
  have hperm' : [a.pair, b.pair, c.pair].Perm [p, q, r] := hperm
  have hr : r = c.pair := by
    refine Lighter.antisymm (hheavy r (hperm'.mem_iff.mpr (by simp only [List.mem_cons,
        List.not_mem_nil, or_false, or_true]))) ?_
    rw [List.pairwise_cons, List.pairwise_cons] at hpairwise
    have hc : c.pair ∈ [p, q, r] := hperm'.mem_iff.mp (by simp only [List.mem_cons,
        List.not_mem_nil, or_false, or_true])
    simp only [List.mem_cons, List.not_mem_nil, or_false] at hc
    rcases hc with hc | hc | hc
    · rw [hc]
      exact hpairwise.1 r (by simp only [List.mem_cons, List.not_mem_nil, or_false, or_true])
    · rw [hc]
      exact hpairwise.2.1 r (by simp only [List.mem_cons, List.not_mem_nil, or_false])
    · rw [hc]
      exact Or.inr ⟨rfl, Nat.le_refl _⟩
  subst hr
  have hrest : [a.pair, b.pair].Perm [p, q] := by
    have hfront : ([a.pair, b.pair] ++ [c.pair]).Perm ([p, q] ++ [c.pair]) := hperm'
    exact (List.perm_append_right_iff [c.pair]).mp hfront
  intro x hx y hy
  have hx' : x ∈ [a.pair, b.pair] := hrest.mem_iff.mpr hx
  have hy' : y = c.pair := List.mem_singleton.mp hy
  rw [hy']
  simp only [List.mem_cons, List.not_mem_nil, or_false] at hx'
  rcases hx' with rfl | rfl
  · exact hlast.1
  · exact hlast.2

/-! ### The constructor -/

section leaves

variable {frequencyMap : FrequencyMap}

theorem leafNodes_shows (addresses : Nat → Nat) (frequencyMap : FrequencyMap)
    (indices : List UInt8) {nodes : Heap}
    {pairs : List (Nat × Nat)} (allocated : Nat) (h : nodes.Shows pairs) :
    (leafNodes addresses frequencyMap indices (nodes, allocated)).1.Shows
        (leafPairs addresses frequencyMap indices allocated ++ pairs) ∧
      (leafNodes addresses frequencyMap indices (nodes, allocated)).2 =
        allocated + (indices.filter fun c => 0 < frequencyMap c).length := by
  induction indices generalizing nodes pairs allocated with
  | nil => exact ⟨h, rfl⟩
  | cons c indices ih =>
      rw [leafNodes, leafPairs]
      by_cases hc : 0 < frequencyMap c
      · have hpush := h.push ⟨addresses allocated, .node (some c) (frequencyMap c) .null .null⟩
        rcases ih (allocated + 1) hpush with ⟨hshows, hallocated⟩
        rw [if_pos hc, List.filter_cons_of_pos (by exact decide_eq_true hc), List.zipIdx_cons,
          List.map_cons, List.length_cons]
        refine ⟨⟨hshows.inOrder, hshows.perm.trans List.perm_middle⟩, ?_⟩
        rw [hallocated]
        omega
      · rw [if_neg hc, List.filter_cons_of_neg (by exact mt of_decide_eq_true hc)]
        exact ih allocated h

theorem length_leafPairs (addresses : Nat → Nat) (frequencyMap : FrequencyMap) :
    (leafPairs addresses frequencyMap byteIndices 0).length = (symbols frequencyMap).length := by
  rw [leafPairs, List.length_map, List.length_zipIdx, symbols]

theorem map_fst_leafPairs (addresses : Nat → Nat) (frequencyMap : FrequencyMap) :
    (leafPairs addresses frequencyMap byteIndices 0).map Prod.fst =
      (symbols frequencyMap).map (count frequencyMap) := by
  rw [leafPairs, List.map_map, ← symbols]
  conv_rhs => rw [← List.zipIdx_map_fst 0 (symbols frequencyMap), List.map_map]
  rfl

/-- Different nodes have different addresses. -/
theorem nodup_snd_leafPairs {addresses : Nat → Nat} (h : Function.Injective addresses)
    (frequencyMap : FrequencyMap) :
    ((leafPairs addresses frequencyMap byteIndices 0).map Prod.snd).Nodup := by
  have hsnd : (leafPairs addresses frequencyMap byteIndices 0).map Prod.snd =
      ((symbols frequencyMap).zipIdx.map Prod.snd).map addresses := by
    rw [leafPairs, List.map_map, List.map_map, symbols]
    rfl
  rw [hsnd, List.zipIdx_map_snd]
  exact (List.nodup_range' ..).map h

/-- The queue before the first round, and how many nodes there are then. -/
theorem leafNodes_symbols (addresses : Nat → Nat) (frequencyMap : FrequencyMap) :
    ∃ nodes : Heap, nodes.Shows (leafPairs addresses frequencyMap byteIndices 0) ∧
      nodes.length = (symbols frequencyMap).length ∧
      queues addresses frequencyMap = queuesOf addresses nodes.length nodes.length nodes := by
  have hempty : Heap.Shows [] [] := ⟨List.Pairwise.nil, List.Perm.nil⟩
  have hleaves := leafNodes_shows addresses frequencyMap byteIndices 0 hempty
  unfold queues
  generalize leafNodes addresses frequencyMap byteIndices ([], 0) = result at *
  rcases result with ⟨nodes, allocated⟩
  rcases hleaves with ⟨hshows, hallocated⟩
  rw [List.append_nil] at hshows
  have hlength : nodes.length = (symbols frequencyMap).length := by
    rw [← length_leafPairs addresses, ← hshows.perm.length_eq, List.length_map]
  refine ⟨nodes, hshows, hlength, ?_⟩
  rw [Nat.zero_add, ← symbols, ← hlength] at hallocated
  simp only at hallocated ⊢
  rw [hallocated]

/-- Where the addresses follow the counts, no round of the constructor loses anything. -/
theorem harmless_of_followsCounts {addresses : Nat → Nat}
    (hsum : (byteIndices.map (count frequencyMap)).sum < 2 ^ 64)
    (h : FollowsCounts addresses frequencyMap) :
    ∀ queue ∈ queues addresses frequencyMap, queue.Harmless := by
  rcases leafNodes_symbols addresses frequencyMap with ⟨nodes, hshows, hlength, hqueues⟩
  have hsum' : ((leafPairs addresses frequencyMap byteIndices 0).map Prod.fst).sum < 2 ^ 64 := by
    rw [map_fst_leafPairs]
    refine lt_of_le_of_lt (List.Sublist.sum_le_sum ?_ fun _ _ => Nat.zero_le _) hsum
    exact List.filter_sublist.map _
  rw [hqueues, hlength]
  exact harmless_of_follow addresses _ hshows hsum' h

/-- With three counts at most, the addresses follow them where no round loses anything. -/
theorem followsCounts_of_harmless {addresses : Nat → Nat}
    (hinjective : Function.Injective addresses) (hthree : (symbols frequencyMap).length ≤ 3)
    (h : ∀ queue ∈ queues addresses frequencyMap, queue.Harmless) :
    FollowsCounts addresses frequencyMap := by
  rcases leafNodes_symbols addresses frequencyMap with ⟨nodes, hshows, hlength, hqueues⟩
  have hpairs := length_leafPairs addresses frequencyMap
  have hnodup := nodup_snd_leafPairs hinjective frequencyMap
  rw [hqueues, hlength] at h
  unfold FollowsCounts
  generalize leafPairs addresses frequencyMap byteIndices 0 = pairs at *
  generalize (symbols frequencyMap).length = n at *
  -- Two nodes or fewer leave no choice.
  have hfew : ∀ pairs : List (Nat × Nat), pairs.length ≤ 2 →
      LightestLowest (pairs.insertionSort Lighter) := by
    intro pairs hle p _ other hother
    rw [List.drop_eq_nil_of_le (by rwa [List.length_insertionSort])] at hother
    exact absurd hother List.not_mem_nil
  have hfollow : ∀ (rounds allocated : Nat) (pairs : List (Nat × Nat)), pairs.length ≤ 2 →
      AddressesFollow addresses rounds allocated pairs := by
    intro rounds
    induction rounds with
    | zero => exact fun _ _ _ => trivial
    | succ rounds ih =>
        intro allocated pairs hle
        exact ⟨hfew pairs hle, ih _ _ ((length_mergeLightest_le _ _).trans
          (by rwa [List.length_insertionSort]))⟩
  by_cases hn : n ≤ 2
  · exact hfollow n n pairs (by omega)
  · obtain rfl : n = 3 := by omega
    have hmerged : (mergeLightest (addresses 3) (pairs.insertionSort Lighter)).length ≤ 2 := by
      have hsorted := List.length_insertionSort Lighter pairs
      rcases hs : pairs.insertionSort Lighter with _ | ⟨p, _ | ⟨q, rest⟩⟩
      · exact Nat.zero_le 2
      · exact Nat.le_succ 1
      · rw [hs, List.length_cons, List.length_cons] at hsorted
        rw [mergeLightest, List.length_cons]
        omega
    refine ⟨follow_of_harmless_three hshows hlength hnodup (h nodes ?_), hfollow 2 4 _ hmerged⟩
    rw [queuesOf, if_pos (by omega)]
    exact List.mem_cons_self

end leaves

end Compression

end CodingChallenges
