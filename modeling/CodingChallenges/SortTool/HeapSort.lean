import CodingChallenges.SortTool.Vector

/-!
# Heap Sort

`heapify` and `heap_sort` of `HeapSort.cpp`.

The nodes of the heap are counted from 1, the node `k` stands at the index `k - 1`, and its
children are the nodes `2 * k` and `2 * k + 1`. A heap from a node on is one in which every
node from there on is at least as large as its children.

To sift an element down is to exchange it with the larger of its children until it is at
least as large as both. On the way the order is broken only at the node where the element
is, and what keeps it from breaking one level up is that the parent of this node is at
least as large as its children.

## Main definitions

* `heapify`, `buildHeap`, `extract`, `heapSort`: The algorithm.
* `AtLeast`, `HeapFrom`, `HeapExcept`: A heap, and a heap with one node out of order.
* `SortedFrom`: The elements from an index on are in their place.

## Theorems

* `HeapExcept.exchange`: One level down.
* `heapify_returns`: An element is sifted down.
* `HeapFrom.root`: The root of a heap is its largest element.
* `sortedFrom_of_rearranged`: It is taken from there to its place.
* `buildHeap_returns`, `extract_returns`: The two loops.
* `heapSort_sorts`: A vector is sorted.
-/

namespace CodingChallenges

namespace SortTool

section Algorithm

variable {α : Type} [LinearOrder α]

/-- The larger child of a node that has one: `temp` in the loop of `heapify`. -/
def largerChild (array : List α) (index size : Nat) : Except Fault Nat :=
  if 2 * index < size then do
    let left ← readAt array ((2 * index : Nat) - 1)
    let right ← readAt array (2 * index : Nat)
    return if left < right then 2 * index + 1 else 2 * index
  else return 2 * index

/-- The element sinks until no child is larger. -/
def heapify : Nat → List α → Nat → Nat → Except Fault (List α)
  | 0, _, _, _ => .error .outOfFuel
  | fuel + 1, array, index, size =>
    if 2 * index ≤ size then do
      let temp ← largerChild array index size
      let parent ← readAt array ((index : Int) - 1)
      let child ← readAt array ((temp : Int) - 1)
      if child ≤ parent then return array
      else
        let array ← swap array ((index : Int) - 1) ((temp : Int) - 1)
        heapify fuel array temp size
    else return array

/-- The loop that makes a heap, down from a node. -/
def buildHeap (fuel length : Nat) : Nat → List α → Except Fault (List α)
  | 0, array => .ok array
  | index + 1, array => do
    let array ← heapify fuel array (index + 1) length
    buildHeap fuel length index array

/-- The loop that takes the largest element from the heap. -/
def extract (fuel : Nat) : Nat → List α → Except Fault (List α)
  | 0, array => .ok array
  | 1, array => .ok array
  | index + 2, array => do
    let array ← swap array 0 ((index + 2 : Nat) - 1)
    let array ← heapify fuel array 1 (index + 1)
    extract fuel (index + 1) array

/-- The heap is built, and its root taken until it is empty. -/
def heapSort (fuel : Nat) (array : List α) : Except Fault (List α) := do
  let heap ← buildHeap fuel array.length (array.length / 2) array
  extract fuel array.length heap

end Algorithm

section Nodes

variable {α : Type} {a : List α}

theorem readAt_node {k : Nat} {x : α} (hk : 1 ≤ k) (h : a[k - 1]? = some x) :
    readAt a ((k : Int) - 1) = .ok x := by
  have hindex : (k : Int) - 1 = ((k - 1 : Nat) : Int) := by omega
  rw [hindex, readAt_natCast h]

theorem swap_node {k c : Nat} (hk : 1 ≤ k) (hc : 1 ≤ c) (hk' : k ≤ a.length) (hc' : c ≤ a.length) :
    swap a ((k : Int) - 1) ((c : Int) - 1) = .ok (swapAt a (k - 1) (c - 1)) := by
  have hindex : (k : Int) - 1 = ((k - 1 : Nat) : Int) := by omega
  have hindex' : (c : Int) - 1 = ((c - 1 : Nat) : Int) := by omega
  rw [hindex, hindex', swap_natCast (by omega) (by omega)]

/-- An element of a vector is one that is there. -/
theorem exists_node {k : Nat} (hk : 1 ≤ k) (hk' : k ≤ a.length) : ∃ x, a[k - 1]? = some x :=
  ⟨_, List.getElem?_eq_getElem (by omega)⟩

end Nodes

variable {α : Type} [LinearOrder α] {a : List α}

/-- The element of the first node is at least as large as that of the second. -/
def AtLeast (a : List α) (k c : Nat) : Prop :=
  ∀ x ∈ a[k - 1]?, ∀ y ∈ a[c - 1]?, y ≤ x

/-- Every node from one on is at least as large as its children. -/
def HeapFrom (first size : Nat) (a : List α) : Prop :=
  ∀ c, c ≤ size → first ≤ c / 2 → AtLeast a (c / 2) c

/-- A heap but for one node: every other is at least as large as its children, and the
    parent of this one is at least as large as its children. -/
structure HeapExcept (first size node : Nat) (a : List α) : Prop where
  others : ∀ c, c ≤ size → first ≤ c / 2 → c / 2 ≠ node → AtLeast a (c / 2) c
  parent : ∀ c, c ≤ size → c / 2 = node → first ≤ node / 2 → AtLeast a (node / 2) c

/-- The elements from an index on are in their place: none before them exceeds them. -/
def SortedFrom (index : Nat) (a : List α) : Prop :=
  ∀ i j, i < j → index ≤ j → ∀ x ∈ a[i]?, ∀ y ∈ a[j]?, x ≤ y

/-- A node that is at least as large as its children is not out of order. -/
theorem HeapExcept.heapFrom {first size node : Nat} (h : HeapExcept first size node a)
    (hnode : ∀ c, c ≤ size → c / 2 = node → AtLeast a node c) : HeapFrom first size a := by
  intro c hc hfirst
  by_cases hsame : c / 2 = node
  · rw [hsame]
    exact hnode c hc hsame
  · exact h.others c hc hfirst hsame

/-- One level down: after an exchange with the larger child it is the child that is out of
    order. -/
theorem HeapExcept.exchange {first size node child : Nat} (h : HeapExcept first size node a)
    (hsize : size ≤ a.length) (hfirst : 1 ≤ first ∧ first ≤ node) (hchild : child ≤ size)
    (hparent : child / 2 = node) (hless : AtLeast a child node)
    (hlarger : ∀ c, c ≤ size → c / 2 = node → AtLeast a child c) :
    HeapExcept first size child (swapAt a (node - 1) (child - 1)) := by
  have hget := getElem?_swapAt (a := a) (i := node - 1) (j := child - 1) (by omega) (by omega)
  have hnode : (swapAt a (node - 1) (child - 1))[node - 1]? = a[child - 1]? := by
    rw [hget, if_neg (by omega), if_pos rfl]
  have hother : ∀ k, 1 ≤ k → k ≠ node → k ≠ child →
      (swapAt a (node - 1) (child - 1))[k - 1]? = a[k - 1]? := by
    intro k hk hne hne'
    rw [hget, if_neg (by omega), if_neg (by omega)]
  refine ⟨fun c hc hle hne => ?_, fun c hc hc' _ => ?_⟩
  · by_cases hsame : c / 2 = node
    · -- A child of the node: the exchanged one, or its sibling.
      rw [hsame]
      intro x hx y hy
      rw [hnode] at hx
      by_cases hexchanged : c = child
      · rw [hexchanged, hget, if_pos rfl] at hy
        exact hless x hx y hy
      · rw [hother c (by omega) (by omega) hexchanged] at hy
        exact hlarger c hc hsame x hx y hy
    · intro x hx y hy
      rw [hother (c / 2) (by omega) hsame hne] at hx
      by_cases hup : c = node
      · rw [hup] at hx hle
        rw [hup, hnode] at hy
        exact h.parent child hchild hparent hle x hx y hy
      · rw [hother c (by omega) hup (by omega)] at hy
        exact h.others c hc hle hsame x hx y hy
  · -- The children of the child were below it.
    rw [hparent]
    intro x hx y hy
    rw [hnode] at hx
    rw [hother c (by omega) (by omega) (by omega)] at hy
    have hbelow := h.others c hc (by omega) (by omega)
    rw [hc'] at hbelow
    exact hbelow x hx y hy

theorem atLeast_of_eq {k c : Nat} {x y : α} (hx : a[k - 1]? = some x) (hy : a[c - 1]? = some y) :
    AtLeast a k c ↔ y ≤ x := by
  constructor
  · intro h
    exact h x hx y hy
  · intro h x' hx' y' hy'
    rw [hx] at hx'
    rw [hy] at hy'
    cases hx'
    cases hy'
    exact h

/-- The larger child is a child, and at least as large as the other. -/
theorem largerChild_eq {node size : Nat} (hsize : size ≤ a.length) (hnode : 1 ≤ node)
    (hchild : 2 * node ≤ size) :
    ∃ child, largerChild a node size = .ok child ∧ child ≤ size ∧ child / 2 = node ∧
      ∀ c, c ≤ size → c / 2 = node → AtLeast a child c := by
  rcases exists_node (a := a) (k := 2 * node) (by omega) (by omega) with ⟨left, hleft⟩
  have hself := (atLeast_of_eq hleft hleft).mpr (le_refl left)
  rw [largerChild]
  by_cases hright : 2 * node < size
  · rcases exists_node (a := a) (k := 2 * node + 1) (by omega) (by omega) with ⟨right, hright'⟩
    have hself' := (atLeast_of_eq hright' hright').mpr (le_refl right)
    have hreadLeft : readAt a (((2 * node : Nat) : Int) - 1) = .ok left :=
      readAt_node (by omega) hleft
    have hreadRight : readAt a ((2 * node : Nat) : Int) = .ok right := readAt_natCast hright'
    rw [if_pos hright, hreadLeft, hreadRight, ok_bind, ok_bind]
    by_cases hless : left < right
    · refine ⟨2 * node + 1, congrArg _ (if_pos hless), by omega, by omega, fun c hc hc' => ?_⟩
      rcases (by omega : c = 2 * node ∨ c = 2 * node + 1) with rfl | rfl
      · exact (atLeast_of_eq hright' hleft).mpr (le_of_lt hless)
      · exact hself'
    · refine ⟨2 * node, congrArg _ (if_neg hless), by omega, by omega, fun c hc hc' => ?_⟩
      rcases (by omega : c = 2 * node ∨ c = 2 * node + 1) with rfl | rfl
      · exact hself
      · exact (atLeast_of_eq hleft hright').mpr (le_of_not_gt hless)
  -- The last node of a heap of even size is an only child.
  · rw [if_neg hright]
    refine ⟨2 * node, rfl, hchild, by omega, fun c hc hc' => ?_⟩
    rw [(by omega : c = 2 * node)]
    exact hself

/-- An element is sifted down until it is in order. -/
theorem heapify_returns {first size node : Nat} (hsize : size ≤ a.length)
    (hfirst : 1 ≤ first ∧ first ≤ node) (h : HeapExcept first size node a) :
    ∃ b : List α, Returns (fun fuel => heapify fuel a node size) b ∧ Rearranged 0 size a b ∧
      HeapFrom first size b := by
  induction hn : size + 1 - node using Nat.strongRecOn generalizing a node with
  | _ n ih =>
      by_cases hleaf : 2 * node ≤ size
      · rcases largerChild_eq hsize (by omega) hleaf with ⟨child, hlarger, hle, hparent, hatLeast⟩
        rcases exists_node (a := a) (k := node) (by omega) (by omega) with ⟨x, hx⟩
        rcases exists_node (a := a) (k := child) (by omega) (by omega) with ⟨y, hy⟩
        have hreadParent : readAt a ((node : Int) - 1) = .ok x := readAt_node (by omega) hx
        have hreadChild : readAt a ((child : Int) - 1) = .ok y := readAt_node (by omega) hy
        by_cases horder : y ≤ x
        · -- The element is at least as large as the larger child, so as both.
          refine ⟨a, ((returns_ok _).congr fun fuel => ?_).succ, Rearranged.refl _ _ a,
            h.heapFrom fun c hc hc' => ?_⟩
          · rw [heapify, if_pos hleaf, hlarger, ok_bind, hreadParent, ok_bind, hreadChild, ok_bind,
              if_pos horder]
            rfl
          · intro x' hx' z hz
            rw [hx] at hx'
            cases hx'
            exact le_trans (hatLeast c hc hc' y hy z hz) horder
        · -- The element goes on from the place of the child, one level down.
          have hless : AtLeast a child node :=
            (atLeast_of_eq hy hx).mpr (le_of_lt (lt_of_not_ge horder))
          have hexcept := h.exchange hsize hfirst hle hparent hless hatLeast
          have hlength := length_swapAt a (node - 1) (child - 1)
          rcases ih (size + 1 - child) (by omega) (by omega) (by omega) hexcept rfl with
            ⟨b, hreturns, hrearranged, hheap⟩
          refine ⟨b, (hreturns.congr fun fuel => ?_).succ, ?_, hheap⟩
          · rw [heapify, if_pos hleaf, hlarger, ok_bind, hreadParent, ok_bind, hreadChild, ok_bind,
              if_neg horder, swap_node (by omega) (by omega) (by omega) (by omega), ok_bind]
          · exact (rearranged_swapAt (by omega) (by omega) (by omega) (by omega)).trans hrearranged
      · refine ⟨a, ((returns_ok _).congr fun fuel => ?_).succ, Rearranged.refl _ _ a,
          h.heapFrom fun c hc hc' => ?_⟩
        · exact if_neg hleaf
        · omega

/-- The root of a heap is its largest element. -/
theorem HeapFrom.root {size : Nat} (h : HeapFrom 1 size a) (hsize : size ≤ a.length) {c : Nat}
    (hc : 1 ≤ c) (hle : c ≤ size) : AtLeast a 1 c := by
  induction c using Nat.strongRecOn with
  | _ c ih =>
      by_cases hone : c = 1
      · rw [hone]
        rcases exists_node (a := a) (k := 1) (by omega) (by omega) with ⟨x, hx⟩
        exact (atLeast_of_eq hx hx).mpr (le_refl x)
      · rcases exists_node (a := a) (k := c / 2) (by omega) (by omega) with ⟨y, hy⟩
        intro x hx z hz
        have hroot := ih (c / 2) (by omega) (by omega) (by omega)
        exact le_trans (h c hle (by omega) y hy z hz) (hroot x hx y hy)

/-- The first loop makes a heap. -/
theorem buildHeap_returns {length node : Nat} (hlength : a.length = length)
    (h : HeapFrom (node + 1) length a) :
    ∃ b : List α, Returns (fun fuel => buildHeap fuel length node a) b ∧ b.Perm a ∧
      HeapFrom 1 length b := by
  induction node generalizing a with
  | zero => exact ⟨a, returns_ok a, List.Perm.refl a, h⟩
  | succ node ih =>
      have hexcept : HeapExcept (node + 1) length (node + 1) a := by
        refine ⟨fun c hc hle hne => h c hc (by omega), fun c hc hc' hle => ?_⟩
        -- The parent of the node is not in the heap yet.
        omega
      rcases heapify_returns (by omega) (by omega) hexcept with ⟨b, hfirst, hrearranged, hheap⟩
      rcases ih (hrearranged.length_eq.trans hlength) hheap with ⟨c, hrest, hperm, hheap'⟩
      exact ⟨c, hfirst.bind hrest, hperm.trans hrearranged.perm, hheap'⟩

/-- The largest element of the heap comes behind it, and the element that was there to the
    root, where it is out of order. -/
theorem heapExcept_swapAt {size : Nat} (hsize : size + 2 ≤ a.length)
    (hheap : HeapFrom 1 (size + 2) a) :
    HeapExcept 1 (size + 1) 1 (swapAt a 0 (size + 1)) := by
  have hget := getElem?_swapAt (a := a) (i := 0) (j := size + 1) (by omega) (by omega)
  refine ⟨fun c hc hle hne => ?_, fun c hc hc' hle => absurd hle (by decide)⟩
  intro x hx y hy
  rw [hget, if_neg (by omega), if_neg (by omega)] at hx hy
  exact hheap c (by omega) hle x hx y hy

/-- The largest element of the heap is in its place behind it, whatever becomes of the
    elements before it. -/
theorem sortedFrom_of_rearranged {size : Nat} {b : List α} (hsize : size + 2 ≤ a.length)
    (hheap : HeapFrom 1 (size + 2) a) (hsorted : SortedFrom (size + 2) a)
    (hrearranged : Rearranged 0 (size + 1) (swapAt a 0 (size + 1)) b) :
    SortedFrom (size + 1) b := by
  have hget := getElem?_swapAt (a := a) (i := 0) (j := size + 1) (by omega) (by omega)
  have hmax : ∀ x ∈ a[0]?, Everywhere 0 (size + 2) (· ≤ x) a := by
    intro x hx i _ hi y hy
    exact hheap.root hsize (c := i + 1) (by omega) hi x hx y hy
  intro i j hlt hj x hx y hy
  rw [hrearranged.outside j (by omega), hget] at hy
  -- No element of the heap exceeds the one at `j`, so none does after they were moved.
  have hbefore : Everywhere 0 (size + 1) (· ≤ y) (swapAt a 0 (size + 1)) := by
    intro k _ hk z hz
    rw [hget, if_neg (by omega)] at hz
    have hz' : ∃ k', k' < size + 2 ∧ z ∈ a[k']? := by
      by_cases hzero : k = 0
      · rw [if_pos hzero] at hz
        exact ⟨size + 1, by omega, hz⟩
      · rw [if_neg hzero] at hz
        exact ⟨k, by omega, hz⟩
    rcases hz' with ⟨k', hk', hz'⟩
    by_cases hend : j = size + 1
    · rw [if_pos hend] at hy
      exact hmax y hy k' (by omega) hk' z hz'
    · rw [if_neg hend, if_neg (by omega)] at hy
      exact hsorted k' j (by omega) (by omega) z hz' y hy
  by_cases hi : i < size + 1
  · exact hrearranged.everywhere hbefore i (by omega) hi x hx
  · rw [hrearranged.outside i (by omega), hget] at hx
    rw [if_neg (by omega), if_neg (by omega)] at hy
    by_cases hend : i = size + 1
    · rw [if_pos hend] at hx
      exact hsorted 0 j (by omega) (by omega) x hx y hy
    · rw [if_neg hend, if_neg (by omega)] at hx
      exact hsorted i j hlt (by omega) x hx y hy

/-- The second loop sorts. -/
theorem extract_returns {size : Nat} (hsize : size ≤ a.length) (hheap : HeapFrom 1 size a)
    (hsorted : SortedFrom size a) :
    ∃ b : List α, Returns (fun fuel => extract fuel size a) b ∧ b.Perm a ∧ SortedFrom 1 b := by
  induction size using Nat.strongRecOn generalizing a with
  | _ size ih =>
      match size with
      | 0 => exact ⟨a, returns_ok a, List.Perm.refl a, fun i j hlt _ => hsorted i j hlt (by omega)⟩
      | 1 => exact ⟨a, returns_ok a, List.Perm.refl a, hsorted⟩
      | size + 2 =>
          have hlength := length_swapAt a 0 (size + 1)
          have hswap : swap a 0 (((size + 2 : Nat) : Int) - 1) = .ok (swapAt a 0 (size + 1)) :=
            swap_node (k := 1) (by omega) (by omega) (by omega) hsize
          rcases heapify_returns (by omega) (by omega) (heapExcept_swapAt hsize hheap) with
            ⟨b, hheapify, hrearranged, hheap'⟩
          have hlength' := hrearranged.length_eq
          rcases ih (size + 1) (by omega) (by omega) hheap'
            (sortedFrom_of_rearranged hsize hheap hsorted hrearranged) with
            ⟨c, hrest, hperm, hsorted'⟩
          have hrounds := hheapify.bind (f := fun array fuel => extract fuel (size + 1) array) hrest
          refine ⟨c, hrounds.congr fun fuel => ?_,
            hperm.trans (hrearranged.perm.trans (swapAt_perm a 0 (size + 1))), hsorted'⟩
          rw [extract, hswap, ok_bind]

/-- Every vector of strings is sorted: the algorithm ends, every index it uses is within the
    vector, and the result has the same strings in order. -/
theorem heapSort_sorts (array : List Text) :
    ∃ result, Returns (fun fuel => heapSort fuel array) result ∧ result.Perm array ∧
      result.Pairwise (· ≤ ·) := by
  have hleaves : HeapFrom (array.length / 2 + 1) array.length array := by
    intro c hc hle
    omega
  rcases buildHeap_returns rfl hleaves with ⟨heap, hbuild, hperm, hheap⟩
  have hlength := hperm.length_eq
  have hnone : SortedFrom array.length heap := by
    intro i j hlt hj x hx y hy
    rw [List.getElem?_eq_none (by omega)] at hy
    cases hy
  rcases extract_returns (by omega) hheap hnone with ⟨result, hextract, hperm', hsorted⟩
  refine ⟨result, hbuild.bind hextract, hperm'.trans hperm, SortedRange.pairwise ?_⟩
  intro i j _ hlt _ x hx y hy
  exact hsorted i j hlt (by omega) x hx y hy

end SortTool

end CodingChallenges
