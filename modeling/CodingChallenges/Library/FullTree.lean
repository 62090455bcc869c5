import Mathlib.Algebra.BigOperators.Group.List.Basic
import Mathlib.Algebra.BigOperators.Ring.List
import Mathlib.Algebra.Order.BigOperators.Group.List
import Mathlib.Tactic.Ring

/-!
# Full Binary Trees

Trees in which every inner node has two children, as codes: a symbol stands at each
leaf, and its code is the way to it from the root.

No symbol stands on the way to another, so symbols written one after the other can be
read back without anything between them. If symbols have weights, then the cost of a
tree is what it takes to write every symbol as often as its weight says. A tree that
is put together from two costs what the two cost, and one bit more for each symbol.

## Main definitions

* `FullTree`: The trees.
* `FullTree.codes`: The symbols with their codes.
* `FullTree.decode`: Reading symbols.
* `FullTree.weight`, `FullTree.cost`: What a tree weighs and costs.

## Theorems

* `FullTree.decode_code`: A code is read as its symbol.
* `FullTree.decode_codes`: Symbols one after the other are read back.
* `FullTree.cost_node`: What it costs to put two trees together.
* `FullTree.exists_shallow`: How many symbols there is room for.
-/

namespace CodingChallenges

/-- A leaf, or two trees side by side. -/
inductive FullTree (α : Type) where
  | leaf (a : α)
  | node (left right : FullTree α)
deriving DecidableEq, Repr

namespace FullTree

variable {α : Type}

/-- The leaves, from the left to the right. -/
def leaves : FullTree α → List α
  | .leaf a => [a]
  | .node left right => left.leaves ++ right.leaves

/-- How many inner nodes there are. -/
def innerNodes : FullTree α → Nat
  | .leaf _ => 0
  | .node left right => 1 + left.innerNodes + right.innerNodes

/-- Each symbol with the way to it, where `false` is to the left. -/
def codes : FullTree α → List (α × List Bool)
  | .leaf a => [(a, [])]
  | .node left right =>
    left.codes.map (fun p => (p.1, false :: p.2)) ++ right.codes.map (fun p => (p.1, true :: p.2))

/-- The symbols that are read on the way down from a node, starting again from the root
    after each of them. -/
def decode (root : FullTree α) : FullTree α → List Bool → List α
  | .node left right, bit :: bits =>
    match if bit then right else left with
    | .leaf a => a :: decode root root bits
    | next => decode root next bits
  | _, _ => []

theorem leaves_ne_nil (t : FullTree α) : t.leaves ≠ [] := by
  induction t with
  | leaf a => exact List.cons_ne_nil _ _
  | node left right ihl _ => exact List.append_ne_nil_of_left_ne_nil ihl _

theorem length_leaves (t : FullTree α) : t.leaves.length = t.innerNodes + 1 := by
  induction t with
  | leaf a => rfl
  | node left right ihl ihr =>
      rw [leaves, List.length_append, ihl, ihr, innerNodes]
      omega

/-- A tree with at least two leaves is no leaf itself. -/
theorem exists_node {t : FullTree α} (h : 2 ≤ t.leaves.length) : ∃ l r, t = node l r := by
  cases t with
  | leaf a => simp [leaves] at h
  | node l r => exact ⟨l, r, rfl⟩

theorem map_fst_codes (t : FullTree α) : t.codes.map Prod.fst = t.leaves := by
  induction t with
  | leaf a => rfl
  | node left right ihl ihr =>
      simp only [codes, leaves, List.map_append, List.map_map, Function.comp_def, ← ihl, ← ihr]

theorem mem_codes_node {left right : FullTree α} {a : α} {code : List Bool} :
    (a, code) ∈ (node left right).codes ↔
      (∃ rest, code = false :: rest ∧ (a, rest) ∈ left.codes) ∨
        ∃ rest, code = true :: rest ∧ (a, rest) ∈ right.codes := by
  simp only [codes, List.mem_append, List.mem_map, Prod.mk.injEq, Prod.exists]
  constructor
  · rintro (⟨a', rest, hmem, rfl, rfl⟩ | ⟨a', rest, hmem, rfl, rfl⟩)
    · exact Or.inl ⟨rest, rfl, hmem⟩
    · exact Or.inr ⟨rest, rfl, hmem⟩
  · rintro (⟨rest, rfl, hmem⟩ | ⟨rest, rfl, hmem⟩)
    · exact Or.inl ⟨a, rest, hmem, rfl, rfl⟩
    · exact Or.inr ⟨a, rest, hmem, rfl, rfl⟩

/-- On the way down the code of a symbol there is no other symbol. -/
theorem decode_code (root : FullTree α) {left right : FullTree α} {a : α} {code : List Bool}
    (h : (a, code) ∈ (node left right).codes) (bits : List Bool) :
    decode root (node left right) (code ++ bits) = a :: decode root root bits := by
  have hchild : ∀ child : FullTree α, ∀ rest, (a, rest) ∈ child.codes →
      (match child with
        | .leaf b => b :: decode root root (rest ++ bits)
        | next => decode root next (rest ++ bits)) = a :: decode root root bits := by
    intro child
    induction child with
    | leaf b =>
        intro rest hmem
        simp only [codes, List.mem_singleton, Prod.mk.injEq] at hmem
        rw [hmem.1, hmem.2, List.nil_append]
    | node l r ihl ihr =>
        intro rest hmem
        rcases mem_codes_node.mp hmem with ⟨rest, rfl, hleft⟩ | ⟨rest, rfl, hright⟩
        · exact ihl rest hleft
        · exact ihr rest hright
  rcases mem_codes_node.mp h with ⟨rest, rfl, hleft⟩ | ⟨rest, rfl, hright⟩
  · exact hchild left rest hleft
  · exact hchild right rest hright

/-- Symbols that are written one after the other are read back, unless there is only one. -/
theorem decode_codes {root left right : FullTree α} (hroot : root = node left right)
    {code : α → List Bool} {symbols : List α} (h : ∀ a ∈ symbols, (a, code a) ∈ root.codes) :
    decode root root (symbols.flatMap code) = symbols := by
  induction symbols with
  | nil =>
      rw [List.flatMap_nil, hroot]
      rfl
  | cons a symbols ih =>
      rw [List.flatMap_cons]
      have ha := h a List.mem_cons_self
      have hrest := ih fun b hb => h b (List.mem_cons_of_mem a hb)
      subst hroot
      rw [decode_code _ ha, hrest]

/-! ### Cost -/

variable (w : α → Nat)

/-- The weight of all symbols together. -/
def weight (t : FullTree α) : Nat :=
  (t.leaves.map w).sum

/-- How much it takes to write every symbol as often as its weight says. -/
def cost (t : FullTree α) : Nat :=
  (t.codes.map fun p => w p.1 * p.2.length).sum

theorem cost_leaf (a : α) : cost w (leaf a) = 0 := by
  simp only [cost, codes, List.map_cons, List.length_nil, mul_zero, List.map_nil, List.sum_cons,
    List.sum_nil, add_zero]

theorem weight_leaf (a : α) : weight w (leaf a) = w a := by
  simp only [weight, leaves, List.map_cons, List.map_nil, List.sum_cons, List.sum_nil, add_zero]

theorem weight_node (left right : FullTree α) :
    weight w (node left right) = weight w left + weight w right := by
  simp only [weight, leaves, List.map_append, List.sum_append]

theorem weight_eq_codes (t : FullTree α) :
    weight w t = (t.codes.map fun p => w p.1).sum := by
  rw [weight, ← map_fst_codes, List.map_map]
  rfl

theorem cost_node (left right : FullTree α) :
    cost w (node left right) = cost w left + cost w right + (weight w left + weight w right) := by
  have hlonger : ∀ (bit : Bool) (t : FullTree α),
      ((t.codes.map fun p => (p.1, bit :: p.2)).map fun p => w p.1 * p.2.length).sum =
        cost w t + weight w t := by
    intro bit t
    rw [cost, weight_eq_codes, ← List.sum_map_add, List.map_map]
    rfl
  rw [cost, codes, List.map_append, List.sum_append, hlonger, hlonger]
  ring

/-! ### Long and short codes -/

/-- A tree with codes of so many bits costs at most that much for each weight. -/
theorem cost_le {t : FullTree α} {n : Nat} (h : ∀ p ∈ t.codes, p.2.length ≤ n) :
    cost w t ≤ n * weight w t := by
  have hle : ∀ p ∈ t.codes, w p.1 * p.2.length ≤ n * w p.1 := by
    intro p hp
    calc w p.1 * p.2.length ≤ w p.1 * n := Nat.mul_le_mul_left _ (h p hp)
      _ = n * w p.1 := Nat.mul_comm _ _
  rw [cost, weight_eq_codes, ← List.sum_map_mul_left]
  exact List.sum_le_sum hle

/-- No code is longer than there are inner nodes. -/
theorem length_code_le (t : FullTree α) : ∀ p ∈ t.codes, p.2.length ≤ t.innerNodes := by
  induction t with
  | leaf a => simp [codes]
  | node left right ihl ihr =>
      rintro ⟨a, code⟩ hp
      rcases mem_codes_node.mp hp with ⟨rest, rfl, hmem⟩ | ⟨rest, rfl, hmem⟩
      · have hrest : rest.length ≤ left.innerNodes := ihl _ hmem
        simp only [List.length_cons, innerNodes]
        omega
      · have hrest : rest.length ≤ right.innerNodes := ihr _ hmem
        simp only [List.length_cons, innerNodes]
        omega

/-- With codes of `n` bits there is room for `2 ^ n` symbols. -/
theorem exists_shallow (n : Nat) {symbols : List α} (hne : symbols ≠ [])
    (hlength : symbols.length ≤ 2 ^ n) :
    ∃ t : FullTree α, t.leaves = symbols ∧ ∀ p ∈ t.codes, p.2.length ≤ n := by
  induction n generalizing symbols with
  | zero =>
      have hpos := List.length_pos_iff.mpr hne
      rcases List.length_eq_one_iff.mp (by omega : symbols.length = 1) with ⟨a, rfl⟩
      exact ⟨leaf a, rfl, by simp [codes]⟩
  | succ n ih =>
      rw [Nat.pow_succ] at hlength
      by_cases hfew : symbols.length ≤ 2 ^ n
      · rcases ih hne hfew with ⟨t, hleaves, hcodes⟩
        exact ⟨t, hleaves, fun p hp => (hcodes p hp).trans (Nat.le_succ n)⟩
      -- The first half goes to the left, and what is left to the right.
      have hleft : symbols.take (2 ^ n) ≠ [] := by
        rw [← List.length_pos_iff, List.length_take]
        have := Nat.two_pow_pos n
        omega
      have hright : symbols.drop (2 ^ n) ≠ [] := by
        rw [← List.length_pos_iff, List.length_drop]
        omega
      rcases ih hleft (by rw [List.length_take]; omega) with ⟨l, hl, hlcodes⟩
      rcases ih hright (by rw [List.length_drop]; omega) with ⟨r, hr, hrcodes⟩
      refine ⟨node l r, ?_, ?_⟩
      · rw [leaves, hl, hr, List.take_append_drop]
      · rintro ⟨a, code⟩ hp
        rcases mem_codes_node.mp hp with ⟨rest, rfl, hmem⟩ | ⟨rest, rfl, hmem⟩
        · exact Nat.succ_le_succ (hlcodes _ hmem)
        · exact Nat.succ_le_succ (hrcodes _ hmem)

end FullTree

end CodingChallenges
