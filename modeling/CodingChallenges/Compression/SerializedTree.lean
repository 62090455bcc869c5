import CodingChallenges.Library.FullTree
import CodingChallenges.Compression.Bits

/-!
# The Serialised Tree

A tree is written from the root down, the left part of a node before the right one: a
zero for an inner node, and for a leaf a one and the byte. The writer works off a stack
of nodes, the reader calls itself; both deal with one tree after the other, and what is
below and behind it does not matter.

## Main definitions

* `HuffmanTreeNode.Represents`: The full binary tree that is made of nodes.
* `treeBits`: How a tree is written.

## Theorems

* `serializeLoop_node`: The writer writes a tree.
* `deserializeNode_treeBits`: The reader reads one.
* `deserialize_serialize`: What was written is read back.
-/

namespace CodingChallenges

namespace Compression

open BitList

/-- The nodes make up the tree. What they carry besides the bytes does not count. -/
def HuffmanTreeNode.Represents : HuffmanTreeNode → FullTree UInt8 → Prop
  | .null, _ => False
  | .node char _ left right, .leaf a => char = some a ∧ left = .null ∧ right = .null
  | .node _ _ left right, .node l r => left.Represents l ∧ right.Represents r

/-- How a tree is written. -/
def treeBits : FullTree UInt8 → List Bool
  | .leaf a => true :: ofByte a
  | .node left right => false :: (treeBits left ++ treeBits right)

theorem length_treeBits (t : FullTree UInt8) :
    (treeBits t).length = t.innerNodes + 9 * t.leaves.length := by
  induction t with
  | leaf a =>
      simp only [treeBits, List.length_cons, length_ofByte, Nat.reduceAdd, FullTree.innerNodes,
        FullTree.leaves, List.length_nil, zero_add, mul_one]
  | node left right ihl ihr =>
      rw [treeBits, List.length_cons, List.length_append, ihl, ihr, FullTree.innerNodes,
        FullTree.leaves, List.length_append]
      omega

section nodes

variable {char : Option UInt8} {value : UInt64} {left right : HuffmanTreeNode}

theorem isLeafNode_of_leaf {a : UInt8}
    (h : (HuffmanTreeNode.node char value left right).Represents (.leaf a)) :
    (HuffmanTreeNode.node char value left right).isLeafNode = true := by
  rcases h with ⟨rfl, rfl, rfl⟩
  rfl

theorem isLeafNode_of_node {l r : FullTree UInt8}
    (h : (HuffmanTreeNode.node char value left right).Represents (.node l r)) :
    (HuffmanTreeNode.node char value left right).isLeafNode = false := by
  cases left with
  | null => exact h.1.elim
  | node => cases char <;> rfl

end nodes

/-- The writer writes the tree on top of the stack, whatever is below it. -/
theorem serializeLoop_node (t : FullTree UInt8) {node : HuffmanTreeNode} (h : node.Represents t)
    {w : Writer} {bits : List Bool} (hw : Packs w bits) :
    ∃ w', Packs w' (bits ++ treeBits t) ∧
      ∀ nodes, serializeLoop (node :: nodes) w = serializeLoop nodes w' := by
  induction t generalizing node w bits with
  | leaf a =>
      cases node with
      | null => exact h.elim
      | node char value left right =>
          have hleaf := isLeafNode_of_leaf h
          rcases h with ⟨rfl, rfl, rfl⟩
          have hbyte := (hw.writeBit true).writeByte a
          rw [List.append_assoc] at hbyte
          refine ⟨_, hbyte, fun nodes => ?_⟩
          rw [serializeLoop, hleaf]
          rfl
  | node l r ihl ihr =>
      cases node with
      | null => exact h.elim
      | node char value left right =>
          have hinner := isLeafNode_of_node h
          -- The children are on the stack then, the left one on top.
          rcases ihl h.1 (hw.writeBit false) with ⟨w₁, hw₁, hleft⟩
          rcases ihr h.2 hw₁ with ⟨w₂, hw₂, hright⟩
          refine ⟨w₂, ?_, fun nodes => ?_⟩
          · rw [treeBits]
            simpa only [List.append_assoc, List.cons_append, List.nil_append] using hw₂
          · rw [serializeLoop, hinner]
            exact (hleft (right :: nodes)).trans (hright nodes)

/-- The bits of a tree, with nothing but the end of the last byte behind them. -/
theorem serialize_spec {tree : HuffmanTree} {t : FullTree UInt8} (h : tree.root.Represents t) :
    (∃ k, ofBytes tree.serialize.1 = treeBits t ++ List.replicate k false) ∧
      tree.serialize.2 = (treeBits t).length ∧
      tree.serialize.1.length = ((treeBits t).length + 7) / 8 := by
  have hroot : tree.root ≠ .null := by
    intro hnull
    rw [hnull] at h
    exact h.elim
  rcases serializeLoop_node t h packs_new with ⟨w, hw, hloop⟩
  have hw' : serializeLoop [tree.root] .new = w := by
    rw [hloop, serializeLoop]
  rw [HuffmanTree.serialize, if_neg hroot, hw']
  rcases hw.finish with ⟨k, -, hbits⟩
  exact ⟨⟨k, hbits⟩, hw.total_eq, hw.length_finish⟩

section steps

variable {bytes : List UInt8} {limit depth : Nat} {r : Reader} {first : UInt8}

/-- A one is a leaf. -/
theorem deserializeNode_one {a : UInt8} (hindex : r.index < bytes.length)
    (hlimit : r.totalProcessedBits < limit) (hfirst : byteAt bytes r.index = .ok first)
    (hbit : nextBit first r.remainingBits = true) (hbyte : readByte bytes r.behindBit = .ok a) :
    deserializeNode bytes limit (depth + 1) r .null = .ok (.node (some a) 0 .null .null,
      ⟨r.behindBit.index + 1, r.behindBit.totalProcessedBits + 8, r.behindBit.remainingBits⟩) := by
  rw [deserializeNode, if_neg (by omega), if_neg (by omega), hfirst]
  show (if nextBit first r.remainingBits = false then _ else _) = _
  rw [if_neg (by simp only [hbit, Bool.true_eq_false, not_false_eq_true]), hbyte]
  rfl

/-- A zero is an inner node, and its children come next. -/
theorem deserializeNode_zero {r₁ r₂ : Reader} {left right : HuffmanTreeNode}
    (hindex : r.index < bytes.length) (hlimit : r.totalProcessedBits < limit)
    (hfirst : byteAt bytes r.index = .ok first) (hbit : nextBit first r.remainingBits = false)
    (hleft : deserializeNode bytes limit depth r.behindBit .null = .ok (left, r₁))
    (hright : deserializeNode bytes limit depth r₁ .null = .ok (right, r₂)) :
    deserializeNode bytes limit (depth + 1) r .null = .ok (.node none 0 left right, r₂) := by
  rw [deserializeNode, if_neg (by omega), if_neg (by omega), hfirst]
  show (if nextBit first r.remainingBits = false then _ else _) = _
  rw [if_pos hbit, hleft]
  show (deserializeNode bytes limit depth r₁ .null >>= _) = _
  rw [hright]
  rfl

end steps

/-- The reader reads a tree from where it is written on. -/
theorem deserializeNode_treeBits (t : FullTree UInt8) {bytes : List UInt8} {limit depth : Nat}
    {r : Reader} {rest : List Bool} (hr : r.At)
    (hbits : (ofBytes bytes).drop r.totalProcessedBits = treeBits t ++ rest)
    (hlimit : r.totalProcessedBits + (treeBits t).length ≤ limit) (hdepth : t.innerNodes < depth) :
    ∃ node r', deserializeNode bytes limit depth r .null = .ok (node, r') ∧ node.Represents t ∧
      r'.At ∧ r'.totalProcessedBits = r.totalProcessedBits + (treeBits t).length := by
  induction t generalizing r rest depth with
  | leaf a =>
      rcases Nat.exists_eq_add_of_le' (Nat.succ_le_of_lt hdepth) with ⟨depth, rfl⟩
      rw [treeBits, List.cons_append] at hbits
      rw [treeBits, List.length_cons, length_ofByte] at hlimit ⊢
      have hindex := hr.index_lt hbits
      rcases hr.reads_bit hbits with ⟨first, hfirst, hbit, hbehind⟩
      have hbyte := hr.behindBit.reads_byte hbehind
      refine ⟨_, _, deserializeNode_one hindex (by omega) hfirst hbit hbyte, ⟨rfl, rfl, rfl⟩,
        ?_, ?_⟩
      · have hposition := hr.behindBit.position
        exact ⟨by simp only; omega, hr.behindBit.pos, hr.behindBit.le⟩
      · rw [Reader.behindBit_totalProcessedBits]
  | node left right ihl ihr =>
      rw [FullTree.innerNodes] at hdepth
      rcases Nat.exists_eq_add_of_le' (by omega : 1 ≤ depth) with ⟨depth, rfl⟩
      rw [treeBits, List.cons_append, List.append_assoc] at hbits
      rw [treeBits, List.length_cons, List.length_append] at hlimit ⊢
      have hindex := hr.index_lt hbits
      rcases hr.reads_bit hbits with ⟨first, hfirst, hbit, hbehind⟩
      -- The right child is read from where the left one ends.
      have hbit₁ := Reader.behindBit_totalProcessedBits r
      have hdepthl : left.innerNodes < depth := by omega
      have hdepthr : right.innerNodes < depth := by omega
      rcases ihl hr.behindBit hbehind (by omega) hdepthl with ⟨l, r₁, hleft, hl, hr₁, htotal₁⟩
      have hbits₁ : (ofBytes bytes).drop r₁.totalProcessedBits = treeBits right ++ rest := by
        rw [htotal₁, ← List.drop_drop, hbehind, List.drop_left' rfl]
      rcases ihr hr₁ hbits₁ (by omega) hdepthr with ⟨r', r₂, hright, hr', hr₂, htotal₂⟩
      refine ⟨_, _, deserializeNode_zero hindex (by omega) hfirst hbit hleft hright, ⟨hl, hr'⟩, hr₂,
        ?_⟩
      omega

theorem deserialize_treeBits {t : FullTree UInt8} {bytes : List UInt8} {rest : List Bool}
    (h : ofBytes bytes = treeBits t ++ rest) :
    ∃ node, deserialize .null bytes (treeBits t).length = .ok (.ofRoot node) ∧
      node.Represents t := by
  have hstart : (⟨0, 0, 8⟩ : Reader).At := ⟨rfl, by decide, by decide⟩
  have hdepth : t.innerNodes < (treeBits t).length + 1 := by
    rw [length_treeBits]
    omega
  rcases deserializeNode_treeBits t hstart h (Nat.zero_add _).le hdepth with
    ⟨node, r, hread, hnode, -⟩
  refine ⟨node, ?_, hnode⟩
  rw [deserialize, hread]
  rfl

/-- The serialised tree is read back, whatever its shape. -/
theorem deserialize_serialize {tree : HuffmanTree} {t : FullTree UInt8}
    (h : tree.root.Represents t) :
    ∃ node, deserialize .null tree.serialize.1 tree.serialize.2 = .ok (.ofRoot node) ∧
      node.Represents t ∧ tree.serialize.2 = t.innerNodes + 9 * t.leaves.length := by
  rcases serialize_spec h with ⟨⟨k, hbits⟩, htotal, -⟩
  rcases deserialize_treeBits hbits with ⟨node, hread, hnode⟩
  refine ⟨node, ?_, hnode, ?_⟩
  · rw [htotal, hread]
  · rw [htotal, length_treeBits]

/-- A tree with three leaves, made of nodes. -/
def threeLeaves : HuffmanTreeNode :=
  .node none 6 (.node (some 7) 3 .null .null)
    (.node none 3 (.node (some 8) 1 .null .null) (.node (some 9) 2 .null .null))

theorem threeLeaves_represents :
    threeLeaves.Represents (.node (.leaf 7) (.node (.leaf 8) (.leaf 9))) :=
  ⟨⟨rfl, rfl, rfl⟩, ⟨rfl, rfl, rfl⟩, ⟨rfl, rfl, rfl⟩⟩

/-- The bytes of the three leaves lie across the ends of others. -/
theorem deserialize_serialize_three :
    ∃ node, deserialize .null (HuffmanTree.ofRoot threeLeaves).serialize.1
        (HuffmanTree.ofRoot threeLeaves).serialize.2 = .ok (.ofRoot node) ∧
      node.Represents (.node (.leaf 7) (.node (.leaf 8) (.leaf 9))) ∧
      (HuffmanTree.ofRoot threeLeaves).serialize.2 = 2 + 9 * 3 :=
  deserialize_serialize threeLeaves_represents

end Compression

end CodingChallenges
