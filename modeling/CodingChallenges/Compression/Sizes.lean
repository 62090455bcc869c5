import Mathlib.Algebra.BigOperators.Group.Finset.Basic
import CodingChallenges.Compression.Optimality
import CodingChallenges.Compression.RoundTrip

/-!
# How Large a Compressed File Is

The header, the tree and the payload each have a size that the file to compress decides: how
many different bytes there are in it, and how many bits their codes take.

A tree may be as deep as it has inner nodes, so without an order of the addresses a byte may get
far longer. Where every round of the construction is harmless the tree costs no more than any
other, and there is one in which no code is longer than it takes to number the bytes.

## Theorems

* `sum_symbols`: Going through the bytes that occur instead of through the file.
* `length_encode`: How large the compressed file is.
* `totalCodeLength_le_deep`, `totalCodeLength_le_shallow`: How many bits the payload takes.
* `encode_size`: How large the compressed file is at most.
-/

namespace CodingChallenges

namespace Compression

variable {addresses : Nat → Nat} {buffer : List UInt8} {node : HuffmanTreeNode}
  {t : FullTree UInt8}

/-- What the bytes of a file add up to, counted for each byte that occurs. -/
theorem sum_symbols (hsize : buffer.length < 2 ^ 64) (f : UInt8 → Nat) :
    ((symbols (computeFrequency buffer)).map fun c =>
      count (computeFrequency buffer) c * f c).sum = (buffer.map f).sum := by
  have hset : (symbols (computeFrequency buffer)).toFinset = buffer.toFinset := by
    ext c
    rw [List.mem_toFinset, List.mem_toFinset, mem_symbols_computeFrequency hsize]
  rw [← List.sum_toFinset _ (nodup_symbols _), hset, Finset.sum_list_map_count]
  refine Finset.sum_congr rfl fun c _ => ?_
  rw [count_computeFrequency hsize, Nat.nsmul_eq_mul]

theorem totalCodeLength_eq_cost (hsize : buffer.length < 2 ^ 64) (h : node.Represents t)
    (hleaves : t.leaves.Perm (symbols (computeFrequency buffer))) :
    (HuffmanTree.ofRoot node).totalCodeLength buffer =
      t.cost (count (computeFrequency buffer)) := by
  rw [← codedLength_eq_cost h hleaves, HuffmanTree.codedLength,
    sum_symbols hsize fun c => (codeOf (HuffmanTree.ofRoot node).bitMap c).length]
  rfl

theorem weight_buffer (hsize : buffer.length < 2 ^ 64)
    (hleaves : t.leaves.Perm (symbols (computeFrequency buffer))) :
    t.weight (count (computeFrequency buffer)) = buffer.length := by
  have hone := sum_symbols hsize fun _ => 1
  simp only [Nat.mul_one] at hone
  rw [FullTree.weight, (hleaves.map _).sum_eq, hone]
  simp only [List.map_const', List.sum_replicate, nsmul_eq_mul, Nat.cast_id, mul_one]

/-- The bytes that occur are those that are left when the others have been dropped. -/
theorem length_symbols (hsize : buffer.length < 2 ^ 64) :
    (symbols (computeFrequency buffer)).length = buffer.dedup.length := by
  refine List.Perm.length_eq ((List.perm_ext_iff_of_nodup (nodup_symbols _)
    buffer.nodup_dedup).mpr fun c => ?_)
  rw [mem_symbols_computeFrequency hsize, List.mem_dedup]

section Payload

/-- No byte takes more bits than there are other bytes. -/
theorem totalCodeLength_le_deep (hsize : buffer.length < 2 ^ 64) (h : node.Represents t)
    (hleaves : t.leaves.Perm (symbols (computeFrequency buffer))) :
    (HuffmanTree.ofRoot node).totalCodeLength buffer ≤
      (buffer.dedup.length - 1) * buffer.length := by
  have hcount : t.leaves.length = buffer.dedup.length := by
    rw [hleaves.length_eq, length_symbols hsize]
  have hinner : t.innerNodes = buffer.dedup.length - 1 := by
    rw [← hcount, FullTree.length_leaves, Nat.add_sub_cancel]
  rw [totalCodeLength_eq_cost hsize h hleaves, ← hinner, ← weight_buffer hsize hleaves]
  exact FullTree.cost_le _ t.length_code_le

/-- The bytes could be numbered, and an optimal tree does no worse. -/
theorem totalCodeLength_le_shallow (hne : buffer ≠ []) (hsize : buffer.length < 2 ^ 64)
    (h : node.Represents t) (hleaves : t.leaves.Perm (symbols (computeFrequency buffer)))
    (hoptimal : (HuffmanTree.ofRoot node).Optimal (computeFrequency buffer)) {n : Nat}
    (hn : buffer.dedup.length ≤ 2 ^ n) :
    (HuffmanTree.ofRoot node).totalCodeLength buffer ≤ n * buffer.length := by
  have hsymbols : symbols (computeFrequency buffer) ≠ [] := by
    rcases List.exists_mem_of_ne_nil buffer hne with ⟨c, hc⟩
    exact List.ne_nil_of_mem ((mem_symbols_computeFrequency hsize).mpr hc)
  rcases FullTree.exists_shallow n hsymbols (by rwa [length_symbols hsize]) with
    ⟨s, hs, hcodes⟩
  calc (HuffmanTree.ofRoot node).totalCodeLength buffer
      = (HuffmanTree.ofRoot node).codedLength (computeFrequency buffer) := by
        rw [totalCodeLength_eq_cost hsize h hleaves, codedLength_eq_cost h hleaves]
    _ ≤ s.cost (count (computeFrequency buffer)) := hoptimal s (by rw [hs])
    _ ≤ n * s.weight (count (computeFrequency buffer)) := FullTree.cost_le _ hcodes
    _ = n * buffer.length := by rw [weight_buffer hsize (by rw [hs])]

end Payload

/-- The header has four numbers, and the tree a bit for each node and a byte for each leaf. -/
theorem length_encode (hsize : buffer.length < 2 ^ 64)
    (hconstruct : construct addresses (computeFrequency buffer) = .ok (.ofRoot node))
    (h : node.Represents t) (hleaves : t.leaves.Perm (symbols (computeFrequency buffer))) :
    ∃ file, encode addresses buffer = .ok file ∧
      file.length = 32 + (10 * buffer.dedup.length + 6) / 8 +
        ((HuffmanTree.ofRoot node).totalCodeLength buffer + 7) / 8 := by
  have hnodup : t.leaves.Nodup := hleaves.nodup_iff.mpr (nodup_symbols _)
  have hsequence : ∀ c ∈ buffer, c ∈ t.leaves := fun c hc =>
    hleaves.mem_iff.mpr ((mem_symbols_computeFrequency hsize).mpr hc)
  rcases serializePayload_spec h hnodup hsequence with ⟨payload, -, hwrite, -, hpayload⟩
  have hroot : (HuffmanTree.ofRoot node).root.Represents t := h
  rcases serialize_spec hroot with ⟨-, -, htree⟩
  have hcount : t.leaves.length = buffer.dedup.length := by
    rw [hleaves.length_eq, length_symbols hsize]
  have htreeLength : (HuffmanTree.ofRoot node).serialize.1.length =
      (10 * buffer.dedup.length + 6) / 8 := by
    have hinner := FullTree.length_leaves t
    rw [htree, length_treeBits, ← hcount]
    congr 1
    omega
  refine ⟨_, by unfold encode; rw [hconstruct, ok_bind, hwrite, ok_bind], ?_⟩
  rw [List.length_append, hpayload, List.length_flatMap]
  simp only [CompressionHeader.write, List.length_append, LittleEndian.length_encode, htreeLength,
    HuffmanTree.totalCodeLength]

/-- The compressed file holds the header, ten bits for each different byte, and the payload. The
    payload takes a bit for each other byte at most, whatever the addresses, and no more bits
    for a byte than it takes to number the bytes, if every round of the construction is
    harmless. -/
theorem encode_size (addresses : Nat → Nat) (hne : buffer ≠ []) (hsize : buffer.length < 2 ^ 64) :
    ∃ tree file, construct addresses (computeFrequency buffer) = .ok tree ∧
      encode addresses buffer = .ok file ∧
      file.length = 32 + (10 * buffer.dedup.length + 6) / 8 +
        (tree.totalCodeLength buffer + 7) / 8 ∧
      tree.totalCodeLength buffer ≤ (buffer.dedup.length - 1) * buffer.length ∧
      ((∀ queue ∈ queues addresses (computeFrequency buffer), queue.Harmless) →
        ∀ n, buffer.dedup.length ≤ 2 ^ n → tree.totalCodeLength buffer ≤ n * buffer.length) := by
  have hoccurs : ∃ c, 0 < computeFrequency buffer c := by
    rcases List.exists_mem_of_ne_nil buffer hne with ⟨c, hc⟩
    exact ⟨c, mem_symbols.mp ((mem_symbols_computeFrequency hsize).mpr hc)⟩
  have hsum : (byteIndices.map (count (computeFrequency buffer))).sum < 2 ^ 64 := by
    rw [funext (count_computeFrequency hsize), sum_count]
    exact hsize
  rcases construct_spec addresses hoccurs hsum with ⟨node, t, hconstruct, ht, hleaves, hiff⟩
  rcases length_encode hsize hconstruct ht hleaves with ⟨file, hencode, hlength⟩
  refine ⟨_, file, hconstruct, hencode, hlength, totalCodeLength_le_deep hsize ht hleaves, ?_⟩
  intro hharmless n hn
  have hoptimal := (optimal_iff_cost ht hleaves).mpr (hiff.mpr hharmless)
  exact totalCodeLength_le_shallow hne hsize ht hleaves hoptimal hn

/-- Two bytes can be numbered with one bit. -/
theorem encode_size_two :
    ∃ tree file, construct id (computeFrequency [1, 2, 2]) = .ok tree ∧
      encode id [1, 2, 2] = .ok file ∧
      file.length = 35 + (tree.totalCodeLength [1, 2, 2] + 7) / 8 ∧
      tree.totalCodeLength [1, 2, 2] ≤ 3 := by
  rcases @encode_size [1, 2, 2] id (by decide) (by decide) with
    ⟨tree, file, hconstruct, hencode, hlength, -, hbits⟩
  exact ⟨tree, file, hconstruct, hencode, hlength, hbits (by decide +kernel) 1 (by decide)⟩

end Compression

end CodingChallenges
