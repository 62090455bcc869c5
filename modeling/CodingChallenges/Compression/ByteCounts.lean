import CodingChallenges.Compression.RoundTrip

/-!
# The Number of Bytes of a Payload

How many bytes the encoder writes, and how many the decoder is going to read.

The encoder writes a byte for every eight bits and one more for the rest of them. The
decoder computes the same number from the number of bits, but as an `int`. Up to
`2 ^ 31` bits the two agree, and from there on they never do: either the number is
negative, or it is far too small.

## Theorems

* `serializePayload_length`: How many bytes the encoder writes.
* `bytesOfBits_lt`: How many the decoder reads at most.
* `serializePayload_bytesOfBits_iff`: When the two are the same.
-/

namespace CodingChallenges

namespace Compression

open BitList

section Counting

/-- The loop writes some bits, whatever the bit map is. -/
theorem packs_serializePayloadLoop {bitMap : BitMap} {buffer : List UInt8} {w w' : Writer}
    {bits : List Bool} (hw : Packs w bits) (h : serializePayloadLoop bitMap buffer w = .ok w') :
    ∃ bits', Packs w' bits' := by
  induction buffer generalizing w bits with
  | nil =>
      cases h
      exact ⟨bits, hw⟩
  | cons c buffer ih =>
      rw [serializePayloadLoop] at h
      cases hcode : bitMap c with
      | none =>
          rw [hcode] at h
          cases h
      | some code =>
          rw [hcode] at h
          exact ih (hw.writeBits code) h

/-- The encoder writes a byte for every eight bits, and one for the rest of them. -/
theorem serializePayload_length {tree : HuffmanTree} {buffer payload : List UInt8}
    {totalBits : Nat} (h : tree.serializePayload buffer = .ok (payload, totalBits)) :
    payload.length = (totalBits + 7) / 8 := by
  rcases bind_eq_ok.mp h with ⟨w, hloop, hfinish⟩
  cases hfinish
  rcases packs_serializePayloadLoop packs_new hloop with ⟨bits, hw⟩
  rw [hw.length_finish, hw.total_eq]

/-- From `2 ^ 31` bits on the decoder reads fewer bytes than there are. -/
theorem bytesOfBits_lt {bits : Nat} (h : 2 ^ 31 ≤ bits) :
    bytesOfBits bits < ((bits + 7) / 8 : Nat) := by
  have hhigh : (bits : Int).bmod (2 ^ 32) < 2 ^ 31 := by
    unfold Int.bmod
    simp only
    split <;> omega
  have hnext : 0 ≤ (bits : Int).bmod (2 ^ 32) → 2 ^ 32 ≤ bits := by
    unfold Int.bmod
    simp only
    split <;> omega
  unfold bytesOfBits
  simp only
  generalize (bits : Int).bmod (2 ^ 32) = numerator at *
  by_cases hsign : 0 ≤ numerator
  · have hlarge := hnext hsign
    rw [Int.tdiv_eq_ediv_of_nonneg hsign]
    split <;> omega
  · -- The quotient of a negative number is not positive.
    have hquotient : numerator.tdiv 8 ≤ 0 := by
      have hone : Int.sign 8 = 1 := rfl
      rw [Int.tdiv_eq_ediv, hone]
      split <;> omega
    split <;> omega

end Counting

/-- The decoder reads as many bytes as the encoder wrote exactly if there are less than
    `2 ^ 31` bits. -/
theorem serializePayload_bytesOfBits_iff (tree : HuffmanTree) (buffer payload : List UInt8)
    (totalBits : Nat) (h : tree.serializePayload buffer = .ok (payload, totalBits)) :
    (payload.length : Int) = bytesOfBits totalBits ↔ totalBits < 2 ^ 31 := by
  rw [serializePayload_length h]
  constructor
  · intro heq
    by_contra hlarge
    have hlt := bytesOfBits_lt (Nat.le_of_not_lt hlarge)
    omega
  · intro hsmall
    exact (bytesOfBits_of_lt hsmall).symm

/-- Three bytes. -/
theorem serializePayload_bytesOfBits_three :
    (([0x80] : List UInt8).length : Int) = bytesOfBits 4 :=
  (serializePayload_bytesOfBits_iff (HuffmanTree.ofRoot threeLeaves) [8, 7, 7] [0x80] 4
    (by decide +kernel)).mpr (by decide)

section Large

/-- A tree with two leaves has two codes of one bit each. -/
theorem length_code_of_two {t : FullTree UInt8} (htwo : t.leaves.length = 2) {c : UInt8}
    {code : List Bool} (h : (c, code) ∈ t.codes) : code.length = 1 := by
  cases t with
  | leaf a => cases htwo
  | node l r =>
      rw [FullTree.leaves, List.length_append, FullTree.length_leaves, FullTree.length_leaves]
        at htwo
      cases l with
      | node => simp only [FullTree.innerNodes] at htwo; omega
      | leaf a =>
          cases r with
          | node => simp only [FullTree.innerNodes] at htwo; omega
          | leaf b =>
              rcases FullTree.mem_codes_node.mp h with ⟨rest, rfl, hmem⟩ | ⟨rest, rfl, hmem⟩
              · rw [(Prod.mk.inj (List.mem_singleton.mp hmem)).2]
                rfl
              · rw [(Prod.mk.inj (List.mem_singleton.mp hmem)).2]
                rfl

/-- A file of one byte again and again, and another one behind it, takes one bit a byte. -/
theorem encode_two (n : Nat) (hn : n + 1 < 2 ^ 64) (hpos : 0 < n) :
    ∃ tree payload, construct id (computeFrequency (List.replicate n 7 ++ [8])) = .ok tree ∧
      tree.serializePayload (List.replicate n 7 ++ [8]) = .ok (payload, n + 1) := by
  have hlength : (List.replicate n (7 : UInt8) ++ [8]).length = n + 1 := by
    rw [List.length_append, List.length_replicate, List.length_singleton]
  have hmem : ∀ c, c ∈ List.replicate n (7 : UInt8) ++ [8] ↔ c ∈ [(7 : UInt8), 8] := by
    intro c
    rw [List.mem_append, List.mem_replicate, List.mem_singleton, List.mem_pair,
      and_iff_right (Nat.ne_of_gt hpos)]
  generalize List.replicate n (7 : UInt8) ++ [8] = buffer at *
  have hne : buffer ≠ [] := by
    rw [← List.length_pos_iff, hlength]
    exact Nat.succ_pos n
  rcases construct_buffer id hne (by rw [hlength]; exact hn) with
    ⟨node, t, hconstruct, ht, hnodup, -, hleaves⟩
  have htwo : t.leaves.length = 2 := by
    have hperm : t.leaves.Perm [7, 8] := by
      refine (List.perm_ext_iff_of_nodup hnodup (by decide)).mpr fun c => ?_
      rw [hleaves, hmem]
    exact hperm.length_eq
  have hsequence : ∀ c ∈ buffer, c ∈ t.leaves := fun c hc => (hleaves c).mpr hc
  rcases serializePayload_spec ht hnodup hsequence with ⟨payload, rest, hwrite, -, -⟩
  refine ⟨_, payload, hconstruct, ?_⟩
  -- Each byte has a code of one bit.
  have hone : ∀ c ∈ buffer, (codeOf (HuffmanTree.ofRoot node).bitMap c).length = 1 :=
    fun c hc => length_code_of_two htwo (codeOf_mem ht hnodup (hsequence c hc)).2
  have htotal : (buffer.flatMap (codeOf (HuffmanTree.ofRoot node).bitMap)).length = n + 1 := by
    rw [List.length_flatMap, List.map_congr_left hone, List.map_const', List.sum_replicate_nat,
      hlength, Nat.mul_one]
  rw [hwrite, htotal]

/-- A file with a payload of `2 ^ 31` bits. -/
theorem not_serializePayload_bytesOfBits :
    ¬ ∀ (addresses : Nat → Nat) (buffer : List UInt8) (tree : HuffmanTree) (payload : List UInt8)
      (totalBits : Nat), construct addresses (computeFrequency buffer) = .ok tree →
        tree.serializePayload buffer = .ok (payload, totalBits) → totalBits < 2 ^ 64 →
          (payload.length : Int) = bytesOfBits totalBits := by
  intro hall
  rcases encode_two (2 ^ 31 - 1) (by omega) (by omega) with ⟨tree, payload, hconstruct, hwrite⟩
  have heq := hall id _ tree payload _ hconstruct hwrite (by omega)
  rw [serializePayload_length hwrite] at heq
  have hlt : bytesOfBits (2 ^ 31 - 1 + 1) < ((2 ^ 31 - 1 + 1 + 7) / 8 : Nat) :=
    bytesOfBits_lt (by omega)
  omega

end Large

end Compression

end CodingChallenges
