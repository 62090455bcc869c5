import CodingChallenges.Library.Outcomes
import CodingChallenges.Compression.SerializedTree

/-!
# The Payload

The bit map holds the way to each leaf, if no byte stands at two of them. The writer
puts these ways one after the other, and the reader walks down the tree by them,
starting again at the root whenever it gets to a leaf. It stops at the last bit that was
written, so what the last byte is filled up with is not read.

This takes that there is a way to go at all. A tree that is a single leaf has none.

## Main definitions

* `codeOf`: The code of a byte in a bit map.

## Theorems

* `constructBitMap_codes`: The bit map holds the codes of the tree.
* `serializePayloadLoop_codes`: The writer writes the codes.
* `deserializePayloadLoop_decode`: The reader decodes the bits that were written.
* `deserializePayload_serializePayload`: What was written is read back.
-/

namespace CodingChallenges

namespace Compression

open BitList

/-! ### The bit map -/

/-- A bit map from which the byte is missing has no code for it. -/
def codeOf (bitMap : BitMap) (c : UInt8) : List Bool :=
  (bitMap c).getD []

/-- The bytes of a tree get their codes behind what has been gone already, and the others
    keep theirs. -/
theorem constructBitMap_codes (t : FullTree UInt8) {node : HuffmanTreeNode}
    (h : node.Represents t) (hnodup : t.leaves.Nodup) (path : List Bool) (bitMap : BitMap) :
    (∀ a code, (a, code) ∈ t.codes → constructBitMap node path bitMap a = some (path ++ code)) ∧
      ∀ a, a ∉ t.leaves → constructBitMap node path bitMap a = bitMap a := by
  induction t generalizing node path bitMap with
  | leaf b =>
      cases node with
      | null => exact h.elim
      | node char value left right =>
          have hleaf := isLeafNode_of_leaf h
          rcases h with ⟨rfl, rfl, rfl⟩
          constructor
          · intro a code hmem
            rw [FullTree.codes, List.mem_singleton, Prod.mk.injEq] at hmem
            rw [constructBitMap, if_pos hleaf, hmem.1, hmem.2, if_pos rfl, List.append_nil]
          · intro a ha
            rw [FullTree.leaves, List.mem_singleton] at ha
            rw [constructBitMap, if_pos hleaf, if_neg (by simpa only [Option.some.injEq] using ha)]
  | node l r ihl ihr =>
      cases node with
      | null => exact h.elim
      | node char value left right =>
          have hinner := isLeafNode_of_node h
          rw [FullTree.leaves, List.nodup_append] at hnodup
          rcases hnodup with ⟨hnodupl, hnodupr, hdisjoint⟩
          rcases ihl h.1 hnodupl (path ++ [false]) bitMap with ⟨hcodesl, hothersl⟩
          rcases ihr h.2 hnodupr (path ++ [true])
            (constructBitMap left (path ++ [false]) bitMap) with ⟨hcodesr, hothersr⟩
          rw [constructBitMap, if_neg (by simp only [hinner, Bool.false_eq_true,
              not_false_eq_true])]
          constructor
          · intro a code hmem
            rcases FullTree.mem_codes_node.mp hmem with ⟨rest, rfl, hleft⟩ | ⟨rest, rfl, hright⟩
            · -- The right part is entered in the map after the left one, and leaves it alone.
              have ha : a ∈ l.leaves := by
                rw [← FullTree.map_fst_codes]
                exact List.mem_map_of_mem hleft
              rw [hothersr a fun har => hdisjoint a ha a har rfl, hcodesl a rest hleft,
                List.append_assoc, List.singleton_append]
            · rw [hcodesr a rest hright, List.append_assoc, List.singleton_append]
          · intro a ha
            rw [FullTree.leaves, List.mem_append, not_or] at ha
            rw [hothersr a ha.2, hothersl a ha.1]

/-- A byte of the tree has a code in the bit map, which is its way in the tree. -/
theorem codeOf_mem {t : FullTree UInt8} {node : HuffmanTreeNode} (h : node.Represents t)
    (hnodup : t.leaves.Nodup) {c : UInt8} (hc : c ∈ t.leaves) :
    (HuffmanTree.ofRoot node).bitMap c = some (codeOf (HuffmanTree.ofRoot node).bitMap c) ∧
      (c, codeOf (HuffmanTree.ofRoot node).bitMap c) ∈ t.codes := by
  rw [← FullTree.map_fst_codes] at hc
  rcases List.mem_map.mp hc with ⟨⟨a, code⟩, hmem, rfl⟩
  have hmap : (HuffmanTree.ofRoot node).bitMap a = some code :=
    (constructBitMap_codes t h hnodup [] fun _ => none).1 a code hmem
  simp only [codeOf, hmap, Option.getD_some]
  exact ⟨trivial, hmem⟩

/-! ### Writing -/

theorem serializePayloadLoop_codes {bitMap : BitMap} {buffer : List UInt8}
    (h : ∀ c ∈ buffer, bitMap c = some (codeOf bitMap c)) {w : Writer} {bits : List Bool}
    (hw : Packs w bits) :
    ∃ w', serializePayloadLoop bitMap buffer w = .ok w' ∧
      Packs w' (bits ++ buffer.flatMap (codeOf bitMap)) := by
  induction buffer generalizing w bits with
  | nil => exact ⟨w, rfl, by simpa only [List.flatMap_nil, List.append_nil] using hw⟩
  | cons c buffer ih =>
      have hrest : ∀ b ∈ buffer, bitMap b = some (codeOf bitMap b) :=
        fun b hb => h b (List.mem_cons_of_mem c hb)
      rcases ih hrest (hw.writeBits (codeOf bitMap c)) with ⟨w', hloop, hw'⟩
      refine ⟨w', ?_, ?_⟩
      · rw [serializePayloadLoop, h c List.mem_cons_self]
        exact hloop
      · rwa [List.flatMap_cons, ← List.append_assoc]

/-! ### Reading -/

section loop

variable {root : HuffmanTreeNode} {t : FullTree UInt8} {payload : List UInt8} {limit : Nat}

/-- A step of the reader to a child that is there. -/
theorem deserializePayloadLoop_step {bit : Bool} {steps : Nat} {r : Reader} {byte : UInt8}
    {char : Option UInt8} {value : UInt64} {left right child : HuffmanTreeNode}
    {output : List UInt8} (hindex : r.index < payload.length)
    (hbyte : byteAt payload r.index = .ok byte) (hbit : nextBit byte r.remainingBits = bit)
    (hchild : (if bit then right else left) = child) {s : FullTree UInt8}
    (hs : child.Represents s) :
    deserializePayloadLoop root payload limit (steps + 1) r (.node char value left right) output =
      match s with
      | .leaf a =>
        if limit ≤ r.totalProcessedBits + 1 then .ok (output ++ [a])
        else deserializePayloadLoop root payload limit steps r.behindBit root (output ++ [a])
      | .node _ _ =>
        if limit ≤ r.totalProcessedBits + 1 then .ok output
        else deserializePayloadLoop root payload limit steps r.behindBit child output := by
  rw [deserializePayloadLoop, if_neg (by omega), hbyte, ok_bind]
  simp only [hbit, hchild]
  cases child with
  | null => exact hs.elim
  | node char value left right =>
      cases s with
      | leaf a =>
          -- At a leaf its byte is written, and the next bit is one from the root.
          have hleaf := isLeafNode_of_leaf hs
          rcases hs with ⟨rfl, rfl, rfl⟩
          simp only [hleaf, if_true, Option.getD_some]
      | node l r =>
          have hinner := isLeafNode_of_node hs
          simp only [hinner, Bool.false_eq_true, if_false]

/-- The reader decodes the bits up to the limit, from where it is in the tree. -/
theorem deserializePayloadLoop_decode {tl tr : FullTree UInt8}
    (hroot : root.Represents (.node tl tr)) {bits rest : List Bool} {steps : Nat} {r : Reader}
    {node : HuffmanTreeNode} {left right : FullTree UInt8} {output : List UInt8}
    (hnode : node.Represents (.node left right)) (hr : r.At) (hne : bits ≠ [])
    (hbits : (ofBytes payload).drop r.totalProcessedBits = bits ++ rest)
    (hlimit : r.totalProcessedBits + bits.length = limit) (hsteps : bits.length ≤ steps) :
    deserializePayloadLoop root payload limit steps r node output =
      .ok (output ++ FullTree.decode (.node tl tr) (.node left right) bits) := by
  induction bits generalizing steps r node left right output with
  | nil => exact absurd rfl hne
  | cons bit bits ih =>
      -- One bit is one step down, to a leaf or to the next inner node.
      rw [List.length_cons] at hlimit hsteps
      rcases Nat.exists_eq_add_of_le' (by omega : 1 ≤ steps) with ⟨steps, rfl⟩
      rw [List.cons_append] at hbits
      have hindex := hr.index_lt hbits
      rcases hr.reads_bit hbits with ⟨byte, hbyte, hbit, hbehind⟩
      have hprocessed := Reader.behindBit_totalProcessedBits r
      cases node with
      | null => exact hnode.elim
      | node char value nl nr =>
          obtain ⟨child, s, hchild, htree, hs⟩ : ∃ child s, (if bit then nr else nl) = child ∧
              (if bit then right else left) = s ∧ child.Represents s := by
            cases bit with
            | false => exact ⟨nl, left, rfl, rfl, hnode.1⟩
            | true => exact ⟨nr, right, rfl, rfl, hnode.2⟩
          rw [deserializePayloadLoop_step hindex hbyte hbit hchild hs, FullTree.decode, htree]
          by_cases hend : bits = []
          · -- Behind the last bit the reader stops, wherever it is in the tree.
            subst hend
            have hlast : limit ≤ r.totalProcessedBits + 1 := by
              rw [← hlimit]
              simp only [List.length_nil, zero_add, Std.le_refl]
            cases s with
            | leaf a =>
                simp only [if_pos hlast]
                rfl
            | node l r =>
                simp only [if_pos hlast, FullTree.decode, List.append_nil]
          · have hpos := List.length_pos_iff.mpr hend
            have hmore : ¬ limit ≤ r.totalProcessedBits + 1 := by omega
            cases s with
            | leaf a =>
                simp only [if_neg hmore]
                rw [ih hroot hr.behindBit hend hbehind (by omega) (by omega), List.append_assoc,
                  List.singleton_append]
            | node l r' =>
                simp only [if_neg hmore]
                exact ih hs hr.behindBit hend hbehind (by omega) (by omega)

end loop

/-- The reader stops at the last bit that was written. -/
theorem deserializePayload_decode {tree : HuffmanTree} {l r : FullTree UInt8}
    (h : tree.root.Represents (.node l r)) {payload : List UInt8} {bits rest : List Bool}
    (hbits : ofBytes payload = bits ++ rest) (hlength : payload.length = (bits.length + 7) / 8)
    {originalFileBytes : Nat} (hsize : originalFileBytes < 2 ^ 63) :
    tree.deserializePayload payload bits.length originalFileBytes =
      .ok (FullTree.decode (.node l r) (.node l r) bits) := by
  rw [HuffmanTree.deserializePayload, if_neg (Nat.not_le_of_lt hsize)]
  by_cases hempty : bits = []
  · subst hempty
    rw [List.length_eq_zero_iff.mp hlength]
    rfl
  · have hstart : (⟨0, 0, 8⟩ : Reader).At := ⟨rfl, by decide, by decide⟩
    exact deserializePayloadLoop_decode h h hstart hempty hbits (Nat.zero_add _) (by omega)

/-- The bits of a sequence, with nothing but the end of the last byte behind them. -/
theorem serializePayload_spec {node : HuffmanTreeNode} {t : FullTree UInt8}
    (h : node.Represents t) (hnodup : t.leaves.Nodup) {sequence : List UInt8}
    (hsequence : ∀ c ∈ sequence, c ∈ t.leaves) :
    ∃ payload rest, (HuffmanTree.ofRoot node).serializePayload sequence =
        .ok (payload, (sequence.flatMap (codeOf (HuffmanTree.ofRoot node).bitMap)).length) ∧
      ofBytes payload = sequence.flatMap (codeOf (HuffmanTree.ofRoot node).bitMap) ++ rest ∧
      payload.length =
        ((sequence.flatMap (codeOf (HuffmanTree.ofRoot node).bitMap)).length + 7) / 8 := by
  have hcodes : ∀ c ∈ sequence, (HuffmanTree.ofRoot node).bitMap c =
      some (codeOf (HuffmanTree.ofRoot node).bitMap c) :=
    fun c hc => (codeOf_mem h hnodup (hsequence c hc)).1
  rcases serializePayloadLoop_codes hcodes packs_new with ⟨w, hloop, hw⟩
  rw [List.nil_append] at hw
  rcases hw.finish with ⟨k, -, hbits⟩
  refine ⟨w.finish, _, ?_, hbits, hw.length_finish⟩
  rw [HuffmanTree.serializePayload, hloop, ← hw.total_eq]
  rfl

/-- Every reader of the same tree reads the sequence back. -/
theorem decode_sequence {node : HuffmanTreeNode} {l r : FullTree UInt8}
    (h : node.Represents (.node l r)) (hnodup : (FullTree.node l r).leaves.Nodup)
    {sequence : List UInt8} (hsequence : ∀ c ∈ sequence, c ∈ (FullTree.node l r).leaves) :
    FullTree.decode (.node l r) (.node l r)
      (sequence.flatMap (codeOf (HuffmanTree.ofRoot node).bitMap)) = sequence :=
  FullTree.decode_codes rfl fun c hc => (codeOf_mem h hnodup (hsequence c hc)).2

/-- With two leaves at least every byte of a sequence takes a bit or more. -/
theorem length_le_codes {node : HuffmanTreeNode} {l r : FullTree UInt8}
    (h : node.Represents (.node l r)) (hnodup : (FullTree.node l r).leaves.Nodup)
    {sequence : List UInt8} (hsequence : ∀ c ∈ sequence, c ∈ (FullTree.node l r).leaves) :
    sequence.length ≤
      (sequence.flatMap (codeOf (HuffmanTree.ofRoot node).bitMap)).length := by
  induction sequence with
  | nil => exact Nat.le_refl 0
  | cons c sequence ih =>
      rw [List.forall_mem_cons] at hsequence
      have hmem := (codeOf_mem h hnodup hsequence.1).2
      have hpos : 0 < (codeOf (HuffmanTree.ofRoot node).bitMap c).length := by
        rcases FullTree.mem_codes_node.mp hmem with ⟨rest, hcode, -⟩ | ⟨rest, hcode, -⟩
        · rw [hcode]
          exact Nat.succ_pos _
        · rw [hcode]
          exact Nat.succ_pos _
      have hrest := ih hsequence.2
      rw [List.flatMap_cons, List.length_append, List.length_cons]
      omega

/-- The payload is read back, whatever number of bytes room is made for, and it is as long as
    the codes are together. -/
theorem deserializePayload_serializePayload {node : HuffmanTreeNode} {t : FullTree UInt8}
    (h : node.Represents t) (htwo : 2 ≤ t.leaves.length) (hnodup : t.leaves.Nodup)
    {sequence : List UInt8} (hsequence : ∀ c ∈ sequence, c ∈ t.leaves) :
    ∃ payload totalBits,
      (HuffmanTree.ofRoot node).serializePayload sequence = .ok (payload, totalBits) ∧
      (∀ originalFileBytes < 2 ^ 63,
        (HuffmanTree.ofRoot node).deserializePayload payload totalBits originalFileBytes =
          .ok sequence) ∧
      totalBits =
        (sequence.map fun c => (codeOf (HuffmanTree.ofRoot node).bitMap c).length).sum := by
  rcases FullTree.exists_node htwo with ⟨l, r, rfl⟩
  rcases serializePayload_spec h hnodup hsequence with ⟨payload, rest, hwrite, hbits, hlength⟩
  refine ⟨payload, _, hwrite, fun originalFileBytes hsize => ?_, List.length_flatMap⟩
  rw [deserializePayload_decode h hbits hlength hsize, decode_sequence h hnodup hsequence]

/-- Two bytes with codes of different lengths, one of them twice. -/
theorem deserializePayload_serializePayload_three :
    ∃ payload totalBits,
      (HuffmanTree.ofRoot threeLeaves).serializePayload [9, 7, 9] = .ok (payload, totalBits) ∧
      (∀ originalFileBytes < 2 ^ 63,
        (HuffmanTree.ofRoot threeLeaves).deserializePayload payload totalBits originalFileBytes =
          .ok [9, 7, 9]) ∧
      totalBits =
        ([9, 7, 9].map fun c => (codeOf (HuffmanTree.ofRoot threeLeaves).bitMap c).length).sum :=
  deserializePayload_serializePayload threeLeaves_represents (by decide) (by decide)
    (by simp [FullTree.leaves])

end Compression

end CodingChallenges
