import CodingChallenges.Library.Outcomes
import CodingChallenges.Compression.Construction
import CodingChallenges.Compression.Main
import CodingChallenges.Compression.Payload

/-!
# Compressing and Decompressing

What the decoder makes of the output of the encoder.

The tree and the payload stand one after the other behind four numbers, and each part is
found by the number of bits that it has. As these numbers are taken for an `int`, they
have to be small; for the tree they always are. Then the decoder has a tree of the same
shape, and reads what was written.

There is one kind of file for which this is too little. A tree with a single leaf has an
empty code for it, so a file that consists of one byte again and again has no payload,
and nothing is decoded.

## Main definitions

* `CompressionHeader.Fits`: A header that can be read back.
* `HuffmanTree.totalCodeLength`: How many bits the payload has.

## Theorems

* `bytesOfBits_of_lt`, `CompressionHeader.read_write`: The header is read back.
* `count_computeFrequency`: The frequencies are those of the bytes.
* `encode_spec`: What the encoder writes, and what the decoder reads of it.
* `decode_encode_iff`: The file is reproduced if and only if it has two different bytes.
-/

namespace CodingChallenges

namespace Compression

open BitList

/-! ### The header -/

/-- A number of bits below `2 ^ 31` gives the number of bytes that they fill. -/
theorem bytesOfBits_of_lt {bits : Nat} (h : bits < 2 ^ 31) :
    bytesOfBits bits = ((bits + 7) / 8 : Nat) := by
  have hmod : (bits : Int).tmod 8 = (bits % 8 : Nat) := rfl
  have hdiv : (bits : Int).tdiv 8 = (bits / 8 : Nat) := rfl
  have hquotient : (if (bits : Int).tmod 8 ≠ 0 then (bits : Int).tdiv 8 + 1
      else (bits : Int).tdiv 8) = ((bits + 7) / 8 : Nat) := by
    rw [hmod, hdiv]
    by_cases hrem : bits % 8 = 0
    · rw [if_neg (by omega)]
      omega
    · rw [if_pos (by omega)]
      omega
  have hnumerator : (bits : Int).bmod (2 ^ 32) = bits := by
    rw [Int.bmod_def, if_pos]
    · omega
    · omega
  unfold bytesOfBits
  simp only [hnumerator]
  exact hquotient

/-- The vector in front of the rest of the stream. -/
theorem readVector_append {bits : Nat} (hbits : bits < 2 ^ 31) {bytes : List UInt8}
    (hlength : bytes.length = (bits + 7) / 8) (rest : List UInt8) :
    readVector (bytesOfBits bits) ⟨bytes ++ rest, true⟩ = .ok (bytes, ⟨rest, true⟩) := by
  rw [readVector, bytesOfBits_of_lt hbits, if_neg (by omega)]
  exact congrArg Except.ok (InputStream.readZeroed_append hlength)

/-- The numbers of the header can be read back. -/
structure CompressionHeader.Fits (header : CompressionHeader) : Prop where
  headerLength_lt : header.headerLength < 2 ^ 64
  payloadLengthBits_lt : header.payloadLengthBits < 2 ^ 31
  serializedTreeTotalBits_lt : header.serializedTreeTotalBits < 2 ^ 31
  originalFileBytes_lt : header.originalFileBytes < 2 ^ 64
  length_eq : header.serializedTree.length = (header.serializedTreeTotalBits + 7) / 8

theorem CompressionHeader.read_write {header : CompressionHeader} (h : header.Fits)
    (rest : List UInt8) :
    CompressionHeader.read ⟨header.write ++ rest, true⟩ = .ok (header, ⟨rest, true⟩) := by
  have hnumber : ∀ n rest, InputStream.readZeroed 8 ⟨LittleEndian.encode 8 n ++ rest, true⟩ =
      (LittleEndian.encode 8 n, ⟨rest, true⟩) :=
    fun n rest => InputStream.readZeroed_append (LittleEndian.length_encode 8 n)
  have hvalue : ∀ n, n < 2 ^ 64 → LittleEndian.decode (LittleEndian.encode 8 n) = n :=
    fun n hn => LittleEndian.decode_encode_of_lt hn
  have hpayload := hvalue _ (h.payloadLengthBits_lt.trans (by decide))
  have htree := hvalue _ (h.serializedTreeTotalBits_lt.trans (by decide))
  have hvector := readVector_append h.serializedTreeTotalBits_lt h.length_eq rest
  simp only [CompressionHeader.read, CompressionHeader.write, List.append_assoc, hnumber, htree,
    hpayload, hvalue _ h.headerLength_lt, hvalue _ h.originalFileBytes_lt]
  rw [hvector]
  rfl

/-- The decoder finds the tree and the payload. -/
theorem decode_write {header : CompressionHeader} (h : header.Fits) {payload : List UInt8}
    (hpayload : payload.length = (header.payloadLengthBits + 7) / 8) {tree : HuffmanTree}
    (htree : deserialize .null header.serializedTree header.serializedTreeTotalBits = .ok tree) :
    decode (header.write ++ payload) =
      tree.deserializePayload payload header.payloadLengthBits header.originalFileBytes := by
  have hvector := readVector_append h.payloadLengthBits_lt hpayload []
  rw [List.append_nil] at hvector
  unfold decode InputStream.ofFile
  rw [CompressionHeader.read_write h, ok_bind]
  simp only [Bool.true_eq_false, if_false]
  rw [hvector, ok_bind]
  simp only [Bool.true_eq_false, if_false]
  rw [htree, ok_bind]

/-! ### The frequencies -/

theorem computeFrequency_apply (buffer : List UInt8) (c : UInt8) :
    computeFrequency buffer c = UInt64.ofNat (buffer.count c) := by
  have hfoldl : ∀ frequencyMap : FrequencyMap,
      buffer.foldl (fun frequencyMap c => fun i =>
        if i = c then frequencyMap c + 1 else frequencyMap i) frequencyMap c =
        frequencyMap c + UInt64.ofNat (buffer.count c) := by
    induction buffer with
    | nil =>
        simp only [List.foldl_nil, List.count_nil, UInt64.reduceOfNat, UInt64.add_zero,
          implies_true]
    | cons b buffer ih =>
        intro frequencyMap
        rw [List.foldl_cons, ih, List.count_cons]
        by_cases hb : c = b
        · subst hb
          have hadd : UInt64.ofNat (buffer.count c + 1) = 1 + UInt64.ofNat (buffer.count c) := by
            rw [Nat.add_comm, UInt64.ofNat_add]
            rfl
          simp only [if_true, beq_self_eq_true]
          rw [hadd, UInt64.add_assoc]
        · have hne : ¬ b = c := fun h => hb h.symm
          simp only [hb, ↓reduceIte, beq_iff_eq, hne, add_zero]
  rw [computeFrequency, hfoldl]
  simp only [UInt64.zero_add]

theorem count_computeFrequency {buffer : List UInt8} (hsize : buffer.length < 2 ^ 64) (c : UInt8) :
    count (computeFrequency buffer) c = buffer.count c := by
  have hle : buffer.count c ≤ buffer.length := List.count_le_length
  rw [count, computeFrequency_apply, UInt64.toNat_ofNat_of_lt' (lt_of_le_of_lt hle hsize)]

theorem mem_symbols_computeFrequency {buffer : List UInt8} (hsize : buffer.length < 2 ^ 64)
    {c : UInt8} : c ∈ symbols (computeFrequency buffer) ↔ c ∈ buffer := by
  have hcount := count_computeFrequency hsize c
  rw [mem_symbols, ← List.count_pos_iff, ← hcount, count, UInt64.lt_iff_toNat_lt]
  rfl

theorem sum_indicator (c : UInt8) (indices : List UInt8) :
    (indices.map fun i => if c == i then 1 else 0).sum = indices.count c := by
  induction indices with
  | nil => rfl
  | cons i indices ih =>
      rw [List.map_cons, List.sum_cons, ih, List.count_cons, Nat.add_comm, BEq.comm]

/-- All frequencies together are the length of the file. -/
theorem sum_count (buffer : List UInt8) :
    (byteIndices.map fun i => buffer.count i).sum = buffer.length := by
  induction buffer with
  | nil =>
      simp only [List.count_nil, List.map_const', List.sum_replicate, nsmul_zero, List.length_nil]
  | cons c buffer ih =>
      have hone : byteIndices.count c = 1 :=
        List.count_eq_one_of_mem nodup_byteIndices (mem_byteIndices c)
      simp only [List.count_cons]
      rw [List.sum_map_add, ih, sum_indicator, hone, List.length_cons]

/-! ### The file -/

/-- The tree that the encoder makes of a file. -/
theorem construct_buffer (addresses : Nat → Nat) {buffer : List UInt8} (hne : buffer ≠ [])
    (hsize : buffer.length < 2 ^ 64) :
    ∃ node t, construct addresses (computeFrequency buffer) = .ok (.ofRoot node) ∧
      node.Represents t ∧ t.leaves.Nodup ∧ t.leaves.length ≤ 256 ∧
      ∀ c, c ∈ t.leaves ↔ c ∈ buffer := by
  have hoccurs : ∃ c, 0 < computeFrequency buffer c := by
    rcases List.exists_mem_of_ne_nil buffer hne with ⟨c, hc⟩
    exact ⟨c, mem_symbols.mp ((mem_symbols_computeFrequency hsize).mpr hc)⟩
  have hsum : (byteIndices.map (count (computeFrequency buffer))).sum < 2 ^ 64 := by
    rw [funext (count_computeFrequency hsize), sum_count]
    exact hsize
  rcases construct_spec addresses hoccurs hsum with ⟨node, t, hconstruct, ht, hleaves, -⟩
  refine ⟨node, t, hconstruct, ht, hleaves.nodup_iff.mpr (nodup_symbols _), ?_, fun c => ?_⟩
  · rw [hleaves.length_eq, symbols]
    refine (List.length_filter_le _ _).trans ?_
    rw [byteIndices, List.length_map, List.length_range]
  · rw [hleaves.mem_iff, mem_symbols_computeFrequency hsize]

/-- The decoder reads the payload with a tree of the same shape. -/
theorem encode_spec (addresses : Nat → Nat) {buffer : List UInt8} (hsize : buffer.length < 2 ^ 64)
    {node : HuffmanTreeNode} {t : FullTree UInt8}
    (hconstruct : construct addresses (computeFrequency buffer) = .ok (.ofRoot node))
    (ht : node.Represents t) (hlength : t.leaves.length ≤ 256) {payload : List UInt8}
    {totalBits : Nat}
    (hwrite : (HuffmanTree.ofRoot node).serializePayload buffer = .ok (payload, totalBits))
    (hpayload : payload.length = (totalBits + 7) / 8) (htotal : totalBits < 2 ^ 31) :
    ∃ node', node'.Represents t ∧ (encode addresses buffer >>= decode) =
      (HuffmanTree.ofRoot node').deserializePayload payload totalBits buffer.length := by
  have hroot : (HuffmanTree.ofRoot node).root.Represents t := ht
  rcases serialize_spec hroot with ⟨⟨k, hbits⟩, hbitcount, hbytes⟩
  rcases deserialize_treeBits hbits with ⟨node', hread, hnode'⟩
  -- There are no more than 256 leaves, so the tree is small enough whatever its shape.
  have hsmall : (treeBits t).length < 2 ^ 31 := by
    have hleaves := FullTree.length_leaves t
    rw [length_treeBits]
    omega
  refine ⟨node', hnode', ?_⟩
  unfold encode
  rw [hconstruct, ok_bind, hwrite, ok_bind, ok_bind]
  refine decode_write ⟨?_, htotal, ?_, hsize, ?_⟩ hpayload ?_
  · show 24 + (HuffmanTree.ofRoot node).serialize.1.length < 2 ^ 64
    rw [hbytes]
    omega
  · show (HuffmanTree.ofRoot node).serialize.2 < 2 ^ 31
    rw [hbitcount]
    exact hsmall
  · show (HuffmanTree.ofRoot node).serialize.1.length =
      ((HuffmanTree.ofRoot node).serialize.2 + 7) / 8
    rw [hbytes, hbitcount]
  · show deserialize .null (HuffmanTree.ofRoot node).serialize.1
      (HuffmanTree.ofRoot node).serialize.2 = _
    rw [hbitcount, hread]

/-- What the codes of all bytes of a file take together. -/
def HuffmanTree.totalCodeLength (tree : HuffmanTree) (buffer : List UInt8) : Nat :=
  (buffer.map fun c => (codeOf tree.bitMap c).length).sum

/-- The file is reproduced if and only if there are two different bytes in it. -/
theorem decode_encode_iff (addresses : Nat → Nat) {buffer : List UInt8} (hne : buffer ≠ [])
    (hsize : buffer.length < 2 ^ 64)
    (hbits : ∀ tree, construct addresses (computeFrequency buffer) = .ok tree →
      tree.totalCodeLength buffer < 2 ^ 31) :
    (encode addresses buffer >>= decode) = .ok buffer ↔ ∃ a ∈ buffer, ∃ b ∈ buffer, a ≠ b := by
  rcases construct_buffer addresses hne hsize with ⟨node, t, hconstruct, ht, hnodup, hlength, hmem⟩
  have hsequence : ∀ c ∈ buffer, c ∈ t.leaves := fun c hc => (hmem c).mpr hc
  rcases serializePayload_spec ht hnodup hsequence with ⟨payload, rest, hwrite, hpayload, hfull⟩
  have htotal : (buffer.flatMap (codeOf (HuffmanTree.ofRoot node).bitMap)).length < 2 ^ 31 := by
    rw [List.length_flatMap]
    exact hbits _ hconstruct
  rcases encode_spec addresses hsize hconstruct ht hlength hwrite hfull htotal with
    ⟨node', hnode', hdecode⟩
  rw [hdecode]
  cases t with
  | leaf a =>
      -- All bytes are the same, and none of them leaves a trace in the payload.
      have hall : ∀ c ∈ buffer, c = a := fun c hc => List.mem_singleton.mp (hsequence c hc)
      have hempty : buffer.flatMap (codeOf (HuffmanTree.ofRoot node).bitMap) = [] := by
        refine List.flatMap_eq_nil_iff.mpr fun c hc => ?_
        have hcode := (codeOf_mem ht hnodup (hsequence c hc)).2
        rw [FullTree.codes, List.mem_singleton, Prod.mk.injEq] at hcode
        exact hcode.2
      rw [hempty] at hfull ⊢
      rw [List.length_eq_zero_iff.mp hfull]
      constructor
      · intro hread
        rw [HuffmanTree.deserializePayload] at hread
        split at hread
        · cases hread
        · exact absurd (Except.ok.inj hread).symm hne
      · rintro ⟨b, hb, c, hc, hbc⟩
        exact absurd ((hall b hb).trans (hall c hc).symm) hbc
  | node l r =>
      -- Every byte takes a bit at least, so the file is no longer than its payload.
      have hle : buffer.length ≤
          (buffer.flatMap (codeOf (HuffmanTree.ofRoot node).bitMap)).length :=
        length_le_codes ht hnodup hsequence
      have hsize' : buffer.length < 2 ^ 63 := by omega
      have hread : (HuffmanTree.ofRoot node').deserializePayload payload
          (buffer.flatMap (codeOf (HuffmanTree.ofRoot node).bitMap)).length buffer.length =
            .ok buffer := by
        have hroot : (HuffmanTree.ofRoot node').root.Represents (.node l r) := hnode'
        rw [deserializePayload_decode hroot hpayload hfull hsize',
          decode_sequence ht hnodup hsequence]
      refine iff_of_true hread ?_
      rcases List.exists_mem_of_ne_nil _ (FullTree.leaves_ne_nil l) with ⟨a, ha⟩
      rcases List.exists_mem_of_ne_nil _ (FullTree.leaves_ne_nil r) with ⟨b, hb⟩
      rw [FullTree.leaves] at hnodup hmem
      have hb' := (hmem b).mp (List.mem_append_right _ hb)
      refine ⟨a, (hmem a).mp (List.mem_append_left _ ha), b, hb', ?_⟩
      exact (List.nodup_append.mp hnodup).2.2 a ha b hb

/-- Two bytes, one of them twice. -/
theorem decode_encode_two : (encode id [1, 2, 2] >>= decode) = .ok [1, 2, 2] := by
  have hlength : (construct id (computeFrequency [1, 2, 2])).map (·.totalCodeLength [1, 2, 2]) =
      .ok 3 := by
    decide +kernel
  refine (decode_encode_iff id (by decide) (by decide) fun tree htree => ?_).mpr
    ⟨1, by decide, 2, by decide, by decide⟩
  have hthree : tree.totalCodeLength [1, 2, 2] = 3 := by
    rw [htree] at hlength
    exact Except.ok.inj hlength
  rw [hthree]
  decide

/-- A file of one byte, which has a code of no bits, is decoded as an empty file. -/
theorem decode_encode_one :
    (construct id (computeFrequency [7])).map (·.totalCodeLength [7]) = .ok 0 ∧
      (encode id [7] >>= decode) = .ok [] ∧ ¬ (encode id [7] >>= decode) = .ok [7] := by
  decide +kernel

end Compression

end CodingChallenges
