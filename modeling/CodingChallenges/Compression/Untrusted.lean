import CodingChallenges.Compression.Bits
import CodingChallenges.Library.Outcomes

/-!
# Decompressing an Untrusted File

What the decoder does with a tree and a payload that no encoder has written.

Nearly always it makes some output or fails with a message. Before a bit is read there
is a look at whether there is one, and a leaf that is cut off is refused. But the check
for a leaf looks at the byte behind the current one, and is left out for a leaf that
begins with a byte. So if the very last bit announces a leaf, the byte of the leaf is
read from behind the end. And a tree without bits is a null pointer, which is followed
as soon as there is a payload. Last, the file says how many bytes there were, and room is
made for them before the payload is looked at: if no vector has so many, nobody catches
what is thrown.

The reader calls itself for the children of a node, and what it is to read next is
known from how many trees are still wanted: one more for an inner node, one less for a
leaf. That is how far it has come whatever the shape of the tree.

## Main definitions

* `decompress`: Reading the tree and the payload.
* `Announces`: A leaf is announced with so many bits behind.
* `CutsLeaf`: The tree is cut off inside of a leaf, or right in front of its byte.
* `ReadsNode`: What can come of reading a tree.

## Theorems

* `readsNode_deserializeNode`: What comes of it.
* `deserializePayloadLoop_isOk`: With a tree there is always some output.
* `decompress_clean_iff`: When nothing outside of the buffers is read.
-/

namespace CodingChallenges

namespace Compression

open BitList

/-- What `main` does with a tree and a payload that it has read. -/
def decompress (serializedTree : List UInt8) (treeBits : Nat) (payload : List UInt8)
    (payloadBits originalFileBytes : Nat) : Except Failure (List UInt8) := do
  let tree ← deserialize .null serializedTree treeBits
  tree.deserializePayload payload payloadBits originalFileBytes

/-- There is an output, or a message and an exit. -/
def Clean (result : Except Failure (List UInt8)) : Prop :=
  (∃ output, result = .ok output) ∨ result = .error .exit

/-- With so many trees still to come, and so many bits in front of the next of them, a leaf
    is announced with a number of bits behind it that is as told. -/
def Announces (behind : Nat → Prop) : Nat → Nat → List Bool → Prop
  | _, _, [] => False
  | wanted, skipped + 1, _ :: bits => Announces behind wanted skipped bits
  | 0, 0, _ :: _ => False
  -- An inner node stands for two trees in the place of one.
  | wanted + 1, 0, false :: bits => Announces behind (wanted + 2) 0 bits
  -- The byte of a leaf is no part of the shape.
  | wanted + 1, 0, true :: bits => behind bits.length ∨ Announces behind wanted 8 bits

/-- Some leaf of a tree of so many bits is announced where the number of bits that are left
    of the buffer is as told. -/
def CutsLeaf (left : Nat → Prop) (serializedTree : List UInt8) (treeBits : Nat) : Prop :=
  Announces (fun behind => left (behind + (8 * serializedTree.length - treeBits))) 1 0
    ((ofBytes serializedTree).take treeBits)

theorem announces_skip (behind : Nat → Prop) (wanted skipped : Nat) (bits : List Bool) :
    Announces behind wanted skipped bits ↔ Announces behind wanted 0 (bits.drop skipped) := by
  induction skipped generalizing bits with
  | zero => exact Iff.rfl
  | succ skipped ih =>
      cases bits with
      | nil => cases wanted <;> exact Iff.rfl
      | cons bit bits => exact ih bits

theorem not_announces_nil (behind : Nat → Prop) (wanted skipped : Nat) :
    ¬ Announces behind wanted skipped [] := by
  cases wanted <;> cases skipped <;> exact id

/-- Where no tree is to come none is announced. -/
theorem not_announces_zero (behind : Nat → Prop) (bits : List Bool) :
    ¬ Announces behind 0 0 bits := by
  cases bits <;> exact id

/-- With so many trees still to come, a leaf is announced where the number of bits that are
    left of the whole buffer is as told. -/
def Pending (bytes : List UInt8) (limit : Nat) (left : Nat → Prop) (wanted : Nat) (r : Reader) :
    Prop :=
  Announces (fun behind => left (behind + (8 * bytes.length - limit))) wanted 0
    (((ofBytes bytes).take limit).drop r.totalProcessedBits)

/-- Numbers of bits that are not enough for a byte. -/
def Short (left : Nat → Prop) : Prop :=
  ∀ n, left n → n < 8

/-- What can come of reading a tree: it is read, and one tree less is to come; or it is
    cut off in a leaf, with fewer bits left than it takes. -/
def ReadsNode (bytes : List UInt8) (limit : Nat) (r : Reader) :
    Except Failure (HuffmanTreeNode × Reader) → Prop
  | .ok (_, r') => r'.At ∧ r.totalProcessedBits ≤ r'.totalProcessedBits ∧
      ∀ left, Short left → ∀ wanted,
        Pending bytes limit left (wanted + 1) r ↔ Pending bytes limit left wanted r'
  | .error failure => ∃ n < 8, failure = (if n = 0 then .outOfBounds else .exit) ∧
      ∀ left, Short left → ∀ wanted, Pending bytes limit left (wanted + 1) r ↔ left n

section Nodes

variable {bytes : List UInt8} {limit depth : Nat} {r : Reader} {bit : Bool} {rest : List Bool}
  {left : Nat → Prop}

/-- Nothing is pending behind the last bit. -/
theorem not_pending_of_le (hend : limit ≤ r.totalProcessedBits) (wanted : Nat) :
    ¬ Pending bytes limit left wanted r := by
  have hle : ((ofBytes bytes).take limit).length ≤ r.totalProcessedBits :=
    (List.length_take_le _ _).trans hend
  unfold Pending
  rw [List.drop_eq_nil_of_le hle]
  exact not_announces_nil _ wanted 0

/-- The next bit of the tree is that of the buffer. -/
theorem drop_take_cons (hlimit : r.totalProcessedBits < limit)
    (hbits : (ofBytes bytes).drop r.totalProcessedBits = bit :: rest) :
    ((ofBytes bytes).take limit).drop r.totalProcessedBits =
      bit :: ((ofBytes bytes).take limit).drop (r.totalProcessedBits + 1) := by
  have hrest : (ofBytes bytes).drop (r.totalProcessedBits + 1) = rest := by
    rw [← List.drop_drop, hbits]
    rfl
  obtain ⟨more, hmore⟩ : ∃ more, limit - r.totalProcessedBits = more + 1 :=
    Nat.exists_eq_succ_of_ne_zero (by omega)
  have hmore' : limit - (r.totalProcessedBits + 1) = more := by omega
  rw [List.drop_take, List.drop_take, hbits, hrest, hmore, hmore', List.take_succ_cons]

/-- An inner node wants two trees. -/
theorem pending_inner (hlimit : r.totalProcessedBits < limit)
    (hbits : (ofBytes bytes).drop r.totalProcessedBits = false :: rest) (wanted : Nat) :
    Pending bytes limit left (wanted + 1) r ↔
      Pending bytes limit left (wanted + 2) r.behindBit := by
  unfold Pending
  rw [drop_take_cons hlimit hbits, Reader.behindBit_totalProcessedBits]
  exact Iff.rfl

/-- A leaf is announced with what is left behind its bit. -/
theorem pending_leaf (hlimit : r.totalProcessedBits < limit) (hbound : limit ≤ 8 * bytes.length)
    (hbits : (ofBytes bytes).drop r.totalProcessedBits = true :: rest) (wanted : Nat) :
    Pending bytes limit left (wanted + 1) r ↔
      left (8 * bytes.length - (r.totalProcessedBits + 1)) ∨
        Announces (fun behind => left (behind + (8 * bytes.length - limit))) wanted 0
          (((ofBytes bytes).take limit).drop (r.totalProcessedBits + 1 + 8)) := by
  have hleft : (((ofBytes bytes).take limit).drop (r.totalProcessedBits + 1)).length +
      (8 * bytes.length - limit) = 8 * bytes.length - (r.totalProcessedBits + 1) := by
    rw [List.length_drop, List.length_take, length_ofBytes]
    omega
  have hbehind : ((ofBytes bytes).take limit).drop (r.totalProcessedBits + 1 + 8) =
      (((ofBytes bytes).take limit).drop (r.totalProcessedBits + 1)).drop 8 :=
    List.drop_drop.symm
  unfold Pending
  rw [drop_take_cons hlimit hbits, hbehind, ← announces_skip, ← hleft]
  exact Iff.rfl

/-- Nothing is announced behind a leaf that is cut off. -/
theorem pending_cut (hlimit : r.totalProcessedBits < limit) (hbound : limit ≤ 8 * bytes.length)
    (hbits : (ofBytes bytes).drop r.totalProcessedBits = true :: rest)
    (hcut : 8 * bytes.length < r.totalProcessedBits + 1 + 8) (wanted : Nat) :
    Pending bytes limit left (wanted + 1) r ↔
      left (8 * bytes.length - (r.totalProcessedBits + 1)) := by
  have hlength : ((ofBytes bytes).take limit).length ≤ r.totalProcessedBits + 1 + 8 := by
    rw [List.length_take, length_ofBytes]
    omega
  rw [pending_leaf hlimit hbound hbits, List.drop_eq_nil_of_le hlength]
  exact or_iff_left (not_announces_nil _ wanted 0)

/-- What becomes of the byte of a leaf: there are eight bits for it, or none, or not
    enough of them. -/
theorem readByte_cases (hr : r.At) (hle : r.totalProcessedBits ≤ 8 * bytes.length) :
    (∃ byte, readByte bytes r = .ok byte ∧ r.totalProcessedBits + 8 ≤ 8 * bytes.length) ∨
      (readByte bytes r = .error .exit ∧ r.totalProcessedBits < 8 * bytes.length ∧
        8 * bytes.length < r.totalProcessedBits + 8) ∨
      (readByte bytes r = .error .outOfBounds ∧ r.totalProcessedBits = 8 * bytes.length) := by
  have hposition := hr.position
  have hpos := hr.pos
  unfold readByte
  by_cases hpart : r.remainingBits < 8
  · rw [if_pos hpart]
    by_cases hcut : bytes.length ≤ r.index + 1
    · right
      left
      exact ⟨if_pos hcut, by omega, by omega⟩
    · left
      have hfirst : r.index < bytes.length := by omega
      have hnext : r.index + 1 < bytes.length := by omega
      rw [if_neg hcut, byteAt, List.getElem?_eq_getElem hfirst, byteAt,
        List.getElem?_eq_getElem hnext]
      exact ⟨_, rfl, by omega⟩
  · -- The leaf begins with a byte, and there is no check.
    have hle' := hr.le
    rw [if_neg hpart]
    by_cases hindex : r.index < bytes.length
    · left
      rw [byteAt, List.getElem?_eq_getElem hindex]
      exact ⟨_, rfl, by omega⟩
    · right
      right
      rw [byteAt, List.getElem?_eq_none (Nat.le_of_not_lt hindex)]
      exact ⟨rfl, by omega⟩

/-- One bit says what comes next. -/
theorem deserializeNode_bit (hr : r.At) (hlimit : r.totalProcessedBits < limit)
    (hbits : (ofBytes bytes).drop r.totalProcessedBits = bit :: rest) :
    deserializeNode bytes limit (depth + 1) r .null =
      if bit = false then
        deserializeNode bytes limit depth r.behindBit .null >>= fun x =>
          deserializeNode bytes limit depth x.2 .null >>= fun y =>
            .ok (.node none 0 x.1 y.1, y.2)
      else
        readByte bytes r.behindBit >>= fun byte =>
          .ok (.node (some byte) 0 .null .null, ⟨r.behindBit.index + 1,
            r.behindBit.totalProcessedBits + 8, r.behindBit.remainingBits⟩) := by
  have hindex := hr.index_lt hbits
  rcases hr.reads_bit hbits with ⟨first, hfirst, hbit, -⟩
  rw [deserializeNode, if_neg (by omega), if_neg (by omega), hfirst, ← hbit]
  rfl

/-- A leaf. -/
theorem readsNode_leaf (hr : r.At) (hlimit : r.totalProcessedBits < limit)
    (hbound : limit ≤ 8 * bytes.length)
    (hbits : (ofBytes bytes).drop r.totalProcessedBits = true :: rest) :
    ReadsNode bytes limit r (deserializeNode bytes limit (depth + 1) r .null) := by
  rw [deserializeNode_bit hr hlimit hbits, if_neg Bool.noConfusion]
  have hnext := Reader.behindBit_totalProcessedBits r
  have hle : r.behindBit.totalProcessedBits ≤ 8 * bytes.length := by omega
  rcases readByte_cases hr.behindBit hle with ⟨byte, hbyte, hfits⟩ | ⟨hexit, hlow, hhigh⟩ |
    ⟨hout, hend⟩
  · rw [hbyte]
    refine ⟨?_, ?_, fun left hshort wanted => ?_⟩
    · have hposition := hr.behindBit.position
      exact ⟨by simp only; omega, hr.behindBit.pos, hr.behindBit.le⟩
    · simp only
      omega
    · -- There is a whole byte behind the bit, so the leaf is not cut off.
      have hwhole : ¬ left (8 * bytes.length - (r.totalProcessedBits + 1)) := by
        intro hleft
        have hlt := hshort _ hleft
        omega
      rw [pending_leaf hlimit hbound hbits, or_iff_right hwhole, ← hnext]
      exact Iff.rfl
  · rw [hexit]
    refine ⟨8 * bytes.length - (r.totalProcessedBits + 1), by omega, ?_, fun left _ wanted => ?_⟩
    · rw [if_neg (by omega)]
    · exact pending_cut hlimit hbound hbits (by omega) wanted
  · rw [hout]
    refine ⟨8 * bytes.length - (r.totalProcessedBits + 1), by omega, ?_, fun left _ wanted => ?_⟩
    · rw [if_pos (by omega)]
    · exact pending_cut hlimit hbound hbits (by omega) wanted

/-- A failure of a part is one of the whole. -/
theorem ReadsNode.error {r₁ : Reader} {failure : Failure}
    (h : ReadsNode bytes limit r₁ (.error failure))
    (hpending : ∀ left, Short left → ∀ wanted, ∃ others,
      Pending bytes limit left (wanted + 1) r ↔ Pending bytes limit left (others + 1) r₁) :
    ReadsNode bytes limit r (.error failure) := by
  rcases h with ⟨n, hn, hfailure, hleft⟩
  refine ⟨n, hn, hfailure, fun left hshort wanted => ?_⟩
  rcases hpending left hshort wanted with ⟨others, hiff⟩
  exact hiff.trans (hleft left hshort others)

/-- The children of an inner node come in the place of it, one after the other. -/
theorem ReadsNode.inner {r₁ : Reader} {left : Except Failure (HuffmanTreeNode × Reader)}
    {right : Reader → Except Failure (HuffmanTreeNode × Reader)}
    (hleft : ReadsNode bytes limit r₁ left) (hle : r.totalProcessedBits ≤ r₁.totalProcessedBits)
    (hchildren : ∀ left wanted,
      Pending bytes limit left (wanted + 1) r ↔ Pending bytes limit left (wanted + 2) r₁)
    (hright : ∀ r₂ : Reader, r₂.At → r₁.totalProcessedBits ≤ r₂.totalProcessedBits →
      ReadsNode bytes limit r₂ (right r₂)) :
    ReadsNode bytes limit r (left >>= fun x => right x.2 >>= fun y =>
      .ok (.node none 0 x.1 y.1, y.2)) := by
  cases left with
  | error failure => exact hleft.error fun left _ wanted => ⟨wanted + 1, hchildren left wanted⟩
  | ok first =>
      rcases first with ⟨leftNode, r₂⟩
      rcases hleft with ⟨hr₂, hle₂, hpending₂⟩
      -- An inner node wants two nodes in its place, and the left child is one of them.
      have hboth : ∀ left, Short left → ∀ wanted, Pending bytes limit left (wanted + 1) r ↔
          Pending bytes limit left (wanted + 1) r₂ :=
        fun left hshort wanted =>
          (hchildren left wanted).trans (hpending₂ left hshort (wanted + 1))
      have hsecond := hright r₂ hr₂ hle₂
      rw [ok_bind]
      cases hresult : right r₂ with
      | error failure =>
          rw [hresult] at hsecond
          exact hsecond.error fun left hshort wanted => ⟨wanted, hboth left hshort wanted⟩
      | ok second =>
          rcases second with ⟨rightNode, r₃⟩
          rw [hresult] at hsecond
          rcases hsecond with ⟨hr₃, hle₃, hpending₃⟩
          exact ⟨hr₃, hle.trans (hle₂.trans hle₃),
            fun left hshort wanted =>
              (hboth left hshort wanted).trans (hpending₃ left hshort wanted)⟩

/-- What comes of reading a tree, with a depth that is large enough. -/
theorem readsNode_deserializeNode (hbound : limit ≤ 8 * bytes.length) (hr : r.At)
    (hdepth : limit - r.totalProcessedBits < depth) :
    ReadsNode bytes limit r (deserializeNode bytes limit depth r .null) := by
  induction depth generalizing r with
  | zero => omega
  | succ depth ih =>
      by_cases hend : limit ≤ r.totalProcessedBits
      · -- There is no tree to read, and nothing is pending.
        have hnull : deserializeNode bytes limit (depth + 1) r .null = .ok (.null, r) := by
          rw [deserializeNode, if_pos hend]
          split <;> rfl
        rw [hnull]
        exact ⟨hr, Nat.le_refl _, fun left _ wanted =>
          iff_of_false (not_pending_of_le hend (wanted + 1)) (not_pending_of_le hend wanted)⟩
      · have hlt : r.totalProcessedBits < limit := by omega
        have hne : (ofBytes bytes).drop r.totalProcessedBits ≠ [] := by
          rw [← List.length_pos_iff, List.length_drop, length_ofBytes]
          omega
        rcases List.exists_cons_of_ne_nil hne with ⟨bit, rest, hbits⟩
        cases bit with
        | true => exact readsNode_leaf hr hlt hbound hbits
        | false =>
            rw [deserializeNode_bit hr hlt hbits, if_pos rfl]
            have hnext := Reader.behindBit_totalProcessedBits r
            -- The children come in the place of their parent.
            have hchildren : ∀ left wanted, Pending bytes limit left (wanted + 1) r ↔
                Pending bytes limit left (wanted + 2) r.behindBit :=
              fun left wanted => pending_inner hlt hbits wanted
            have hright : ∀ r₂ : Reader, r₂.At →
                r.behindBit.totalProcessedBits ≤ r₂.totalProcessedBits →
                  ReadsNode bytes limit r₂ (deserializeNode bytes limit depth r₂ .null) := by
              intro r₂ hr₂ hle₂
              exact ih hr₂ (by omega)
            have hboth := (ih hr.behindBit (by omega)).inner (by omega) hchildren hright
            exact hboth

/-- A tree of some bits has a root. -/
theorem deserializeNode_ne_null (hr : r.At) (hlimit : r.totalProcessedBits < limit)
    (hbound : limit ≤ 8 * bytes.length) {node : HuffmanTreeNode} {r' : Reader}
    (h : deserializeNode bytes limit (depth + 1) r .null = .ok (node, r')) : node ≠ .null := by
  have hne : (ofBytes bytes).drop r.totalProcessedBits ≠ [] := by
    rw [← List.length_pos_iff, List.length_drop, length_ofBytes]
    omega
  rcases List.exists_cons_of_ne_nil hne with ⟨bit, rest, hbits⟩
  rw [deserializeNode_bit hr hlimit hbits] at h
  split at h
  · rcases bind_eq_ok.mp h with ⟨x, -, h⟩
    rcases bind_eq_ok.mp h with ⟨y, -, h⟩
    cases h
    exact HuffmanTreeNode.noConfusion
  · rcases bind_eq_ok.mp h with ⟨byte, -, h⟩
    cases h
    exact HuffmanTreeNode.noConfusion

end Nodes

section Payloads

variable {payload : List UInt8} {payloadBits steps : Nat} {r : Reader}
  {root node : HuffmanTreeNode} {output : List UInt8}

/-- With a tree there is always some output, if the number of steps is large enough. -/
theorem deserializePayloadLoop_isOk (hroot : root ≠ .null) (hnode : node ≠ .null) (hr : r.At)
    (hsteps : 8 * payload.length < r.totalProcessedBits + steps) (hpos : 0 < steps) :
    ∃ result, deserializePayloadLoop root payload payloadBits steps r node output =
      .ok result := by
  induction steps generalizing r node output with
  | zero => omega
  | succ steps ih =>
      rw [deserializePayloadLoop]
      by_cases hend : payload.length ≤ r.index
      · rw [if_pos hend]
        exact ⟨output, rfl⟩
      · rw [if_neg hend, byteAt, List.getElem?_eq_getElem (Nat.lt_of_not_le hend), ok_bind]
        have hposition := hr.position
        have hrpos := hr.pos
        have hnext := Reader.behindBit_totalProcessedBits r
        cases node with
        | null => exact absurd rfl hnode
        -- A missing child ends the reader, with an empty output.
        | node char value left right =>
            simp only
            split
            · exact ⟨[], rfl⟩
            · next child =>
                split
                · exact ⟨_, rfl⟩
                · refine ih ?_ hr.behindBit (by omega) (by omega)
                  split
                  · exact hroot
                  · exact HuffmanTreeNode.noConfusion

end Payloads

/-- The outcomes that are no access outside of a buffer or through a null pointer. -/
theorem not_clean_error {failure : Failure} (h : failure ≠ .exit) : ¬ Clean (.error failure) := by
  rintro (⟨output, hok⟩ | hexit)
  · cases hok
  · exact h (Except.error.inj hexit)

/-- A payload without a tree. -/
theorem decompress_zero (payload : List UInt8) (payloadBits originalFileBytes : Nat) :
    decompress [] 0 payload payloadBits originalFileBytes =
      if 2 ^ 63 ≤ originalFileBytes then .error .badSize
      else if payload = [] then .ok [] else .error .nullPointer := by
  cases payload with
  | nil => rfl
  | cons byte payload => rfl

/-- Nothing is cut off in a tree without bits. -/
theorem not_cutsLeaf_zero (left : Nat → Prop) (serializedTree : List UInt8) :
    ¬ CutsLeaf left serializedTree 0 :=
  not_announces_nil _ 1 0

/-- A tree and a payload of the lengths that go with their bits are read without harm unless
    there is a payload but no tree; or the last bit of the tree's buffer announces a leaf; or
    no vector has as many bytes as the file is said to have had, and the reader of the tree
    has not given up before, at a leaf with a part of a byte left. -/
theorem decompress_clean_iff (serializedTree : List UInt8) (treeBits : Nat)
    (payload : List UInt8) (payloadBits originalFileBytes : Nat)
    (htree : serializedTree.length = (treeBits + 7) / 8)
    (hpayload : payload.length = (payloadBits + 7) / 8) :
    Clean (decompress serializedTree treeBits payload payloadBits originalFileBytes) ↔
      ¬ (treeBits = 0 ∧ 0 < payloadBits) ∧
        ¬ CutsLeaf (fun left => left = 0) serializedTree treeBits ∧
        (2 ^ 63 ≤ originalFileBytes →
          CutsLeaf (fun left => 0 < left ∧ left < 8) serializedTree treeBits) := by
  by_cases hzero : treeBits = 0
  · subst hzero
    have hnil : serializedTree = [] := List.length_eq_zero_iff.mp htree
    subst hnil
    rw [decompress_zero, and_iff_right (not_cutsLeaf_zero _ [])]
    by_cases hhuge : 2 ^ 63 ≤ originalFileBytes
    · rw [if_pos hhuge]
      exact iff_of_false (not_clean_error Failure.noConfusion)
        fun h => not_cutsLeaf_zero _ [] (h.2 hhuge)
    · rw [if_neg hhuge, and_iff_left fun h => absurd h hhuge]
      by_cases hempty : payload = []
      · rw [if_pos hempty]
        rw [hempty, List.length_nil] at hpayload
        exact iff_of_true (Or.inl ⟨[], rfl⟩) (by omega)
      · have hpos := List.length_pos_iff.mpr hempty
        rw [if_neg hempty]
        exact iff_of_false (not_clean_error Failure.noConfusion) (by omega)
  · have hstart : (⟨0, 0, 8⟩ : Reader).At := ⟨rfl, by decide, by decide⟩
    have hbound : treeBits ≤ 8 * serializedTree.length := by omega
    have hreads : ReadsNode serializedTree treeBits ⟨0, 0, 8⟩
        (deserializeNode serializedTree treeBits (treeBits + 1) ⟨0, 0, 8⟩ .null) :=
      readsNode_deserializeNode hbound hstart (Nat.lt_succ_self _)
    have hend : Short fun left => left = 0 := fun n hn => by omega
    have hpart : Short fun left => 0 < left ∧ left < 8 := fun n hn => hn.2
    rw [and_iff_right fun h => hzero h.1]
    unfold decompress deserialize
    cases hresult : deserializeNode serializedTree treeBits (treeBits + 1) ⟨0, 0, 8⟩ .null with
    | error failure =>
        rw [hresult] at hreads
        rcases hreads with ⟨n, hn, rfl, hleft⟩
        have hcutsEnd : CutsLeaf (fun left => left = 0) serializedTree treeBits ↔ n = 0 :=
          hleft _ hend 0
        have hcutsPart : CutsLeaf (fun left => 0 < left ∧ left < 8) serializedTree treeBits ↔
            0 < n ∧ n < 8 := hleft _ hpart 0
        rw [hcutsEnd, hcutsPart]
        by_cases hlast : n = 0
        · rw [if_pos hlast]
          exact iff_of_false (not_clean_error Failure.noConfusion) fun h => h.1 hlast
        · rw [if_neg hlast]
          exact iff_of_true (Or.inr rfl) ⟨hlast, fun _ => ⟨Nat.pos_of_ne_zero hlast, hn⟩⟩
    | ok result =>
        rcases result with ⟨root, r⟩
        have hroot : root ≠ .null :=
          deserializeNode_ne_null hstart (Nat.pos_of_ne_zero hzero) hbound hresult
        rw [hresult] at hreads
        -- No tree is to come any more, so none is cut off.
        have hnone : ∀ left, Short left → ¬ CutsLeaf left serializedTree treeBits :=
          fun left hshort hcuts =>
            not_announces_zero _ _ ((hreads.2.2 left hshort 0).mp hcuts)
        rw [and_iff_right (hnone _ hend)]
        by_cases hhuge : 2 ^ 63 ≤ originalFileBytes
        · have hthrows : HuffmanTree.deserializePayload (.ofRoot root) payload payloadBits
              originalFileBytes = .error .badSize :=
            if_pos hhuge
          refine iff_of_false ?_ fun h => hnone _ hpart (h hhuge)
          show ¬ Clean (HuffmanTree.deserializePayload (.ofRoot root) payload payloadBits
            originalFileBytes)
          rw [hthrows]
          exact not_clean_error Failure.noConfusion
        · have houtput : ∃ output, HuffmanTree.deserializePayload (.ofRoot root) payload
              payloadBits originalFileBytes = .ok output := by
            rw [HuffmanTree.deserializePayload, if_neg hhuge]
            exact deserializePayloadLoop_isOk hroot hroot hstart (by simp only; omega)
              (Nat.succ_pos _)
          exact iff_of_true (Or.inl houtput) fun h => absurd h hhuge

/-- A tree that is cut off, and a payload that leads to where it is. -/
theorem decompress_clean_iff_cut : Clean (decompress [0x00] 3 [0xFF] 8 1) :=
  (decompress_clean_iff [0x00] 3 [0xFF] 8 1 (by decide) (by decide)).mpr
    ⟨by decide, fun h => h, fun h => absurd h (by decide)⟩

/-- Of a tree of eight bits the last one announces a leaf. -/
theorem not_decompress_clean :
    ¬ ∀ (serializedTree : List UInt8) (treeBits : Nat) (payload : List UInt8)
      (payloadBits originalFileBytes : Nat),
      serializedTree.length = (treeBits + 7) / 8 → payload.length = (payloadBits + 7) / 8 →
        treeBits < 2 ^ 31 → payloadBits < 2 ^ 31 → originalFileBytes < 2 ^ 64 →
          Clean (decompress serializedTree treeBits payload payloadBits originalFileBytes) := by
  intro hall
  have hclean := hall [0x01] 8 [] 0 0 (by decide) (by decide) (by decide) (by decide) (by decide)
  have hread : decompress [0x01] 8 [] 0 0 = .error .outOfBounds := by decide +kernel
  rw [hread] at hclean
  exact not_clean_error Failure.noConfusion hclean

end Compression

end CodingChallenges
