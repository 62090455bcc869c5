import CodingChallenges.Library.BitList
import CodingChallenges.Compression.HuffmanTree

/-!
# Writing and Reading Bits

What the writers of the tool put into the buffer, and what its readers get out.

At any time the bits that have been written are those of the bytes in the buffer and
behind them those of the byte that is being filled, which is never full. The readers
keep a position: an index, and how many bits of the byte there are still to come.

## Main definitions

* `Packs`: The bits that a writer has written.
* `Reader.At`: That the three numbers of a reader belong together.

## Theorems

* `Packs.writeBit`, `Packs.writeBits`, `Packs.writeByte`: Writing appends.
* `Packs.finish`: What ends up in the file.
* `Reader.At.reads_bit`, `Reader.At.reads_byte`: Reading delivers what is there.
-/

namespace CodingChallenges

namespace Compression

open BitList

/-- The writer has written the bits. -/
structure Packs (w : Writer) (bits : List Bool) : Prop where
  bits_eq : ∃ tail, bits = ofBytes w.buffer ++ tail ∧ w.currentByte = toByte tail ∧
    tail.length + w.remainingBits = 8
  remaining_pos : 0 < w.remainingBits
  total_eq : w.totalBits = bits.length

variable {w : Writer} {bits : List Bool}

theorem packs_new : Packs .new [] :=
  ⟨⟨[], rfl, rfl, rfl⟩, by decide, rfl⟩

theorem Packs.writeBit (h : Packs w bits) (bit : Bool) :
    Packs (w.writeBit bit) (bits ++ [bit]) := by
  rcases h with ⟨⟨tail, rfl, hcurrent, hlength⟩, hpos, htotal⟩
  have hbyte : (if bit then w.currentByte <<< 1 ||| 1 else w.currentByte <<< 1) =
      toByte (tail ++ [bit]) := by
    have hshift : w.currentByte <<< 1 = toByte (tail ++ [false]) := by
      rw [hcurrent]
      exact toByte_shiftLeft tail (by omega : 1 < 8)
    cases bit with
    | false => simpa only [Bool.false_eq_true, ↓reduceIte] using hshift
    | true =>
        have hfits : (tail ++ [true]).length ≤ 8 := by
          simp only [List.length_append, List.length_cons, List.length_nil, zero_add,
            Nat.reduceLeDiff]
          omega
        rw [if_pos rfl, hshift]
        exact toByte_or hfits
  unfold Writer.writeBit
  rw [hbyte]
  by_cases hfull : w.remainingBits - 1 = 0
  · -- The byte is full and goes into the buffer.
    have height : (tail ++ [bit]).length = 8 := by
      simp only [List.length_append, List.length_cons, List.length_nil, zero_add, Nat.reduceEqDiff]
      omega
    rw [if_pos hfull]
    refine ⟨⟨[], ?_, rfl, rfl⟩, by simp only [Nat.zero_lt_succ], ?_⟩
    · rw [ofBytes_append, ofBytes_singleton, ofByte_toByte height, List.append_nil,
        List.append_assoc]
    · simp only [htotal, List.length_append, List.append_assoc, List.length_cons, List.length_nil,
        zero_add]
      omega
  · rw [if_neg hfull]
    refine ⟨⟨tail ++ [bit], List.append_assoc _ _ _, rfl, ?_⟩, ?_, ?_⟩
    · simp only [List.length_append, List.length_cons, List.length_nil, zero_add]
      omega
    · simp only [tsub_pos_iff_lt]
      omega
    · simp only [htotal, List.length_append, List.append_assoc, List.length_cons, List.length_nil,
        zero_add]
      omega

theorem Packs.writeBits (h : Packs w bits) (code : List Bool) :
    Packs (code.foldl Writer.writeBit w) (bits ++ code) := by
  induction code generalizing w bits with
  | nil => rwa [List.append_nil]
  | cons bit code ih =>
      have hrest := ih (h.writeBit bit)
      rwa [List.append_assoc] at hrest

theorem Packs.writeByte (h : Packs w bits) (byte : UInt8) :
    Packs (w.writeByte byte) (bits ++ ofByte byte) := by
  rcases h with ⟨⟨tail, rfl, hcurrent, hlength⟩, hpos, htotal⟩
  unfold Writer.writeByte
  by_cases hroom : w.remainingBits < 8
  · rw [if_pos hroom]
    -- The byte is cut where the current one is full.
    rcases exists_ofByte_append byte hroom.le with ⟨u, v, huv, hu, hv, hbyte⟩
    have hall : (u ++ v).length = 8 := by rw [← huv, length_ofByte]
    have hfull : (tail ++ u).length = 8 := by
      rw [List.length_append]
      omega
    have hfirst : w.currentByte <<< UInt8.ofNat w.remainingBits |||
        byte >>> (8 - UInt8.ofNat w.remainingBits) = toByte (tail ++ u) := by
      have hamount : 8 - UInt8.ofNat w.remainingBits = UInt8.ofNat (8 - w.remainingBits) :=
        (UInt8.ofNat_sub hroom.le).symm
      rw [hcurrent, toByte_shiftLeft tail hroom, hamount, hbyte,
        toByte_shiftRight hall.le hv (by omega), ← hu, toByte_or hfull.le]
    have hsecond : byte <<< UInt8.ofNat w.remainingBits >>> UInt8.ofNat w.remainingBits =
        toByte v := by
      have hzeros : (v ++ List.replicate w.remainingBits false).length = 8 := by
        rw [List.length_append, List.length_replicate]
        omega
      rw [hbyte, toByte_shiftLeft _ hroom, List.append_assoc, toByte_append u hzeros,
        toByte_shiftRight hzeros.le (List.length_replicate ..) hroom]
    refine ⟨⟨v, ?_, hsecond, ?_⟩, hpos, ?_⟩
    · rw [hfirst, ofBytes_append, ofBytes_singleton, ofByte_toByte hfull, huv]
      simp only [List.append_assoc]
    · simp only
      omega
    · rw [htotal, ← length_ofByte byte]
      exact List.length_append.symm
  · rw [if_neg hroom]
    have hempty : tail = [] := List.length_eq_zero_iff.mp (by omega)
    subst hempty
    refine ⟨⟨[], ?_, rfl, hlength⟩, hpos, ?_⟩
    · rw [ofBytes_append, ofBytes_singleton, List.append_nil, List.append_nil]
    · rw [htotal, ← length_ofByte byte]
      exact List.length_append.symm

/-- In the end the last byte is filled up. -/
theorem Packs.finish (h : Packs w bits) :
    ∃ k < 8, ofBytes w.finish = bits ++ List.replicate k false := by
  rcases h with ⟨⟨tail, rfl, hcurrent, hlength⟩, hpos, -⟩
  unfold Writer.finish
  by_cases hpart : w.remainingBits = 8
  · have hempty : tail = [] := List.length_eq_zero_iff.mp (by omega)
    refine ⟨0, by omega, ?_⟩
    simp only [hpart, ne_eq, OfNat.ofNat_ne_zero, not_false_eq_true, decide_true, not_true_eq_false,
      decide_false, Bool.and_false, Bool.false_eq_true, ↓reduceIte, hempty, List.append_nil,
      List.replicate_zero]
  · have hroom : w.remainingBits < 8 := by omega
    refine ⟨w.remainingBits, hroom, ?_⟩
    have hfull : (tail ++ List.replicate w.remainingBits false).length = 8 := by
      rw [List.length_append, List.length_replicate, hlength]
    have hcondition : (decide (w.remainingBits ≠ 0) && decide (w.remainingBits ≠ 8)) = true := by
      simp only [ne_eq, decide_not, Bool.and_eq_true, Bool.not_eq_eq_eq_not, Bool.not_true,
        decide_eq_false_iff_not]
      omega
    rw [if_pos hcondition, ofBytes_append, ofBytes_singleton, hcurrent, toByte_shiftLeft tail hroom,
      ofByte_toByte hfull, List.append_assoc]

/-- How many bytes there are then. -/
theorem Packs.length_finish (h : Packs w bits) :
    w.finish.length = (bits.length + 7) / 8 := by
  rcases h.finish with ⟨k, hk, hbits⟩
  have hlength := congrArg List.length hbits
  rw [length_ofBytes, List.length_append, List.length_replicate] at hlength
  omega

/-! ### Reading -/

/-- The position in bits is that of the index and of the bits that remain of a byte. -/
structure Reader.At (r : Reader) : Prop where
  position : r.totalProcessedBits + r.remainingBits = 8 * r.index + 8
  pos : 0 < r.remainingBits
  le : r.remainingBits ≤ 8

variable {r : Reader} {bytes : List UInt8} {rest : List Bool} {bit : Bool}

theorem Reader.At.behindBit (h : r.At) : r.behindBit.At := by
  rcases h with ⟨hposition, hpos, hle⟩
  unfold Reader.behindBit
  by_cases hend : r.remainingBits - 1 = 0
  · rw [if_pos hend]
    exact ⟨by simp; omega, by simp only [Nat.zero_lt_succ], by simp only [Std.le_refl]⟩
  · rw [if_neg hend]
    exact ⟨by simp; omega, by simp; omega, by simp only [tsub_le_iff_right, Nat.reduceAdd]; omega⟩

@[simp] theorem Reader.behindBit_totalProcessedBits (r : Reader) :
    r.behindBit.totalProcessedBits = r.totalProcessedBits + 1 := by
  unfold Reader.behindBit
  split <;> rfl

/-- The bits from the position on, in the byte where it is and behind it. -/
theorem Reader.At.drop (h : r.At) {byte : UInt8} (hbyte : bytes[r.index]? = some byte) :
    (ofBytes bytes).drop r.totalProcessedBits =
      (ofByte byte).drop (8 - r.remainingBits) ++ (ofBytes bytes).drop (8 * (r.index + 1)) := by
  have hposition := h.position
  have hle := h.le
  rw [← drop_ofBytes hbyte (by omega)]
  congr 1
  omega

/-- Where bits are to come the index is within the bytes. -/
theorem Reader.At.index_lt (h : r.At)
    (hbits : (ofBytes bytes).drop r.totalProcessedBits = bit :: rest) :
    r.index < bytes.length := by
  have hlength := congrArg List.length hbits
  rw [List.length_drop, length_ofBytes, List.length_cons] at hlength
  have hposition := h.position
  have hle := h.le
  omega

theorem nextBit_eq {byte : UInt8} {remainingBits : Nat} (hpos : 0 < remainingBits)
    (hle : remainingBits ≤ 8) (h : (ofByte byte).drop (8 - remainingBits) = bit :: rest) :
    nextBit byte remainingBits = bit := by
  have hsplit : ofByte byte = ((ofByte byte).take (8 - remainingBits) ++ [bit]) ++ rest := by
    rw [List.append_assoc, List.singleton_append, ← h, List.take_append_drop]
  have hrest : rest.length = remainingBits - 1 := by
    have hlength := congrArg List.length h
    rw [List.length_drop, length_ofByte, List.length_cons] at hlength
    omega
  have hall := length_ofByte byte
  rw [hsplit] at hall
  have hfits : ((ofByte byte).take (8 - remainingBits) ++ [bit]).length ≤ 8 := by
    rw [List.length_append] at hall
    omega
  have hbyte : byte = toByte (((ofByte byte).take (8 - remainingBits) ++ [bit]) ++ rest) := by
    rw [← hsplit, toByte_ofByte]
  -- Shifted to the right, the bit is the last one.
  have hshift : byte >>> UInt8.ofNat (remainingBits - 1) =
      toByte ((ofByte byte).take (8 - remainingBits) ++ [bit]) := by
    conv_lhs => rw [hbyte]
    exact toByte_shiftRight hall.le hrest (by omega)
  have hiff := toByte_and_one bit hfits
  rw [nextBit, hshift]
  cases bit with
  | false => simpa only [decide_eq_false_iff_not, ne_eq, Bool.false_eq_true, iff_false] using hiff
  | true => simpa only [decide_eq_true_eq, iff_true] using hiff

/-- The next bit is the one that is to come. -/
theorem Reader.At.reads_bit (h : r.At)
    (hbits : (ofBytes bytes).drop r.totalProcessedBits = bit :: rest) :
    ∃ byte, byteAt bytes r.index = .ok byte ∧ nextBit byte r.remainingBits = bit ∧
      (ofBytes bytes).drop r.behindBit.totalProcessedBits = rest := by
  have hindex := h.index_lt hbits
  have hbyte : bytes[r.index]? = some bytes[r.index] := List.getElem?_eq_getElem hindex
  have hdrop := h.drop hbyte
  rw [hbits] at hdrop
  have hne : (ofByte bytes[r.index]).drop (8 - r.remainingBits) ≠ [] := by
    intro hnil
    have hlength := congrArg List.length hnil
    rw [List.length_drop, length_ofByte, List.length_nil] at hlength
    have hpos := h.pos
    omega
  rcases List.exists_cons_of_ne_nil hne with ⟨bit', rest', hcons⟩
  rw [hcons, List.cons_append, List.cons.injEq] at hdrop
  refine ⟨bytes[r.index], ?_, ?_, ?_⟩
  · rw [byteAt, hbyte]
  · rw [hdrop.1]
    exact nextBit_eq h.pos h.le hcons
  · rw [Reader.behindBit_totalProcessedBits, ← List.drop_drop, hbits]
    rfl

/-- A byte is read across the end of the one where it begins. -/
theorem Reader.At.reads_byte (h : r.At) {byte : UInt8}
    (hbits : (ofBytes bytes).drop r.totalProcessedBits = ofByte byte ++ rest) :
    readByte bytes r = .ok byte := by
  have hlength := congrArg List.length hbits
  rw [List.length_drop, length_ofBytes, List.length_append, length_ofByte] at hlength
  have hposition := h.position
  have hpos := h.pos
  have hle := h.le
  have hindex : r.index < bytes.length := by omega
  have hfirst : bytes[r.index]? = some bytes[r.index] := List.getElem?_eq_getElem hindex
  have hdrop := h.drop hfirst
  unfold readByte
  by_cases hpart : r.remainingBits < 8
  · have hnext : r.index + 1 < bytes.length := by omega
    have hsecond : bytes[r.index + 1]? = some bytes[r.index + 1] := List.getElem?_eq_getElem hnext
    rw [if_pos hpart, if_neg (by omega), byteAt, hfirst, byteAt, hsecond]
    -- The last bits of one byte and the first ones of the next.
    have hcut : 8 - r.remainingBits ≤ 8 := Nat.sub_le _ _
    rcases exists_ofByte_append bytes[r.index] hcut with ⟨s, u, hsu, hs, hu, hfirstByte⟩
    rcases exists_ofByte_append bytes[r.index + 1] hcut with ⟨v, t, hvt, hv, ht, hsecondByte⟩
    rw [Nat.sub_sub_self hpart.le] at hu ht
    have hvt8 : (v ++ t).length = 8 := by rw [← hvt, length_ofByte]
    have huv : (u ++ v).length = 8 := by
      rw [List.length_append]
      omega
    have hbyte : u ++ v = ofByte byte := by
      have hbehind : (ofBytes bytes).drop (8 * (r.index + 1) + 0) =
          v ++ t ++ (ofBytes bytes).drop (8 * (r.index + 1 + 1)) := by
        rw [drop_ofBytes hsecond (Nat.zero_le 8), List.drop_zero, hvt]
      rw [hbits, hsu, List.drop_left' hs, ← Nat.add_zero (8 * _), hbehind, List.append_assoc v,
        ← List.append_assoc u] at hdrop
      exact (List.append_inj hdrop.symm (by rw [huv, length_ofByte])).1
    have hzeros : (u ++ List.replicate (8 - r.remainingBits) false).length = 8 := by
      rw [List.length_append, List.length_replicate]
      omega
    have hleft : bytes[r.index] <<< UInt8.ofNat (8 - r.remainingBits) =
        toByte (u ++ List.replicate v.length false) := by
      rw [hfirstByte, toByte_shiftLeft _ (by omega), List.append_assoc,
        toByte_append s hzeros, hv]
    have hright : bytes[r.index + 1] >>> UInt8.ofNat r.remainingBits = toByte v := by
      rw [hsecondByte, toByte_shiftRight hvt8.le ht hpart]
    show Except.ok _ = _
    rw [hleft, hright, toByte_or huv.le, hbyte, toByte_ofByte]
  · rw [if_neg hpart, byteAt, hfirst]
    have hwhole : 8 - r.remainingBits = 0 := by omega
    rw [hbits, hwhole, List.drop_zero] at hdrop
    have hbyte := (List.append_inj hdrop (by simp only [length_ofByte])).1
    show Except.ok _ = _
    rw [← toByte_ofByte bytes[r.index], ← hbyte, toByte_ofByte]

end Compression

end CodingChallenges
