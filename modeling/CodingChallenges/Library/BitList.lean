import Mathlib.Data.Nat.Bitwise
import Mathlib.Tactic.Ring

/-!
# Bytes as Lists of Bits

Numbers written as bits, from the highest one down, and what the operations on bytes
do to them.

Shifting to the left appends zeros and keeps the last eight bits, shifting to the right
drops the last bits. Two bytes one of which has zeros where the other has its bits are
joined by an or. So a byte that is put together from parts of others holds the bits of
these parts one after the other.

## Main definitions

* `BitList.toNat`, `BitList.ofNat`: Bits as a number, and back.
* `BitList.toByte`, `BitList.ofByte`: The same for bytes.
* `BitList.ofBytes`: The bits of a sequence of bytes.

## Theorems

* `BitList.ofByte_toByte`, `BitList.toByte_ofByte`: Eight bits are a byte.
* `BitList.exists_ofByte_append`: The two parts of a byte.
* `BitList.toByte_shiftLeft`, `BitList.toByte_shiftRight`, `BitList.toByte_or`: The
  operations on bytes.
* `BitList.drop_ofBytes`: The bits from one within a byte on.
-/

namespace CodingChallenges

namespace BitList

/-- The number that bits stand for. -/
def toNat : List Bool → Nat
  | [] => 0
  | bit :: bits => bit.toNat * 2 ^ bits.length + toNat bits

/-- The last bits of a number. -/
def ofNat : Nat → Nat → List Bool
  | 0, _ => []
  | width + 1, n => n.testBit width :: ofNat width n

/-- The byte of the last eight bits. -/
def toByte (bits : List Bool) : UInt8 :=
  UInt8.ofNat (toNat bits)

/-- The eight bits of a byte. -/
def ofByte (b : UInt8) : List Bool :=
  ofNat 8 b.toNat

/-- The bits of bytes one after the other. -/
def ofBytes (bytes : List UInt8) : List Bool :=
  bytes.flatMap ofByte

variable {bits u v : List Bool}

theorem toNat_append (u v : List Bool) : toNat (u ++ v) = toNat u * 2 ^ v.length + toNat v := by
  induction u with
  | nil => simp only [List.nil_append, toNat, zero_mul, zero_add]
  | cons bit u ih =>
      rw [List.cons_append, toNat, toNat, ih, List.length_append, pow_add]
      ring

theorem toNat_replicate (n : Nat) : toNat (List.replicate n false) = 0 := by
  induction n with
  | zero => rfl
  | succ n ih => simp [List.replicate_succ, toNat, ih]

theorem toNat_lt (bits : List Bool) : toNat bits < 2 ^ bits.length := by
  induction bits with
  | nil => exact Nat.one_pos
  | cons bit bits ih =>
      rw [toNat, List.length_cons, pow_succ]
      have hbit : bit.toNat * 2 ^ bits.length ≤ 1 * 2 ^ bits.length :=
        Nat.mul_le_mul_right _ bit.toNat_le
      omega

@[simp] theorem length_ofNat (width n : Nat) : (ofNat width n).length = width := by
  induction width with
  | zero => rfl
  | succ width ih => rw [ofNat, List.length_cons, ih]

@[simp] theorem length_ofByte (b : UInt8) : (ofByte b).length = 8 :=
  length_ofNat 8 _

theorem toNat_ofNat (width n : Nat) : toNat (ofNat width n) = n % 2 ^ width := by
  induction width with
  | zero => simp only [ofNat, toNat, pow_zero, Nat.mod_one]
  | succ width ih =>
      rw [ofNat, toNat, ih, length_ofNat, Nat.toNat_testBit, pow_succ, Nat.mod_mul]
      ring

/-- Bits are determined by how many there are and their number. -/
theorem toNat_inj (hlength : u.length = v.length) (h : toNat u = toNat v) : u = v := by
  induction u generalizing v with
  | nil => exact (List.length_eq_zero_iff.mp hlength.symm).symm
  | cons bit u ih =>
      cases v with
      | nil => cases hlength
      | cons bit' v =>
          have hrest : u.length = v.length := Nat.succ.inj hlength
          have hu := toNat_lt u
          have hv := toNat_lt v
          rw [toNat, toNat, hrest] at h
          rw [hrest] at hu
          have hbit : bit = bit' := by
            cases bit <;> cases bit' <;>
              simp only [Bool.toNat_false, Bool.toNat_true, zero_mul, one_mul] at h ⊢ <;> omega
          subst hbit
          rw [ih hrest (Nat.add_left_cancel h)]

/-! ### Bytes -/

theorem toByte_ofByte (b : UInt8) : toByte (ofByte b) = b := by
  rw [toByte, ofByte, toNat_ofNat, Nat.mod_eq_of_lt b.toNat_lt, UInt8.ofNat_toNat]

theorem toNat_toByte (bits : List Bool) : (toByte bits).toNat = toNat bits % 2 ^ 8 := by
  rw [toByte, UInt8.toNat_ofNat']

theorem toNat_toByte_of_le (h : bits.length ≤ 8) : (toByte bits).toNat = toNat bits := by
  rw [toNat_toByte, Nat.mod_eq_of_lt]
  exact lt_of_lt_of_le (toNat_lt bits) (Nat.pow_le_pow_right (by omega) h)

/-- A byte in two parts. -/
theorem exists_ofByte_append (b : UInt8) {k : Nat} (hk : k ≤ 8) :
    ∃ u v, ofByte b = u ++ v ∧ u.length = k ∧ v.length = 8 - k ∧ b = toByte (u ++ v) := by
  refine ⟨(ofByte b).take k, (ofByte b).drop k, (List.take_append_drop k _).symm, ?_, ?_, ?_⟩
  · rw [List.length_take, length_ofByte, Nat.min_eq_left hk]
  · rw [List.length_drop, length_ofByte]
  · rw [List.take_append_drop, toByte_ofByte]

theorem ofByte_toByte (h : bits.length = 8) : ofByte (toByte bits) = bits := by
  refine toNat_inj (by rw [length_ofByte, h]) ?_
  rw [ofByte, toNat_ofNat, toNat_toByte_of_le h.le, Nat.mod_eq_of_lt]
  have hlt := toNat_lt bits
  rwa [h] at hlt

/-- Only the last eight bits count. -/
theorem toByte_append (u : List Bool) (h : v.length = 8) : toByte (u ++ v) = toByte v := by
  refine UInt8.toNat_inj.mp ?_
  rw [toNat_toByte, toNat_toByte, toNat_append, h, Nat.mul_add_mod_self_right]

theorem toNat_amount {k : Nat} (hk : k < 8) : (UInt8.ofNat k).toNat = k :=
  UInt8.toNat_ofNat_of_lt' (show k < 256 by omega)

theorem toByte_shiftLeft (bits : List Bool) {k : Nat} (hk : k < 8) :
    toByte bits <<< UInt8.ofNat k = toByte (bits ++ List.replicate k false) := by
  refine UInt8.toNat_inj.mp ?_
  rw [UInt8.toNat_shiftLeft, toNat_toByte, toNat_toByte, toNat_append, toNat_replicate,
    List.length_replicate, Nat.add_zero, toNat_amount hk,
    Nat.mod_eq_of_lt hk, Nat.shiftLeft_eq, Nat.mod_mul_mod]

theorem toByte_shiftRight {k : Nat} (h : (u ++ v).length ≤ 8) (hv : v.length = k) (hk : k < 8) :
    toByte (u ++ v) >>> UInt8.ofNat k = toByte u := by
  have hu : u.length ≤ 8 := by
    rw [List.length_append] at h
    omega
  refine UInt8.toNat_inj.mp ?_
  rw [UInt8.toNat_shiftRight, toNat_toByte_of_le h, toNat_toByte_of_le hu,
    toNat_amount hk, Nat.mod_eq_of_lt hk, Nat.shiftRight_eq_div_pow,
    toNat_append, hv, Nat.add_comm, Nat.add_mul_div_right _ _ (Nat.two_pow_pos k),
    Nat.div_eq_of_lt (hv ▸ toNat_lt v), Nat.zero_add]

/-- The bits of one byte in the place of the zeros of another. -/
theorem toByte_or (h : (u ++ v).length ≤ 8) :
    toByte (u ++ List.replicate v.length false) ||| toByte v = toByte (u ++ v) := by
  have hzeros : (u ++ List.replicate v.length false).length ≤ 8 := by
    rwa [List.length_append, List.length_replicate, ← List.length_append]
  have hv : v.length ≤ 8 := by
    rw [List.length_append] at h
    omega
  refine UInt8.toNat_inj.mp ?_
  rw [UInt8.toNat_or, toNat_toByte_of_le hzeros, toNat_toByte_of_le hv, toNat_toByte_of_le h,
    toNat_append, toNat_replicate, List.length_replicate, Nat.add_zero, toNat_append,
    ← Nat.shiftLeft_eq, Nat.shiftLeft_add_eq_or_of_lt (toNat_lt v)]

/-- The last bit on its own. -/
theorem toByte_and_one (bit : Bool) (h : (u ++ [bit]).length ≤ 8) :
    (toByte (u ++ [bit]) &&& 1 = 1) ↔ bit = true := by
  rw [← UInt8.toNat_inj, UInt8.toNat_and, toNat_toByte_of_le h, toNat_append]
  cases bit <;> simp [toNat, Nat.add_mod]

/-! ### Sequences of bytes -/

variable {bytes : List UInt8} {b : UInt8} {i j : Nat}

theorem ofBytes_append (bytes bytes' : List UInt8) :
    ofBytes (bytes ++ bytes') = ofBytes bytes ++ ofBytes bytes' :=
  List.flatMap_append

theorem ofBytes_singleton (b : UInt8) : ofBytes [b] = ofByte b := by
  simp only [ofBytes, List.flatMap_cons, List.flatMap_nil, List.append_nil]

theorem length_ofBytes (bytes : List UInt8) : (ofBytes bytes).length = 8 * bytes.length := by
  induction bytes with
  | nil => rfl
  | cons b bytes ih =>
      rw [ofBytes, List.flatMap_cons, List.length_append, length_ofByte, ← ofBytes, ih,
        List.length_cons]
      omega

theorem drop_ofBytes_mul (bytes : List UInt8) (i : Nat) :
    (ofBytes bytes).drop (8 * i) = ofBytes (bytes.drop i) := by
  induction i generalizing bytes with
  | zero => rfl
  | succ i ih =>
      cases bytes with
      | nil => rfl
      | cons b bytes =>
          rw [List.drop_succ_cons, ← ih, ofBytes, List.flatMap_cons, ← ofBytes, Nat.mul_succ,
            Nat.add_comm, ← List.drop_drop, List.drop_left' (length_ofByte b)]

/-- The bits from one within a byte on. -/
theorem drop_ofBytes (h : bytes[i]? = some b) (hj : j ≤ 8) :
    (ofBytes bytes).drop (8 * i + j) = (ofByte b).drop j ++ (ofBytes bytes).drop (8 * (i + 1)) := by
  rcases List.getElem?_eq_some_iff.mp h with ⟨hi, rfl⟩
  have hlength : j ≤ (ofByte bytes[i]).length := by rwa [length_ofByte]
  rw [← List.drop_drop, drop_ofBytes_mul, drop_ofBytes_mul, List.drop_eq_getElem_cons hi, ofBytes,
    List.flatMap_cons, List.drop_append_of_le_length hlength]
  rfl

end BitList

end CodingChallenges
