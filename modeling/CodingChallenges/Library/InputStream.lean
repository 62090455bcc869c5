import Mathlib.Data.Nat.Bitwise

/-!
# Reading a File

An input stream over the bytes of a file, and numbers as they lie in one.

A stream that has run out of bytes is not read from any more. A single byte is
then not delivered at all, and a block is delivered only in part; which of the
two matters to the caller, so both readers report what they delivered and leave
the rest to him.

A number in memory has its lowest byte first. Reading back what was written gives
the number again as far as its width reaches.

## Main definitions

* `InputStream`: What is left to be read, and whether reading has failed.
* `InputStream.get`, `InputStream.read`: A byte, and a block of bytes.
* `LittleEndian.encode`, `LittleEndian.decode`: A number in memory.

## Theorems

* `InputStream.read_append`: Reading what is there.
* `InputStream.read_nil`: Reading at the end.
* `LittleEndian.decode_encode`: A number is read back up to its width.
-/

namespace CodingChallenges

/-- A stream of bytes. It is not good any more once a read has come too short. -/
structure InputStream where
  rest : List UInt8
  good : Bool
deriving DecidableEq, Repr

namespace InputStream

/-- A stream with all of a file in front of it. -/
def ofFile (file : List UInt8) : InputStream :=
  ⟨file, true⟩

/-- The next byte. Without one the variable that was to take it stays as it is. -/
def get (s : InputStream) : Option UInt8 × InputStream :=
  match s.good, s.rest with
  | true, c :: rest => (some c, ⟨rest, true⟩)
  | _, rest => (none, ⟨rest, false⟩)

/-- A block of bytes, or as much of it as there is. -/
def read (n : Nat) (s : InputStream) : List UInt8 × InputStream :=
  if s.good then (s.rest.take n, ⟨s.rest.drop n, n ≤ s.rest.length⟩) else ([], s)

/-- A block read into zeroed memory. What was not delivered stays zero. -/
def readZeroed (n : Nat) (s : InputStream) : List UInt8 × InputStream :=
  let (block, s') := s.read n
  (block ++ List.replicate (n - block.length) 0, s')

/-- At the end of the file nothing is delivered. -/
theorem read_nil {n : Nat} (h : 0 < n) (good : Bool) : read n ⟨[], good⟩ = ([], ⟨[], false⟩) := by
  cases good with
  | false => rfl
  | true =>
      have hnot : ¬ n ≤ ([] : List UInt8).length := Nat.not_le.mpr h
      simp only [read, if_true, List.take_nil, List.drop_nil, decide_eq_false hnot]

/-- A block that is there is delivered, and nothing behind it is touched. -/
theorem read_append {block rest : List UInt8} {n : Nat} (h : block.length = n) :
    read n ⟨block ++ rest, true⟩ = (block, ⟨rest, true⟩) := by
  subst h
  have hle : block.length ≤ (block ++ rest).length := by
    rw [List.length_append]
    omega
  simp only [read, if_true, List.take_left, List.drop_left, decide_eq_true hle]

theorem readZeroed_append {block rest : List UInt8} {n : Nat} (h : block.length = n) :
    readZeroed n ⟨block ++ rest, true⟩ = (block, ⟨rest, true⟩) := by
  simp only [readZeroed, read_append h, h, Nat.sub_self, List.replicate_zero, List.append_nil]

end InputStream

namespace LittleEndian

/-- The bytes of a number in memory. -/
def encode (width n : Nat) : List UInt8 :=
  (List.range width).map fun i => UInt8.ofNat (n >>> (8 * i))

/-- The number that lies in memory. -/
def decode : List UInt8 → Nat
  | [] => 0
  | b :: rest => b.toNat + 256 * decode rest

@[simp] theorem length_encode (width n : Nat) : (encode width n).length = width := by
  rw [encode, List.length_map, List.length_range]

theorem encode_succ (width n : Nat) :
    encode (width + 1) n = UInt8.ofNat n :: encode width (n / 256) := by
  rw [encode, List.range_succ_eq_map, List.map_cons, List.map_map]
  congr 1
  rw [encode]
  refine List.map_congr_left fun i _ => ?_
  have hshift : n >>> (8 * (i + 1)) = (n / 256) >>> (8 * i) := by
    rw [show 8 * (i + 1) = 8 + 8 * i by omega, Nat.shiftRight_add, Nat.shiftRight_eq_div_pow n 8]
  rw [Function.comp_apply, Nat.succ_eq_add_one, hshift]

theorem decode_encode (width n : Nat) : decode (encode width n) = n % 2 ^ (8 * width) := by
  induction width generalizing n with
  | zero =>
      rw [Nat.mul_zero, Nat.pow_zero, Nat.mod_one]
      rfl
  | succ w ih =>
      have hpow : 2 ^ (8 * (w + 1)) = 256 * 2 ^ (8 * w) := by
        rw [show 8 * (w + 1) = 8 + 8 * w by omega, Nat.pow_add]
      rw [encode_succ, decode, ih, UInt8.toNat_ofNat', hpow, Nat.mod_mul]

theorem decode_encode_of_lt {width n : Nat} (h : n < 2 ^ (8 * width)) :
    decode (encode width n) = n := by
  rw [decode_encode, Nat.mod_eq_of_lt h]

end LittleEndian

end CodingChallenges
