import Mathlib.Data.List.Basic
import Mathlib.Data.Nat.Bitwise

/-!
# UTF-8

The encoding of characters as bytes, taken apart the way a decoder does it.

A decoder looks at the first byte, checks that enough continuation bytes
follow, and joins the payload bits. `Utf8Form` says of a byte string that it has
one of the four forms, and which number the payload bits make. The encoding of
a character has a form that makes its code point, so a decoder that accepts the
forms reads back what was encoded. It also reads more than that: a form may
spend more bytes than its number needs, or make a number that is no character.

## Main definitions

* `utf8Encode`: The encoding of a text.
* `Utf8Form`: The four forms, with the number in the payload bits.
* `Utf8IllFormed`: The forms that encode no character.

## Theorems

* `utf8Form_encodeChar`: The encoding of a character has a form.
* `Utf8Form.number`: The number of a form, without bit operations.
* `Utf8Form.eq_encodeChar`, `not_utf8IllFormed_encodeChar`: The forms that are
  the encoding of a character.
* `Utf8Form.first`: How the first byte tells ASCII from the rest.
* `count_utf8Encode`: An ASCII character is counted by its byte.
-/

namespace CodingChallenges

/-- The encoding of a text. -/
def utf8Encode (text : List Char) : List UInt8 :=
  text.flatMap String.utf8EncodeChar

theorem utf8Encode_cons (c : Char) (text : List Char) :
    utf8Encode (c :: text) = String.utf8EncodeChar c ++ utf8Encode text :=
  List.flatMap_cons

theorem utf8Encode_append (front back : List Char) :
    utf8Encode (front ++ back) = utf8Encode front ++ utf8Encode back :=
  List.flatMap_append

/-- A byte behind the first one. -/
def Utf8Tail (b : UInt8) : Prop := 0x80 ≤ b ∧ b ≤ 0xBF

/-- A first byte with its continuation bytes, and the number that the payload
    bits make. -/
inductive Utf8Form : List UInt8 → Nat → Prop where
  | one {a : UInt8} : a ≤ 0x7F → Utf8Form [a] a.toNat
  | two {a b : UInt8} : 0xC0 ≤ a → a ≤ 0xDF → Utf8Tail b →
      Utf8Form [a, b] ((a.toNat &&& 0x1F) <<< 6 ||| (b.toNat &&& 0x3F))
  | three {a b c : UInt8} : 0xE0 ≤ a → a ≤ 0xEF → Utf8Tail b → Utf8Tail c →
      Utf8Form [a, b, c] ((a.toNat &&& 0xF) <<< 12 ||| (b.toNat &&& 0x3F) <<< 6 |||
        (c.toNat &&& 0x3F))
  | four {a b c d : UInt8} : 0xF0 ≤ a → a ≤ 0xF7 → Utf8Tail b → Utf8Tail c → Utf8Tail d →
      Utf8Form [a, b, c, d] ((a.toNat &&& 0x7) <<< 18 ||| (b.toNat &&& 0x3F) <<< 12 |||
        (c.toNat &&& 0x3F) <<< 6 ||| (d.toNat &&& 0x3F))

/-- The first two bytes of a form that encodes no character: it is longer than
    its number needs, or its number is a surrogate or past the last code
    point. -/
def Utf8IllFormed : List UInt8 → Prop
  | a :: b :: _ =>
    a ≤ 0xC1 ∨ (a = 0xE0 ∧ b < 0xA0) ∨ (a = 0xED ∧ 0xA0 ≤ b) ∨ (a = 0xF0 ∧ b < 0x90) ∨
      (a = 0xF4 ∧ 0x90 ≤ b) ∨ 0xF5 ≤ a
  | _ => False

/-- Payload bits joined are added. -/
theorem shiftLeft_or {low : Nat} (bits : Nat) (h : low < 2 ^ bits) (high : Nat) :
    high <<< bits ||| low = high * 2 ^ bits + low := by
  rw [← Nat.shiftLeft_add_eq_or_of_lt h, Nat.shiftLeft_eq]

section Bytes

variable {n : Nat}

theorem toNat_tail : (UInt8.ofNat (n % 0x40 + 0x80)).toNat = n % 0x40 + 0x80 :=
  UInt8.toNat_ofNat_of_lt' (show n % 0x40 + 0x80 < 256 by omega)

theorem utf8Tail_ofNat : Utf8Tail (UInt8.ofNat (n % 0x40 + 0x80)) := by
  unfold Utf8Tail
  simp only [UInt8.le_iff_toNat_le, toNat_tail]
  have hlow : (0x80 : UInt8).toNat = 0x80 := rfl
  have hhigh : (0xBF : UInt8).toNat = 0xBF := rfl
  omega

theorem payload_tail : (UInt8.ofNat (n % 0x40 + 0x80)).toNat &&& 0x3F = n % 0x40 := by
  rw [toNat_tail, show 0x3F = 2 ^ 6 - 1 from rfl, Nat.and_two_pow_sub_one_eq_mod]
  omega

/-- A first byte that is made of a marker and payload bits below it. -/
theorem firstByte (low high : UInt8) (bits : Nat) (hbits : n < 2 ^ bits)
    (hhigh : low.toNat + 2 ^ bits ≤ high.toNat + 1) (hlow : low.toNat % 2 ^ bits = 0) :
    low ≤ UInt8.ofNat (n + low.toNat) ∧ UInt8.ofNat (n + low.toNat) ≤ high ∧
      (UInt8.ofNat (n + low.toNat)).toNat &&& (2 ^ bits - 1) = n := by
  have hsize : high.toNat < 256 := high.toNat_lt
  have hbyte : (UInt8.ofNat (n + low.toNat)).toNat = n + low.toNat :=
    UInt8.toNat_ofNat_of_lt' (show n + low.toNat < 256 by omega)
  refine ⟨?_, ?_, ?_⟩
  · rw [UInt8.le_iff_toNat_le, hbyte]
    exact Nat.le_add_left _ _
  · rw [UInt8.le_iff_toNat_le, hbyte]
    omega
  · rw [hbyte, Nat.and_two_pow_sub_one_eq_mod, Nat.add_mod, hlow, Nat.add_zero, Nat.mod_mod,
      Nat.mod_eq_of_lt hbits]

/-- The payload of two bytes. -/
theorem join_two (high : Nat) : high <<< 6 ||| n % 0x40 = high * 64 + n % 64 :=
  shiftLeft_or 6 (Nat.mod_lt n (by decide)) high

/-- The payload of three bytes. -/
theorem join_three (high : Nat) :
    high <<< 12 ||| (n / 64 % 0x40) <<< 6 ||| n % 0x40 = high * 4096 + n % 4096 := by
  rw [Nat.or_assoc, join_two, shiftLeft_or 12 (by omega)]
  omega

/-- The payload of four bytes. -/
theorem join_four (high : Nat) :
    high <<< 18 ||| (n / 4096 % 0x40) <<< 12 ||| (n / 64 % 0x40) <<< 6 ||| n % 0x40
      = high * 262144 + n % 262144 := by
  rw [Nat.or_assoc, Nat.or_assoc, ← Nat.or_assoc (_ <<< 12), join_three,
    shiftLeft_or 18 (by omega)]
  omega

end Bytes

theorem codePoint_lt (c : Char) : c.toNat < 0x110000 := by
  rcases c.valid with h | h
  · exact Nat.lt_trans h (by decide)
  · exact h.2

/-- The encoding of a character has the form of its length, and the payload bits
    make its code point. -/
theorem utf8Form_encodeChar (c : Char) : Utf8Form (String.utf8EncodeChar c) c.toNat := by
  have hmax := codePoint_lt c
  have hval : c.val.toNat = c.toNat := rfl
  unfold String.utf8EncodeChar
  simp only [hval]
  generalize c.toNat = n at hmax
  -- The four lengths one after the other: the payload bits of each number are put together.
  by_cases hone : n ≤ 0x7F
  · have hbyte : (UInt8.ofNat n).toNat = n :=
      UInt8.toNat_ofNat_of_lt' (show n < 256 by omega)
    have hle : UInt8.ofNat n ≤ 0x7F := by
      rw [UInt8.le_iff_toNat_le, hbyte]
      exact hone
    have hform := Utf8Form.one hle
    rw [hbyte] at hform
    rw [if_pos hone]
    exact hform
  rw [if_neg hone]
  by_cases htwo : n ≤ 0x7FF
  · rcases firstByte (n := n / 64 % 0x20) 0xC0 0xDF 5
      (Nat.mod_lt _ (by decide)) (by decide) (by decide) with ⟨hlow, hhigh, hpayload⟩
    have hform := Utf8Form.two hlow hhigh (utf8Tail_ofNat (n := n))
    have hnumber : n / 64 % 0x20 * 64 + n % 64 = n := by omega
    rw [show 0x1F = 2 ^ 5 - 1 from rfl, hpayload, payload_tail, join_two, hnumber] at hform
    rw [if_pos htwo]
    exact hform
  rw [if_neg htwo]
  by_cases hthree : n ≤ 0xFFFF
  · rcases firstByte (n := n / 4096 % 0x10) 0xE0 0xEF 4
      (Nat.mod_lt _ (by decide)) (by decide) (by decide) with ⟨hlow, hhigh, hpayload⟩
    have hform := Utf8Form.three hlow hhigh (utf8Tail_ofNat (n := n / 64)) (utf8Tail_ofNat (n := n))
    have hnumber : n / 4096 % 0x10 * 4096 + n % 4096 = n := by omega
    rw [show 0xF = 2 ^ 4 - 1 from rfl, hpayload, payload_tail, payload_tail, join_three,
      hnumber] at hform
    rw [if_pos hthree]
    exact hform
  · rcases firstByte (n := n / 262144 % 0x08) 0xF0 0xF7 3
      (Nat.mod_lt _ (by decide)) (by decide) (by decide) with ⟨hlow, hhigh, hpayload⟩
    have hform := Utf8Form.four hlow hhigh (utf8Tail_ofNat (n := n / 4096))
      (utf8Tail_ofNat (n := n / 64)) (utf8Tail_ofNat (n := n))
    have hnumber : n / 262144 % 0x08 * 262144 + n % 262144 = n := by omega
    rw [show 0x7 = 2 ^ 3 - 1 from rfl, hpayload, payload_tail, payload_tail, payload_tail,
      join_four, hnumber] at hform
    rw [if_neg hthree]
    exact hform

theorem payload_first {a low high : UInt8} (bits : Nat) (hlow : low ≤ a) (hhigh : a ≤ high)
    (hbits : high.toNat < low.toNat + 2 ^ bits) (haligned : low.toNat % 2 ^ bits = 0) :
    a.toNat &&& (2 ^ bits - 1) = a.toNat - low.toNat := by
  rw [UInt8.le_iff_toNat_le] at hlow hhigh
  rw [Nat.and_two_pow_sub_one_eq_mod]
  calc a.toNat % 2 ^ bits = (low.toNat + (a.toNat - low.toNat)) % 2 ^ bits := by
        rw [Nat.add_sub_cancel' hlow]
    _ = (a.toNat - low.toNat) % 2 ^ bits := by
        rw [Nat.add_mod, haligned, Nat.zero_add, Nat.mod_mod]
    _ = a.toNat - low.toNat := Nat.mod_eq_of_lt (by omega)

theorem payload_tail_eq {b : UInt8} (h : Utf8Tail b) :
    b.toNat &&& 0x3F = b.toNat - 0x80 ∧ 0x80 ≤ b.toNat ∧ b.toNat ≤ 0xBF := by
  have hpayload := payload_first 6 h.1 h.2 (by decide) (by decide)
  exact ⟨hpayload, UInt8.le_iff_toNat_le.mp h.1, UInt8.le_iff_toNat_le.mp h.2⟩

/-- The number of each form, without bit operations. -/
theorem Utf8Form.number {w : List UInt8} {x : Nat} (h : Utf8Form w x) :
    (∃ a, w = [a] ∧ x = a.toNat ∧ x ≤ 0x7F) ∨
    (∃ a b, w = [a, b] ∧ a.toNat = x / 64 + 0xC0 ∧ b.toNat = x % 64 + 0x80 ∧ x ≤ 0x7FF) ∨
    (∃ a b c, w = [a, b, c] ∧ a.toNat = x / 4096 + 0xE0 ∧ b.toNat = x / 64 % 64 + 0x80 ∧
      c.toNat = x % 64 + 0x80 ∧ x ≤ 0xFFFF) ∨
    (∃ a b c d, w = [a, b, c, d] ∧ a.toNat = x / 262144 + 0xF0 ∧
      b.toNat = x / 4096 % 64 + 0x80 ∧ c.toNat = x / 64 % 64 + 0x80 ∧ d.toNat = x % 64 + 0x80 ∧
      x ≤ 0x1FFFFF) := by
  cases h with
  | @one a ha => exact Or.inl ⟨a, rfl, rfl, UInt8.le_iff_toNat_le.mp ha⟩
  -- The payloads do not overlap, so that joining their bits is adding them up.
  | @two a b hlow hhigh hb =>
      have ha := payload_first 5 hlow hhigh (by decide) (by decide)
      rcases payload_tail_eq hb with ⟨hb, hb₁, hb₂⟩
      have ha₁ : 0xC0 ≤ a.toNat := UInt8.le_iff_toNat_le.mp hlow
      have ha₂ : a.toNat ≤ 0xDF := UInt8.le_iff_toNat_le.mp hhigh
      have hnumber : (a.toNat &&& 0x1F) <<< 6 ||| (b.toNat &&& 0x3F)
          = (a.toNat - 0xC0) * 64 + (b.toNat - 0x80) := by
        rw [show 0x1F = 2 ^ 5 - 1 from rfl, ha, hb, shiftLeft_or 6 (by omega)]
        rfl
      rw [hnumber]
      exact Or.inr (Or.inl ⟨a, b, rfl, by omega, by omega, by omega⟩)
  | @three a b c hlow hhigh hb hc =>
      have ha := payload_first 4 hlow hhigh (by decide) (by decide)
      rcases payload_tail_eq hb with ⟨hb, hb₁, hb₂⟩
      rcases payload_tail_eq hc with ⟨hc, hc₁, hc₂⟩
      have ha₁ : 0xE0 ≤ a.toNat := UInt8.le_iff_toNat_le.mp hlow
      have ha₂ : a.toNat ≤ 0xEF := UInt8.le_iff_toNat_le.mp hhigh
      have hnumber : (a.toNat &&& 0xF) <<< 12 ||| (b.toNat &&& 0x3F) <<< 6 ||| (c.toNat &&& 0x3F)
          = (a.toNat - 0xE0) * 4096 + ((b.toNat - 0x80) * 64 + (c.toNat - 0x80)) := by
        rw [show 0xF = 2 ^ 4 - 1 from rfl, ha, hb, hc, Nat.or_assoc, shiftLeft_or 6 (by omega),
          shiftLeft_or 12 (by omega)]
        rfl
      rw [hnumber]
      exact Or.inr (Or.inr (Or.inl ⟨a, b, c, rfl, by omega, by omega, by omega, by omega⟩))
  | @four a b c d hlow hhigh hb hc hd =>
      have ha := payload_first 3 hlow hhigh (by decide) (by decide)
      rcases payload_tail_eq hb with ⟨hb, hb₁, hb₂⟩
      rcases payload_tail_eq hc with ⟨hc, hc₁, hc₂⟩
      rcases payload_tail_eq hd with ⟨hd, hd₁, hd₂⟩
      have ha₁ : 0xF0 ≤ a.toNat := UInt8.le_iff_toNat_le.mp hlow
      have ha₂ : a.toNat ≤ 0xF7 := UInt8.le_iff_toNat_le.mp hhigh
      have hnumber : (a.toNat &&& 0x7) <<< 18 ||| (b.toNat &&& 0x3F) <<< 12 |||
            (c.toNat &&& 0x3F) <<< 6 ||| (d.toNat &&& 0x3F)
          = (a.toNat - 0xF0) * 262144 +
            ((b.toNat - 0x80) * 4096 + ((c.toNat - 0x80) * 64 + (d.toNat - 0x80))) := by
        rw [show 0x7 = 2 ^ 3 - 1 from rfl, ha, hb, hc, hd, Nat.or_assoc, Nat.or_assoc,
          shiftLeft_or 6 (by omega), shiftLeft_or 12 (by omega), shiftLeft_or 18 (by omega)]
        rfl
      rw [hnumber]
      exact Or.inr (Or.inr (Or.inr ⟨a, b, c, d, rfl, by omega, by omega, by omega, by omega,
        by omega⟩))

theorem utf8IllFormed_cons_cons (a b : UInt8) (rest : List UInt8) :
    Utf8IllFormed (a :: b :: rest) ↔
      a.toNat ≤ 0xC1 ∨ (a.toNat = 0xE0 ∧ b.toNat < 0xA0) ∨ (a.toNat = 0xED ∧ 0xA0 ≤ b.toNat) ∨
        (a.toNat = 0xF0 ∧ b.toNat < 0x90) ∨ (a.toNat = 0xF4 ∧ 0x90 ≤ b.toNat) ∨
        0xF5 ≤ a.toNat := by
  unfold Utf8IllFormed
  simp only [UInt8.le_iff_toNat_le, UInt8.lt_iff_toNat_lt, ← UInt8.toNat_inj]
  exact Iff.rfl

theorem toNat_ofNat_of_isValidChar {x : Nat} (h : x.isValidChar) : (Char.ofNat x).toNat = x := by
  unfold Char.ofNat
  rw [dif_pos h]
  rfl

theorem ofNat_eq_of_toNat {b : UInt8} {n : Nat} (h : b.toNat = n) : UInt8.ofNat n = b := by
  rw [← h, UInt8.ofNat_toNat]

/-- If the number of a form is that of a character, this is the one encoded. -/
theorem encodes_of_isValidChar {w : List UInt8} {x : Nat} (hvalid : x.isValidChar)
    (hw : (Char.ofNat x).val.toNat = x → w = String.utf8EncodeChar (Char.ofNat x)) :
    ∃ c : Char, w = String.utf8EncodeChar c ∧ x = c.toNat := by
  have hval := toNat_ofNat_of_isValidChar hvalid
  exact ⟨Char.ofNat x, hw hval, hval.symm⟩

/-- Only a form that is ill formed encodes no character. -/
theorem Utf8Form.eq_encodeChar {w : List UInt8} {x : Nat} (h : Utf8Form w x)
    (hformed : ¬ Utf8IllFormed w) : ∃ c : Char, w = String.utf8EncodeChar c ∧ x = c.toNat := by
  rcases h.number with ⟨a, rfl, hx, hmax⟩ | ⟨a, b, rfl, ha, hb, hmax⟩ |
    ⟨a, b, c, rfl, ha, hb, hc, hmax⟩ | ⟨a, b, c, d, rfl, ha, hb, hc, hd, hmax⟩
  -- That the form is not ill formed bounds its number, so the encoding takes the same branch.
  · have hvalid : x.isValidChar := Or.inl (by omega)
    refine encodes_of_isValidChar hvalid fun hval => ?_
    unfold String.utf8EncodeChar
    simp only [hval]
    rw [if_pos hmax, ofNat_eq_of_toNat hx.symm]
  · rw [utf8IllFormed_cons_cons] at hformed
    have hvalid : x.isValidChar := Or.inl (by omega)
    refine encodes_of_isValidChar hvalid fun hval => ?_
    unfold String.utf8EncodeChar
    simp only [hval]
    rw [if_neg (by omega), if_pos hmax, ofNat_eq_of_toNat (b := a) (by omega),
      ofNat_eq_of_toNat (b := b) (by omega)]
  · rw [utf8IllFormed_cons_cons] at hformed
    have hvalid : x.isValidChar := by
      unfold Nat.isValidChar
      omega
    refine encodes_of_isValidChar hvalid fun hval => ?_
    unfold String.utf8EncodeChar
    simp only [hval]
    rw [if_neg (by omega), if_neg (by omega), if_pos hmax,
      ofNat_eq_of_toNat (b := a) (by omega), ofNat_eq_of_toNat (b := b) (by omega),
      ofNat_eq_of_toNat (b := c) (by omega)]
  · rw [utf8IllFormed_cons_cons] at hformed
    have hvalid : x.isValidChar := by
      unfold Nat.isValidChar
      omega
    refine encodes_of_isValidChar hvalid fun hval => ?_
    unfold String.utf8EncodeChar
    simp only [hval]
    rw [if_neg (by omega), if_neg (by omega), if_neg (by omega),
      ofNat_eq_of_toNat (b := a) (by omega), ofNat_eq_of_toNat (b := b) (by omega),
      ofNat_eq_of_toNat (b := c) (by omega), ofNat_eq_of_toNat (b := d) (by omega)]

/-- The length of the encoding of a character. -/
theorem length_encodeChar (c : Char) : (String.utf8EncodeChar c).length =
    if c.toNat ≤ 0x7F then 1 else if c.toNat ≤ 0x7FF then 2 else if c.toNat ≤ 0xFFFF then 3
    else 4 := by
  have hval : c.val.toNat = c.toNat := rfl
  unfold String.utf8EncodeChar
  simp only [hval]
  split_ifs <;> rfl

/-- The encoding of a character is not ill formed. -/
theorem not_utf8IllFormed_encodeChar (c : Char) : ¬ Utf8IllFormed (String.utf8EncodeChar c) := by
  have hvalid : c.toNat.isValidChar := c.valid
  have hlength := length_encodeChar c
  unfold Nat.isValidChar at hvalid
  rcases (utf8Form_encodeChar c).number with ⟨a, hw, -⟩ | ⟨a, b, hw, ha, hb, hmax⟩ |
    ⟨a, b, d, hw, ha, hb, -, hmax⟩ | ⟨a, b, d, e, hw, ha, hb, -, -, hmax⟩
  · rw [hw]
    exact id
  -- The length of the encoding bounds the code point from below, and with it the first bytes.
  all_goals
    rw [hw] at hlength ⊢
    rw [utf8IllFormed_cons_cons]
    simp only [List.length_cons, List.length_nil] at hlength
    split_ifs at hlength <;> omega

/-- The first byte: the character itself if it is ASCII, and a large one
    otherwise. -/
theorem Utf8Form.first {w : List UInt8} {x : Nat} (h : Utf8Form w x) :
    ∃ a rest, w = a :: rest ∧ (a.toNat = x ∨ 0xC0 ≤ a) := by
  cases h with
  | @one a _ => exact ⟨a, [], rfl, Or.inl rfl⟩
  | @two a b hlow _ _ => exact ⟨a, [b], rfl, Or.inr hlow⟩
  | @three a b c hlow _ _ _ =>
      exact ⟨a, [b, c], rfl, Or.inr (Nat.le_trans (by decide) hlow)⟩
  | @four a b c d hlow _ _ _ _ =>
      exact ⟨a, [b, c, d], rfl, Or.inr (Nat.le_trans (by decide) hlow)⟩

/-- All bytes of a form but the ASCII characters are large. -/
theorem Utf8Form.one_or_large {w : List UInt8} {x : Nat} (h : Utf8Form w x) :
    (∃ a, w = [a] ∧ a.toNat = x) ∨ w.length ≠ 1 ∧ ∀ b ∈ w, 0x80 ≤ b := by
  have htail : ∀ b, Utf8Tail b → 0x80 ≤ b := fun b hb => hb.1
  cases h with
  | @one a _ => exact Or.inl ⟨a, rfl, rfl⟩
  | two hlow _ hb =>
      have hfirst := UInt8.le_trans (show 0x80 ≤ (0xC0 : UInt8) by decide) hlow
      refine Or.inr ⟨Nat.succ_succ_ne_one _, List.forall_mem_cons.mpr ⟨hfirst, ?_⟩⟩
      exact List.forall_mem_cons.mpr ⟨htail _ hb, List.forall_mem_nil _⟩
  | three hlow _ hb hc =>
      have hfirst := UInt8.le_trans (show 0x80 ≤ (0xE0 : UInt8) by decide) hlow
      refine Or.inr ⟨Nat.succ_succ_ne_one _, List.forall_mem_cons.mpr ⟨hfirst, ?_⟩⟩
      refine List.forall_mem_cons.mpr ⟨htail _ hb, ?_⟩
      exact List.forall_mem_cons.mpr ⟨htail _ hc, List.forall_mem_nil _⟩
  | four hlow _ hb hc hd =>
      have hfirst := UInt8.le_trans (show 0x80 ≤ (0xF0 : UInt8) by decide) hlow
      refine Or.inr ⟨Nat.succ_succ_ne_one _, List.forall_mem_cons.mpr ⟨hfirst, ?_⟩⟩
      refine List.forall_mem_cons.mpr ⟨htail _ hb, List.forall_mem_cons.mpr ⟨htail _ hc, ?_⟩⟩
      exact List.forall_mem_cons.mpr ⟨htail _ hd, List.forall_mem_nil _⟩

/-- An ASCII byte occurs in the encoding of its character only. -/
theorem count_encodeChar {d : Char} (hd : d.toNat ≤ 0x7F) (c : Char) :
    (String.utf8EncodeChar c).count (UInt8.ofNat d.toNat) = if c = d then 1 else 0 := by
  have hbyte : (UInt8.ofNat d.toNat).toNat = d.toNat :=
    UInt8.toNat_ofNat_of_lt' (show d.toNat < 256 by omega)
  rcases (utf8Form_encodeChar c).one_or_large with ⟨a, hw, ha⟩ | ⟨hlength, hlarge⟩
  · have hsame : a = UInt8.ofNat d.toNat ↔ c = d := by
      rw [← UInt8.toNat_inj, hbyte, ha]
      exact Char.toNat_inj
    rw [hw, List.count_singleton]
    simp only [beq_iff_eq, hsame]
  -- A longer encoding is that of no ASCII character, and all of its bytes are large.
  · have hne : c ≠ d := by
      rintro rfl
      rw [length_encodeChar, if_pos hd] at hlength
      exact hlength rfl
    rw [if_neg hne, List.count_eq_zero]
    intro hmem
    have hle := UInt8.le_iff_toNat_le.mp (hlarge _ hmem)
    rw [hbyte] at hle
    exact absurd (Nat.le_trans hle hd) (by decide)

theorem count_utf8Encode {d : Char} (hd : d.toNat ≤ 0x7F) (text : List Char) :
    (utf8Encode text).count (UInt8.ofNat d.toNat) = text.count d := by
  induction text with
  | nil => rfl
  | cons c text ih =>
      rw [utf8Encode_cons, List.count_append, ih, count_encodeChar hd, List.count_cons,
        Nat.add_comm]
      simp only [beq_iff_eq]

end CodingChallenges
