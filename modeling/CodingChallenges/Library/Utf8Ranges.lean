import CodingChallenges.Library.Utf8
import Mathlib.Data.List.Forall2

/-!
# UTF-8 by Ranges

The encodings of characters, told from other byte strings one byte at a time.

The first byte of an encoding says in which range each of the following bytes is. With the
ranges at hand a reader needs no numbers: it takes a byte, looks whether it is in the next
range, and knows at once when a byte string is not the beginning of any encoding. So every
byte string begins with an encoding, or is the beginning of one, or neither.

## Main definitions

* `ByteRange`: A range of bytes.
* `utf8Ranges`: The ranges of the bytes behind a first byte.
* `Utf8Incomplete`, `Utf8Invalid`: A part of a character, and what begins with none.
* `utf8Filling`: How a byte string begins, told by the ranges.

## Theorems

* `encodes_iff`: What follows its first byte in the ranges is the encoding of a character.
* `exists_characters`, `exists_characters_of_prefix`: A byte string is whole characters and then
  something else, and a beginning of a text whole characters and a part of one.
* `utf8Filling_append`, `utf8Filling_incomplete`, `utf8Filling_invalid`: The three ways in which a
  byte string begins.
-/

namespace CodingChallenges

/-- A range of bytes, its ends included. -/
structure ByteRange where
  low : UInt8
  high : UInt8
deriving DecidableEq, Repr

namespace ByteRange

/-- The byte lies in the range. -/
def Has (r : ByteRange) (b : UInt8) : Prop :=
  r.low ≤ b ∧ b ≤ r.high

instance (r : ByteRange) (b : UInt8) : Decidable (r.Has b) :=
  inferInstanceAs (Decidable (_ ∧ _))

/-- The bytes behind the first one that are not restricted further. -/
def tail : ByteRange :=
  ⟨0x80, 0xBF⟩

end ByteRange

open ByteRange

/-- The range of the second byte. -/
def utf8Second (a : UInt8) : ByteRange :=
  if a = 0xE0 then ⟨0xA0, 0xBF⟩
  else if a = 0xED then ⟨0x80, 0x9F⟩
  else if a = 0xF0 then ⟨0x90, 0xBF⟩
  else if a = 0xF4 then ⟨0x80, 0x8F⟩
  else tail

/-- The ranges of the bytes behind a first byte, if it begins the encoding of a character. -/
def utf8Ranges (a : UInt8) : Option (List ByteRange) :=
  if a ≤ 0x7F then some []
  else if a ≤ 0xC1 then none
  else if a ≤ 0xDF then some [utf8Second a]
  else if a ≤ 0xEF then some [utf8Second a, tail]
  else if a ≤ 0xF4 then some [utf8Second a, tail, tail]
  else none

theorem utf8Ranges_two {a : UInt8} (hlow : 0xC2 ≤ a) (hhigh : a ≤ 0xDF) :
    utf8Ranges a = some [utf8Second a] := by
  unfold utf8Ranges
  simp only [UInt8.le_iff_toNat_le, UInt8.reduceToNat] at *
  rw [if_neg (by omega), if_neg (by omega), if_pos hhigh]

theorem utf8Ranges_three {a : UInt8} (hlow : 0xE0 ≤ a) (hhigh : a ≤ 0xEF) :
    utf8Ranges a = some [utf8Second a, tail] := by
  unfold utf8Ranges
  simp only [UInt8.le_iff_toNat_le, UInt8.reduceToNat] at *
  rw [if_neg (by omega), if_neg (by omega), if_neg (by omega), if_pos hhigh]

theorem utf8Ranges_four {a : UInt8} (hlow : 0xF0 ≤ a) (hhigh : a ≤ 0xF4) :
    utf8Ranges a = some [utf8Second a, tail, tail] := by
  unfold utf8Ranges
  simp only [UInt8.le_iff_toNat_le, UInt8.reduceToNat] at *
  rw [if_neg (by omega), if_neg (by omega), if_neg (by omega), if_neg (by omega), if_pos hhigh]

/-- The range of the second byte leaves out the ill-formed beginnings. -/
theorem utf8Second_has_iff {a b : UInt8} (rest : List UInt8) (hlow : 0xC2 ≤ a) (hhigh : a ≤ 0xF4) :
    (utf8Second a).Has b ↔ Utf8Tail b ∧ ¬ Utf8IllFormed (a :: b :: rest) := by
  rw [utf8IllFormed_cons_cons]
  unfold utf8Second Utf8Tail
  split_ifs with h1 h2 h3 h4 <;>
    simp only [Has, tail, UInt8.le_iff_toNat_le, ← UInt8.toNat_inj, UInt8.reduceToNat] at * <;>
    omega

/-- A byte that is not below a bound is above the number before it. -/
theorem succ_le_of_not_le {a low next : UInt8} (h : ¬ a ≤ low)
    (hnext : next.toNat = low.toNat + 1) :
    next ≤ a := by
  rw [UInt8.le_iff_toNat_le] at *
  omega

/-- What follows its first byte in the ranges has a form. -/
theorem exists_form_of_ranges {a : UInt8} {rest : List UInt8} {ranges : List ByteRange}
    (h : utf8Ranges a = some ranges) (hrest : List.Forall₂ Has ranges rest) :
    (∃ x, Utf8Form (a :: rest) x) ∧ ¬ Utf8IllFormed (a :: rest) := by
  unfold utf8Ranges at h
  split_ifs at h with hone hstray htwo hthree hfour
  all_goals cases h
  · cases hrest
    exact ⟨⟨_, .one hone⟩, id⟩
  -- A longer form has a second byte, whose range depends on the first one.
  all_goals
    have hlow : 0xC2 ≤ a := succ_le_of_not_le hstray rfl
    rcases List.forall₂_cons_left_iff.mp hrest with ⟨b, rest₁, hb, hrest₁, rfl⟩
  · cases hrest₁
    have hsecond := (utf8Second_has_iff [] hlow (UInt8.le_trans htwo (by decide))).mp hb
    exact ⟨⟨_, .two (UInt8.le_trans (by decide) hlow) htwo hsecond.1⟩, hsecond.2⟩
  · rcases List.forall₂_cons_left_iff.mp hrest₁ with ⟨c, rest₂, hc, hrest₂, rfl⟩
    cases hrest₂
    have hsecond := (utf8Second_has_iff [c] hlow (UInt8.le_trans hthree (by decide))).mp hb
    exact ⟨⟨_, .three (succ_le_of_not_le htwo rfl) hthree hsecond.1 hc⟩, hsecond.2⟩
  · rcases List.forall₂_cons_left_iff.mp hrest₁ with ⟨c, rest₂, hc, hrest₂, rfl⟩
    rcases List.forall₂_cons_left_iff.mp hrest₂ with ⟨d, rest₃, hd, hrest₃, rfl⟩
    cases hrest₃
    have hsecond := (utf8Second_has_iff [c, d] hlow hfour).mp hb
    exact ⟨⟨_, .four (succ_le_of_not_le hthree rfl) (UInt8.le_trans hfour (by decide)) hsecond.1 hc
      hd⟩, hsecond.2⟩

theorem first_bounds {a b : UInt8} {rest : List UInt8} (h : ¬ Utf8IllFormed (a :: b :: rest)) :
    0xC2 ≤ a ∧ a ≤ 0xF4 := by
  rw [utf8IllFormed_cons_cons] at h
  simp only [UInt8.le_iff_toNat_le, UInt8.reduceToNat]
  omega

/-- And so does every form that is not ill formed. -/
theorem Utf8Form.exists_ranges {w : List UInt8} {x : Nat} (h : Utf8Form w x)
    (hformed : ¬ Utf8IllFormed w) :
    ∃ a rest ranges, w = a :: rest ∧ utf8Ranges a = some ranges ∧ List.Forall₂ Has ranges rest := by
  cases h with
  | @one a ha => exact ⟨a, [], [], rfl, if_pos ha, .nil⟩
  | @two a b _ hhigh hb =>
      rcases first_bounds hformed with ⟨hlow, hlast⟩
      have hsecond := (utf8Second_has_iff [] hlow hlast).mpr ⟨hb, hformed⟩
      exact ⟨a, [b], _, rfl, utf8Ranges_two hlow hhigh, .cons hsecond .nil⟩
  | @three a b c hlow hhigh hb hc =>
      rcases first_bounds hformed with ⟨hfirst, hlast⟩
      have hsecond := (utf8Second_has_iff [c] hfirst hlast).mpr ⟨hb, hformed⟩
      exact ⟨a, [b, c], _, rfl, utf8Ranges_three hlow hhigh, .cons hsecond (.cons hc .nil)⟩
  | @four a b c d hlow _ hb hc hd =>
      rcases first_bounds hformed with ⟨hfirst, hlast⟩
      have hsecond := (utf8Second_has_iff [c, d] hfirst hlast).mpr ⟨hb, hformed⟩
      exact ⟨a, [b, c, d], _, rfl, utf8Ranges_four hlow hlast,
        .cons hsecond (.cons hc (.cons hd .nil))⟩

/-- What follows its first byte in the ranges is the encoding of a character. -/
theorem encodes_iff {a : UInt8} {rest : List UInt8} :
    (∃ c : Char, String.utf8EncodeChar c = a :: rest) ↔
      ∃ ranges, utf8Ranges a = some ranges ∧ List.Forall₂ Has ranges rest := by
  constructor
  · intro h
    rcases h with ⟨c, hc⟩
    rcases (utf8Form_encodeChar c).exists_ranges (not_utf8IllFormed_encodeChar c) with
      ⟨a', rest', ranges, hw, hranges, hrest⟩
    rw [hc, List.cons.injEq] at hw
    rw [hw.1, hw.2]
    exact ⟨ranges, hranges, hrest⟩
  · intro h
    rcases h with ⟨ranges, hranges, hrest⟩
    rcases exists_form_of_ranges hranges hrest with ⟨⟨x, hform⟩, hformed⟩
    rcases hform.eq_encodeChar hformed with ⟨c, hc, -⟩
    exact ⟨c, hc.symm⟩

/-- A beginning of the encoding of a character, but not the whole of it. -/
def Utf8Incomplete (w : List UInt8) : Prop :=
  w ≠ [] ∧ ∃ c : Char, w <+: String.utf8EncodeChar c ∧ w ≠ String.utf8EncodeChar c

/-- A byte string that neither begins with the encoding of a character nor is the beginning
    of one. -/
def Utf8Invalid (w : List UInt8) : Prop :=
  w ≠ [] ∧ ∀ c : Char, ¬ String.utf8EncodeChar c <+: w ∧ ¬ w <+: String.utf8EncodeChar c

theorem length_encodeChar_le (c : Char) : (String.utf8EncodeChar c).length ≤ 4 := by
  rw [length_encodeChar]
  split_ifs <;> decide

theorem Utf8Incomplete.length_lt {w : List UInt8} (h : Utf8Incomplete w) : w.length < 4 := by
  rcases h with ⟨-, c, hbegins, hne⟩
  have hlt : w.length < (String.utf8EncodeChar c).length := by
    by_contra hnot
    exact hne (hbegins.eq_of_length_le (by omega))
  have hle := length_encodeChar_le c
  omega

/-- Every byte string is characters and then, if it does not end there, an incomplete one or
    none at all. -/
theorem exists_characters (text : List UInt8) :
    ∃ (chars : List Char) (rest : List UInt8), text = utf8Encode chars ++ rest ∧
      (rest = [] ∨ Utf8Incomplete rest ∨ Utf8Invalid rest) := by
  -- Characters are cut off at the front as long as there is one.
  induction hn : text.length using Nat.strongRecOn generalizing text with
  | _ n ih =>
      by_cases hnil : text = []
      · exact ⟨[], [], hnil, Or.inl rfl⟩
      by_cases hchar : ∃ c : Char, String.utf8EncodeChar c <+: text
      · rcases hchar with ⟨c, text', rfl⟩
        have hpos := List.length_pos_iff.mpr (String.utf8EncodeChar_ne_nil (c := c))
        rw [List.length_append] at hn
        rcases ih text'.length (by omega) text' rfl with ⟨chars, rest, rfl, hrest⟩
        refine ⟨c :: chars, rest, ?_, hrest⟩
        rw [utf8Encode_cons, List.append_assoc]
      · rw [not_exists] at hchar
        refine ⟨[], text, rfl, Or.inr ?_⟩
        by_cases hbegins : ∃ c : Char, text <+: String.utf8EncodeChar c
        · rcases hbegins with ⟨c, hc⟩
          refine Or.inl ⟨hnil, c, hc, fun hsame => hchar c ?_⟩
          exact ⟨[], (List.append_nil _).trans hsame.symm⟩
        · rw [not_exists] at hbegins
          exact Or.inr ⟨hnil, fun c => ⟨hchar c, hbegins c⟩⟩

/-- A beginning of a text is characters of it and then an incomplete one, if it does not end
    behind a character. -/
theorem exists_characters_of_prefix {w : List UInt8} {text : List Char}
    (h : w <+: utf8Encode text) :
    ∃ (front back : List Char) (part : List UInt8), text = front ++ back ∧
      w = utf8Encode front ++ part ∧ (part = [] ∨ Utf8Incomplete part) := by
  induction text generalizing w with
  | nil =>
      refine ⟨[], [], [], rfl, ?_, Or.inl rfl⟩
      exact List.prefix_nil.mp h
  | cons c text ih =>
      rw [utf8Encode_cons] at h
      by_cases hwhole : String.utf8EncodeChar c <+: w
      · rcases hwhole with ⟨w', rfl⟩
        rw [List.prefix_append_right_inj] at h
        rcases ih h with ⟨front, back, part, rfl, rfl, hpart⟩
        refine ⟨c :: front, back, part, rfl, ?_, hpart⟩
        rw [utf8Encode_cons, List.append_assoc]
      -- The beginning does not hold the whole of this character, so it ends within it.
      · refine ⟨[], c :: text, w, rfl, rfl, ?_⟩
        by_cases hnil : w = []
        · exact Or.inl hnil
        · have hlt : w.length ≤ (String.utf8EncodeChar c).length := by
            by_contra hnot
            exact hwhole (List.prefix_of_prefix_length_le (List.prefix_append _ _) h (by omega))
          have hprefix := List.prefix_of_prefix_length_le h (List.prefix_append _ _) hlt
          refine Or.inr ⟨hnil, c, hprefix, fun hsame => hwhole ?_⟩
          exact ⟨[], (List.append_nil _).trans hsame.symm⟩

/-- How far a text goes along with ranges. -/
inductive Filling where
  | whole
  | short
  | broken
deriving DecidableEq, Repr

/-- How far a text fills the ranges. -/
def filling : List ByteRange → List UInt8 → Filling
  | [], _ => .whole
  | _ :: _, [] => .short
  | r :: ranges, b :: text => if r.Has b then filling ranges text else .broken

/-- How a text begins, told by the ranges of its first byte. -/
def utf8Filling : List UInt8 → Filling
  | [] => .short
  | a :: text =>
    match utf8Ranges a with
    | none => .broken
    | some ranges => filling ranges text

theorem filling_append {ranges : List ByteRange} {w : List UInt8} (rest : List UInt8)
    (h : List.Forall₂ Has ranges w) : filling ranges (w ++ rest) = .whole := by
  induction h with
  | nil => rfl
  | cons hb _ ih => exact (if_pos hb).trans ih

theorem filling_prefix {ranges : List ByteRange} {w part : List UInt8}
    (h : List.Forall₂ Has ranges w) (hpart : part <+: w) (hne : part ≠ w) :
    filling ranges part = .short := by
  induction h generalizing part with
  | nil => exact absurd (List.prefix_nil.mp hpart) hne
  | @cons r b ranges w hb _ ih =>
      cases part with
      | nil => rfl
      | cons b' part =>
          rcases List.cons_prefix_cons.mp hpart with ⟨rfl, hpart'⟩
          exact (if_pos hb).trans (ih hpart' fun hsame => hne (congrArg _ hsame))

theorem exists_of_filling {ranges : List ByteRange} {text : List UInt8}
    (hranges : ∀ r ∈ ranges, r.low ≤ r.high) (h : filling ranges text ≠ .broken) :
    ∃ w, List.Forall₂ Has ranges w ∧ (w <+: text ∨ text <+: w) := by
  induction ranges generalizing text with
  | nil => exact ⟨[], .nil, Or.inl List.nil_prefix⟩
  | cons r ranges ih =>
      rw [List.forall_mem_cons] at hranges
      cases text with
      -- The lowest bytes of the ranges are put behind a text that is too short.
      | nil =>
          have hend : filling ranges [] ≠ .broken := by cases ranges <;> exact nofun
          rcases ih hranges.2 hend with ⟨w, hw, -⟩
          exact ⟨r.low :: w, .cons ⟨UInt8.le_refl _, hranges.1⟩ hw, Or.inr List.nil_prefix⟩
      | cons b text =>
          by_cases hb : r.Has b
          · rw [filling, if_pos hb] at h
            rcases ih hranges.2 h with ⟨w, hw, hprefix⟩
            refine ⟨b :: w, .cons hb hw, ?_⟩
            exact hprefix.imp (List.cons_prefix_cons.mpr ⟨rfl, ·⟩)
              (List.cons_prefix_cons.mpr ⟨rfl, ·⟩)
          · rw [filling, if_neg hb] at h
            exact absurd rfl h

theorem utf8Ranges_ordered {a : UInt8} {ranges : List ByteRange} (h : utf8Ranges a = some ranges) :
    ∀ r ∈ ranges, r.low ≤ r.high := by
  have hsecond : (utf8Second a).low ≤ (utf8Second a).high := by
    unfold utf8Second
    split_ifs <;> decide
  have htail : tail.low ≤ tail.high := by decide
  unfold utf8Ranges at h
  split_ifs at h <;> cases h <;>
    simp only [List.not_mem_nil, false_imp_iff, implies_true, List.forall_mem_cons, hsecond, htail,
      and_self]

theorem utf8Filling_append (c : Char) (rest : List UInt8) :
    utf8Filling (String.utf8EncodeChar c ++ rest) = .whole := by
  cases hw : String.utf8EncodeChar c with
  | nil => exact absurd hw String.utf8EncodeChar_ne_nil
  | cons a w =>
      rcases encodes_iff.mp ⟨c, hw⟩ with ⟨ranges, hranges, hfits⟩
      rw [List.cons_append, utf8Filling, hranges]
      exact filling_append rest hfits

theorem utf8Filling_incomplete {w : List UInt8} (h : Utf8Incomplete w) :
    utf8Filling w = .short := by
  rcases h with ⟨hnil, c, hprefix, hne⟩
  cases hw : String.utf8EncodeChar c with
  | nil => exact absurd hw String.utf8EncodeChar_ne_nil
  | cons a rest =>
      rw [hw] at hprefix hne
      cases w with
      | nil => exact absurd rfl hnil
      | cons a' part =>
          rcases List.cons_prefix_cons.mp hprefix with ⟨rfl, hpart⟩
          rcases encodes_iff.mp ⟨c, hw⟩ with ⟨ranges, hranges, hfits⟩
          rw [utf8Filling, hranges]
          exact filling_prefix hfits hpart fun hsame => hne (congrArg _ hsame)

theorem utf8Filling_invalid {w : List UInt8} (h : Utf8Invalid w) : utf8Filling w = .broken := by
  rcases h with ⟨hnil, hinvalid⟩
  cases w with
  | nil => exact absurd rfl hnil
  | cons a text =>
      rw [utf8Filling]
      cases hranges : utf8Ranges a with
      | none => rfl
      | some ranges =>
          by_contra hnot
          rcases exists_of_filling (utf8Ranges_ordered hranges) hnot with ⟨rest, hfits, hprefix⟩
          rcases encodes_iff.mpr ⟨ranges, hranges, hfits⟩ with ⟨c, hc⟩
          rcases hprefix with hprefix | hprefix
          · refine (hinvalid c).1 ?_
            rw [hc]
            exact List.cons_prefix_cons.mpr ⟨rfl, hprefix⟩
          · refine (hinvalid c).2 ?_
            rw [hc]
            exact List.cons_prefix_cons.mpr ⟨rfl, hprefix⟩

/-- A part of a character is not a text. -/
theorem Utf8Incomplete.ne_utf8Encode {w : List UInt8} (h : Utf8Incomplete w) (text : List Char) :
    w ≠ utf8Encode text := by
  rintro rfl
  cases text with
  | nil => exact h.1 rfl
  | cons c text =>
      have hshort := utf8Filling_incomplete h
      rw [utf8Encode_cons, utf8Filling_append] at hshort
      cases hshort

end CodingChallenges
