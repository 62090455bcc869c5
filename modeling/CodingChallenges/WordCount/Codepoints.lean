import CodingChallenges.WordCount.Utf8Decoder
import Mathlib.Logic.Relation

/-!
# The Code Points of an Input

What the decoder makes of an input.

The states for the first bytes E0, F0 and F4 make sure that no code point is written longer
than it needs or is too large. There is none for ED, so the surrogates, which are no
characters, are decoded too. Every other unit is the encoding of a character, which is
returned, or is replaced.

## Main definitions

* `Yields`: What repeated calls return.
* `Surrogate`, `HasSurrogate`: The encoding of a surrogate, and an input in which one is read.
* `Decoded`: What should be made of the bytes that are read.

## Theorems

* `unit_encodeChar`: The encoding of a character is a unit, and decoded to its code point.
* `decoded_unit`: What is made of the other units.
* `yields_utf8Encode`: Text is decoded.
* `exists_yields`, `Endless.decodeFrom`: Whether the calls come to an end.
* `getNextCodepoint_isValidChar_iff`: When only characters are returned.
-/

namespace CodingChallenges

namespace WordCount

open UTF8Decoder

section Units

open ByteRange

/-- Bytes that are all in their ranges are joined. -/
theorem tailCodepoint_of_has {ranges : List ByteRange} {w : List UInt8} (codepoint : Nat)
    (h : List.Forall₂ Has ranges w) :
    tailCodepoint ranges codepoint w =
      w.foldl (fun n b => n <<< 6 ||| (b.toNat &&& 0x3f)) codepoint := by
  induction h generalizing codepoint with
  | nil => rfl
  | cons hb _ ih =>
      rw [tailCodepoint, if_pos hb]
      exact ih _

theorem unitTail_of_has {ranges : List ByteRange} {w : List UInt8}
    (h : List.Forall₂ Has ranges w) : UnitTail ranges w := by
  induction h with
  | nil => exact .whole
  | cons hb _ ih => exact .more hb ih

/-- Otherwise they make the replacement character. -/
theorem UnitTail.has_or_replaced {ranges : List ByteRange} {w : List UInt8} (codepoint : Nat)
    (h : UnitTail ranges w) :
    List.Forall₂ Has ranges w ∨ tailCodepoint ranges codepoint w = utfReplacementCharacter := by
  induction h generalizing codepoint with
  | whole => exact Or.inl .nil
  | broken hb => exact Or.inr (if_neg hb)
  | more hb _ ih =>
      rw [tailCodepoint, if_pos hb]
      exact (ih _).imp (.cons hb) id

/-- The number of a form is what is made of it. -/
theorem number_eq {a : UInt8} {w : List UInt8} {x : Nat} (h : Utf8Form (a :: w) x) :
    w.foldl (fun n b => n <<< 6 ||| (b.toNat &&& 0x3f)) (firstBits a w.length) = x := by
  cases h with
  | one ha => rfl
  | two hlow hhigh hb => rfl
  | three hlow hhigh hb hc =>
      simp only [List.foldl_cons, List.foldl_nil, List.length_cons, List.length_nil, firstBits,
        Nat.shiftLeft_or_distrib, ← Nat.shiftLeft_add]
  | four hlow hhigh hb hc hd =>
      simp only [List.foldl_cons, List.foldl_nil, List.length_cons, List.length_nil, firstBits,
        Nat.shiftLeft_or_distrib, ← Nat.shiftLeft_add]

/-- The encoding of a surrogate. -/
def Surrogate (w : List UInt8) : Prop :=
  ∃ b c, w = [0xED, b, c] ∧ 0xA0 ≤ b ∧ b ≤ 0xBF ∧ Utf8Tail c

/-- What is in the ranges of UTF-8 is in those of the decoder. -/
theorem expected_of_ranges {a : UInt8} {w : List UInt8} {ranges : List ByteRange}
    (h : utf8Ranges a = some ranges) (hw : List.Forall₂ Has ranges w) :
    ∃ ranges', expected a = some ranges' ∧ List.Forall₂ Has ranges' w := by
  by_cases hsurrogate : a = 0xED
  -- The decoder lets more bytes follow ED than UTF-8 does.
  · subst hsurrogate
    cases h
    rcases List.forall₂_cons_left_iff.mp hw with ⟨b, w', hb, hw', rfl⟩
    have htail : tail.Has b := ⟨hb.1, UInt8.le_trans hb.2 (by decide)⟩
    exact ⟨[tail, tail], rfl, .cons htail hw'⟩
  · exact ⟨ranges, (if_neg hsurrogate).trans h, hw⟩

/-- What is in the ranges of the decoder is in those of UTF-8, but for a surrogate. -/
theorem ranges_of_expected {a : UInt8} {w : List UInt8} {ranges : List ByteRange}
    (h : expected a = some ranges) (hw : List.Forall₂ Has ranges w) (hs : ¬ Surrogate (a :: w)) :
    ∃ ranges', utf8Ranges a = some ranges' ∧ List.Forall₂ Has ranges' w := by
  by_cases hsurrogate : a = 0xED
  · subst hsurrogate
    cases h
    rcases List.forall₂_cons_left_iff.mp hw with ⟨b, w₁, hb, hw₁, rfl⟩
    rcases List.forall₂_cons_left_iff.mp hw₁ with ⟨c, w₂, hc, hw₂, rfl⟩
    cases hw₂
    have hlow : b ≤ 0x9F := by
      by_contra hnot
      exact hs ⟨b, c, rfl, succ_le_of_not_le hnot rfl, hb.2, hc⟩
    exact ⟨[⟨0x80, 0x9F⟩, tail], rfl, .cons ⟨hb.1, hlow⟩ hw₁⟩
  · exact ⟨ranges, (if_neg hsurrogate).symm.trans h, hw⟩

/-- Bytes in the ranges of the decoder are a unit, and decoded to the number of their form. -/
theorem unit_of_form {a : UInt8} {w : List UInt8} {ranges : List ByteRange} {x : Nat}
    (h : expected a = some ranges) (hw : List.Forall₂ Has ranges w) (hform : Utf8Form (a :: w) x) :
    IsUnit (a :: w) ∧ unitCodepoint (a :: w) = x := by
  refine ⟨.lead h (unitTail_of_has hw), ?_⟩
  rw [unitCodepoint, h]
  simp only
  rw [tailCodepoint_of_has _ hw, hw.length_eq, number_eq hform]

/-- The encoding of a character is a unit, and decoded to its code point. -/
theorem unit_encodeChar (c : Char) :
    IsUnit (String.utf8EncodeChar c) ∧ unitCodepoint (String.utf8EncodeChar c) = c.toNat := by
  have hform := utf8Form_encodeChar c
  rcases hform.exists_ranges (not_utf8IllFormed_encodeChar c) with
    ⟨a, w, ranges, hsplit, hranges, hfits⟩
  rcases expected_of_ranges hranges hfits with ⟨ranges', hexpected, hw⟩
  rw [hsplit] at hform ⊢
  exact unit_of_form hexpected hw hform

/-- A surrogate is decoded to its number, which is not that of a character. -/
theorem Surrogate.not_isValidChar {w : List UInt8} (h : Surrogate w) :
    IsUnit w ∧ ¬ (unitCodepoint w).isValidChar := by
  rcases h with ⟨b, c, rfl, hlow, hhigh, hc⟩
  have hb : Utf8Tail b := ⟨UInt8.le_trans (by decide) hlow, hhigh⟩
  have hform := Utf8Form.three (a := 0xED) (by decide) (by decide) hb hc
  have hexpected : expected 0xED = some [tail, tail] := rfl
  rcases unit_of_form hexpected (.cons hb (.cons hc .nil)) hform with
    ⟨hunit, hnumber⟩
  refine ⟨hunit, ?_⟩
  rw [hnumber]
  -- Only a form of three bytes has this first byte, and its number is below E000.
  rcases hform.number with ⟨_, hw, -⟩ | ⟨_, _, hw, -⟩ | ⟨a', b', c', hw, ha, hb', hc', hmax⟩ |
    ⟨_, _, _, _, hw, -⟩
  · cases hw
  · cases hw
  · cases hw
    rw [UInt8.le_iff_toNat_le] at hlow
    have hed : (0xED : UInt8).toNat = 0xED := rfl
    have ha0 : (0xA0 : UInt8).toNat = 0xA0 := rfl
    unfold Nat.isValidChar
    omega
  · cases hw

/-- What should be made of the bytes that are read: the character that they encode, or the
    replacement character if they encode none. -/
def Decoded (w : List UInt8) (x : Nat) : Prop :=
  (∃ c : Char, w = String.utf8EncodeChar c ∧ x = c.toNat) ∨
    (¬ ∃ c : Char, w = String.utf8EncodeChar c) ∧ x = utfReplacementCharacter

/-- Every unit but the encoding of a surrogate is decoded as it should. -/
theorem decoded_unit {w : List UInt8} (h : IsUnit w) (hs : ¬ Surrogate w) :
    Decoded w (unitCodepoint w) := by
  by_cases hchar : ∃ c : Char, w = String.utf8EncodeChar c
  · rcases hchar with ⟨c, rfl⟩
    exact Or.inl ⟨c, rfl, (unit_encodeChar c).2⟩
  · refine Or.inr ⟨hchar, ?_⟩
    cases h with
    | stray ha => rw [unitCodepoint, ha]
    | @lead a ranges w ha hw =>
        rcases hw.has_or_replaced (firstBits a ranges.length) with hfits | hcodepoint
        · rcases ranges_of_expected ha hfits hs with ⟨ranges', hranges, hfits'⟩
          rcases encodes_iff.mpr ⟨ranges', hranges, hfits'⟩ with ⟨c, hc⟩
          exact absurd ⟨c, hc.symm⟩ hchar
        · rw [unitCodepoint, ha]
          exact hcodepoint

theorem Decoded.isValidChar {w : List UInt8} {x : Nat} (h : Decoded w x) : x.isValidChar := by
  rcases h with ⟨c, -, rfl⟩ | ⟨-, rfl⟩
  · exact c.valid
  · decide

end Units

section Input

variable {input : List UInt8}

/-- What is read is found in the input, from the front again behind its first 2^32 bytes. -/
theorem reads_iff (input : List UInt8) (k : Nat) (w : List UInt8) (d : UTF8Decoder) :
    Reads ⟨input, k % 2 ^ 32⟩ w d ↔
      d = ⟨input, (k + w.length) % 2 ^ 32⟩ ∧
        ∀ i < w.length, w[i]? = input[(k + i) % 2 ^ 32]? := by
  induction w generalizing k with
  | nil => exact (and_iff_left fun i hi => absurd hi (Nat.not_lt_zero i)).symm
  | cons c w ih =>
      have hnext : (k % 2 ^ 32 + 1) % 2 ^ 32 = (k + 1) % 2 ^ 32 := Nat.mod_add_mod k (2 ^ 32) 1
      have hlength : k + 1 + w.length = k + (c :: w).length := by
        rw [List.length_cons]
        omega
      rw [Reads, getNextCharacter]
      -- The first byte is read at the index, and the others behind it.
      cases hread : input[k % 2 ^ 32]? with
      | none =>
          simp only
          refine iff_of_false (fun h => by rcases h with ⟨_, h, -⟩; cases h) fun h => ?_
          have hfirst := h.2 0 (Nat.succ_pos _)
          rw [Nat.add_zero, hread] at hfirst
          cases hfirst
      | some b =>
          simp only [hnext, Option.some.injEq, Prod.mk.injEq]
          constructor
          · rintro ⟨_, ⟨rfl, rfl⟩, hreads⟩
            rcases (ih (k + 1)).mp hreads with ⟨hd, hrest⟩
            rw [hlength] at hd
            refine ⟨hd, fun i hi => ?_⟩
            cases i with
            | zero =>
                rw [Nat.add_zero, hread]
                rfl
            | succ i =>
                have hi' := hrest i (Nat.lt_of_succ_lt_succ hi)
                rw [Nat.add_assoc, Nat.add_comm 1] at hi'
                exact hi'
          · rintro ⟨hd, hall⟩
            have hfirst := hall 0 (Nat.succ_pos _)
            rw [Nat.add_zero, hread] at hfirst
            refine ⟨_, ⟨(Option.some.inj hfirst).symm, rfl⟩, (ih (k + 1)).mpr ⟨?_, fun i hi => ?_⟩⟩
            · rw [hlength]
              exact hd
            · have hi' := hall (i + 1) (Nat.succ_lt_succ hi)
              rw [Nat.add_assoc, Nat.add_comm 1]
              exact hi'

/-- Of an input that is not too long every part is read where it is. -/
theorem reads_part {front w back : List UInt8} (hinput : input = front ++ w ++ back)
    (hlength : input.length < 2 ^ 32) :
    Reads ⟨input, front.length⟩ w ⟨input, (front ++ w).length⟩ := by
  have htotal : front.length + w.length + back.length < 2 ^ 32 := by
    rw [hinput, List.length_append, List.length_append] at hlength
    exact hlength
  have hreads := (reads_iff input front.length w
    ⟨input, (front.length + w.length) % 2 ^ 32⟩).mpr ⟨rfl, fun i hi => ?_⟩
  · rw [Nat.mod_eq_of_lt (by omega), Nat.mod_eq_of_lt (by omega), ← List.length_append] at hreads
    exact hreads
  · rw [Nat.mod_eq_of_lt (by omega), hinput, List.append_assoc,
      List.getElem?_append_right (Nat.le_add_right _ _), Nat.add_sub_cancel_left,
      List.getElem?_append_left hi]

theorem reads_append (d d'' : UTF8Decoder) (u w : List UInt8) :
    Reads d (u ++ w) d'' ↔ ∃ d', Reads d u d' ∧ Reads d' w d'' := by
  induction u generalizing d with
  | nil => exact ⟨fun h => ⟨d, rfl, h⟩, fun ⟨d', hd, h⟩ => hd ▸ h⟩
  | cons c u ih =>
      rw [List.cons_append, Reads]
      constructor
      · rintro ⟨d₁, hread, hreads⟩
        rcases (ih d₁).mp hreads with ⟨d', hu, hw⟩
        exact ⟨d', ⟨d₁, hread, hu⟩, hw⟩
      · rintro ⟨d', ⟨d₁, hread, hu⟩, hw⟩
        exact ⟨d₁, hread, (ih d₁).mpr ⟨d', hu, hw⟩⟩

/-- Repeated calls return these code points, and then `false`. -/
inductive Yields : UTF8Decoder → List Nat → Prop
  | done {d : UTF8Decoder} : getNextCodepoint d = none → Yields d []
  | more {d d' : UTF8Decoder} {x : Nat} {codepoints : List Nat} :
      getNextCodepoint d = some (x, d') → Yields d' codepoints → Yields d (x :: codepoints)

theorem Yields.unique {d : UTF8Decoder} {xs ys : List Nat} (hx : Yields d xs) (hy : Yields d ys) :
    xs = ys := by
  induction hx generalizing ys with
  | done hnone =>
      cases hy with
      | done _ => rfl
      | more hsome _ =>
          rw [hnone] at hsome
          cases hsome
  | more hsome _ ih =>
      cases hy with
      | done hnone =>
          rw [hnone] at hsome
          cases hsome
      | more hsome' hrest =>
          rw [hsome] at hsome'
          cases hsome'
          exact congrArg _ (ih hrest)

theorem getNextCodepoint_end : getNextCodepoint ⟨input, input.length⟩ = none := by
  have hread : getNextCharacter ⟨input, input.length⟩ = none := by
    rw [getNextCharacter, List.getElem?_eq_none (Nat.le_refl _)]
  rw [getNextCodepoint, decodeFrom_none hread]

/-- The rest of a text is decoded to its code points. -/
theorem yields_rest (front : List UInt8) {text : List Char}
    (hinput : input = front ++ utf8Encode text) (hlength : input.length < 2 ^ 32) :
    Yields ⟨input, front.length⟩ (text.map Char.toNat) := by
  induction text generalizing front with
  | nil =>
      have hfront : front.length = input.length := by
        rw [hinput, utf8Encode, List.flatMap_nil, List.append_nil]
      rw [hfront]
      exact .done getNextCodepoint_end
  | cons c text ih =>
      rw [utf8Encode_cons, ← List.append_assoc] at hinput
      have hunit := unit_encodeChar c
      refine .more (getNextCodepoint_eq_some_iff.mpr
        ⟨_, hunit.1, reads_part hinput hlength, hunit.2.symm⟩) (ih _ hinput)

theorem length_utf8Encode_le (text : List Char) : (utf8Encode text).length ≤ 4 * text.length := by
  induction text with
  | nil => exact Nat.le_refl 0
  | cons c text ih =>
      have hc := length_encodeChar_le c
      rw [utf8Encode_cons, List.length_append, List.length_cons]
      omega

/-- Text is decoded to its code points. -/
theorem yields_utf8Encode {text : List Char} (h : text.length < 2 ^ 30) :
    Yields (UTF8Decoder.new (utf8Encode text)) (text.map Char.toNat) := by
  have hlength := length_utf8Encode_le text
  exact yields_rest [] rfl (by omega)

/-- Bytes are read up to the end of an input that is not too long. -/
theorem Reads.index {w : List UInt8} {k : Nat} {d : UTF8Decoder} (h : Reads ⟨input, k⟩ w d)
    (hlength : input.length < 2 ^ 32) (hk : k ≤ input.length) :
    d = ⟨input, k + w.length⟩ ∧ k + w.length ≤ input.length := by
  induction w generalizing k with
  | nil => exact ⟨h, hk⟩
  | cons c w ih =>
      rcases h with ⟨d', hread, hrest⟩
      rw [getNextCharacter] at hread
      cases hc : input[k]? with
      | none =>
          rw [hc] at hread
          cases hread
      | some b =>
          have hlt : k < input.length := (List.getElem?_eq_some_iff.mp hc).1
          simp only [hc, Option.some.injEq, Prod.mk.injEq] at hread
          rcases hread with ⟨rfl, rfl⟩
          rw [Nat.mod_eq_of_lt (by omega)] at hrest
          rw [List.length_cons, Nat.add_comm w.length, ← Nat.add_assoc]
          exact ih hrest hlt

/-- An input that is not too long is decoded to code points, no more than it has bytes. -/
theorem exists_yields (hlength : input.length < 2 ^ 32) (k : Nat) (hk : k ≤ input.length) :
    ∃ codepoints, Yields ⟨input, k⟩ codepoints ∧ k + codepoints.length ≤ input.length := by
  -- A unit is not empty, so each call leaves less of the input.
  induction hn : input.length - k using Nat.strongRecOn generalizing k with
  | _ n ih =>
      cases hnext : getNextCodepoint ⟨input, k⟩ with
      | none => exact ⟨[], .done hnext, hk⟩
      | some next =>
          rcases next with ⟨x, d⟩
          rcases getNextCodepoint_eq_some_iff.mp hnext with ⟨w, hw, hreads, -⟩
          have hpos := List.length_pos_iff.mpr hw.ne_nil
          rcases hreads.index hlength hk with ⟨rfl, hend⟩
          rcases ih (input.length - (k + w.length)) (by omega) _ hend rfl with
            ⟨codepoints, hyields, hcount⟩
          refine ⟨x :: codepoints, .more hnext hyields, ?_⟩
          rw [List.length_cons]
          omega

/-- The index never comes to the end of the input. -/
def Endless (d : UTF8Decoder) : Prop :=
  2 ^ 32 ≤ d.buffer.length ∧ d.bufferIndex < 2 ^ 32

theorem endless_new (hlength : 2 ^ 32 ≤ input.length) : Endless (UTF8Decoder.new input) :=
  ⟨hlength, Nat.two_pow_pos 32⟩

theorem Endless.getNextCharacter {d : UTF8Decoder} (h : Endless d) :
    ∃ c d', d.getNextCharacter = some (c, d') ∧ Endless d' := by
  have hlt : d.bufferIndex < d.buffer.length := Nat.lt_of_lt_of_le h.2 h.1
  refine ⟨d.buffer[d.bufferIndex], { d with bufferIndex := (d.bufferIndex + 1) % 2 ^ 32 }, ?_,
    ⟨h.1, Nat.mod_lt _ (Nat.two_pow_pos 32)⟩⟩
  rw [UTF8Decoder.getNextCharacter, List.getElem?_eq_getElem hlt]

/-- So there is always another code point. -/
theorem Endless.decodeFrom {d : UTF8Decoder} (state codepoint : Nat) (h : Endless d) :
    ∃ x d', WordCount.decodeFrom d state codepoint = some (x, d') ∧ Endless d' := by
  induction d, state, codepoint using WordCount.decodeFrom.induct with
  | case1 d state codepoint hread =>
      rcases h.getNextCharacter with ⟨c, d', hsome, -⟩
      rw [hread] at hsome
      cases hsome
  | case2 d state codepoint c d' hread next hnext ih =>
      rcases h.getNextCharacter with ⟨c', d'', hsome, h'⟩
      rw [hread] at hsome
      cases hsome
      rw [decodeFrom_next hread rfl hnext]
      exact ih h'
  -- The code point ends here, or is replaced.
  | case3 d state codepoint c d' hread next hnext =>
      rcases h.getNextCharacter with ⟨c', d'', hsome, h'⟩
      rw [hread] at hsome
      cases hsome
      rw [WordCount.decodeFrom, hread]
      exact ⟨_, d', if_neg hnext, h'⟩

/-- One call that returns a code point. -/
def Called (d d' : UTF8Decoder) : Prop :=
  ∃ x, getNextCodepoint d = some (x, d')

/-- What is read by a number of calls is so many units. -/
theorem called_iff (d d' : UTF8Decoder) :
    Relation.ReflTransGen Called d d' ↔
      ∃ units : List (List UInt8), (∀ u ∈ units, IsUnit u) ∧ Reads d units.flatten d' := by
  constructor
  · intro h
    induction h with
    | refl => exact ⟨[], fun _ hu => absurd hu List.not_mem_nil, rfl⟩
    | tail _ hcall ih =>
        rcases ih with ⟨units, hunits, hreads⟩
        rcases hcall with ⟨x, hx⟩
        rcases getNextCodepoint_eq_some_iff.mp hx with ⟨w, hw, hreads', -⟩
        refine ⟨units ++ [w], List.forall_mem_append.mpr ⟨hunits, ?_⟩, ?_⟩
        · exact List.forall_mem_singleton.mpr hw
        · rw [List.flatten_append, List.flatten_singleton]
          exact (reads_append _ _ _ _).mpr ⟨_, hreads, hreads'⟩
  · rintro ⟨units, hunits, hreads⟩
    -- One call reads the first unit, and the others read the rest.
    induction units generalizing d with
    | nil =>
        rw [show d' = d from hreads]
    | cons u units ih =>
        rw [List.forall_mem_cons] at hunits
        rw [List.flatten_cons] at hreads
        rcases (reads_append _ _ _ _).mp hreads with ⟨d₁, hu, hrest⟩
        exact .head ⟨_, getNextCodepoint_eq_some_iff.mpr ⟨u, hunits.1, hu, rfl⟩⟩
          (ih d₁ hunits.2 hrest)

/-- A beginning of what is read of an input. Behind 2^32 bytes it is read from the front
    again, as the index has 32 bits. -/
def IsRead (input w : List UInt8) : Prop :=
  ∀ i < w.length, w[i]? = input[i % 2 ^ 32]?

/-- A surrogate is read: what is read begins with units and then the encoding of one. -/
def HasSurrogate (input : List UInt8) : Prop :=
  ∃ (units : List (List UInt8)) (w : List UInt8),
    (∀ u ∈ units, IsUnit u) ∧ Surrogate w ∧ IsRead input (units.flatten ++ w)

theorem isRead_iff (w : List UInt8) :
    IsRead input w ↔ ∃ d, Reads (UTF8Decoder.new input) w d := by
  have hreads := fun d => reads_iff input 0 w d
  simp only [Nat.zero_mod, Nat.zero_add] at hreads
  constructor
  · intro h
    exact ⟨_, (hreads _).mpr ⟨rfl, h⟩⟩
  · rintro ⟨d, hd⟩
    exact ((hreads d).mp hd).2

/-- Whatever the input is: every value that any call returns is a character, the one that was
    read or the replacement character for bytes that encode none, exactly if no surrogate is
    read. -/
theorem getNextCodepoint_isValidChar_iff (input : List UInt8) :
    (∀ d, Relation.ReflTransGen Called (UTF8Decoder.new input) d →
      ∀ x d', getNextCodepoint d = some (x, d') →
        x.isValidChar ∧ ∃ w, Reads d w d' ∧ Decoded w x) ↔ ¬ HasSurrogate input := by
  constructor
  · rintro h ⟨units, w, hunits, hw, hread⟩
    rcases (isRead_iff _).mp hread with ⟨d', hreads⟩
    rcases (reads_append _ _ _ _).mp hreads with ⟨d, hbefore, hsurrogate⟩
    have hunit := hw.not_isValidChar
    have hreturned := h d ((called_iff _ _).mpr ⟨units, hunits, hbefore⟩) _ _
      (getNextCodepoint_eq_some_iff.mpr ⟨w, hunit.1, hsurrogate, rfl⟩)
    exact hunit.2 hreturned.1
  · intro h d hcalled x d' hx
    rcases (called_iff _ _).mp hcalled with ⟨units, hunits, hbefore⟩
    rcases getNextCodepoint_eq_some_iff.mp hx with ⟨w, hw, hreads, rfl⟩
    -- What the calls before have read are units, so a surrogate here is one of the input.
    have hs : ¬ Surrogate w := by
      intro hs
      refine h ⟨units, w, hunits, hs, (isRead_iff _).mpr ⟨d', ?_⟩⟩
      exact (reads_append _ _ _ _).mpr ⟨d, hbefore, hreads⟩
    have hdecoded := decoded_unit hw hs
    exact ⟨hdecoded.isValidChar, w, hreads, hdecoded⟩

/-- The surrogate D800. -/
theorem not_getNextCodepoint_isValidChar :
    ¬ ∀ input d, Relation.ReflTransGen Called (UTF8Decoder.new input) d →
      ∀ x d', getNextCodepoint d = some (x, d') →
        x.isValidChar ∧ ∃ w, Reads d w d' ∧ Decoded w x := by
  intro h
  have hvalid := h [0xED, 0xA0, 0x80] _ .refl 0xD800 ⟨[0xED, 0xA0, 0x80], 3⟩ (by decide +kernel)
  exact absurd hvalid.1 (by decide)

end Input

end WordCount

end CodingChallenges
