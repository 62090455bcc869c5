import CodingChallenges.Grep.FixedString

/-!
# Decoding a Line

Which lines the decoder accepts, and what it makes of them.

The decoder looks at a first byte for the number of bytes that belong to it,
and at those only for being continuation bytes. So it takes exactly the lines
that are made of `Utf8Form`s, each of them for its number. This is more than
UTF-8, since not every form is the encoding of a character.

The forms of a line are the only ones it can be split into. A line with an
ill-formed one is therefore not the encoding of any text, and a line without is
the encoding of the text that the decoder finds in it.

## Main definitions

* `HasIllFormedUnit`: A line of forms, one of which encodes no character.

## Theorems

* `convertToU32String_eq_some_iff`: The lines that are decoded.
* `forms_unique`: A line is made of forms in one way only.
* `convertToU32String_utf8_iff`: The lines on which the decoder is right.
-/

namespace CodingChallenges

namespace Grep

/-- The line is made of forms, and one of them is the encoding of no
    character. -/
def HasIllFormedUnit (line : List Byte) : Prop :=
  ∃ units : List (List Byte), line = units.flatten ∧ (∀ w ∈ units, ∃ x, Utf8Form w x) ∧
    ∃ w ∈ units, Utf8IllFormed w

/-- The decoder accepts exactly the lines that are made of forms. -/
theorem convertToU32String_eq_some_iff {line : List Byte} {out : List Nat} :
    convertToU32String line = some out ↔
      ∃ units, List.Forall₂ Utf8Form units out ∧ line = units.flatten := by
  constructor
  · intro h
    -- The induction is on the line, which each code point shortens.
    induction hn : line.length using Nat.strong_induction_on generalizing line out with
    | _ n ih =>
        cases line with
        | nil =>
            cases h
            exact ⟨[], .nil, rfl⟩
        | cons c text =>
            cases hparse : parseChar (c :: text) with
            | error e =>
                rw [convertToU32String_of_error hparse] at h
                cases h
            | ok value =>
                rcases value with ⟨x, rest⟩
                have hless := parseChar_sound.length_lt hparse
                rw [convertToU32String_of_parseChar hparse] at h
                rcases Option.map_eq_some_iff.mp h with ⟨more, hmore, rfl⟩
                rcases ih rest.length (by omega) hmore rfl with ⟨units, hforms, hrest⟩
                -- The code point takes one form off the front.
                rcases parseChar_form hparse with ⟨w, hline, hw⟩
                exact ⟨w :: units, .cons hw hforms, by rw [hline, hrest, List.flatten_cons]⟩
  · rintro ⟨units, hforms, rfl⟩
    induction hforms with
    | nil => rfl
    | @cons w x units out hw hforms ih =>
        rw [List.flatten_cons, convertToU32String_of_parseChar (parseChar_of_form hw _), ih]
        rfl

/-- No form is the beginning of another. -/
theorem form_unique {w w' rest rest' : List Byte} {x x' : Nat} (h : Utf8Form w x)
    (h' : Utf8Form w' x') (heq : w ++ rest = w' ++ rest') : w = w' ∧ x = x' ∧ rest = rest' := by
  have hparse := parseChar_of_form h rest
  rw [heq, parseChar_of_form h' rest'] at hparse
  cases hparse
  exact ⟨List.append_cancel_right heq, rfl, rfl⟩

/-- There is one way only to split a line into forms. -/
theorem forms_unique {units units' : List (List Byte)} {out out' : List Nat}
    (h : List.Forall₂ Utf8Form units out) (h' : List.Forall₂ Utf8Form units' out')
    (heq : units.flatten = units'.flatten) : units = units' := by
  have hne : ∀ {w : List Byte} {x : Nat} (rest : List Byte), Utf8Form w x → w ++ rest ≠ [] := by
    intro w x rest hw hnil
    rcases hw.first with ⟨a, tail, rfl, -⟩
    cases hnil
  induction h generalizing units' out' with
  | nil =>
      cases h' with
      | nil => rfl
      | cons hw' _ => exact absurd heq.symm (hne _ hw')
  | cons hw _ ih =>
      cases h' with
      | nil => exact absurd heq (hne _ hw)
      | cons hw' hforms' =>
          rw [List.flatten_cons, List.flatten_cons] at heq
          rcases form_unique hw hw' heq with ⟨rfl, -, hrest⟩
          rw [ih hforms' hrest]

theorem exists_forms_iff {units : List (List Byte)} :
    (∃ out, List.Forall₂ Utf8Form units out) ↔ ∀ w ∈ units, ∃ x, Utf8Form w x := by
  induction units with
  | nil => exact iff_of_true ⟨[], .nil⟩ fun w hw => absurd hw List.not_mem_nil
  | cons w units ih =>
      rw [List.forall_mem_cons, ← ih]
      constructor
      · rintro ⟨_, _ | ⟨hw, hforms⟩⟩
        exact ⟨⟨_, hw⟩, ⟨_, hforms⟩⟩
      · rintro ⟨⟨x, hw⟩, ⟨out, hforms⟩⟩
        exact ⟨x :: out, .cons hw hforms⟩

/-- The forms of the encoding of a text. -/
theorem forms_utf8Encode (text : List Char) :
    List.Forall₂ Utf8Form (text.map String.utf8EncodeChar) (codePoints text) := by
  induction text with
  | nil => exact .nil
  | cons c text ih => exact .cons (utf8Form_encodeChar c) ih

/-- Forms that are not ill formed encode a text. -/
theorem text_of_forms {units : List (List Byte)} {out : List Nat}
    (h : List.Forall₂ Utf8Form units out) (hformed : ∀ w ∈ units, ¬ Utf8IllFormed w) :
    ∃ text : List Char, units.flatten = utf8Encode text ∧ out = codePoints text := by
  induction h with
  | nil => exact ⟨[], rfl, rfl⟩
  | @cons w x units out hw _ ih =>
      -- A form that is not ill formed encodes a character.
      rcases hw.eq_encodeChar (hformed w List.mem_cons_self) with ⟨c, hc, rfl⟩
      rcases ih fun v hv => hformed v (List.mem_cons_of_mem w hv) with ⟨text, htext, rfl⟩
      exact ⟨c :: text, by rw [List.flatten_cons, htext, hc, utf8Encode_cons], rfl⟩

/-- The decoder accepts a line exactly if it is the encoding of a text, and
    then finds the text's code points, unless the line is made of forms one of
    which is ill formed: such a line is accepted as well. -/
theorem convertToU32String_utf8_iff (line : List Byte) :
    (∀ out, convertToU32String line = some out ↔
      ∃ text : List Char, line = utf8Encode text ∧ out = codePoints text) ↔
    ¬ HasIllFormedUnit line := by
  constructor
  · rintro h ⟨units, hline, hforms, w, hw, hill⟩
    rcases exists_forms_iff.mpr hforms with ⟨out, hout⟩
    rcases (h out).mp (convertToU32String_eq_some_iff.mpr ⟨units, hout, hline⟩) with
      ⟨text, htext, -⟩
    -- The line would be split into the encodings of characters.
    have hunits := forms_unique hout (forms_utf8Encode text)
      (hline.symm.trans (htext.trans List.flatMap_def))
    rw [hunits] at hw
    rcases List.mem_map.mp hw with ⟨c, -, rfl⟩
    exact not_utf8IllFormed_encodeChar c hill
  · intro hwell out
    constructor
    · intro h
      rcases convertToU32String_eq_some_iff.mp h with ⟨units, hforms, hline⟩
      have hunits := exists_forms_iff.mp ⟨out, hforms⟩
      have hformed : ∀ w ∈ units, ¬ Utf8IllFormed w := fun w hw hill =>
        hwell ⟨units, hline, hunits, w, hw, hill⟩
      rcases text_of_forms hforms hformed with ⟨text, htext, hcodes⟩
      exact ⟨text, hline.trans htext, hcodes⟩
    · rintro ⟨text, rfl, rfl⟩
      exact convertToU32String_utf8Encode text

/-- An overlong form of the character zero is decoded. -/
theorem convertToU32String_not_utf8 :
    ¬ ∀ (line : List Byte) (out : List Nat), convertToU32String line = some out ↔
      ∃ text : List Char, line = utf8Encode text ∧ out = codePoints text := by
  intro h
  rcases (h [0xC0, 0x80] [0]).mp rfl with ⟨text, hline, hcodes⟩
  have hforms : List.Forall₂ Utf8Form [[0xC0, 0x80]] [0] :=
    .cons (.two (a := 0xC0) (b := 0x80) (by decide) (by decide) (by unfold Utf8Tail; decide)) .nil
  have hunits := forms_unique hforms (forms_utf8Encode text) (hline.trans List.flatMap_def)
  have hmem : [0xC0, 0x80] ∈ text.map String.utf8EncodeChar := hunits ▸ List.mem_cons_self
  rcases List.mem_map.mp hmem with ⟨c, -, hc⟩
  exact not_utf8IllFormed_encodeChar c (hc ▸ Or.inl (by decide))

end Grep

end CodingChallenges
