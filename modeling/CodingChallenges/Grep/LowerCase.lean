import CodingChallenges.Grep.Relabel
import CodingChallenges.Grep.Tool

/-!
# Lower-Casing Patterns

What lower-casing the bytes of a pattern does to its tree.

The tool lower-cases the text of the pattern before it is parsed, so the letters
of escapes change along with the letters to be matched. Most constructs are
spelled without letters, and the parser reads them off the lower-cased text as
it does off the text itself (`parseQuantifier_lower`, `parseChar_lower`). An
escape may turn into another one. Where no escape does, and where the
lower-cased text has no bracket group or unicode category that the text has
not, the parser goes through both texts in step, and the second tree is the
first one with its letters lower-cased (`parseRegex_lower`).

`InStep` is what that induction carries from the parser of expressions to the
parsers that call it.

## Main definitions

* `lowering`: What becomes of the leaves of a tree.
* `noClasses`: There are no bracket groups and no unicode categories.
* `keepsCase`: There are no escapes that lower-casing turns into others.
* `LowersInStep`: A parser goes through both texts in step.

## Theorems

* `parseQuantifier_lower`, `parseChar_lower`: Parsing what is spelled without
  letters, and single characters.
* `parseMatchItem_lower`, `parseSubExpressionItem_lower`: Leaves and items.
* `parseRegex_lower`: The tree of a lower-cased pattern.
-/

namespace CodingChallenges

namespace Grep

/-- `std::tolower` on code points. -/
def lowerCodePoint (c : Nat) : Nat :=
  if codePoint 'A' ≤ c ∧ c ≤ codePoint 'Z' then c + 32 else c

section Bytes

variable {b c : Byte}

/-- A capital letter moves up, and every other byte stays. -/
theorem toLower_cases (c : Byte) :
    (65 ≤ c.toNat ∧ c.toNat ≤ 90 ∧ (toLower c).toNat = c.toNat + 32) ∨
      (¬ (65 ≤ c.toNat ∧ c.toNat ≤ 90) ∧ toLower c = c) := by
  have hlow : (byte 'A').toNat = 65 := rfl
  have hhigh : (byte 'Z').toNat = 90 := rfl
  have hshift : (32 : Byte).toNat = 32 := rfl
  unfold toLower
  simp only [UInt8.le_iff_toNat_le, hlow, hhigh]
  by_cases h : 65 ≤ c.toNat ∧ c.toNat ≤ 90
  · refine Or.inl ⟨h.1, h.2, ?_⟩
    rw [if_pos h, UInt8.toNat_add, hshift]
    omega
  · refine Or.inr ⟨h, ?_⟩
    rw [if_neg h]

theorem toNat_toLower (c : Byte) : (toLower c).toNat = lowerCodePoint c.toNat := by
  have hlow : codePoint 'A' = 65 := rfl
  have hhigh : codePoint 'Z' = 90 := rfl
  unfold lowerCodePoint
  rw [hlow, hhigh]
  rcases toLower_cases c with ⟨hge, hle, hlower⟩ | ⟨hno, hsame⟩
  · rw [if_pos ⟨hge, hle⟩, hlower]
  · rw [if_neg hno, hsame]

theorem isLetter_iff :
    isLetter b = true ↔ (97 ≤ b.toNat ∧ b.toNat ≤ 122) ∨ (65 ≤ b.toNat ∧ b.toNat ≤ 90) := by
  unfold isLetter
  simp only [Bool.or_eq_true, Bool.and_eq_true, decide_eq_true_eq, UInt8.le_iff_toNat_le]
  exact Iff.rfl

/-- Lower-casing yields no byte but letters that was not there before. -/
theorem toLower_eq_iff (h : isLetter b = false) : toLower c = b ↔ c = b := by
  have hno := mt isLetter_iff.mpr (by rw [h]; exact Bool.false_ne_true)
  rcases toLower_cases c with ⟨hge, hle, hlower⟩ | ⟨-, hsame⟩
  · refine iff_of_false (fun heq => ?_) (fun heq => ?_)
    · rw [heq] at hlower
      omega
    · rw [heq] at hge hle
      omega
  · rw [hsame]

/-- Lower-casing moves within the letters, so a class of bytes that has no
    letters, or is defined by bounds outside them, is kept. -/
theorem toLower_range (low high : Nat) (hlow : low ≤ 65 ∨ 122 < low)
    (hhigh : high < 65 ∨ 122 ≤ high) :
    (low ≤ (toLower c).toNat ∧ (toLower c).toNat ≤ high) ↔ (low ≤ c.toNat ∧ c.toNat ≤ high) := by
  rcases toLower_cases c with ⟨hge, hle, hlower⟩ | ⟨-, hsame⟩
  · omega
  · rw [hsame]

theorem toLower_of_not_letter (h : isLetter c = false) : toLower c = c :=
  (toLower_eq_iff h).mpr rfl

theorem isDecimalDigit_iff : isDecimalDigit c = true ↔ 48 ≤ c.toNat ∧ c.toNat ≤ 57 := by
  unfold isDecimalDigit
  simp only [Bool.and_eq_true, decide_eq_true_eq, UInt8.le_iff_toNat_le]
  exact Iff.rfl

theorem isDecimalDigit_toLower (c : Byte) : isDecimalDigit (toLower c) = isDecimalDigit c := by
  rw [Bool.eq_iff_iff, isDecimalDigit_iff, isDecimalDigit_iff]
  exact toLower_range 48 57 (by omega) (by omega)

theorem toLower_of_isDecimalDigit (h : isDecimalDigit c = true) : toLower c = c := by
  rw [isDecimalDigit_iff] at h
  refine toLower_of_not_letter ?_
  rw [← Bool.not_eq_true, isLetter_iff]
  omega

theorem isContinuation_iff : isContinuation c = true ↔ 128 ≤ c.toNat ∧ c.toNat ≤ 191 := by
  unfold isContinuation
  simp only [Bool.and_eq_true, decide_eq_true_eq, UInt8.le_iff_toNat_le]
  exact Iff.rfl

theorem isContinuation_toLower (c : Byte) : isContinuation (toLower c) = isContinuation c := by
  rw [Bool.eq_iff_iff, isContinuation_iff, isContinuation_iff]
  exact toLower_range 128 191 (by omega) (by omega)

theorem le_ascii_iff : c ≤ 0x7F ↔ c.toNat ≤ 127 := UInt8.le_iff_toNat_le

theorem toLower_of_above (h : ¬ c ≤ 0x7F) : toLower c = c := by
  rw [le_ascii_iff] at h
  refine toLower_of_not_letter ?_
  rw [← Bool.not_eq_true, isLetter_iff]
  omega

theorem toLower_le_ascii (h : c ≤ 0x7F) : toLower c ≤ 0x7F := by
  rw [le_ascii_iff] at h ⊢
  have hrange := (toLower_range (c := c) 0 127 (by omega) (by omega)).mpr
    ⟨Nat.zero_le _, h⟩
  exact hrange.2

theorem toLower_of_isContinuation (h : isContinuation c = true) : toLower c = c := by
  rw [isContinuation_iff] at h
  refine toLower_of_above ?_
  rw [le_ascii_iff]
  omega

end Bytes

section Leaves

/-- What a parser returns on a text, the rest lower-cased. -/
def lowerRest {α : Type} (result : ParseValue α) : ParseValue α :=
  { result with remainingRegex := result.remainingRegex.map toLower }

theorem head_lower {text : List Byte} {b : Byte} (h : isLetter b = false) :
    (text.map toLower).head? = some b ↔ text.head? = some b := by
  cases text with
  | nil => exact Iff.rfl
  | cons c text =>
      rw [List.map_cons, List.head?_cons, List.head?_cons, Option.some.injEq, Option.some.injEq]
      exact toLower_eq_iff h

theorem fromChars_lower (bound : Nat) (text : List Byte) :
    fromChars bound (text.map toLower)
      = (fromChars bound text).map (fun result => (result.1, result.2.map toLower)) := by
  have hsame : isDecimalDigit ∘ toLower = isDecimalDigit := funext isDecimalDigit_toLower
  have hdigits : (text.takeWhile isDecimalDigit).map toLower = text.takeWhile isDecimalDigit := by
    refine (List.map_congr_left fun c hc => ?_).trans (List.map_id _)
    exact toLower_of_isDecimalDigit (List.mem_takeWhile_imp hc)
  unfold fromChars
  simp only
  rw [List.takeWhile_map, List.dropWhile_map, hsame, hdigits]
  split
  · rfl
  · split <;> rfl

theorem parseNumber_lower (text : List Byte) :
    parseNumber (text.map toLower) = (parseNumber text).map lowerRest := by
  unfold parseNumber
  rw [fromChars_lower]
  cases fromChars sizeTypeBound text with
  | none => rfl
  | some result => rfl

theorem parseBackreference_lower (text : List Byte) :
    parseBackreference (text.map toLower) = (parseBackreference text).map lowerRest := by
  cases text with
  | nil => rfl
  | cons c rest =>
      unfold parseBackreference
      simp only [List.map_cons]
      by_cases hc : c = byte '\\'
      · rw [if_neg (not_not.mpr hc), if_neg (not_not.mpr ((toLower_eq_iff (by decide)).mpr hc)),
          parseNumber_lower]
        cases parseNumber rest <;> rfl
      · rw [if_pos hc, if_pos (mt (toLower_eq_iff (by decide)).mp hc)]
        rfl

theorem parseLazyModifier_lower (text : List Byte) :
    parseLazyModifier (text.map toLower)
      = ((parseLazyModifier text).1, (parseLazyModifier text).2.map toLower) := by
  unfold parseLazyModifier
  by_cases h : text.head? = some (byte '?')
  · rw [if_pos h, if_pos ((head_lower (by decide)).mpr h), List.map_tail]
  · rw [if_neg h, if_neg (mt (head_lower (by decide)).mp h)]

theorem parseRangeQuantifier_lower (text : List Byte) :
    parseRangeQuantifier (text.map toLower) = (parseRangeQuantifier text).map lowerRest := by
  unfold parseRangeQuantifier
  by_cases hopen : text.head? = some (byte '{')
  · rw [if_neg (not_not.mpr hopen), if_neg (not_not.mpr ((head_lower (by decide)).mpr hopen)),
      ← List.map_tail, parseNumber_lower]
    cases parseNumber text.tail with
    | error e => rfl
    | ok lower =>
        rcases lower with ⟨lowerBound, _ | ⟨c, rest⟩⟩
        · rfl
        · simp only [map_ok, ok_bind, lowerRest, List.map_cons]
          by_cases hclose : c = byte '}'
          · rw [if_pos hclose, if_pos ((toLower_eq_iff (by decide)).mpr hclose)]
            rfl
          rw [if_neg hclose, if_neg (mt (toLower_eq_iff (by decide)).mp hclose)]
          by_cases hcomma : c = byte ','
          · rw [if_pos hcomma, if_pos ((toLower_eq_iff (by decide)).mpr hcomma)]
            rcases rest with _ | ⟨d, rest⟩
            · rfl
            · simp only [List.map_cons]
              by_cases hopenEnd : d = byte '}'
              · rw [if_pos hopenEnd, if_pos ((toLower_eq_iff (by decide)).mpr hopenEnd)]
                rfl
              rw [if_neg hopenEnd, if_neg (mt (toLower_eq_iff (by decide)).mp hopenEnd),
                ← List.map_cons, parseNumber_lower]
              cases parseNumber (d :: rest) with
              | error e => rfl
              | ok upper =>
                  simp only [map_ok, ok_bind, lowerRest]
                  -- The bounds are numbers, which lower-casing leaves alone.
                  by_cases horder : upper.value < lowerBound
                  · rw [if_pos horder, if_pos horder]
                    rfl
                  rw [if_neg horder, if_neg horder]
                  by_cases hend : upper.remainingRegex.head? = some (byte '}')
                  · rw [if_neg (not_not.mpr hend),
                      if_neg (not_not.mpr ((head_lower (by decide)).mpr hend)), ← List.map_tail]
                    rfl
                  · rw [if_pos hend, if_pos (mt (head_lower (by decide)).mp hend)]
                    rfl
          · rw [if_neg hcomma, if_neg (mt (toLower_eq_iff (by decide)).mp hcomma)]
            rfl
  · rw [if_pos hopen, if_pos (mt (head_lower (by decide)).mp hopen)]
    rfl

/-- Quantifiers are spelled without letters. -/
theorem parseQuantifier_lower (text : List Byte) :
    parseQuantifier (text.map toLower) = (parseQuantifier text).map lowerRest := by
  cases text with
  | nil => rfl
  | cons c rest =>
      unfold parseQuantifier
      simp only [List.map_cons, parseLazyModifier_lower, toLower_eq_iff (b := byte '*') (by decide),
        toLower_eq_iff (b := byte '+') (by decide), toLower_eq_iff (b := byte '?') (by decide),
        toLower_eq_iff (b := byte '{') (by decide)]
      rw [← List.map_cons, parseRangeQuantifier_lower]
      by_cases hstar : c = byte '*'
      · rw [if_pos hstar, if_pos hstar]
        rfl
      rw [if_neg hstar, if_neg hstar]
      by_cases hplus : c = byte '+'
      · rw [if_pos hplus, if_pos hplus]
        rfl
      rw [if_neg hplus, if_neg hplus]
      by_cases hoption : c = byte '?'
      · rw [if_pos hoption, if_pos hoption]
        rfl
      rw [if_neg hoption, if_neg hoption]
      by_cases hrange : c = byte '{'
      · rw [if_pos hrange, if_pos hrange]
        cases parseRangeQuantifier (c :: rest) with
        | error e => rfl
        | ok range =>
            simp only [map_ok, ok_bind, lowerRest, parseLazyModifier_lower]
            rfl
      · rw [if_neg hrange, if_neg hrange]
        rfl

/-- One result is that of a character, the other one is the same character or its
    lower-cased one, and the rest is lower-cased. -/
def LowersChar (result lowered : Except ParseError (ParseValue Nat)) : Prop :=
  match result with
  | .error e => lowered = .error e
  | .ok ⟨x, rest⟩ =>
    lowered = .ok ⟨lowerCodePoint x, rest.map toLower⟩ ∨ lowered = .ok ⟨x, rest.map toLower⟩

/-- A character of the text is lower-cased if it is ASCII, and kept otherwise.
    The parser does not ask for shortest forms, so what is kept may still be a
    capital letter. -/
theorem parseChar_lower (text : List Byte) :
    LowersChar (parseChar text) (parseChar (text.map toLower)) := by
  cases text with
  | nil => exact rfl
  | cons c rest =>
      unfold parseChar
      simp only [List.map_cons]
      by_cases hone : c ≤ 0x7F
      · rw [if_pos hone, if_pos (toLower_le_ascii hone), toNat_toLower]
        exact Or.inl rfl
      -- Above ASCII nothing is lower-cased, so both texts are read the same way.
      rw [toLower_of_above hone, if_neg hone, if_neg hone]
      by_cases htwo : (0xC0 ≤ c && c ≤ 0xDF) = true
      · rw [if_pos htwo, if_pos htwo]
        rcases rest with _ | ⟨c₁, rest⟩
        · exact rfl
        · simp only [List.map_cons, isContinuation_toLower]
          by_cases htails : isContinuation c₁ = true
          · rw [if_pos htails, if_pos htails, toLower_of_isContinuation htails]
            exact Or.inr rfl
          · rw [if_neg htails, if_neg htails]
            exact rfl
      rw [if_neg htwo, if_neg htwo]
      by_cases hthree : (0xE0 ≤ c && c ≤ 0xEF) = true
      · rw [if_pos hthree, if_pos hthree]
        rcases rest with _ | ⟨c₁, _ | ⟨c₂, rest⟩⟩
        · exact rfl
        · exact rfl
        · simp only [List.map_cons, isContinuation_toLower]
          by_cases htails : (isContinuation c₁ && isContinuation c₂) = true
          · rw [if_pos htails, if_pos htails]
            rw [Bool.and_eq_true] at htails
            rw [toLower_of_isContinuation htails.1, toLower_of_isContinuation htails.2]
            exact Or.inr rfl
          · rw [if_neg htails, if_neg htails]
            exact rfl
      rw [if_neg hthree, if_neg hthree]
      by_cases hfour : (0xF0 ≤ c && c ≤ 0xF7) = true
      · rw [if_pos hfour, if_pos hfour]
        rcases rest with _ | ⟨c₁, _ | ⟨c₂, _ | ⟨c₃, rest⟩⟩⟩
        · exact rfl
        · exact rfl
        · exact rfl
        · simp only [List.map_cons, isContinuation_toLower]
          by_cases htails : (isContinuation c₁ && isContinuation c₂ && isContinuation c₃) = true
          · rw [if_pos htails, if_pos htails]
            rw [Bool.and_eq_true, Bool.and_eq_true] at htails
            rw [toLower_of_isContinuation htails.1.1, toLower_of_isContinuation htails.1.2,
              toLower_of_isContinuation htails.2]
            exact Or.inr rfl
          · rw [if_neg htails, if_neg htails]
            exact rfl
      · rw [if_neg hfour, if_neg hfour]
        exact rfl

end Leaves

section Relabelled

/-- The item is no bracket group and no unicode category. -/
def MatchItem.NoClass : MatchItem → Prop
  | .characterClass (.characterGroup _) => False
  | .characterClass (.unicodeCategory _) => False
  | _ => True

/-- There are no bracket groups and no unicode categories. -/
def noClasses : NodePredicate := { onMatchItem := MatchItem.NoClass }

/-- The class is one of those spelled with a small letter. -/
def CharacterClassType.KeepsCase : CharacterClassType → Prop
  | .anyWordInverted => False
  | .anyDecimalDigitInverted => False
  | .anyWhitespaceInverted => False
  | _ => True

instance : DecidablePred CharacterClassType.KeepsCase
  | .anyWord => .isTrue trivial
  | .anyWordInverted => .isFalse id
  | .anyDecimalDigit => .isTrue trivial
  | .anyDecimalDigitInverted => .isFalse id
  | .anyWhitespace => .isTrue trivial
  | .anyWhitespaceInverted => .isFalse id

/-- The anchor is spelled with a small letter or none, or with a capital one that
    becomes an anchor of the same meaning. -/
def AnchorType.KeepsCase : AnchorType → Prop
  | .nonWordBoundary => False
  | .startOfStringOnly => False
  | .previousMatchEnd => False
  | _ => True

instance : DecidablePred AnchorType.KeepsCase
  | .wordBoundary => .isTrue trivial
  | .nonWordBoundary => .isFalse id
  | .startOfStringOnly => .isFalse id
  | .endOfStringOnlyNotNewline => .isTrue trivial
  | .endOfStringOnly => .isTrue trivial
  | .previousMatchEnd => .isFalse id
  | .endOfString => .isTrue trivial

/-- The item has no class that lower-casing turns around. -/
def MatchItem.KeepsCase : MatchItem → Prop
  | .characterClass (.characterClass c) => c.type.KeepsCase
  | _ => True

/-- No escape changes with its letter. -/
def keepsCase : NodePredicate :=
  { onMatchItem := MatchItem.KeepsCase
    onAnchor := fun a => a.type.KeepsCase }

/-- The item is no capital letter, nor a bracket group or a unicode category. -/
def MatchItem.Lowered : MatchItem → Prop
  | .character x => lowerCodePoint x = x
  | item => item.NoClass

/-- There are no capital letters, no bracket groups, and no unicode
    categories. -/
def lowered : NodePredicate := { onMatchItem := MatchItem.Lowered }

/-- The item of the lower-cased pattern. -/
def MatchItem.lower : MatchItem → MatchItem
  | .character x => .character (lowerCodePoint x)
  | item => item

/-- The anchor of the lower-cased pattern. -/
def Anchor.lower (a : Anchor) : Anchor :=
  match a.type with
  | .endOfStringOnly => { type := .endOfStringOnlyNotNewline }
  | _ => a

/-- The condition in the automaton of the lower-cased pattern. -/
def TransitionConditionType.lower : TransitionConditionType → TransitionConditionType
  | .char x => .char (lowerCodePoint x)
  | .anchor a => .anchor a.lower
  | condition => condition

/-- What becomes of the leaves of a tree whose escapes keep their meaning. -/
def lowering : Relabelling where
  onMatchItem := MatchItem.lower
  onAnchor := Anchor.lower
  onCondition := TransitionConditionType.lower
  matchItem item := by rcases item with _ | (_ | _ | _) | _ <;> rfl
  anchor _ := rfl
  backreference _ := rfl
  epsilon := rfl
  startOfStringAnchor := rfl
  captureStart _ := rfl
  captureEnd _ := rfl

end Relabelled

section Escapes

theorem forall_byte {P : Byte → Prop} (h : ∀ n < 256, P (UInt8.ofNat n)) (d : Byte) : P d := by
  have hd := h d.toNat d.toNat_lt
  rw [UInt8.ofNat_toNat] at hd
  exact hd

/-- The letters of the class escapes: a small letter stays, a capital one is
    excluded, and no other byte becomes one of them. -/
theorem characterClassType_lower (d : Byte)
    (h : ∀ type ∈ characterClassType d, type.KeepsCase) :
    characterClassType (toLower d) = characterClassType d := by
  revert d
  exact forall_byte (by decide +kernel)

/-- The letters of the anchor escapes, where one capital letter is admitted. -/
theorem anchorType_lower (d : Byte) (h : ∀ type ∈ anchorType d, type.KeepsCase) :
    anchorType (toLower d) = (anchorType d).map fun type => (Anchor.lower { type }).type := by
  revert d
  exact forall_byte (by decide +kernel)

theorem parseCharacterClass_lower (text : List Byte)
    (h : ∀ c rest, parseCharacterClass text = .ok ⟨c, rest⟩ → c.type.KeepsCase) :
    parseCharacterClass (text.map toLower) = (parseCharacterClass text).map lowerRest := by
  rcases text with _ | ⟨c, _ | ⟨d, rest⟩⟩
  · rfl
  · unfold parseCharacterClass
    simp only [List.map_cons, List.map_nil]
    by_cases hc : c = byte '\\'
    · rw [if_neg (not_not.mpr hc), if_neg (not_not.mpr ((toLower_eq_iff (by decide)).mpr hc))]
      rfl
    · rw [if_pos hc, if_pos (mt (toLower_eq_iff (by decide)).mp hc)]
      rfl
  · unfold parseCharacterClass at h ⊢
    simp only [List.map_cons] at h ⊢
    by_cases hc : c = byte '\\'
    · rw [if_neg (not_not.mpr hc)] at h ⊢
      rw [if_neg (not_not.mpr ((toLower_eq_iff (by decide)).mpr hc))]
      rw [characterClassType_lower d]
      · cases characterClassType d <;> rfl
      · intro type htype
        rw [Option.mem_def] at htype
        rw [htype] at h
        exact h { type } rest rfl
    · rw [if_pos hc, if_pos (mt (toLower_eq_iff (by decide)).mp hc)]
      rfl

theorem parseAnchor_lower (text : List Byte)
    (h : ∀ a rest, parseAnchor text = .ok ⟨a, rest⟩ → a.type.KeepsCase) :
    parseAnchor (text.map toLower)
      = (parseAnchor text).map fun result =>
        lowerRest { result with value := result.value.lower } := by
  rcases text with _ | ⟨c, rest⟩
  · rfl
  · unfold parseAnchor at h ⊢
    simp only [List.map_cons] at h ⊢
    by_cases hdollar : c = byte '$'
    · rw [if_pos hdollar, if_pos ((toLower_eq_iff (by decide)).mpr hdollar)]
      rfl
    rw [if_neg hdollar] at h ⊢
    rw [if_neg (mt (toLower_eq_iff (by decide)).mp hdollar)]
    by_cases hc : c = byte '\\'
    · rw [if_neg (not_not.mpr hc)] at h ⊢
      rw [if_neg (not_not.mpr ((toLower_eq_iff (by decide)).mpr hc))]
      rcases rest with _ | ⟨d, rest⟩
      · rfl
      · simp only [List.map_cons] at h ⊢
        rw [anchorType_lower d]
        · cases anchorType d with
          | none => rfl
          | some type => cases type <;> rfl
        · intro type htype
          rw [Option.mem_def] at htype
          rw [htype] at h
          exact h { type } rest rfl
    · rw [if_pos hc, if_pos (mt (toLower_eq_iff (by decide)).mp hc)]
      rfl

end Escapes

section Items

/-- How an item is read that is no bracket group and no unicode category. -/
inductive ReadsItem (text rest : List Byte) : MatchItem → Prop where
  | dot : text = byte '.' :: rest → ReadsItem text rest .anyCharacter
  | characterClass {c : CharacterClass} : text.head? ≠ some (byte '.') →
      parseCharacterClass text = .ok ⟨c, rest⟩ →
      ReadsItem text rest (.characterClass (.characterClass c))
  | character {x : Nat} {e : ParseError} : text.head? ≠ some (byte '.') →
      parseCharacterClass text = .error e → parseChar text = .ok ⟨x, rest⟩ →
      ReadsItem text rest (.character x)

theorem readsItem_of_parse {text rest : List Byte} {item : MatchItem}
    (h : parseMatchItem text = .ok ⟨item, rest⟩) (hclass : item.NoClass) :
    ReadsItem text rest item := by
  rcases text with _ | ⟨c, text⟩
  · cases h
  unfold parseMatchItem at h
  simp only at h
  by_cases hdot : c = byte '.'
  · rw [if_pos hdot] at h
    cases h
    exact .dot (by rw [hdot])
  rw [if_neg hdot] at h
  have hhead : (c :: text).head? ≠ some (byte '.') := by
    rw [List.head?_cons, Ne, Option.some.injEq]
    exact hdot
  have hne : c :: text ≠ [] := List.cons_ne_nil c text
  -- The parsers are tried one after the other, each where the ones before failed.
  unfold parseMatchCharacterClass at h
  rw [if_neg hne] at h
  cases hgroup : parseCharacterGroup (c :: text) with
  | ok v =>
      rw [hgroup] at h
      cases h
      exact absurd hclass id
  | error groupError =>
      rw [hgroup] at h
      simp only at h
      cases hescape : parseCharacterClass (c :: text) with
      | ok v =>
          rw [hescape] at h
          cases h
          exact .characterClass hhead hescape
      | error classError =>
          rw [hescape] at h
          simp only at h
          cases hcategory : parseCharacterClassFromUnicodeCategory (c :: text) with
          | ok v =>
              rw [hcategory] at h
              cases h
              exact absurd hclass id
          | error categoryError =>
              rw [hcategory] at h
              simp only [parseMatchCharacter, if_neg hne, throw_eq_error] at h
              cases hchar : parseChar (c :: text) with
              | error e =>
                  rw [hchar] at h
                  cases h
              | ok v =>
                  rw [hchar] at h
                  cases h
                  exact .character hhead hescape hchar

theorem MatchItem.Lowered.noClass {item : MatchItem} (h : item.Lowered) : item.NoClass := by
  rcases item with _ | (_ | _ | _) | x
  · exact trivial
  · exact h
  · exact trivial
  · exact h
  · exact trivial

/-- Items are read off both texts in step. -/
theorem parseMatchItem_lower {text rest rest' : List Byte} {item item' : MatchItem}
    (h : parseMatchItem text = .ok ⟨item, rest⟩)
    (h' : parseMatchItem (text.map toLower) = .ok ⟨item', rest'⟩)
    (hclass : item.NoClass) (hcase : item.KeepsCase) (hlowered : item'.Lowered) :
    item' = item.lower ∧ rest' = rest.map toLower := by
  have hdot : (text.map toLower).head? = some (byte '.') ↔ text.head? = some (byte '.') :=
    head_lower (by decide)
  cases readsItem_of_parse h hclass with
  | dot htext =>
      subst htext
      cases h'
      exact ⟨rfl, rfl⟩
  | @characterClass c hhead hescape =>
      have hescape' := parseCharacterClass_lower text (by
        intro d rest hd
        rw [hescape] at hd
        cases hd
        exact hcase)
      rw [hescape, map_ok] at hescape'
      cases readsItem_of_parse h' hlowered.noClass with
      | dot htext => exact absurd (hdot.mp (by rw [htext]; rfl)) hhead
      | characterClass _ hread =>
          rw [hescape'] at hread
          cases hread
          exact ⟨rfl, rfl⟩
      | character _ hread _ =>
          rw [hescape'] at hread
          cases hread
  -- A letter may be a capital one in the first text only.
  | @character x e hhead hescape hchar =>
      have hescape' := parseCharacterClass_lower text (by
        intro d rest hd
        rw [hescape] at hd
        cases hd)
      have hlower := parseChar_lower text
      rw [hescape, map_error] at hescape'
      rw [hchar] at hlower
      cases readsItem_of_parse h' hlowered.noClass with
      | dot htext => exact absurd (hdot.mp (by rw [htext]; rfl)) hhead
      | characterClass _ hread =>
          rw [hescape'] at hread
          cases hread
      | @character x' _ _ _ hread =>
          have hx : lowerCodePoint x' = x' := hlowered
          rcases hlower with hlower | hlower
          · rw [hlower] at hread
            cases hread
            exact ⟨rfl, rfl⟩
          · rw [hlower] at hread
            cases hread
            refine ⟨?_, rfl⟩
            rw [MatchItem.lower, hx]

/-- The quantifier behind an item, if one is spelled there, and the rest. -/
def optionalQuantifier (text : List Byte) : Option Quantifier × List Byte :=
  match parseQuantifier text with
  | .error _ => (none, text)
  | .ok ⟨quantifier, rest⟩ => (some quantifier, rest)

theorem optionalQuantifier_lower (text : List Byte) :
    optionalQuantifier (text.map toLower)
      = ((optionalQuantifier text).1, (optionalQuantifier text).2.map toLower) := by
  unfold optionalQuantifier
  rw [parseQuantifier_lower]
  cases parseQuantifier text with
  | error e => rfl
  | ok v => rfl

/-- A match is an item and the quantifier behind it. -/
theorem parseMatch_eq_ok {text rest : List Byte} {m : Match}
    (h : parseMatch text = .ok ⟨m, rest⟩) :
    ∃ more, parseMatchItem text = .ok ⟨m.matchItem, more⟩ ∧
      m = { m with quantifier := (optionalQuantifier more).1 } ∧
      rest = (optionalQuantifier more).2 := by
  unfold parseMatch at h
  split at h
  · cases h
  rcases bind_eq_ok.mp h with ⟨⟨item, more⟩, hitem, h⟩
  simp only at h
  refine ⟨more, ?_⟩
  unfold optionalQuantifier
  split at h
  · next hmore =>
      cases h
      subst hmore
      exact ⟨hitem, rfl, rfl⟩
  · cases hquantifier : parseQuantifier more with
    | error e =>
        rw [hquantifier] at h
        cases h
        exact ⟨hitem, rfl, rfl⟩
    | ok v =>
        rw [hquantifier] at h
        cases h
        exact ⟨hitem, rfl, rfl⟩

theorem parseMatch_lower {text rest rest' : List Byte} {m m' : Match}
    (h : parseMatch text = .ok ⟨m, rest⟩) (h' : parseMatch (text.map toLower) = .ok ⟨m', rest'⟩)
    (hclass : m.matchItem.NoClass) (hcase : m.matchItem.KeepsCase)
    (hlowered : m'.matchItem.Lowered) :
    m' = { m with matchItem := m.matchItem.lower } ∧ rest' = rest.map toLower := by
  rcases parseMatch_eq_ok h with ⟨more, hitem, hm, rfl⟩
  rcases parseMatch_eq_ok h' with ⟨more', hitem', hm', rfl⟩
  rcases parseMatchItem_lower hitem hitem' hclass hcase hlowered with ⟨hsame, rfl⟩
  rw [optionalQuantifier_lower] at hm' ⊢
  refine ⟨?_, rfl⟩
  rw [hm', hm, hsame]

end Items

section Trees

variable {parse : List Byte → Except ParseFailure (ParseValue Expression)}

/-- The parser goes through a text and the lower-cased text in step, as long as
    no escape changes with its letter and the second tree has no bracket groups,
    unicode categories, or capital letters. -/
def LowersInStep (parse : List Byte → Except ParseFailure (ParseValue Expression)) : Prop :=
  ∀ text rest rest' expression expression', parse text = .ok ⟨expression, rest⟩ →
    parse (text.map toLower) = .ok ⟨expression', rest'⟩ →
    expression.Forall noClasses → expression.Forall keepsCase → expression'.Forall lowered →
      expression' = expression.relabel lowering ∧ rest' = rest.map toLower

/-- A group is a parenthesised expression and the quantifier behind it. -/
theorem parseGroup_eq_ok {text rest : List Byte} {g : Group}
    (h : parseGroup parse (byte '(' :: text) = .ok ⟨g, rest⟩) :
    ∃ expression more,
      parse (if [byte '?', byte ':'].isPrefixOf text then text.drop 2 else text)
        = .ok ⟨expression, more⟩ ∧
      g = .mk ([byte '?', byte ':'].isPrefixOf text) (some expression)
        (optionalQuantifier more.tail).1 ∧
      rest = (optionalQuantifier more.tail).2 := by
  unfold parseGroup at h
  simp only [ne_eq, not_true_eq_false, if_false] at h
  rcases bind_eq_ok.mp h with ⟨⟨expression, more⟩, hexpression, h⟩
  simp only at h
  split at h
  · cases h
  refine ⟨expression, more, hexpression, ?_⟩
  unfold optionalQuantifier
  cases hquantifier : parseQuantifier more.tail with
  | error e =>
      rw [hquantifier] at h
      cases h
      exact ⟨rfl, rfl⟩
  | ok v =>
      rw [hquantifier] at h
      cases h
      exact ⟨rfl, rfl⟩

theorem isPrefixOf_lower (text : List Byte) :
    [byte '?', byte ':'].isPrefixOf (text.map toLower) = [byte '?', byte ':'].isPrefixOf text := by
  rw [Bool.eq_iff_iff, List.isPrefixOf_iff_prefix, List.isPrefixOf_iff_prefix]
  rcases text with _ | ⟨a, _ | ⟨b, text⟩⟩
  · exact Iff.rfl
  · simp only [List.map_cons, List.map_nil, List.cons_prefix_cons, List.prefix_nil, reduceCtorEq,
      and_false]
  · simp only [List.map_cons, List.cons_prefix_cons, List.nil_prefix, and_true,
      eq_comm (a := byte '?'), eq_comm (a := byte ':'), toLower_eq_iff (b := byte '?') (by decide),
      toLower_eq_iff (b := byte ':') (by decide)]

/-- What an escape is read as: an anchor, or else a backreference, or else a match. -/
inductive ReadsEscape (text rest : List Byte) : SubExpressionItem → Prop where
  | anchor {a : Anchor} (ha : parseAnchor text = .ok ⟨a, rest⟩) : ReadsEscape text rest (.anchor a)
  | backreference {number : Nat} {e : ParseError} (ha : parseAnchor text = .error e)
      (hb : parseBackreference text = .ok ⟨number, rest⟩) :
      ReadsEscape text rest (.backreference number)
  | singleMatch {m : Match} {e e' : ParseError} (ha : parseAnchor text = .error e)
      (hb : parseBackreference text = .error e') (hm : parseMatch text = .ok ⟨m, rest⟩) :
      ReadsEscape text rest (.singleMatch m)

section escape

variable {text rest more : List Byte} {item : SubExpressionItem} {e e' : ParseError}

/-- Of the three the first that can be read is the one. -/
theorem ReadsEscape.of_anchor {a : Anchor} (h : ReadsEscape text rest item)
    (ha : parseAnchor text = .ok ⟨a, more⟩) : item = .anchor a ∧ rest = more := by
  cases h with
  | anchor ha' =>
      rw [ha] at ha'
      cases ha'
      exact ⟨rfl, rfl⟩
  | backreference ha' _ | singleMatch ha' _ _ =>
      rw [ha] at ha'
      cases ha'

theorem ReadsEscape.of_backreference {number : Nat} (h : ReadsEscape text rest item)
    (ha : parseAnchor text = .error e) (hb : parseBackreference text = .ok ⟨number, more⟩) :
    item = .backreference number ∧ rest = more := by
  cases h with
  | anchor ha' =>
      rw [ha] at ha'
      cases ha'
  | backreference _ hb' =>
      rw [hb] at hb'
      cases hb'
      exact ⟨rfl, rfl⟩
  | singleMatch _ hb' _ =>
      rw [hb] at hb'
      cases hb'

theorem ReadsEscape.of_singleMatch (h : ReadsEscape text rest item)
    (ha : parseAnchor text = .error e) (hb : parseBackreference text = .error e') :
    ∃ m, item = .singleMatch m ∧ parseMatch text = .ok ⟨m, rest⟩ := by
  cases h with
  | anchor ha' =>
      rw [ha] at ha'
      cases ha'
  | backreference _ hb' =>
      rw [hb] at hb'
      cases hb'
  | @singleMatch m _ _ _ _ hm => exact ⟨m, rfl, hm⟩

end escape

variable (hparse : LowersInStep parse)
include hparse

theorem parseGroup_lower {text rest rest' : List Byte} {g g' : Group}
    (h : parseGroup parse (byte '(' :: text) = .ok ⟨g, rest⟩)
    (h' : parseGroup parse (byte '(' :: text.map toLower) = .ok ⟨g', rest'⟩)
    (hclass : g.Forall noClasses) (hcase : g.Forall keepsCase) (hlowered : g'.Forall lowered) :
    g' = g.relabel lowering ∧ rest' = rest.map toLower := by
  rcases parseGroup_eq_ok h with ⟨expression, more, hexpression, rfl, rfl⟩
  rcases parseGroup_eq_ok h' with ⟨expression', more', hexpression', rfl, rfl⟩
  have hdrop : (if [byte '?', byte ':'].isPrefixOf text then (text.map toLower).drop 2
      else text.map toLower)
      = (if [byte '?', byte ':'].isPrefixOf text then text.drop 2 else text).map toLower := by
    split
    · exact (List.map_drop).symm
    · rfl
  rw [isPrefixOf_lower] at hexpression' ⊢
  rw [hdrop] at hexpression'
  rcases hparse _ _ _ _ _ hexpression hexpression' hclass.1 hcase.1 hlowered.1 with ⟨rfl, rfl⟩
  rw [← List.map_tail, optionalQuantifier_lower]
  exact ⟨rfl, rfl⟩

omit hparse in
theorem singleMatch_lower {text rest rest' : List Byte} {m m' : Match}
    (h : parseMatch text = .ok ⟨m, rest⟩) (h' : parseMatch (text.map toLower) = .ok ⟨m', rest'⟩)
    (hclass : (SubExpressionItem.singleMatch m).Forall noClasses)
    (hcase : (SubExpressionItem.singleMatch m).Forall keepsCase)
    (hlowered : (SubExpressionItem.singleMatch m').Forall lowered) :
    SubExpressionItem.singleMatch m' = (SubExpressionItem.singleMatch m).relabel lowering ∧
      rest' = rest.map toLower := by
  rcases parseMatch_lower h h' hclass.1 hcase.1 hlowered.1 with ⟨rfl, rfl⟩
  exact ⟨rfl, rfl⟩

omit hparse in
/-- An escape is read as the first of the three kinds that it spells. -/
theorem readsEscape_of_parse {text rest : List Byte} {item : SubExpressionItem}
    (h : parseSubExpressionItem parse (byte '\\' :: text) = .ok ⟨item, rest⟩) :
    ReadsEscape (byte '\\' :: text) rest item := by
  have hstop : ¬ (byte '\\' = byte '|' ∨ byte '\\' = byte ')') := by decide
  have hopen : ¬ byte '\\' = byte '(' := by decide
  unfold parseSubExpressionItem at h
  simp only at h
  rw [if_neg hstop, if_neg hopen, if_pos trivial] at h
  cases ha : parseAnchor (byte '\\' :: text) with
  | ok v =>
      rw [ha] at h
      cases h
      exact .anchor ha
  | error anchorError =>
      rw [ha] at h
      simp only at h
      cases hb : parseBackreference (byte '\\' :: text) with
      | ok v =>
          rw [hb] at h
          cases h
          exact .backreference ha hb
      | error backreferenceError =>
          rw [hb] at h
          simp only at h
          cases hm : parseMatch (byte '\\' :: text) with
          | ok v =>
              rw [hm] at h
              cases h
              exact .singleMatch ha hb hm
          | error matchError =>
              rw [hm] at h
              cases h

omit hparse in
/-- Both texts spell the same kind of escape: anchors and backreferences are read
    alike, and where one is no anchor the other is none either. -/
theorem readsEscape_lower {text rest rest' : List Byte} {item item' : SubExpressionItem}
    (h : ReadsEscape text rest item) (h' : ReadsEscape (text.map toLower) rest' item')
    (hclass : item.Forall noClasses) (hcase : item.Forall keepsCase)
    (hlowered : item'.Forall lowered) :
    item' = item.relabel lowering ∧ rest' = rest.map toLower := by
  have hbackreference := parseBackreference_lower text
  cases h with
  | anchor ha =>
      have hanchor := parseAnchor_lower text (by
        intro b more hb
        rw [ha] at hb
        cases hb
        exact hcase)
      rw [ha, map_ok] at hanchor
      exact h'.of_anchor hanchor
  | backreference ha hb =>
      have hanchor := parseAnchor_lower text (by
        intro b more hb
        rw [ha] at hb
        cases hb)
      rw [ha, map_error] at hanchor
      rw [hb, map_ok] at hbackreference
      exact h'.of_backreference hanchor hbackreference
  | singleMatch ha hb hm =>
      have hanchor := parseAnchor_lower text (by
        intro b more hb
        rw [ha] at hb
        cases hb)
      rw [ha, map_error] at hanchor
      rw [hb, map_error] at hbackreference
      rcases h'.of_singleMatch hanchor hbackreference with ⟨m', rfl, hm'⟩
      exact singleMatch_lower hm hm' hclass hcase hlowered

theorem parseSubExpressionItem_lower {text rest rest' : List Byte} {item item' : SubExpressionItem}
    (h : parseSubExpressionItem parse text = .ok ⟨item, rest⟩)
    (h' : parseSubExpressionItem parse (text.map toLower) = .ok ⟨item', rest'⟩)
    (hclass : item.Forall noClasses) (hcase : item.Forall keepsCase)
    (hlowered : item'.Forall lowered) :
    item' = item.relabel lowering ∧ rest' = rest.map toLower := by
  rcases text with _ | ⟨c, text⟩
  · cases h
  by_cases hescape : c = byte '\\'
  · subst hescape
    have hlower : (byte '\\' :: text).map toLower = byte '\\' :: text.map toLower := rfl
    rw [hlower] at h'
    exact readsEscape_lower (readsEscape_of_parse h) (hlower ▸ readsEscape_of_parse h') hclass
      hcase hlowered
  unfold parseSubExpressionItem at h h'
  -- No letter decides which case of the switch is taken.
  simp only [List.map_cons, toLower_eq_iff (b := byte '|') (by decide),
    toLower_eq_iff (b := byte ')') (by decide), toLower_eq_iff (b := byte '(') (by decide),
    toLower_eq_iff (b := byte '\\') (by decide), toLower_eq_iff (b := byte '$') (by decide)] at h h'
  by_cases hstop : c = byte '|' ∨ c = byte ')'
  · rw [if_pos hstop] at h
    cases h
  rw [if_neg hstop] at h h'
  by_cases hopen : c = byte '('
  · rw [if_pos hopen] at h h'
    rcases bind_eq_ok.mp h with ⟨⟨g, rest⟩, hg, h⟩
    rcases bind_eq_ok.mp h' with ⟨⟨g', rest'⟩, hg', h'⟩
    cases h
    cases h'
    rw [hopen] at hg hg'
    rcases parseGroup_lower hparse hg hg' hclass hcase hlowered with ⟨rfl, rfl⟩
    exact ⟨rfl, rfl⟩
  rw [if_neg hopen, if_neg hescape] at h h'
  by_cases hdollar : c = byte '$'
  · rw [if_pos hdollar] at h h'
    subst hdollar
    cases h
    cases h'
    exact ⟨rfl, rfl⟩
  rw [if_neg hdollar] at h h'
  rcases bind_eq_ok.mp h with ⟨⟨m, more⟩, hm, h⟩
  rcases bind_eq_ok.mp h' with ⟨⟨m', more'⟩, hm', h'⟩
  cases h
  cases h'
  exact singleMatch_lower (toTree_eq_ok.mp hm) (toTree_eq_ok.mp hm') hclass hcase hlowered

omit hparse in
theorem endsSubExpression_lower (text : List Byte) :
    endsSubExpression (text.map toLower) = endsSubExpression text := by
  rw [Bool.eq_iff_iff]
  unfold endsSubExpression
  simp only [Bool.or_eq_true, List.isEmpty_iff, beq_iff_eq, List.map_eq_nil_iff,
    head_lower (b := byte '|') (by decide), head_lower (b := byte ')') (by decide)]

theorem parseSubExpressionItems_lower {rounds : Nat} {text rest rest' : List Byte}
    {items items' : List SubExpressionItem}
    (h : parseSubExpressionItems parse rounds text = .ok ⟨items, rest⟩)
    (h' : parseSubExpressionItems parse rounds (text.map toLower) = .ok ⟨items', rest'⟩)
    (hclass : SubExpression.ForallItems noClasses items)
    (hcase : SubExpression.ForallItems keepsCase items)
    (hlowered : SubExpression.ForallItems lowered items') :
    items' = SubExpression.relabelItems lowering items ∧ rest' = rest.map toLower := by
  induction rounds generalizing text rest rest' items items' with
  | zero =>
      unfold parseSubExpressionItems at h h'
      rw [endsSubExpression_lower] at h'
      split at h
      · next hends =>
          rw [if_pos hends] at h'
          cases h
          cases h'
          exact ⟨rfl, rfl⟩
      · cases h
  | succ rounds ih =>
      unfold parseSubExpressionItems at h h'
      rw [endsSubExpression_lower] at h'
      split at h
      · next hends =>
          rw [if_pos hends] at h'
          cases h
          cases h'
          exact ⟨rfl, rfl⟩
      · next hends =>
          rw [if_neg hends] at h'
          rcases bind_eq_ok.mp h with ⟨⟨item, more⟩, hitem, h⟩
          rcases bind_eq_ok.mp h with ⟨⟨items, rest⟩, hitems, h⟩
          rcases bind_eq_ok.mp h' with ⟨⟨item', more'⟩, hitem', h'⟩
          rcases bind_eq_ok.mp h' with ⟨⟨items', rest'⟩, hitems', h'⟩
          cases h
          cases h'
          rcases parseSubExpressionItem_lower hparse hitem hitem' hclass.1 hcase.1 hlowered.1 with
            ⟨rfl, hmore⟩
          subst hmore
          rcases ih hitems hitems' hclass.2 hcase.2 hlowered.2 with ⟨rfl, rfl⟩
          exact ⟨rfl, rfl⟩

theorem parseSubExpression_lower {text rest rest' : List Byte} {s s' : SubExpression}
    (h : parseSubExpression parse text = .ok ⟨s, rest⟩)
    (h' : parseSubExpression parse (text.map toLower) = .ok ⟨s', rest'⟩)
    (hclass : s.Forall noClasses) (hcase : s.Forall keepsCase) (hlowered : s'.Forall lowered) :
    s' = s.relabel lowering ∧ rest' = rest.map toLower := by
  unfold parseSubExpression at h h'
  split at h
  · cases h
  · next hne =>
      rw [if_neg (mt List.map_eq_nil_iff.mp hne)] at h'
      rcases bind_eq_ok.mp h with ⟨⟨item, more⟩, hitem, h⟩
      rcases bind_eq_ok.mp h with ⟨⟨items, rest⟩, hitems, h⟩
      rcases bind_eq_ok.mp h' with ⟨⟨item', more'⟩, hitem', h'⟩
      rcases bind_eq_ok.mp h' with ⟨⟨items', rest'⟩, hitems', h'⟩
      cases h
      cases h'
      rcases parseSubExpressionItem_lower hparse hitem hitem' hclass.1 hcase.1 hlowered.1 with
        ⟨rfl, hmore⟩
      subst hmore
      rw [List.length_map] at hitems'
      rcases parseSubExpressionItems_lower hparse hitems hitems' hclass.2 hcase.2 hlowered.2 with
        ⟨rfl, rfl⟩
      exact ⟨rfl, rfl⟩

theorem parseAlternatives_lower {rounds : Nat} {text rest rest' : List Byte}
    {alternatives alternatives' : List SubExpression}
    (h : parseAlternatives parse rounds text = .ok ⟨alternatives, rest⟩)
    (h' : parseAlternatives parse rounds (text.map toLower) = .ok ⟨alternatives', rest'⟩)
    (hclass : Expression.ForallAlternatives noClasses alternatives)
    (hcase : Expression.ForallAlternatives keepsCase alternatives)
    (hlowered : Expression.ForallAlternatives lowered alternatives') :
    alternatives' = Expression.relabelAlternatives lowering alternatives ∧
      rest' = rest.map toLower := by
  induction rounds generalizing text rest rest' alternatives alternatives' with
  | zero =>
      unfold parseAlternatives at h h'
      split at h
      · cases h
      · next hbar =>
          rw [if_neg (mt (head_lower (by decide)).mp hbar)] at h'
          cases h
          cases h'
          exact ⟨rfl, rfl⟩
  | succ rounds ih =>
      unfold parseAlternatives at h h'
      split at h
      · next hbar =>
          rw [if_pos ((head_lower (by decide)).mpr hbar)] at h'
          rcases bind_eq_ok.mp h with ⟨⟨alternative, more⟩, halternative, h⟩
          rcases bind_eq_ok.mp h with ⟨⟨alternatives, rest⟩, hrest, h⟩
          rcases bind_eq_ok.mp h' with ⟨⟨alternative', more'⟩, halternative', h'⟩
          rcases bind_eq_ok.mp h' with ⟨⟨alternatives', rest'⟩, hrest', h'⟩
          cases h
          cases h'
          rw [← List.map_tail] at halternative'
          rcases parseSubExpression_lower hparse halternative halternative' hclass.1 hcase.1
            hlowered.1 with ⟨rfl, hmore⟩
          subst hmore
          rcases ih hrest hrest' hclass.2 hcase.2 hlowered.2 with ⟨rfl, rfl⟩
          exact ⟨rfl, rfl⟩
      · next hbar =>
          rw [if_neg (mt (head_lower (by decide)).mp hbar)] at h'
          cases h
          cases h'
          exact ⟨rfl, rfl⟩

omit hparse in
/-- The parser of expressions, by induction on the nesting of groups. -/
theorem parseExpression_lower (depth : Nat) : LowersInStep (parseExpression depth) := by
  induction depth with
  | zero =>
      intro text rest rest' expression expression' h
      cases h
  | succ depth ih =>
      intro text rest rest' expression expression' h h' hclass hcase hlowered
      unfold parseExpression at h h'
      split at h
      · cases h
      · next hne =>
          rw [if_neg (mt List.map_eq_nil_iff.mp hne)] at h'
          rcases bind_eq_ok.mp h with ⟨⟨alternative, more⟩, halternative, h⟩
          rcases bind_eq_ok.mp h with ⟨⟨alternatives, rest⟩, hrest, h⟩
          rcases bind_eq_ok.mp h' with ⟨⟨alternative', more'⟩, halternative', h'⟩
          rcases bind_eq_ok.mp h' with ⟨⟨alternatives', rest'⟩, hrest', h'⟩
          cases h
          cases h'
          rcases parseSubExpression_lower ih halternative halternative' hclass.1 hcase.1
            hlowered.1 with ⟨rfl, hmore⟩
          subst hmore
          rw [List.length_map] at hrest'
          rcases parseAlternatives_lower ih hrest hrest' hclass.2 hcase.2 hlowered.2 with ⟨rfl, rfl⟩
          exact ⟨rfl, rfl⟩

omit hparse in
/-- The tree of a lower-cased pattern is the tree of the pattern, its letters
    lower-cased. -/
theorem parseRegex_lower {text rest rest' : List Byte} {regex regex' : Regex}
    (h : parseRegex text = .ok ⟨regex, rest⟩)
    (h' : parseRegex (text.map toLower) = .ok ⟨regex', rest'⟩)
    (hclass : regex.expression.Forall noClasses) (hcase : regex.expression.Forall keepsCase)
    (hlowered : regex'.expression.Forall lowered) :
    regex' = regex.relabel lowering ∧ rest' = rest.map toLower := by
  unfold parseRegex at h h'
  split at h
  · cases h
  · next hne =>
      rw [if_neg (mt List.map_eq_nil_iff.mp hne)] at h'
      have hanchor :
          ((text.map toLower).head? == some (byte '^')) = (text.head? == some (byte '^')) := by
        rw [Bool.eq_iff_iff, beq_iff_eq, beq_iff_eq]
        exact head_lower (by decide)
      rw [hanchor] at h'
      have hrest : (if (text.head? == some (byte '^')) = true then (text.map toLower).tail
          else text.map toLower)
          = (if (text.head? == some (byte '^')) = true then text.tail else text).map toLower := by
        split
        · exact List.map_tail.symm
        · rfl
      simp only [hrest, List.length_map] at h'
      rcases bind_eq_ok.mp h with ⟨⟨expression, more⟩, hexpression, h⟩
      rcases bind_eq_ok.mp h' with ⟨⟨expression', more'⟩, hexpression', h'⟩
      cases h
      cases h'
      rcases parseExpression_lower _ _ _ _ _ _ hexpression hexpression' hclass hcase hlowered with
        ⟨rfl, rfl⟩
      exact ⟨rfl, rfl⟩

end Trees

end Grep

end CodingChallenges
