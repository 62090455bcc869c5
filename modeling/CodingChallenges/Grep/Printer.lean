import CodingChallenges.Grep.FixedString

/-!
# Spelling a Pattern

The concrete text of a tree, and which trees have one that says the same.

The parser has no printer beside it. This one follows the grammar: code points in
their UTF-8 encoding, numbers in decimal, and no character that is not needed.
Not every tree can be spelled. A literal may not be one of the metacharacters,
an item of a bracket group may not hold one of the characters that mean something
there, numbers have to fit, a quantifier has to have one of the shapes that can be
written, and a backreference may not be followed by a digit, which would become
one of its own. `Regex.Printable` says that none of this happens.

What the leaves are read back as is shown here, for whatever follows, as long as
its first byte is none that the leaf would take as its own (`HeadAvoids`).

## Main definitions

* `Regex.spelling`: The text of a tree.
* `Regex.Printable`: The trees that can be spelled.
* `HeadAvoids`: None of some characters is the first byte.

## Theorems

* `parseQuantifier_spelling`, `parseCharacterGroup_spelling`,
  `parseMatchItem_spelling`, `parseMatch_spelling`: Leaves are read back.
-/

namespace CodingChallenges

namespace Grep

/-- The encoding of a code point. -/
def charSpelling (x : Nat) : List Byte :=
  String.utf8EncodeChar (Char.ofNat x)

/-- The numbers in braces. -/
def RangeQuantifier.spelling (range : RangeQuantifier) : List Byte :=
  byte '{' :: (decimalDigits range.lowerBound ++
    match range.upperBound with
    | some upperBound => byte ',' :: (decimalDigits upperBound ++ [byte '}'])
    | none => if range.exactlyLowerBoundTimes then [byte '}'] else [byte ',', byte '}'])

/-- A quantifier, with a `?` if it is lazy. -/
def Quantifier.spelling (quantifier : Quantifier) : List Byte :=
  match quantifier.type with
  | .zeroOrMore => byte '*' :: lazySuffix quantifier.lazyModifier
  | .oneOrMore => byte '+' :: lazySuffix quantifier.lazyModifier
  | .zeroOrOne => byte '?' :: lazySuffix quantifier.lazyModifier
  | .range =>
    match quantifier.rangeQuantifier with
    | some range => range.spelling ++ lazySuffix quantifier.lazyModifier
    | none => []

/-- A quantifier, if there is one. -/
def quantifierSpelling : Option Quantifier → List Byte
  | none => []
  | some quantifier => quantifier.spelling

/-- A backslash and the letter of the class. -/
def CharacterClass.spelling (c : CharacterClass) : List Byte :=
  [byte '\\', c.type.letter]

/-- The name of the category in braces behind `\p`. -/
def CharacterClassFromUnicodeCategory.spelling (c : CharacterClassFromUnicodeCategory) :
    List Byte :=
  byte '\\' :: byte 'p' :: byte '{' :: (c.categoryName.letters ++ [byte '}'])

/-- The first character, and the last one behind a hyphen. -/
def CharacterRange.spelling (range : CharacterRange) : List Byte :=
  match range.endChar with
  | some last => charSpelling range.start ++ byte '-' :: charSpelling last
  | none => charSpelling range.start

/-- An item between brackets. -/
def CharacterGroupItem.spelling : CharacterGroupItem → List Byte
  | .characterClass c => c.spelling
  | .unicodeCategory c => c.spelling
  | .characterRange r => r.spelling
  | .character c => charSpelling c

/-- The items in brackets. -/
def CharacterGroup.spelling (g : CharacterGroup) : List Byte :=
  byte '[' :: ((if g.negativeModifier then [byte '^'] else []) ++
    g.characterGroupItems.flatMap CharacterGroupItem.spelling ++ [byte ']'])

/-- What matches one character. -/
def MatchItem.spelling : MatchItem → List Byte
  | .anyCharacter => [byte '.']
  | .characterClass (.characterGroup g) => g.spelling
  | .characterClass (.characterClass c) => c.spelling
  | .characterClass (.unicodeCategory c) => c.spelling
  | .character c => charSpelling c

/-- An item and its quantifier. -/
def Match.spelling (m : Match) : List Byte :=
  m.matchItem.spelling ++ quantifierSpelling m.quantifier

/-- An anchor. -/
def AnchorType.spelling : AnchorType → List Byte
  | .endOfString => [byte '$']
  | .wordBoundary => [byte '\\', byte 'b']
  | .nonWordBoundary => [byte '\\', byte 'B']
  | .startOfStringOnly => [byte '\\', byte 'A']
  | .endOfStringOnlyNotNewline => [byte '\\', byte 'z']
  | .endOfStringOnly => [byte '\\', byte 'Z']
  | .previousMatchEnd => [byte '\\', byte 'G']

mutual

/-- The alternatives, with bars between them. -/
def Expression.spelling : Expression → List Byte
  | .mk [] => []
  | .mk (first :: rest) => first.spelling ++ Expression.spellingOfAlternatives rest

/-- The alternatives after the first, each behind its bar. -/
def Expression.spellingOfAlternatives : List SubExpression → List Byte
  | [] => []
  | alternative :: rest =>
    byte '|' :: (alternative.spelling ++ Expression.spellingOfAlternatives rest)

/-- A sequence. -/
def SubExpression.spelling : SubExpression → List Byte
  | .mk items => SubExpression.spellingOfItems items

/-- The items, one behind the other. -/
def SubExpression.spellingOfItems : List SubExpressionItem → List Byte
  | [] => []
  | item :: rest => item.spelling ++ SubExpression.spellingOfItems rest

/-- An item of a sequence. -/
def SubExpressionItem.spelling : SubExpressionItem → List Byte
  | .singleMatch m => m.spelling
  | .group g => g.spelling
  | .anchor a => a.type.spelling
  | .backreference number => byte '\\' :: decimalDigits number

/-- An expression in parentheses, and the quantifier of the group. -/
def Group.spelling : Group → List Byte
  | .mk _ none _ => []
  | .mk nonCapturingModifier (some expression) quantifier =>
    byte '(' :: ((if nonCapturingModifier then [byte '?', byte ':'] else []) ++
      expression.spelling ++ byte ')' :: quantifierSpelling quantifier)

end

/-- The pattern of a regex. -/
def Regex.spelling (regex : Regex) : List Byte :=
  (if regex.startOfStringAnchor then [byte '^'] else []) ++ regex.expression.spelling

/-- A Unicode scalar value that is none of the characters. -/
def ScalarOtherThan (chars : List Char) (x : Nat) : Prop :=
  x.isValidChar ∧ ∀ m ∈ chars, x ≠ codePoint m

instance (chars : List Char) (x : Nat) : Decidable (ScalarOtherThan chars x) :=
  @instDecidableAnd _ _ _ (List.decidableBAll (fun m => x ≠ codePoint m) chars)

/-- The characters with a meaning of their own inside brackets. -/
def bracketMetacharacters : List Char :=
  ['[', ']', '\\', '-', '^']

/-- The numbers are in order and below the bound of `std::size_t`. -/
def RangeQuantifier.Printable (range : RangeQuantifier) : Prop :=
  match range.upperBound with
  | some upperBound => range.exactlyLowerBoundTimes = false ∧ range.lowerBound ≤ upperBound ∧
      upperBound < sizeTypeBound
  | none => range.lowerBound < sizeTypeBound

/-- The shapes that the parser builds. -/
def Quantifier.Printable (quantifier : Quantifier) : Prop :=
  match quantifier.type with
  | .range => ∃ range, quantifier.rangeQuantifier = some range ∧ range.Printable
  | _ => quantifier.rangeQuantifier = none

/-- The quantifier can be printed, if there is one. -/
def PrintableQuantifier : Option Quantifier → Prop
  | none => True
  | some quantifier => quantifier.Printable

/-- The name of the category has letters, and nothing else. -/
def CharacterClassFromUnicodeCategory.Printable (c : CharacterClassFromUnicodeCategory) : Prop :=
  c.categoryName.letters ≠ [] ∧ ∀ b ∈ c.categoryName.letters, isLetter b = true

/-- Both ends are characters that stand for themselves between brackets, in their order. -/
def CharacterRange.Printable (range : CharacterRange) : Prop :=
  ScalarOtherThan bracketMetacharacters range.start ∧
    ∀ last ∈ range.endChar, ScalarOtherThan bracketMetacharacters last ∧ range.start ≤ last

/-- A single character is a range without an end. -/
def CharacterGroupItem.Printable : CharacterGroupItem → Prop
  | .characterClass _ => True
  | .unicodeCategory c => c.Printable
  | .characterRange r => r.Printable
  | .character _ => False

/-- The item can be printed. -/
def MatchItem.Printable : MatchItem → Prop
  | .anyCharacter => True
  | .characterClass (.characterGroup g) => ∀ item ∈ g.characterGroupItems, item.Printable
  | .characterClass (.characterClass _) => True
  | .characterClass (.unicodeCategory c) => c.Printable
  | .character c => ScalarOtherThan metacharacters c

/-- The item and its quantifier can be printed. -/
def Match.Printable (m : Match) : Prop :=
  m.matchItem.Printable ∧ PrintableQuantifier m.quantifier

/-- No backreference in front of a literal digit. -/
def SubExpressionItem.MayPrecede : SubExpressionItem → List SubExpressionItem → Prop
  | .backreference _, .singleMatch { matchItem := .character c, quantifier := _ } :: _ =>
    ¬ (codePoint '0' ≤ c ∧ c ≤ codePoint '9')
  | _, _ => True

mutual

/-- Alternatives, sub-expressions, and groups are not empty, and their leaves can
    be spelled. -/
def Expression.Printable : Expression → Prop
  | .mk alternatives => alternatives ≠ [] ∧ Expression.PrintableAlternatives alternatives

/-- All alternatives can be printed. -/
def Expression.PrintableAlternatives : List SubExpression → Prop
  | [] => True
  | alternative :: rest => alternative.Printable ∧ Expression.PrintableAlternatives rest

/-- There is an item, and all of them can be printed. -/
def SubExpression.Printable : SubExpression → Prop
  | .mk items => items ≠ [] ∧ SubExpression.PrintableItems items

/-- The items can be printed one behind the other. -/
def SubExpression.PrintableItems : List SubExpressionItem → Prop
  | [] => True
  | item :: rest => item.Printable ∧ item.MayPrecede rest ∧ SubExpression.PrintableItems rest

/-- The item can be printed. -/
def SubExpressionItem.Printable : SubExpressionItem → Prop
  | .singleMatch m => m.Printable
  | .group g => g.Printable
  | .anchor _ => True
  | .backreference number => number < sizeTypeBound

/-- There is an expression in the group that can be printed. -/
def Group.Printable : Group → Prop
  | .mk _ none _ => False
  | .mk _ (some expression) quantifier => expression.Printable ∧ PrintableQuantifier quantifier

end

/-- The regex can be printed. -/
def Regex.Printable (regex : Regex) : Prop :=
  regex.expression.Printable

/-- None of the characters is the first byte. -/
def HeadAvoids (chars : List Char) (text : List Byte) : Prop :=
  ∀ m ∈ chars, text.head? ≠ some (byte m)

section Heads

variable {chars : List Char} {text : List Byte}

theorem headAvoids_nil : HeadAvoids chars [] := by
  intro m _ h
  cases h

theorem HeadAvoids.cons {a : Byte} (h : a ∉ chars.map byte) :
    HeadAvoids chars (a :: text) := by
  intro m hm heq
  rw [List.head?_cons, Option.some.injEq] at heq
  exact h (heq ▸ List.mem_map_of_mem hm)

theorem HeadAvoids.ne {a : Byte} (h : HeadAvoids chars (a :: text)) {m : Char} (hm : m ∈ chars) :
    a ≠ byte m := by
  intro heq
  exact h m hm (by rw [heq]; rfl)

theorem HeadAvoids.mono {chars' : List Char} (h : HeadAvoids chars text)
    (hsub : chars' ⊆ chars) : HeadAvoids chars' text :=
  fun m hm => h m (hsub hm)

/-- The characters are ASCII. -/
def AsciiChars (chars : List Char) : Prop :=
  ∀ m ∈ chars, (byte m).toNat = m.toNat ∧ byte m < 0xC0

theorem asciiChars_of_all
    (h : (chars.all fun m => decide ((byte m).toNat = m.toNat ∧ byte m < 0xC0)) = true) :
    AsciiChars chars := by
  intro m hm
  exact of_decide_eq_true (List.all_eq_true.mp h m hm)

theorem asciiChars_bracketMetacharacters : AsciiChars bracketMetacharacters :=
  asciiChars_of_all rfl

theorem asciiChars_metacharacters : AsciiChars metacharacters :=
  asciiChars_of_all rfl

end Heads

section Characters

variable {chars : List Char} {x : Nat}

theorem utf8Form_charSpelling (h : ScalarOtherThan chars x) : Utf8Form (charSpelling x) x := by
  have hform := utf8Form_encodeChar (Char.ofNat x)
  rw [toNat_ofNat_of_isValidChar h.1] at hform
  exact hform

theorem parseChar_spelling (h : ScalarOtherThan chars x) (rest : List Byte) :
    parseChar (charSpelling x ++ rest) = .ok ⟨x, rest⟩ :=
  parseChar_of_form (utf8Form_charSpelling h) rest

theorem charSpelling_ne_nil (h : ScalarOtherThan chars x) : charSpelling x ≠ [] := by
  rcases (utf8Form_charSpelling h).first with ⟨a, w, hw, -⟩
  rw [hw]
  exact List.cons_ne_nil a w

/-- The encoding of a character does not begin with the byte of another one that is
    ASCII. -/
theorem headAvoids_charSpelling (hascii : AsciiChars chars) (h : ScalarOtherThan chars x)
    (rest : List Byte) : HeadAvoids chars (charSpelling x ++ rest) := by
  rcases (utf8Form_charSpelling h).first with ⟨a, w, hw, ha⟩
  rw [hw, List.cons_append]
  refine HeadAvoids.cons fun hmem => ?_
  rcases List.mem_map.mp hmem with ⟨m, hm, rfl⟩
  rcases ha with hsame | hlarge
  · rw [(hascii m hm).1] at hsame
    exact h.2 m hm hsame.symm
  · exact absurd (hascii m hm).2 (UInt8.not_lt.mpr hlarge)

end Characters

/-- The characters that begin a quantifier. -/
def quantifierStarts : List Char :=
  ['*', '+', '?', '{']

section Quantifiers

variable {rest : List Byte}

theorem parseQuantifier_error (h : HeadAvoids quantifierStarts rest) :
    ∃ e, parseQuantifier rest = .error e := by
  cases rest with
  | nil => exact ⟨_, rfl⟩
  | cons a rest =>
      unfold parseQuantifier
      simp only
      rw [if_neg (h.ne (m := '*') (by decide)), if_neg (h.ne (m := '+') (by decide)),
        if_neg (h.ne (m := '?') (by decide)), if_neg (h.ne (m := '{') (by decide))]
      exact ⟨_, rfl⟩

theorem parseLazyModifier_spelling (lazyModifier : Bool) (h : HeadAvoids quantifierStarts rest) :
    parseLazyModifier (lazySuffix lazyModifier ++ rest) = (lazyModifier, rest) := by
  cases lazyModifier with
  | true => rfl
  | false => exact if_neg (h '?' (by decide))

theorem parseNumber_spelling {number : Nat} (hlt : number < sizeTypeBound)
    (h : NoDigitHead rest) : parseNumber (decimalDigits number ++ rest) = .ok ⟨number, rest⟩ := by
  unfold parseNumber
  rw [fromChars_decimalDigits hlt h]
  rfl

theorem noDigitHead_cons {a : Byte} (h : isDecimalDigit a = false) : NoDigitHead (a :: rest) := by
  intro c hc
  cases hc
  exact h

theorem parseRangeQuantifier_spelling {range : RangeQuantifier} (h : range.Printable)
    (rest : List Byte) :
    parseRangeQuantifier (range.spelling ++ rest) = .ok ⟨range, rest⟩ := by
  rcases range with ⟨exactly, lowerBound, upperBound⟩
  have hbrace : NoDigitHead (byte '}' :: rest) := noDigitHead_cons (by decide)
  have hcomma : ∀ text, NoDigitHead (byte ',' :: text) := fun text => noDigitHead_cons (by decide)
  cases upperBound with
  | none =>
      have hlt : lowerBound < sizeTypeBound := h
      cases exactly with
      | true =>
          have hnumber := parseNumber_spelling hlt hbrace
          unfold parseRangeQuantifier RangeQuantifier.spelling
          simp only [if_true, List.cons_append, List.append_assoc, List.nil_append,
            List.head?_cons, List.tail_cons, ne_eq, not_true_eq_false, if_false, hnumber, ok_bind]
          rfl
      | false =>
          have hnumber := parseNumber_spelling hlt (hcomma (byte '}' :: rest))
          unfold parseRangeQuantifier RangeQuantifier.spelling
          simp only [Bool.false_eq_true, List.cons_append, List.append_assoc, List.nil_append,
            List.head?_cons, List.tail_cons, ne_eq, not_true_eq_false, if_false, hnumber, ok_bind]
          rfl
  | some upperBound =>
      rcases h with ⟨hexactly, hle, hlt⟩
      simp only at hexactly hle hlt
      subst hexactly
      have hupper := parseNumber_spelling hlt hbrace
      have hlower := parseNumber_spelling (Nat.lt_of_le_of_lt hle hlt)
        (hcomma (decimalDigits upperBound ++ byte '}' :: rest))
      -- A digit stands behind the comma, not the brace of the other form.
      rcases hdigits : decimalDigits upperBound with _ | ⟨d, digits⟩
      · exact absurd hdigits (decimalDigits_ne_nil upperBound)
      · have hd : d ≠ byte '}' := by
          intro heq
          have hdigit := isDecimalDigit_decimalDigits (n := upperBound) (d := d)
            (by rw [hdigits]; exact List.mem_cons_self)
          rw [heq] at hdigit
          exact absurd hdigit (by decide)
        rw [hdigits, List.cons_append] at hupper hlower
        unfold parseRangeQuantifier RangeQuantifier.spelling
        simp only [hdigits, List.cons_append, List.append_assoc, List.nil_append,
          List.head?_cons, List.tail_cons, ne_eq, not_true_eq_false, if_false, hlower, ok_bind,
          hupper, hd, Nat.not_lt.mpr hle]
        rfl

/-- A quantifier is read back, and no question mark behind it is taken for its
    own. -/
theorem parseQuantifier_spelling {quantifier : Quantifier} (h : quantifier.Printable)
    (hrest : HeadAvoids quantifierStarts rest) :
    parseQuantifier (quantifier.spelling ++ rest) = .ok ⟨quantifier, rest⟩ := by
  rcases quantifier with ⟨type, rangeQuantifier, lazyModifier⟩
  have hlazy := parseLazyModifier_spelling lazyModifier hrest
  cases type with
  | zeroOrMore =>
      have hnone : rangeQuantifier = none := h
      subst hnone
      simp only [Quantifier.spelling, List.cons_append, parseQuantifier, if_true, hlazy]
      rfl
  | oneOrMore =>
      have hnone : rangeQuantifier = none := h
      subst hnone
      have hne : byte '+' ≠ byte '*' := by decide
      simp only [Quantifier.spelling, List.cons_append, parseQuantifier, if_true, hlazy, hne,
        if_false]
      rfl
  | zeroOrOne =>
      have hnone : rangeQuantifier = none := h
      subst hnone
      have hne : byte '?' ≠ byte '*' ∧ byte '?' ≠ byte '+' := by decide
      simp only [Quantifier.spelling, List.cons_append, parseQuantifier, if_true, hlazy, hne,
        if_false]
      rfl
  -- Only a range is printable with bounds, and its spelling has them in braces.
  | range =>
      rcases h with ⟨range, hrange, hprintable⟩
      simp only at hrange
      subst hrange
      have hread := parseRangeQuantifier_spelling hprintable (lazySuffix lazyModifier ++ rest)
      have hbrace : ∃ text, range.spelling = byte '{' :: text := ⟨_, rfl⟩
      rcases hbrace with ⟨text, htext⟩
      rw [htext, List.cons_append] at hread
      have hne : byte '{' ≠ byte '*' ∧ byte '{' ≠ byte '+' ∧ byte '{' ≠ byte '?' := by decide
      simp only [Quantifier.spelling, htext, List.cons_append, List.append_assoc, parseQuantifier,
        if_true, hne, if_false, hread, ok_bind, hlazy]
      rfl

end Quantifiers

section Brackets

theorem characterClassType_letter (type : CharacterClassType) :
    characterClassType type.letter = some type := by
  cases type <;> rfl

theorem parseCharacterClass_spelling (c : CharacterClass) (rest : List Byte) :
    parseCharacterClass (c.spelling ++ rest) = .ok ⟨c, rest⟩ := by
  unfold parseCharacterClass CharacterClass.spelling
  simp only [List.cons_append, List.nil_append, ne_eq, not_true_eq_false, if_false,
    characterClassType_letter]
  rfl

/-- Only a backslash begins a class escape. -/
theorem parseCharacterClass_error {text : List Byte} (h : text.head? ≠ some (byte '\\')) :
    ∃ e, parseCharacterClass text = .error e := by
  cases text with
  | nil => exact ⟨_, rfl⟩
  | cons a text =>
      have hne : a ≠ byte '\\' := fun heq => h (by rw [heq]; rfl)
      unfold parseCharacterClass
      simp only
      rw [if_pos hne]
      exact ⟨_, rfl⟩

theorem parseCharacterClassFromUnicodeCategory_error {text : List Byte}
    (h : text.head? ≠ some (byte '\\')) :
    ∃ e, parseCharacterClassFromUnicodeCategory text = .error e := by
  cases text with
  | nil => exact ⟨_, rfl⟩
  | cons a text =>
      have hne : byte '\\' ≠ a := fun heq => h (by rw [← heq]; rfl)
      unfold parseCharacterClassFromUnicodeCategory
      rw [if_neg (List.cons_ne_nil a text), if_pos]
      · exact ⟨_, rfl⟩
      · rw [List.isPrefixOf, Bool.and_eq_true, beq_iff_eq]
        exact fun hprefixed => hne hprefixed.1

/-- The letter of a unicode category escape is none of a class escape. -/
theorem parseCharacterClass_category (c : CharacterClassFromUnicodeCategory) (rest : List Byte) :
    ∃ e, parseCharacterClass (c.spelling ++ rest) = .error e := by
  unfold parseCharacterClass CharacterClassFromUnicodeCategory.spelling
  simp only [List.cons_append, ne_eq, not_true_eq_false, if_false]
  exact ⟨_, rfl⟩

theorem parseCharacterClassFromUnicodeCategory_spelling {c : CharacterClassFromUnicodeCategory}
    (h : c.Printable) (rest : List Byte) :
    parseCharacterClassFromUnicodeCategory (c.spelling ++ rest) = .ok ⟨c, rest⟩ := by
  rcases c with ⟨⟨letters⟩⟩
  rcases h with ⟨hne, hletters⟩
  simp only at hne hletters
  have hbrace : isLetter (byte '}') = false := by decide
  have hneg : ¬ isLetter (byte '}') = true := by
    rw [hbrace]
    exact Bool.false_ne_true
  have htake : (letters ++ byte '}' :: rest).takeWhile isLetter = letters := by
    rw [List.takeWhile_append_of_pos hletters, List.takeWhile_cons_of_neg hneg, List.append_nil]
  have hdrop : (letters ++ byte '}' :: rest).dropWhile isLetter = byte '}' :: rest := by
    rw [List.dropWhile_append_of_pos hletters, List.dropWhile_cons_of_neg hneg]
  have hread : parseLetters (letters ++ byte '}' :: rest) = .ok ⟨letters, byte '}' :: rest⟩ := by
    unfold parseLetters
    rw [htake, hdrop, if_neg (fun hempty => hne hempty.2)]
    rfl
  have htext : letters ++ byte '}' :: rest ≠ [] :=
    List.append_ne_nil_of_right_ne_nil _ (List.cons_ne_nil _ _)
  have hname : parseUnicodeCategoryName (letters ++ byte '}' :: rest)
      = .ok ⟨⟨letters⟩, byte '}' :: rest⟩ := by
    unfold parseUnicodeCategoryName
    rw [if_neg htext, hread]
    rfl
  unfold parseCharacterClassFromUnicodeCategory CharacterClassFromUnicodeCategory.spelling
  simp only [List.cons_append, List.append_assoc, List.nil_append]
  rw [if_neg (List.cons_ne_nil _ _), if_neg (fun hprefix => hprefix rfl)]
  simp only [List.drop_succ_cons, List.drop_zero, hname, ok_bind, List.head?_cons, ne_eq,
    not_true_eq_false, if_false]
  rfl

theorem parseCharacterRange_spelling {range : CharacterRange} (h : range.Printable)
    {rest : List Byte} (hrest : rest.head? ≠ some (byte '-')) :
    parseCharacterRange (range.spelling ++ rest) = .ok ⟨range, rest⟩ := by
  rcases range with ⟨start, endChar⟩
  rcases h with ⟨hstart, hend⟩
  simp only at hstart hend
  -- A minus at the front would be an error of its own.
  have hfirst : ∀ text, ∃ a w, charSpelling start ++ text = a :: w ∧ a ≠ byte '-' := by
    intro text
    have havoids := headAvoids_charSpelling asciiChars_bracketMetacharacters hstart text
    rcases List.exists_cons_of_ne_nil (List.append_ne_nil_of_left_ne_nil
      (charSpelling_ne_nil hstart) text) with ⟨a, w, hcons⟩
    rw [hcons] at havoids
    exact ⟨a, w, hcons, havoids.ne (by decide)⟩
  cases endChar with
  | none =>
      have hread := parseChar_spelling hstart rest
      rcases hfirst rest with ⟨a, w, hcons, hne⟩
      simp only [CharacterRange.spelling]
      rw [hcons] at hread ⊢
      unfold parseCharacterRange
      simp only
      rw [if_neg hne, hread, ok_bind]
      simp only
      rw [if_neg hrest]
      rfl
  | some last =>
      rcases hend last rfl with ⟨hlast, hle⟩
      have hread := parseChar_spelling hstart (byte '-' :: (charSpelling last ++ rest))
      rcases hfirst (byte '-' :: (charSpelling last ++ rest)) with ⟨a, w, hcons, hne⟩
      simp only [CharacterRange.spelling, List.append_assoc, List.cons_append]
      rw [hcons] at hread ⊢
      unfold parseCharacterRange
      simp only
      rw [if_neg hne, hread, ok_bind]
      simp only [List.head?_cons, if_true, List.tail_cons, parseChar_spelling hlast rest, ok_bind]
      rw [if_neg (Nat.not_lt.mpr hle)]
      rfl

/-- A range begins with its first character. -/
theorem headAvoids_characterRange {range : CharacterRange} (h : range.Printable)
    (rest : List Byte) : HeadAvoids bracketMetacharacters (range.spelling ++ rest) := by
  rcases range with ⟨start, endChar⟩
  cases endChar with
  | none => exact headAvoids_charSpelling asciiChars_bracketMetacharacters h.1 rest
  | some last =>
      simp only [CharacterRange.spelling, List.append_assoc]
      exact headAvoids_charSpelling asciiChars_bracketMetacharacters h.1 _

/-- What every item of a bracket group begins with. -/
theorem headAvoids_groupItem {item : CharacterGroupItem} (h : item.Printable) (rest : List Byte) :
    HeadAvoids [']', '-', '^'] (item.spelling ++ rest) := by
  have hbackslash : ∀ text : List Byte, HeadAvoids [']', '-', '^'] (byte '\\' :: text) :=
    fun text => HeadAvoids.cons (by decide)
  cases item with
  | characterClass c => exact hbackslash _
  | unicodeCategory c => exact hbackslash _
  | character c => exact absurd h id
  | characterRange r => exact (headAvoids_characterRange h rest).mono (by decide)

theorem groupItem_spelling_ne_nil {item : CharacterGroupItem} (h : item.Printable) :
    item.spelling ≠ [] := by
  cases item with
  | characterClass c => exact List.cons_ne_nil _ _
  | unicodeCategory c => exact List.cons_ne_nil _ _
  | character c => exact absurd h id
  | characterRange r =>
      rcases r with ⟨start, endChar⟩
      have hne := charSpelling_ne_nil h.1
      cases endChar with
      | none => exact hne
      | some last => exact List.append_ne_nil_of_left_ne_nil hne _

/-- An item is read back, unless what follows makes a range of it. -/
theorem parseCharacterGroupItem_spelling {item : CharacterGroupItem} (h : item.Printable)
    {rest : List Byte} (hrest : rest.head? ≠ some (byte '-')) :
    parseCharacterGroupItem (item.spelling ++ rest) = .ok ⟨item, rest⟩ := by
  have hne : item.spelling ++ rest ≠ [] :=
    List.append_ne_nil_of_left_ne_nil (groupItem_spelling_ne_nil h) rest
  unfold parseCharacterGroupItem
  rw [if_neg hne]
  cases item with
  | characterClass c =>
      simp only [CharacterGroupItem.spelling, parseCharacterClass_spelling]
      rfl
  | unicodeCategory c =>
      rcases parseCharacterClass_category c rest with ⟨e, hclass⟩
      simp only [CharacterGroupItem.spelling, hclass,
        parseCharacterClassFromUnicodeCategory_spelling h]
      rfl
  | character c => exact absurd h id
  | characterRange r =>
      -- Neither escape begins with the first character of a range.
      have hbackslash : (r.spelling ++ rest).head? ≠ some (byte '\\') :=
        headAvoids_characterRange h rest '\\' (by decide)
      rcases parseCharacterClass_error hbackslash with ⟨e, hclass⟩
      rcases parseCharacterClassFromUnicodeCategory_error hbackslash with ⟨e', hcategory⟩
      simp only [CharacterGroupItem.spelling, hclass, hcategory,
        parseCharacterRange_spelling h hrest]
      rfl

/-- The loop reads one item after another, up to the bracket. -/
theorem parseCharacterGroupItems_spelling {rounds : Nat} {items : List CharacterGroupItem}
    (h : ∀ item ∈ items, item.Printable) (hrounds : items.length ≤ rounds) (rest : List Byte) :
    parseCharacterGroupItems rounds (items.flatMap CharacterGroupItem.spelling ++ byte ']' :: rest)
      = (items, byte ']' :: rest) := by
  induction items generalizing rounds with
  | nil =>
      cases rounds with
      | zero => rfl
      | succ rounds =>
          unfold parseCharacterGroupItems
          exact if_pos (Or.inr rfl)
  | cons item items ih =>
      cases rounds with
      | zero =>
          rw [List.length_cons] at hrounds
          omega
      | succ rounds =>
          rw [List.forall_mem_cons] at h
          rw [List.length_cons] at hrounds
          have hread := ih h.2 (Nat.le_of_succ_le_succ hrounds)
          -- No item begins with a minus, or the one before it would become a range.
          have hstop : (items.flatMap CharacterGroupItem.spelling ++ byte ']' :: rest).head?
              ≠ some (byte '-') := by
            cases items with
            | nil =>
                intro heq
                exact absurd (Option.some.inj heq) (by decide)
            | cons next items =>
                rw [List.flatMap_cons, List.append_assoc]
                exact headAvoids_groupItem (h.2 next List.mem_cons_self) _ '-' (by decide)
          rw [List.flatMap_cons, List.append_assoc]
          unfold parseCharacterGroupItems
          rw [if_neg, parseCharacterGroupItem_spelling h.1 hstop]
          · simp only [hread]
          · intro hends
            rcases hends with hnil | hbracket
            · exact List.append_ne_nil_of_left_ne_nil (groupItem_spelling_ne_nil h.1) _ hnil
            · exact headAvoids_groupItem h.1 _ ']' (by decide) hbracket

theorem length_le_flatMap_spelling {items : List CharacterGroupItem}
    (h : ∀ item ∈ items, item.Printable) :
    items.length ≤ (items.flatMap CharacterGroupItem.spelling).length := by
  induction items with
  | nil => exact Nat.zero_le _
  | cons item items ih =>
      rw [List.forall_mem_cons] at h
      have hpos := List.length_pos_iff.mpr (groupItem_spelling_ne_nil h.1)
      have hrest := ih h.2
      rw [List.flatMap_cons, List.length_append, List.length_cons]
      omega

theorem parseCharacterGroup_spelling {g : CharacterGroup}
    (h : ∀ item ∈ g.characterGroupItems, item.Printable) (rest : List Byte) :
    parseCharacterGroup (g.spelling ++ rest) = .ok ⟨g, rest⟩ := by
  rcases g with ⟨negativeModifier, items⟩
  simp only at h
  have hlength := length_le_flatMap_spelling h
  have hread : parseCharacterGroupItems
      (items.flatMap CharacterGroupItem.spelling ++ byte ']' :: rest).length
      (items.flatMap CharacterGroupItem.spelling ++ byte ']' :: rest)
        = (items, byte ']' :: rest) := by
    refine parseCharacterGroupItems_spelling h ?_ rest
    rw [List.length_append]
    omega
  have hne : items.flatMap CharacterGroupItem.spelling ++ byte ']' :: rest ≠ [] :=
    List.append_ne_nil_of_right_ne_nil _ (List.cons_ne_nil _ _)
  cases negativeModifier with
  | true =>
      simp only [CharacterGroup.spelling, if_true, List.cons_append, List.append_assoc,
        List.nil_append, parseCharacterGroup, ne_eq, not_true_eq_false, if_false, reduceCtorEq,
        List.head?_cons, beq_self_eq_true, List.tail_cons, hread]
      rfl
  | false =>
      -- No circumflex stands in front of the items, nor does one of them begin with one.
      have hcaret : ((items.flatMap CharacterGroupItem.spelling ++ byte ']' :: rest).head?
          == some (byte '^')) = false := by
        rw [beq_eq_false_iff_ne]
        cases items with
        | nil =>
            intro heq
            exact absurd (Option.some.inj heq) (by decide)
        | cons item items =>
            rw [List.flatMap_cons, List.append_assoc]
            exact headAvoids_groupItem (h item List.mem_cons_self) _ '^' (by decide)
      simp only [CharacterGroup.spelling, Bool.false_eq_true, if_false, List.cons_append,
        List.append_assoc, List.nil_append, parseCharacterGroup, ne_eq, not_true_eq_false, hne,
        hcaret, hread, List.head?_cons, List.tail_cons]
      rfl

end Brackets

section Matches

/-- A bracket group begins with its bracket. -/
theorem parseCharacterGroup_error {text : List Byte} (h : text.head? ≠ some (byte '[')) :
    ∃ e, parseCharacterGroup text = .error e := by
  cases text with
  | nil => exact ⟨_, rfl⟩
  | cons a text =>
      have hne : a ≠ byte '[' := fun heq => h (by rw [heq]; rfl)
      unfold parseCharacterGroup
      simp only
      rw [if_pos hne]
      exact ⟨_, rfl⟩

/-- The alternatives for a set of characters, each one tried where the ones
    before it fail. -/
theorem parseMatchCharacterClass_spelling {c : MatchCharacterClass}
    (h : (MatchItem.characterClass c).Printable) (rest : List Byte) :
    parseMatchCharacterClass ((MatchItem.characterClass c).spelling ++ rest) = .ok ⟨c, rest⟩ := by
  have hne : (MatchItem.characterClass c).spelling ++ rest ≠ [] := by
    rcases c with g | c | c
    · exact List.cons_ne_nil _ _
    · exact List.cons_ne_nil _ _
    · exact List.cons_ne_nil _ _
  unfold parseMatchCharacterClass
  rw [if_neg hne]
  cases c with
  | characterGroup g =>
      simp only [MatchItem.spelling, parseCharacterGroup_spelling h rest]
      rfl
  | characterClass c =>
      have hhead : (c.spelling ++ rest).head? ≠ some (byte '[') :=
        fun heq => absurd (Option.some.inj heq) (by decide)
      rcases parseCharacterGroup_error hhead with ⟨e, hgroup⟩
      simp only [MatchItem.spelling, hgroup, parseCharacterClass_spelling]
      rfl
  | unicodeCategory c =>
      have hhead : (c.spelling ++ rest).head? ≠ some (byte '[') :=
        fun heq => absurd (Option.some.inj heq) (by decide)
      rcases parseCharacterGroup_error hhead with ⟨e, hgroup⟩
      rcases parseCharacterClass_category c rest with ⟨e', hclass⟩
      simp only [MatchItem.spelling, hgroup, hclass,
        parseCharacterClassFromUnicodeCategory_spelling h]
      rfl

theorem parseMatchItem_spelling {item : MatchItem} (h : item.Printable) (rest : List Byte) :
    parseMatchItem (item.spelling ++ rest) = .ok ⟨item, rest⟩ := by
  cases item with
  | anyCharacter => rfl
  | character c =>
      exact parseMatchItem_plain (utf8Form_charSpelling h)
        (headAvoids_charSpelling asciiChars_metacharacters h rest)
  | characterClass c =>
      have hread := parseMatchCharacterClass_spelling h rest
      have hfirst : ∃ a w, (MatchItem.characterClass c).spelling = a :: w ∧ a ≠ byte '.' := by
        rcases c with g | c | c
        · exact ⟨_, _, rfl, by decide⟩
        · exact ⟨_, _, rfl, by decide⟩
        · exact ⟨_, _, rfl, by decide⟩
      rcases hfirst with ⟨a, w, hcons, hne⟩
      rw [hcons, List.cons_append] at hread ⊢
      unfold parseMatchItem
      simp only
      rw [if_neg hne, hread]
      rfl

/-- What every leaf begins with. -/
def leafAvoids : List Char :=
  ['^', ']', ')', '|', '*', '+', '?', '{', '}', '(', '$']

theorem headAvoids_matchItem {item : MatchItem} (h : item.Printable) (rest : List Byte) :
    HeadAvoids leafAvoids (item.spelling ++ rest) := by
  rcases item with _ | (g | c | c) | c
  · exact HeadAvoids.cons (by decide)
  · exact HeadAvoids.cons (by decide)
  · exact HeadAvoids.cons (by decide)
  · exact HeadAvoids.cons (by decide)
  · exact (headAvoids_charSpelling asciiChars_metacharacters h rest).mono (by decide)

theorem matchItem_spelling_ne_nil {item : MatchItem} (h : item.Printable) :
    item.spelling ≠ [] := by
  rcases item with _ | (g | c | c) | c
  · exact List.cons_ne_nil _ _
  · exact List.cons_ne_nil _ _
  · exact List.cons_ne_nil _ _
  · exact List.cons_ne_nil _ _
  · exact charSpelling_ne_nil h

/-- A leaf is read back, and nothing behind it is taken for its quantifier. -/
theorem parseMatch_spelling {m : Match} (h : m.Printable) {rest : List Byte}
    (hrest : HeadAvoids quantifierStarts rest) :
    parseMatch (m.spelling ++ rest) = .ok ⟨m, rest⟩ := by
  rcases m with ⟨item, quantifier⟩
  rcases h with ⟨hitem, hquantifier⟩
  simp only at hitem hquantifier
  have hne : ∀ text : List Byte, item.spelling ++ text ≠ [] :=
    fun text => List.append_ne_nil_of_left_ne_nil (matchItem_spelling_ne_nil hitem) text
  cases quantifier with
  | none =>
      have hread := parseMatchItem_spelling hitem rest
      rcases parseQuantifier_error hrest with ⟨e, herror⟩
      simp only [Match.spelling, quantifierSpelling, List.append_nil, parseMatch, hne, if_false,
        hread, ok_bind, herror]
      split
      · rfl
      · rfl
  | some quantifier =>
      have hread := parseMatchItem_spelling hitem (quantifier.spelling ++ rest)
      have hsuffix := parseQuantifier_spelling hquantifier hrest
      have hsome : quantifier.spelling ++ rest ≠ [] := by
        intro hnil
        rw [hnil] at hsuffix
        cases hsuffix
      simp only [Match.spelling, quantifierSpelling, List.append_assoc, parseMatch, hne, if_false,
        hread, ok_bind, hsome, hsuffix]
      rfl

end Matches

section Items

variable {parse : List Byte → Except ParseFailure (ParseValue Expression)} {m : Match}
  {rest text : List Byte}

/-- A text without one of the special first bytes is a leaf. -/
theorem parseSubExpressionItem_of_match (havoids : HeadAvoids ['|', ')', '(', '\\', '$'] text)
    (h : parseMatch text = .ok ⟨m, rest⟩) :
    parseSubExpressionItem parse text = .ok ⟨.singleMatch m, rest⟩ := by
  cases text with
  | nil => cases h
  | cons a text =>
      have hstop : ¬ (a = byte '|' ∨ a = byte ')') := by
        intro hcases
        rcases hcases with heq | heq
        · exact havoids.ne (by decide) heq
        · exact havoids.ne (by decide) heq
      unfold parseSubExpressionItem
      simp only
      rw [if_neg hstop, if_neg (havoids.ne (by decide)), if_neg (havoids.ne (by decide)),
        if_neg (havoids.ne (by decide)), h]
      rfl

/-- A backslash is tried as an escape, not as the beginning of a group. -/
theorem backslash_escapes :
    ¬ (byte '\\' = byte '|' ∨ byte '\\' = byte ')') ∧ byte '\\' ≠ byte '(' := by
  decide

theorem parseAnchor_error {d : Byte} (h : anchorType d = none) :
    parseAnchor (byte '\\' :: d :: text) = .error "Invalid anchor type" := by
  have hdollar : byte '\\' ≠ byte '$' := by decide
  unfold parseAnchor
  simp only [hdollar, if_false, ne_eq, not_true_eq_false, h]
  rfl

/-- No digit is the letter of an anchor. -/
theorem anchorType_digit {d : Byte} (h : isDecimalDigit d = true) : anchorType d = none := by
  have hletters : ∀ c ∈ [byte 'b', byte 'B', byte 'A', byte 'z', byte 'Z', byte 'G'], d ≠ c := by
    intro c hc heq
    rw [heq] at h
    simp only [List.mem_cons, List.not_mem_nil, or_false] at hc
    rcases hc with rfl | rfl | rfl | rfl | rfl | rfl <;> exact absurd h (by decide)
  simp only [List.forall_mem_cons] at hletters
  unfold anchorType
  rw [if_neg hletters.1, if_neg hletters.2.1, if_neg hletters.2.2.1, if_neg hletters.2.2.2.1,
    if_neg hletters.2.2.2.2.1, if_neg hletters.2.2.2.2.2.1]

/-- An escape is a leaf if its letter is that of no anchor, and no digit. -/
theorem parseSubExpressionItem_of_escape {d : Byte} (hanchor : anchorType d = none)
    (hdigit : isDecimalDigit d = false)
    (h : parseMatch (byte '\\' :: d :: text) = .ok ⟨m, rest⟩) :
    parseSubExpressionItem parse (byte '\\' :: d :: text) = .ok ⟨.singleMatch m, rest⟩ := by
  have hnumber : fromChars sizeTypeBound (d :: text) = none := by
    have hneg : ¬ isDecimalDigit d = true := by
      rw [hdigit]
      exact Bool.false_ne_true
    unfold fromChars
    exact if_pos (List.takeWhile_cons_of_neg hneg)
  have hback : parseBackreference (byte '\\' :: d :: text)
      = .error "Failed to parse backreference number" := by
    unfold parseBackreference parseNumber
    simp only [ne_eq, not_true_eq_false, if_false, hnumber]
    rfl
  unfold parseSubExpressionItem
  simp only [backslash_escapes.1, backslash_escapes.2, if_false, if_true,
    parseAnchor_error hanchor, hback, h]
  rfl

theorem parseSubExpressionItem_match (h : m.Printable) (hrest : HeadAvoids quantifierStarts rest) :
    parseSubExpressionItem parse (m.spelling ++ rest) = .ok ⟨.singleMatch m, rest⟩ := by
  have hread := parseMatch_spelling h hrest
  rcases m with ⟨item, quantifier⟩
  have hitem := h.1
  simp only [Match.spelling, List.append_assoc] at hread ⊢
  -- The two kinds of escapes go through the alternatives for a backslash.
  rcases item with _ | (g | c | c) | c
  · exact parseSubExpressionItem_of_match (HeadAvoids.cons (by decide)) hread
  · exact parseSubExpressionItem_of_match (HeadAvoids.cons (by decide)) hread
  · refine parseSubExpressionItem_of_escape ?_ ?_ hread
    · rcases c with ⟨type⟩
      cases type <;> rfl
    · rcases c with ⟨type⟩
      cases type <;> rfl
  · exact parseSubExpressionItem_of_escape rfl rfl hread
  · have havoids := headAvoids_charSpelling asciiChars_metacharacters hitem
      (quantifierSpelling quantifier ++ rest)
    exact parseSubExpressionItem_of_match (havoids.mono (by decide)) hread

theorem parseSubExpressionItem_anchor (a : Anchor) :
    parseSubExpressionItem parse (a.type.spelling ++ rest) = .ok ⟨.anchor a, rest⟩ := by
  rcases a with ⟨type⟩
  cases type <;> rfl

/-- A backreference takes the digits of its number, and the text behind it begins
    with none. -/
theorem parseSubExpressionItem_backreference {number : Nat} (hlt : number < sizeTypeBound)
    (hrest : NoDigitHead rest) :
    parseSubExpressionItem parse (byte '\\' :: decimalDigits number ++ rest)
      = .ok ⟨.backreference number, rest⟩ := by
  have hread := parseNumber_spelling hlt hrest
  rcases hdigits : decimalDigits number with _ | ⟨d, digits⟩
  · exact absurd hdigits (decimalDigits_ne_nil number)
  · have hd : isDecimalDigit d = true :=
      isDecimalDigit_decimalDigits (n := number) (by rw [hdigits]; exact List.mem_cons_self)
    rw [hdigits, List.cons_append] at hread
    simp only [List.cons_append]
    unfold parseSubExpressionItem
    simp only [backslash_escapes.1, backslash_escapes.2, if_false, if_true,
      parseAnchor_error (anchorType_digit hd), parseBackreference, ne_eq, not_true_eq_false, hread]
    rfl

end Items

end Grep

end CodingChallenges
