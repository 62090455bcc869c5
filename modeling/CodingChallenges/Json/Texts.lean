import CodingChallenges.Json.Lossless
import CodingChallenges.Json.Numbers

/-!
# JSON Texts

Which texts the check accepts, byte by byte.

A text spells a sequence of tokens if it is made of their spellings, with whitespace between
them wherever there is some. There are two ways to read this: as the standard has it, and as
the tokenizer does, which takes some more strings and some more numbers. The texts that are
accepted are the ones that spell a document in the second way, as far as the limit of the
parser allows. Behind the document there may be a zero byte and then anything.

Nothing is asked of the spellings about what follows them. A number could be read as two where
it is spelled, but in no document does one number follow another.

## Main definitions

* `Body`: What stands between the quotation marks of a string.
* `Lexicon`, `Spells`: How tokens are spelled.
* `standard`, `accepted`: What the standard allows, and what the tokenizer takes.
* `NumbersApart`: No number is followed by another token that begins like one.

## Theorems

* `handleString_iff`: The handler of strings takes the bodies.
* `spells_of_significantTokens`: What is tokenized is spelled.
* `significantTokens_of_spells`: What is spelled is tokenized.
* `parseText_iff_spells`: The texts that are accepted.
-/

namespace CodingChallenges

namespace Json

/-- What stands between the quotation marks of a string: escapes, and the characters that are
    allowed on their own. -/
inductive Body (allowed : UInt8 → Prop) : List UInt8 → Prop
  | nil : Body allowed []
  | char {c : UInt8} {t : List UInt8} : allowed c → c ≠ byte '"' → c ≠ byte '\\' →
      Body allowed t → Body allowed (c :: t)
  | escape {c : UInt8} {t : List UInt8} :
      c ∈ escapes → c ≠ byte 'u' → Body allowed t → Body allowed (byte '\\' :: c :: t)
  | unicode {digits t : List UInt8} :
      digits.length = 4 → (∀ c ∈ digits, isXDigit c = true) → Body allowed t →
      Body allowed (byte '\\' :: byte 'u' :: (digits ++ t))

/-- How the tokens are spelled that are not always spelled the same. -/
structure Lexicon where
  /-- The characters that a string may have on their own. -/
  allowed : UInt8 → Prop
  isNumber : List UInt8 → Prop

/-- What the standard allows. -/
def standard : Lexicon where
  allowed c := 0x20 ≤ c
  isNumber := IsNumber

/-- What the tokenizer takes. -/
def accepted : Lexicon where
  allowed c := c ≠ 0x09 ∧ c ≠ 0x0A
  isNumber t := ∃ i f e, t = i ++ f ++ e ∧ IsNumeral i f e

/-- The spellings of a boolean. -/
def booleanWords : List (List UInt8) :=
  [[byte 't', byte 'r', byte 'u', byte 'e'], [byte 'f', byte 'a', byte 'l', byte 's', byte 'e']]

/-- The spelling of null. -/
def nullWord : List UInt8 :=
  [byte 'n', byte 'u', byte 'l', byte 'l']

/-- A text that is made of the spellings of tokens, and of whitespace. -/
inductive Spells (lexicon : Lexicon) : List TokenType → List UInt8 → Prop
  | done : Spells lexicon [] []
  | space {w : List TokenType} {c : UInt8} {t : List UInt8} :
      isWhitespace c = true → Spells lexicon w t → Spells lexicon w (c :: t)
  | symbol {w : List TokenType} {type : TokenType} {c : UInt8} {t : List UInt8} :
      charType c = some type → Spells lexicon w t → Spells lexicon (type :: w) (c :: t)
  | string {w : List TokenType} {body t : List UInt8} :
      Body lexicon.allowed body → Spells lexicon w t →
      Spells lexicon (stringTokens true ++ w) (quoted body ++ t)
  | number {w : List TokenType} {number t : List UInt8} :
      lexicon.isNumber number → Spells lexicon w t →
      Spells lexicon (.numericValue :: w) (number ++ t)
  | boolean {w : List TokenType} {word t : List UInt8} :
      word ∈ booleanWords → Spells lexicon w t → Spells lexicon (.booleanValue :: w) (word ++ t)
  | null {w : List TokenType} {t : List UInt8} :
      Spells lexicon w t → Spells lexicon (.nullValue :: w) (nullWord ++ t)

section Standard

/-- A character of a string that the standard allows is none that the handler refuses. -/
theorem Body.imp {allowed allowed' : UInt8 → Prop} {t : List UInt8} (h : Body allowed t)
    (himp : ∀ c, allowed c → allowed' c) : Body allowed' t := by
  induction h with
  | nil => exact .nil
  | char hc hquote hbackslash _ ih => exact .char (himp _ hc) hquote hbackslash ih
  | escape hescape hne _ ih => exact .escape hescape hne ih
  | unicode hlength hdigits _ ih => exact .unicode hlength hdigits ih

/-- What the standard allows is accepted. -/
theorem Spells.accepted {w : List TokenType} {t : List UInt8} (h : Spells standard w t) :
    Spells accepted w t := by
  induction h with
  | done => exact .done
  | space hc _ ih => exact .space hc ih
  | symbol htype _ ih => exact .symbol htype ih
  | string hbody _ ih =>
      refine .string (hbody.imp ?_) ih
      intro c hle
      have hlt : ∀ b : UInt8, b < 0x20 → c ≠ b := by
        rintro b hb rfl
        exact UInt8.not_lt.mpr hle hb
      exact ⟨hlt 0x09 (by decide), hlt 0x0A (by decide)⟩
  | number hnumber _ ih =>
      rcases hnumber with ⟨i, f, e, heq, hi, hf, he⟩
      exact .number ⟨i, f, e, heq, Or.inl hi, Or.inl hf, Or.inl he⟩ ih
  | boolean hword _ ih => exact .boolean hword ih
  | null _ ih => exact .null ih

end Standard

section Handler

variable {c : UInt8} {s t is value rest : List UInt8}

/-- The handler takes the body of a string, and looks for its end. -/
theorem handleString_of_body (h : Body accepted.allowed t) (rest s : List UInt8) :
    handleString 0 (t ++ byte '"' :: rest) s = some (s ++ t, rest) := by
  induction h generalizing s with
  | nil =>
      rw [List.nil_append, List.append_nil]
      unfold handleString
      rw [if_pos rfl]
  | @char c t hc hquote hbackslash _ ih =>
      have hspace : ¬ (decide (c = 0x09) || decide (c = 0x0A) || decide (c = 0x09)) = true := by
        simp only [hc.1, decide_false, hc.2, Bool.or_self, Bool.false_eq_true, not_false_eq_true]
      rw [List.cons_append]
      unfold handleString
      rw [if_neg hquote, if_neg hspace]
      simp only [if_neg hbackslash]
      rw [ih]
      simp only [List.append_assoc, List.cons_append, List.nil_append]
  | @escape c t hescape hne _ ih =>
      rw [List.cons_append, List.cons_append]
      unfold handleString
      rw [if_neg (by decide), if_neg (by decide)]
      simp only [if_true, if_pos hescape, if_neg hne]
      rw [ih]
      simp only [↓Char.isValue, List.append_assoc, List.cons_append, List.nil_append]
  | @unicode digits t hlength hdigits _ ih =>
      rw [List.cons_append, List.cons_append, List.append_assoc]
      unfold handleString
      rw [if_neg (by decide), if_neg (by decide)]
      simp only [if_true, if_pos (show byte 'u' ∈ escapes by decide)]
      rw [← hlength, handleString_digits hdigits, ih]
      simp only [↓Char.isValue, List.append_assoc, List.cons_append, List.nil_append]

/-- What the handler takes: the digits that are still missing, and the body of a string. -/
theorem body_of_handleString {n : Nat} (h : handleString n is s = some (value, rest)) :
    ∃ digits t, digits.length = n ∧ (∀ c ∈ digits, isXDigit c = true) ∧
      value = s ++ digits ++ t ∧ is = digits ++ t ++ byte '"' :: rest ∧
      Body accepted.allowed t := by
  fun_induction handleString n is s with
  | case1 => cases h
  -- One of the digits of an escape.
  | case2 n c is s hdigit ih =>
      rcases ih h with ⟨digits, t, rfl, hdigits, rfl, rfl, ht⟩
      exact ⟨c :: digits, t, rfl, List.forall_mem_cons.mpr ⟨hdigit, hdigits⟩, by simp, rfl, ht⟩
  | case3 => cases h
  | case4 is s =>
      cases h
      exact ⟨[], [], rfl, List.forall_mem_nil _, by simp only [List.append_nil], rfl, .nil⟩
  | case5 => cases h
  | case6 => cases h
  -- What comes behind the letter of an escape are its digits, or none if it has none.
  | case7 s nextChar is hescape hquote hspace ih =>
      rcases ih h with ⟨digits, t, hlength, hdigits, rfl, rfl, ht⟩
      refine ⟨[], byte '\\' :: nextChar :: (digits ++ t), rfl, List.forall_mem_nil _, by simp,
        by simp only [↓Char.isValue, List.append_assoc, List.nil_append, List.cons_append], ?_⟩
      by_cases hu : nextChar = byte 'u'
      · rw [if_pos hu] at hlength
        rw [hu]
        exact .unicode hlength hdigits ht
      · rw [if_neg hu, List.length_eq_zero_iff] at hlength
        rw [hlength, List.nil_append]
        exact .escape hescape hu ht
  | case8 => cases h
  | case9 c is s hquote hspace hbackslash ih =>
      rcases ih h with ⟨digits, t, hlength, hdigits, rfl, rfl, ht⟩
      cases List.length_eq_zero_iff.mp hlength
      simp only [Bool.or_eq_true, decide_eq_true_eq, not_or] at hspace
      exact ⟨[], c :: t, rfl, List.forall_mem_nil _, by simp, rfl,
        .char hspace.1 hquote hbackslash ht⟩

/-- What the handler takes between two quotation marks is the body of a string. -/
theorem handleString_iff :
    handleString 0 is [] = some (value, rest) ↔
      is = value ++ byte '"' :: rest ∧ Body accepted.allowed value := by
  constructor
  · intro h
    rcases body_of_handleString h with ⟨digits, t, hlength, -, rfl, rfl, ht⟩
    cases List.length_eq_zero_iff.mp hlength
    refine ⟨by simp only [List.nil_append, ↓Char.isValue, List.append_nil], ?_⟩
    simpa only [List.append_nil, List.nil_append] using ht
  · rintro ⟨rfl, hbody⟩
    rw [handleString_of_body hbody, List.nil_append]

end Handler

section Soundness

variable {c : UInt8} {d is rest : List UInt8} {new tokens : List Token}

theorem booleanWord_of_handle {s : List UInt8} (h : handleBoolean c is = some (s, rest)) :
    ∃ word ∈ booleanWords, c :: is = word ++ rest := by
  rw [handleBoolean] at h
  by_cases ht : c = byte 't'
  · rw [if_pos ht] at h
    rw [ht, (readRemaining_eq_some h).2]
    exact ⟨_, List.mem_cons_self, rfl⟩
  · rw [if_neg ht] at h
    by_cases hf : c = byte 'f'
    · rw [if_pos hf] at h
      rw [hf, (readRemaining_eq_some h).2]
      exact ⟨_, List.mem_cons_of_mem _ List.mem_cons_self, rfl⟩
    · rw [if_neg hf] at h
      cases h

theorem nullWord_of_handle {s : List UInt8} (h : handleNull c is = some (s, rest)) :
    c :: is = nullWord ++ rest := by
  rw [handleNull] at h
  by_cases hn : c = byte 'n'
  · rw [if_pos hn] at h
    rw [hn, (readRemaining_eq_some h).2]
    rfl
  · rw [if_neg hn] at h
    cases h

/-- A number with something behind it is spelled as one. -/
theorem handleNumeric_spells {r : Reading} (h : handleNumeric c is = some r) :
    (∃ number, accepted.isNumber number ∧ c :: is = number ++ r.lastReadChar :: r.rest) ∨
      r.rest = [] ∧ (r.lastReadChar = 0 ∨ isNumberEnd r.lastReadChar = true) := by
  rcases handleNumeric_eq_some h with ⟨i, f, e, t, hi, hf, -, heq, -, htook⟩
  cases htook with
  | found ht he =>
      refine Or.inl ⟨i ++ f ++ e, ⟨i, f, e, rfl, hi, hf, he⟩, ?_⟩
      rw [heq, ht]
      simp only [List.append_assoc]
  | ended ht hrest he =>
      refine Or.inr ⟨hrest, ?_⟩
      rcases handleNumeric_settles h with ⟨-, hsuffix⟩ | ⟨-, hlast⟩
      · -- What is handed back stands in the input, and there are only characters of numbers.
        refine Or.inr (numeral_chars hi hf (he.imp And.left id) _ ?_)
        rw [← ht, ← heq]
        exact List.mem_cons_of_mem _ (hsuffix.subset List.mem_cons_self)
      · exact hlast.imp id And.right

/-- The text of a token is spelled where it is read, unless it is a number with nothing behind
    it. -/
theorem readToken_spells (hspace : ¬ isWhitespace c = true)
    (h : readToken c is = some (new, rest)) :
    (∃ u, c :: is = u ++ rest ∧
        ∀ w t, Spells accepted w t → Spells accepted (types (filteredTokens new) ++ w) (u ++ t)) ∨
      ∃ s l, new = [⟨.numericValue, s⟩] ∧ rest = [l] ∧ (l = 0 ∨ isNumberEnd l = true) := by
  unfold readToken at h
  cases htype : charType c with
  | some type =>
      simp only [htype] at h
      cases h
      refine Or.inl ⟨[c], rfl, fun w t ht => ?_⟩
      have hne := charType_ne_whitespace htype
      simpa only [filteredTokens, ne_eq, decide_not, hne, decide_false, Bool.not_false,
        List.filter_cons_of_pos, List.filter_nil, List.map_cons, List.map_nil, List.cons_append,
        List.nil_append] using Spells.symbol htype ht
  | none =>
      simp only [htype, if_neg hspace] at h
      by_cases hquote : c = byte '"'
      · rw [if_pos hquote, Option.map_eq_some_iff] at h
        rcases h with ⟨⟨value, rest'⟩, hstring, heq⟩
        cases heq
        rcases handleString_iff.mp hstring with ⟨rfl, hbody⟩
        exact Or.inl ⟨quoted value, by simp [quoted, hquote], fun w t ht => .string hbody ht⟩
      rw [if_neg hquote] at h
      by_cases hnumeric : (decide (c = byte '-') || isDigit c) = true
      · rw [if_pos hnumeric, Option.map_eq_some_iff] at h
        rcases h with ⟨r, hnumber, heq⟩
        cases heq
        rcases handleNumeric_spells hnumber with ⟨number, hnumber, heq⟩ | ⟨hrest, hlast⟩
        · exact Or.inl ⟨number, heq, fun w t ht => .number hnumber ht⟩
        · exact Or.inr ⟨_, _, rfl, by rw [hrest], hlast⟩
      rw [if_neg hnumeric] at h
      by_cases hboolean : (decide (c = byte 't') || decide (c = byte 'f')) = true
      · rw [if_pos hboolean, Option.map_eq_some_iff] at h
        rcases h with ⟨result, hword, heq⟩
        cases heq
        rcases booleanWord_of_handle hword with ⟨word, hmem, heq⟩
        exact Or.inl ⟨word, heq, fun w t ht => .boolean hmem ht⟩
      rw [if_neg hboolean] at h
      by_cases hnull : c = byte 'n'
      · rw [if_pos hnull, Option.map_eq_some_iff] at h
        rcases h with ⟨result, hword, heq⟩
        cases heq
        exact Or.inl ⟨nullWord, nullWord_of_handle hword, fun w t ht => .null ht⟩
      · rw [if_neg hnull] at h
        cases h

theorem types_append (tokens tokens' : List Token) :
    types (tokens ++ tokens') = types tokens ++ types tokens' :=
  List.map_append

/-- The end of the input, or what is taken for it. -/
def Ended (rest : List UInt8) : Prop :=
  rest = [] ∨ rest.head? = some 0

/-- What is tokenized is spelled, up to the end, if it does not end with a number. -/
theorem spells_of_significantTokens (h : significantTokens d = some tokens)
    (hlast : (types tokens).getLast? ≠ some .numericValue) :
    ∃ t rest, d = t ++ rest ∧ Ended rest ∧ Spells accepted (types tokens) t := by
  induction hn : weight d using Nat.strongRecOn generalizing d tokens with
  | ind n ih =>
      subst hn
      cases d with
      | nil =>
          rw [significantTokens_stop rfl] at h
          cases h
          exact ⟨[], [], rfl, Or.inl rfl, .done⟩
      | cons c is =>
          by_cases hnul : c = 0
          · have hstop : scan (c :: is) = .stop := by rw [hnul]; rfl
            rw [significantTokens_stop hstop] at h
            cases h
            exact ⟨[], c :: is, rfl, Or.inr (congrArg some hnul), .done⟩
          by_cases hspace : isWhitespace c = true
          · rw [significantTokens_whitespace hspace] at h
            have hless : weight is < weight (c :: is) := by
              have hweight : weight (c :: is) = is.length + 2 := by
                simp only [weight, List.length_cons, List.head?_cons, Option.some.injEq, hnul,
                  ↓reduceIte]
              rw [hweight, weight]
              split <;> omega
            rcases ih (weight is) hless h hlast rfl with ⟨t, rest, rfl, hend, ht⟩
            exact ⟨c :: t, rest, rfl, hend, .space hspace ht⟩
          rcases significantTokens_eq_some hnul h with ⟨new, rest, others, hread, hothers, rfl⟩
          rcases readToken_spells hspace hread with ⟨u, heq, hspells⟩ | ⟨s, l, rfl, rfl, hl⟩
          · have hothersLast : (types others).getLast? ≠ some .numericValue := by
              intro hnumeric
              refine hlast ?_
              rw [types_append, List.getLast?_append, hnumeric, Option.some_or]
            rcases ih (weight rest) (scan_weight (scan_of_readToken hnul hread)) hothers
              hothersLast rfl with ⟨t, rest', rfl, hend, ht⟩
            refine ⟨u ++ t, rest', ?_, hend, ?_⟩
            · rw [heq, List.append_assoc]
            · rw [types_append]
              exact hspells _ t ht
          · -- The input has ended with a number, which is then the last token.
            refine absurd ?_ hlast
            have hall := significantTokens_numberEnd hl hothers
            have hne : filteredTokens [⟨.numericValue, s⟩] ++ others ≠ [] := List.cons_ne_nil _ _
            rw [types, List.getLast?_map, List.getLast?_eq_some_getLast hne, Option.map_some,
              Option.some.injEq]
            rcases List.mem_cons.mp (List.getLast_mem hne) with hfirst | hother
            · rw [hfirst]
            · exact hall _ hother

end Soundness

section Completeness

variable {c : UInt8} {w : List TokenType} {t rest : List UInt8}

/-- No number is followed by another token that begins like one: behind a number the container
    goes on or ends. -/
def NumbersApart : List TokenType → Prop
  | [] => True
  | type :: w =>
    (type = .numericValue →
      w.head? = some .comma ∨ w.head? = some .closingBraces ∨
        w.head? = some .closingSquareBrace) ∧ NumbersApart w

/-- What may follow a value in a document. -/
def Follows (w : List TokenType) : Prop :=
  (w.head? = some .comma ∨ w.head? = some .closingBraces ∨ w.head? = some .closingSquareBrace) ∧
    NumbersApart w

theorem numbersApart_stringTokens (hasValue : Bool) (h : NumbersApart w) :
    NumbersApart (stringTokens hasValue ++ w) := by
  cases hasValue <;> simpa [stringTokens, NumbersApart] using h

mutual

theorem Value.numbersApart (v : Value) {w : List TokenType} (h : Follows w) :
    NumbersApart (v.tokens ++ w) := by
  cases v with
  | emptyObject => simpa [Value.tokens, NumbersApart] using h.2
  | object members =>
      have hclosing : Follows (.closingBraces :: w) :=
        ⟨Or.inr (Or.inl rfl), by simpa [NumbersApart] using h.2⟩
      have hmembers := members.numbersApart hclosing
      simpa [Value.tokens, NumbersApart] using hmembers
  | emptyArray => simpa [Value.tokens, NumbersApart] using h.2
  | array elements =>
      have hclosing : Follows (.closingSquareBrace :: w) :=
        ⟨Or.inr (Or.inr rfl), by simpa [NumbersApart] using h.2⟩
      have helements := elements.numbersApart hclosing
      simpa only [Value.tokens, List.cons_append, List.append_assoc, List.nil_append, NumbersApart,
        reduceCtorEq, List.head?_append, List.head?_cons, Option.or_some, Option.some.injEq,
        IsEmpty.forall_iff, true_and] using helements
  | string hasValue => exact numbersApart_stringTokens hasValue h.2
  | null => simpa [Value.tokens, NumbersApart] using h.2
  | number => exact ⟨fun _ => h.1, h.2⟩
  | boolean => simpa [Value.tokens, NumbersApart] using h.2

theorem Members.numbersApart (ms : Members) {w : List TokenType} (h : Follows w) :
    NumbersApart (ms.tokens ++ w) := by
  cases ms with
  | one hasValue v =>
      have hv := v.numbersApart h
      rw [Members.tokens, List.append_assoc]
      exact numbersApart_stringTokens hasValue (by simpa [NumbersApart] using hv)
  | more hasValue v others =>
      have hcomma : Follows (.comma :: (others.tokens ++ w)) :=
        ⟨Or.inl rfl, by simpa [NumbersApart] using others.numbersApart h⟩
      have hv := v.numbersApart hcomma
      rw [Members.tokens, List.append_assoc, List.append_assoc]
      exact numbersApart_stringTokens hasValue (by simpa [NumbersApart] using hv)

theorem Elements.numbersApart (es : Elements) {w : List TokenType} (h : Follows w) :
    NumbersApart (es.tokens ++ w) := by
  cases es with
  | one v => exact v.numbersApart h
  | more v others =>
      have hcomma : Follows (.comma :: (others.tokens ++ w)) :=
        ⟨Or.inl rfl, by simpa [NumbersApart] using others.numbersApart h⟩
      have hv := v.numbersApart hcomma
      simpa only [Elements.tokens, List.append_assoc, List.cons_append] using hv

end

/-- In a document the numbers are apart. -/
theorem Value.numbersApart_tokens {v : Value} (hv : v.IsObject ∨ v.IsArray) :
    NumbersApart v.tokens := by
  cases v with
  | emptyObject => simp [Value.tokens, NumbersApart]
  | object members =>
      have hmembers := members.numbersApart (w := [.closingBraces])
        ⟨Or.inr (Or.inl rfl), by simp [NumbersApart]⟩
      simpa [Value.tokens, NumbersApart] using hmembers
  | emptyArray => simp [Value.tokens, NumbersApart]
  | array elements =>
      have helements := elements.numbersApart (w := [.closingSquareBrace])
        ⟨Or.inr (Or.inr rfl), by simp [NumbersApart]⟩
      simpa only [tokens, List.cons_append, NumbersApart, reduceCtorEq, List.head?_append,
        List.head?_cons, Option.or_some, Option.some.injEq, IsEmpty.forall_iff,
        true_and] using helements
  | _ => simp only [IsObject, IsArray, or_self] at hv

theorem charType_not_isNumberEnd {type : TokenType} (h : charType c = some type) :
    c ≠ 0 ∧ isNumberEnd c = false := by
  unfold charType at h
  split_ifs at h with h₁ h₂ h₃ h₄ h₅ h₆
  · rw [h₁]; decide
  · rw [h₂]; decide
  · rw [h₃]; decide
  · rw [h₄]; decide
  · rw [h₅]; decide
  · rw [h₆]; decide

/-- Where a container goes on or ends, there is no character of a number. -/
theorem Spells.head {lexicon : Lexicon} (h : Spells lexicon w t)
    (hw : w.head? = some .comma ∨ w.head? = some .closingBraces ∨
      w.head? = some .closingSquareBrace) :
    ∃ b t', t = b :: t' ∧ isNumberEnd b = false := by
  cases h with
  | done => simp only [List.head?_nil, reduceCtorEq, or_self] at hw
  | space hc _ =>
      refine ⟨_, _, rfl, ?_⟩
      rcases isWhitespace_iff.mp hc with rfl | rfl | rfl | rfl <;> rfl
  | symbol htype _ => exact ⟨_, _, rfl, (charType_not_isNumberEnd htype).2⟩
  | string => simp [stringTokens] at hw
  | number => simp only [List.head?_cons, Option.some.injEq, reduceCtorEq, or_self] at hw
  | boolean => simp only [List.head?_cons, Option.some.injEq, reduceCtorEq, or_self] at hw
  | null => simp only [List.head?_cons, Option.some.injEq, reduceCtorEq, or_self] at hw

theorem readToken_symbol {type : TokenType} (h : charType c = some type) (is : List UInt8) :
    readToken c is = some ([⟨type, [c]⟩], is) := by
  unfold readToken
  rw [h]

/-- A token in front of a text that can be tokenized. -/
theorem significantTokens_cons {is : List UInt8} {new others : List Token} (hnul : c ≠ 0)
    (hread : readToken c is = some (new, rest)) (hothers : significantTokens rest = some others) :
    significantTokens (c :: is) = some (filteredTokens new ++ others) := by
  rw [significantTokens_read (scan_of_readToken hnul hread), hothers, Option.map_some]

/-- What is spelled is tokenized, up to the end, if no number can be mistaken. -/
theorem significantTokens_of_spells (h : Spells accepted w t) (hw : NumbersApart w)
    (hend : Ended rest) :
    ∃ tokens, significantTokens (t ++ rest) = some tokens ∧ types tokens = w := by
  induction h with
  | done =>
      refine ⟨[], significantTokens_stop ?_, rfl⟩
      rcases hend with rfl | hhead
      · rfl
      · rcases List.head?_eq_some_iff.mp hhead with ⟨rest, rfl⟩
        rfl
  | @space w c t hc _ ih =>
      rcases ih hw with ⟨tokens, htokens, htypes⟩
      exact ⟨tokens, by rw [List.cons_append, significantTokens_whitespace hc, htokens], htypes⟩
  | @symbol w type c t htype _ ih =>
      rcases ih hw.2 with ⟨tokens, htokens, htypes⟩
      refine ⟨_, significantTokens_cons (charType_not_isNumberEnd htype).1
        (readToken_symbol htype _) htokens, ?_⟩
      simp only [filteredTokens, ne_eq, decide_not, charType_ne_whitespace htype, decide_false,
        Bool.not_false, List.filter_cons_of_pos, List.filter_nil, List.cons_append, List.nil_append,
        List.map_cons, htypes]
  | @string w body t hbody _ ih =>
      rcases ih hw.2.2.2 with ⟨tokens, htokens, htypes⟩
      have hread := readToken_quote (body ++ byte '"' :: (t ++ rest))
      rw [handleString_of_body hbody, Option.map_some] at hread
      have htext : quoted body ++ t ++ rest =
          byte '"' :: (body ++ byte '"' :: (t ++ rest)) := by
        simp only [quoted, ↓Char.isValue, List.cons_append, List.append_assoc, List.nil_append]
      rw [htext]
      refine ⟨_, significantTokens_cons (by decide) hread htokens, ?_⟩
      rw [types_append, htypes]
      rfl
  | @number w number t hnumber hspells ih =>
      rcases ih hw.2 with ⟨tokens, htokens, htypes⟩
      rcases hnumber with ⟨i, f, e, rfl, hnumeral⟩
      -- What follows the number shows its end.
      rcases hspells.head (hw.1 rfl) with ⟨b, t, rfl, hb⟩
      cases i with
      | nil => exact absurd rfl (integer_ne_nil hnumeral.integer)
      | cons c i =>
          have hchar := integer_chars hnumeral.integer c List.mem_cons_self
          have hnul : c ≠ 0 := by
            rintro rfl
            cases hchar
          have hread := readToken_numeric hchar (i ++ (f ++ (e ++ b :: (t ++ rest))))
          rw [handleNumeric_of_numeral hnumeral hb, Option.map_some] at hread
          have htext : c :: i ++ f ++ e ++ b :: t ++ rest =
              c :: (i ++ (f ++ (e ++ b :: (t ++ rest)))) := by
            simp only [List.cons_append, List.append_assoc]
          rw [htext]
          refine ⟨_, significantTokens_cons hnul hread htokens, ?_⟩
          rw [types_append, htypes]
          rfl
  | @boolean w word t hword _ ih =>
      rcases ih hw.2 with ⟨tokens, htokens, htypes⟩
      have hread : ∃ c is value, word ++ t ++ rest = c :: is ∧ c ≠ 0 ∧
          readToken c is = some ([⟨.booleanValue, value⟩], t ++ rest) := by
        rcases List.mem_pair.mp hword with rfl | rfl
        · exact ⟨_, _, _, rfl, by decide, rfl⟩
        · exact ⟨_, _, _, rfl, by decide, rfl⟩
      rcases hread with ⟨c, is, value, htext, hnul, hread⟩
      rw [htext]
      refine ⟨_, significantTokens_cons hnul hread htokens, ?_⟩
      rw [types_append, htypes]
      rfl
  | @null w t _ ih =>
      rcases ih hw.2 with ⟨tokens, htokens, htypes⟩
      refine ⟨_, significantTokens_cons (c := byte 'n') (by decide) rfl htokens, ?_⟩
      rw [types_append, htypes]
      rfl

/-- The texts that are accepted are those of the documents within the limit, with anything
    behind a zero byte. -/
theorem parseText_iff_spells (input : List UInt8) :
    parseText input = true ↔ ∃ t rest, input = t ++ rest ∧ Ended rest ∧
      ∃ v : Value, (v.IsObject ∨ v.IsArray) ∧ v.height ≤ maxIndentLevel ∧
        Spells accepted v.tokens t := by
  rw [parseText_iff]
  constructor
  · rintro ⟨tokens, htokens, v, hv, htypes, hheight⟩
    have hlast : (types tokens).getLast? ≠ some .numericValue := by
      rw [htypes]
      rcases Value.getLast?_tokens hv with h | h
      · rw [h]; decide
      · rw [h]; decide
    rcases spells_of_significantTokens htokens hlast with ⟨t, rest, rfl, hend, ht⟩
    exact ⟨t, rest, rfl, hend, v, hv, hheight, htypes ▸ ht⟩
  · rintro ⟨t, rest, rfl, hend, v, hv, hheight, ht⟩
    rcases significantTokens_of_spells ht (v.numbersApart_tokens hv) hend with
      ⟨tokens, htokens, htypes⟩
    exact ⟨tokens, htokens, v, hv, htypes, hheight⟩

end Completeness

end Json

end CodingChallenges
