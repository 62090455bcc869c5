import Mathlib.Algebra.Ring.Parity
import CodingChallenges.Json.Suffix

/-!
# JSON Strings

What may stand between the quotation marks of a string, and what `handle_string` takes
there. Both read the escapes alike. They differ in the control characters: no string
has one, but the handler only looks for the tab and the line feed. It compares with the
tab twice, and every other control character passes.

A quotation mark in a text is part of it and not its end if an odd number of
backslashes stands in front of it, since all but the last of these escape each other.
So what is asked of every quotation mark in a text is that there is such a number.

## Main definitions

* `Escaped`: Every backslash begins an escape.
* `IsStringBody`: What stands between the quotation marks of a string.
* `QuotesEscaped`: No quotation mark ends the text.
* `quoted`: A text between quotation marks.

## Theorems

* `handleString_eq_some`: What the handler takes has its escapes in order.
* `handleString_of_escaped`: The handler takes what has.
* `parseText_quoted`: The texts that are accepted.
* `parseText_quoted_iff`: When these are the strings.
-/

namespace CodingChallenges

namespace Json

/-- Every backslash begins one of the escapes. -/
inductive Escaped : List UInt8 → Prop
  | nil : Escaped []
  | char {c : UInt8} {t : List UInt8} : c ≠ byte '\\' → Escaped t → Escaped (c :: t)
  | escape {c : UInt8} {t : List UInt8} :
      c ∈ escapes → c ≠ byte 'u' → Escaped t → Escaped (byte '\\' :: c :: t)
  | unicode {digits t : List UInt8} :
      digits.length = 4 → (∀ c ∈ digits, isXDigit c = true) → Escaped t →
      Escaped (byte '\\' :: byte 'u' :: (digits ++ t))

/-- No control characters, and every backslash begins one of the escapes. -/
def IsStringBody (t : List UInt8) : Prop :=
  (∀ c ∈ t, 0x20 ≤ c) ∧ Escaped t

/-- How many backslashes there are at the end of a text. -/
def backslashes (t : List UInt8) : Nat :=
  (t.reverse.takeWhile (· = byte '\\')).length

/-- In front of every quotation mark there is an odd number of backslashes. -/
def QuotesEscaped (t : List UInt8) : Prop :=
  ∀ u v, t = u ++ byte '"' :: v → Odd (backslashes u)

/-- A text between quotation marks. -/
def quoted (t : List UInt8) : List UInt8 :=
  byte '"' :: (t ++ [byte '"'])

variable {c : UInt8} {s t u is value rest : List UInt8}

/-! ### Backslashes -/

theorem backslashes_concat (u : List UInt8) (c : UInt8) :
    backslashes (u ++ [c]) = if c = byte '\\' then backslashes u + 1 else 0 := by
  rw [backslashes, List.reverse_concat]
  by_cases hc : c = byte '\\'
  · rw [if_pos hc, List.takeWhile_cons, if_pos (decide_eq_true hc)]
    rfl
  · rw [if_neg hc, List.takeWhile_cons, if_neg (mt of_decide_eq_true hc)]
    rfl

theorem backslashes_append (u : List UInt8) (hne : t ≠ []) (ht : ∀ c ∈ t, c ≠ byte '\\') :
    backslashes (u ++ t) = 0 := by
  rw [← List.dropLast_concat_getLast hne, ← List.append_assoc, backslashes_concat,
    if_neg (ht _ (List.getLast_mem hne))]

theorem isXDigit_ne_backslash (hc : isXDigit c = true) : c ≠ byte '\\' := by
  rintro rfl
  cases hc

/-- Behind a text with its escapes in order, the backslashes still come in pairs. -/
theorem Escaped.even (ht : Escaped t) (hu : Even (backslashes u)) :
    Even (backslashes (u ++ t)) := by
  induction ht generalizing u with
  | nil => rwa [List.append_nil]
  | @char c t hc _ ih =>
      rw [List.append_cons]
      refine ih ?_
      rw [backslashes_concat, if_neg hc]
      exact Even.zero
  | @escape c t _ _ _ ih =>
      rw [List.append_cons, List.append_cons]
      refine ih ?_
      rw [backslashes_concat]
      -- An escaped backslash makes a pair of its own; any other letter ends the row.
      by_cases hc : c = byte '\\'
      · rw [if_pos hc, backslashes_concat, if_pos rfl]
        exact hu.add_one.add_one
      · rw [if_neg hc]
        exact Even.zero
  | @unicode digits t hlength hdigits _ ih =>
      rw [List.append_cons, List.append_cons, ← List.append_assoc]
      refine ih ?_
      have hne : digits ≠ [] := by
        rintro rfl
        cases hlength
      rw [backslashes_append _ hne fun c hc => isXDigit_ne_backslash (hdigits c hc)]
      exact Even.zero

/-- A text with its escapes in order has no quotation mark behind it that belongs to it. -/
theorem Escaped.not_odd (ht : Escaped t) : ¬ Odd (backslashes t) := by
  rw [Nat.not_odd_iff_even]
  exact ht.even (u := []) Even.zero

/-! ### The handler -/

theorem le_of_mem_escapes (hc : c ∈ escapes) : 0x20 ≤ c := by
  simp only [escapes, List.mem_cons, List.not_mem_nil, or_false] at hc
  rcases hc with rfl | rfl | rfl | rfl | rfl | rfl | rfl | rfl | rfl <;> decide

theorem le_of_isXDigit (hc : isXDigit c = true) : 0x20 ≤ c := by
  simp only [isXDigit, isDigit, Bool.or_eq_true, Bool.and_eq_true, decide_eq_true_eq] at hc
  rcases hc with (⟨hle, -⟩ | ⟨hle, -⟩) | ⟨hle, -⟩
  · exact UInt8.le_trans (by decide) hle
  · exact UInt8.le_trans (by decide) hle
  · exact UInt8.le_trans (by decide) hle

/-- An escape has no control characters. -/
theorem not_mem_escape {b : UInt8} {digits : List UInt8} (hb : b < 0x20) (hc : c ∈ escapes)
    (hdigits : ∀ c ∈ digits, isXDigit c = true) (ht : b ∉ t) :
    b ∉ byte '\\' :: c :: (digits ++ t) := by
  intro hmem
  rw [List.mem_cons, List.mem_cons, List.mem_append] at hmem
  rcases hmem with rfl | rfl | hdigit | hrest
  · exact absurd hb (by decide)
  · exact UInt8.not_lt.mpr (le_of_mem_escapes hc) hb
  · exact UInt8.not_lt.mpr (le_of_isXDigit (hdigits b hdigit)) hb
  · exact ht hrest

/-- What the handler takes has its escapes in order, and it has looked for two of the
    control characters. -/
theorem handleString_eq_some {n : Nat} (h : handleString n is s = some (value, rest)) :
    ∃ digits t, digits.length = n ∧ (∀ c ∈ digits, isXDigit c = true) ∧
      value = s ++ digits ++ t ∧ is = digits ++ t ++ byte '"' :: rest ∧
      Escaped t ∧ 0x09 ∉ t ∧ 0x0A ∉ t := by
  fun_induction handleString n is s with
  | case1 => cases h
  -- One of the digits of an escape.
  | case2 n c is s hdigit ih =>
      rcases ih h with ⟨digits, t, rfl, hdigits, rfl, rfl, ht⟩
      refine ⟨c :: digits, t, rfl, ?_, by simp, rfl, ht⟩
      intro c' hc'
      rcases List.mem_cons.mp hc' with rfl | hmem
      · exact hdigit
      · exact hdigits c' hmem
  | case3 => cases h
  | case4 is s =>
      cases h
      exact ⟨[], [], rfl, List.forall_mem_nil _, by simp, rfl, .nil, List.not_mem_nil,
        List.not_mem_nil⟩
  | case5 => cases h
  | case6 => cases h
  -- What comes behind the letter of an escape are its digits, or none if it has none.
  | case7 s nextChar is hescape hquote hspace ih =>
      rcases ih h with ⟨digits, t, hlength, hdigits, rfl, rfl, ht, htab, hfeed⟩
      refine ⟨[], byte '\\' :: nextChar :: (digits ++ t), rfl, List.forall_mem_nil _, by simp,
        by simp, ?_, ?_, ?_⟩
      · by_cases hu : nextChar = byte 'u'
        · rw [if_pos hu] at hlength
          rw [hu]
          exact .unicode hlength hdigits ht
        · rw [if_neg hu, List.length_eq_zero_iff] at hlength
          rw [hlength, List.nil_append]
          exact .escape hescape hu ht
      · exact not_mem_escape (by decide) hescape hdigits htab
      · exact not_mem_escape (by decide) hescape hdigits hfeed
  | case8 => cases h
  | case9 c is s hquote hspace hbackslash ih =>
      rcases ih h with ⟨digits, t, hlength, hdigits, rfl, rfl, ht, htab, hfeed⟩
      cases List.length_eq_zero_iff.mp hlength
      simp only [Bool.or_eq_true, decide_eq_true_eq, not_or] at hspace
      refine ⟨[], c :: t, rfl, List.forall_mem_nil _, by simp, rfl, .char hbackslash ht, ?_, ?_⟩
      · exact List.not_mem_cons_of_ne_of_not_mem (Ne.symm hspace.1.1) htab
      · exact List.not_mem_cons_of_ne_of_not_mem (Ne.symm hspace.1.2) hfeed

theorem handleString_digits {digits : List UInt8} (hdigits : ∀ c ∈ digits, isXDigit c = true)
    (is s : List UInt8) :
    handleString digits.length (digits ++ is) s = handleString 0 is (s ++ digits) := by
  induction digits generalizing s with
  | nil => rw [List.append_nil]; rfl
  | cons c digits ih =>
      rw [List.forall_mem_cons] at hdigits
      rw [List.length_cons, List.cons_append, handleString, if_pos hdigits.1, ih hdigits.2]
      simp only [List.append_assoc, List.cons_append, List.nil_append]

/-- The handler takes a text with its escapes in order that has neither of these two. -/
theorem handleString_of_escaped (ht : Escaped t) (htab : 0x09 ∉ t) (hfeed : 0x0A ∉ t)
    (hu : Even (backslashes u)) (hquotes : QuotesEscaped (u ++ t)) (rest s : List UInt8) :
    handleString 0 (t ++ byte '"' :: rest) s = some (s ++ t, rest) := by
  -- The text in front has pairs of backslashes only, so a quotation mark cannot come next.
  induction ht generalizing u s with
  | nil =>
      rw [List.nil_append, List.append_nil]
      unfold handleString
      rw [if_pos rfl]
  | @char c t hc ht ih =>
      have heven := (Escaped.char hc .nil).even hu
      rw [List.append_cons] at hquotes
      have hquote : ¬ c = byte '"' := by
        rintro rfl
        exact Nat.not_odd_iff_even.mpr hu (hquotes u t (List.append_cons ..).symm)
      rw [List.mem_cons, not_or] at htab hfeed
      have hspace : ¬ (decide (c = 0x09) || decide (c = 0x0A) || decide (c = 0x09)) = true := by
        simp only [Ne.symm htab.1, decide_false, Ne.symm hfeed.1, Bool.or_self, Bool.false_eq_true,
          not_false_eq_true]
      rw [List.cons_append]
      unfold handleString
      rw [if_neg hquote, if_neg hspace]
      simp only [if_neg hc]
      rw [ih htab.2 hfeed.2 heven hquotes]
      simp only [List.append_assoc, List.cons_append, List.nil_append]
  | @escape c t hescape hc ht ih =>
      have heven := (Escaped.escape hescape hc .nil).even hu
      rw [List.append_cons, List.append_cons, List.append_assoc u] at hquotes
      simp only [List.mem_cons, not_or] at htab hfeed
      rw [List.cons_append, List.cons_append]
      unfold handleString
      rw [if_neg (by decide), if_neg (by decide)]
      simp only [if_true, if_pos hescape, if_neg hc]
      rw [ih htab.2.2 hfeed.2.2 heven hquotes]
      simp only [↓Char.isValue, List.append_assoc, List.cons_append, List.nil_append]
  | @unicode digits t hlength hdigits ht ih =>
      have heven := (Escaped.unicode hlength hdigits .nil).even hu
      rw [List.append_nil] at heven
      rw [List.append_cons, List.append_cons, ← List.append_assoc, List.append_assoc u,
        List.append_assoc u] at hquotes
      simp only [List.mem_cons, List.mem_append, not_or] at htab hfeed
      rw [List.cons_append, List.cons_append, List.append_assoc]
      unfold handleString
      rw [if_neg (by decide), if_neg (by decide)]
      simp only [if_true, if_pos (show byte 'u' ∈ escapes by decide)]
      rw [← hlength, handleString_digits hdigits, ih htab.2.2.2 hfeed.2.2.2 heven hquotes]
      simp only [↓Char.isValue, List.append_assoc, List.cons_append, List.nil_append]

/-- The text that is taken ends with the quotation mark behind it, and not before. -/
theorem handleString_eq_text (hquotes : QuotesEscaped t) (hrest : byte '"' ∉ rest)
    {rest' : List UInt8}
    (h : handleString 0 (t ++ byte '"' :: rest) [] = some (value, rest')) :
    Escaped t ∧ 0x09 ∉ t ∧ 0x0A ∉ t := by
  rcases handleString_eq_some h with ⟨digits, t', hlength, -, -, heq, ht, htab, hfeed⟩
  rw [List.length_eq_zero_iff.mp hlength, List.nil_append, List.append_eq_append_iff] at heq
  rcases heq with ⟨w, rfl, hw⟩ | ⟨w, rfl, hw⟩
  · cases w with
    | nil =>
        rw [List.append_nil] at ht htab hfeed
        exact ⟨ht, htab, hfeed⟩
    | cons b w =>
        -- There is no second quotation mark at which the text could have ended.
        rw [List.cons_append, List.cons.injEq] at hw
        rw [hw.2] at hrest
        exact absurd (List.mem_append_right w List.mem_cons_self) hrest
  · cases w with
    | nil =>
        rw [List.append_nil]
        exact ⟨ht, htab, hfeed⟩
    | cons b w =>
        rw [List.cons_append, List.cons.injEq] at hw
        rw [← hw.1] at hquotes
        exact absurd (hquotes t' w rfl) ht.not_odd

/-! ### Documents with one string -/

theorem readToken_quote (is : List UInt8) :
    readToken (byte '"') is = (handleString 0 is []).map fun result =>
      ([⟨.dblQuote, [byte '"']⟩, ⟨.stringValue, result.1⟩, ⟨.dblQuote, [byte '"']⟩], result.2) :=
  rfl

/-- The texts that are accepted between quotation marks. -/
theorem parseText_quoted (hquotes : QuotesEscaped t) :
    parseText (inArray (quoted t)) = true ↔ Escaped t ∧ 0x09 ∉ t ∧ 0x0A ∉ t := by
  have htext : quoted t ++ [byte ']'] = byte '"' :: (t ++ byte '"' :: [byte ']']) := by
    simp only [quoted, ↓Char.isValue, List.cons_append, List.append_assoc, List.nil_append]
  rw [parseText_iff, significantTokens_inArray, htext]
  constructor
  · rintro ⟨tokens, htokens, -⟩
    rcases Option.map_eq_some_iff.mp htokens with ⟨others, hothers, -⟩
    rcases significantTokens_eq_some (by decide) hothers with ⟨new, rest, -, hread, -⟩
    rw [readToken_quote, Option.map_eq_some_iff] at hread
    rcases hread with ⟨result, hstring, -⟩
    exact handleString_eq_text hquotes (by decide) hstring
  · rintro ⟨ht, htab, hfeed⟩
    have hstring := handleString_of_escaped ht htab hfeed (u := []) Even.zero hquotes [byte ']'] []
    have hread := readToken_quote (t ++ byte '"' :: [byte ']'])
    rw [hstring, Option.map_some] at hread
    rw [significantTokens_read (scan_of_readToken (by decide) hread), significantTokens_closing]
    exact ⟨_, rfl, .array (.one (.string true)), Or.inr trivial, rfl, by decide⟩

/-- The check accepts a text as a string where it should, unless control characters other
    than the tab and the line feed are all that is wrong with it. -/
theorem parseText_quoted_iff (hquotes : QuotesEscaped t) :
    (parseText (inArray (quoted t)) = true ↔ IsStringBody t) ↔
      ((∃ c ∈ t, c < 0x20) → 0x09 ∈ t ∨ 0x0A ∈ t ∨ ¬ Escaped t) := by
  rw [parseText_quoted hquotes]
  constructor
  · rintro h ⟨c, hc, hlt⟩
    by_contra hnot
    rw [not_or, not_or, not_not] at hnot
    have hbody := h.mp ⟨hnot.2.2, hnot.1, hnot.2.1⟩
    exact UInt8.not_lt.mpr (hbody.1 c hc) hlt
  · intro h
    constructor
    · rintro ⟨ht, htab, hfeed⟩
      refine ⟨fun c hc => UInt8.not_lt.mp fun hlt => ?_, ht⟩
      rcases h ⟨c, hc, hlt⟩ with hmem | hmem | hnot
      · exact htab hmem
      · exact hfeed hmem
      · exact hnot ht
    · rintro ⟨hcontrol, ht⟩
      exact ⟨ht, fun htab => absurd (hcontrol _ htab) (by decide),
        fun hfeed => absurd (hcontrol _ hfeed) (by decide)⟩

/-- An escaped quotation mark is part of a string. -/
theorem parseText_quoted_iff_quote :
    QuotesEscaped [byte '\\', byte '"'] ∧
      ((parseText (inArray (quoted [byte '\\', byte '"'])) = true ↔
          IsStringBody [byte '\\', byte '"']) ↔
        ((∃ c ∈ [byte '\\', byte '"'], c < 0x20) →
          0x09 ∈ [byte '\\', byte '"'] ∨ 0x0A ∈ [byte '\\', byte '"'] ∨
            ¬ Escaped [byte '\\', byte '"'])) := by
  have hquotes : QuotesEscaped [byte '\\', byte '"'] := by
    intro u v h
    -- The quotation mark is the second of the two bytes.
    rcases u with - | ⟨b, - | ⟨b', u⟩⟩
    · cases h
    · cases h
      decide
    · cases u <;> cases h
  exact ⟨hquotes, parseText_quoted_iff hquotes⟩

/-- A carriage return is accepted between quotation marks. -/
theorem not_parseText_quoted :
    ¬ ∀ t, QuotesEscaped t → (parseText (inArray (quoted t)) = true ↔ IsStringBody t) := by
  intro h
  have hquotes : QuotesEscaped [0x0D] := by
    intro u v h
    rcases u with - | ⟨b, u⟩
    · cases h
    · cases u <;> cases h
  have haccept := (parseText_quoted hquotes).mpr
    ⟨.char (by decide) .nil, by decide, by decide⟩
  exact absurd (((h _ hquotes).mp haccept).1 0x0D (by decide)) (by decide)

end Json

end CodingChallenges
