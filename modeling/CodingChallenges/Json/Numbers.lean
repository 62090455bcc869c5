import CodingChallenges.Json.Numerals

/-!
# JSON Numbers

Which texts are accepted as numbers.

A text of the characters that numbers are made of is accepted if it has the three parts
that the handlers take for those of a number, because then it is one token. A text that
is not taken as a whole gives a second token at once, and no element of an array has
two. So the texts that are accepted without being numbers are those in which one of the
parts is not as it should be.

## Main definitions

* `IsNumber`: The numbers.
* `IsMisshapen`: The texts with a part that is taken, but should not be.

## Theorems

* `parseText_numeral`: The texts that are accepted.
* `parseText_number_iff`: When these are the numbers.
-/

namespace CodingChallenges

namespace Json

/-- The numbers of the standard. -/
def IsNumber (t : List UInt8) : Prop :=
  ∃ i f e, t = i ++ f ++ e ∧ IsInteger i ∧ IsFraction f ∧ IsExponent e

/-- There is no digit behind the minus sign, there is none behind the point, or there is
    one between the mark and the sign. -/
def IsMisshapen (t : List UInt8) : Prop :=
  ∃ i f e, t = i ++ f ++ e ∧ IsNumeral i f e ∧
    (i = [byte '-'] ∨ f = [byte '.'] ∨ SignAmongDigits e)

variable {c : UInt8} {i f e is t : List UInt8}

theorem not_isInteger_minus : ¬ IsInteger [byte '-'] := by
  rintro ((h | ⟨d, ds, h, hdigit, -⟩) | ⟨ds, h, (rfl | ⟨d, ds', rfl, -⟩)⟩)
  · cases h
  · cases h
    cases hdigit
  · cases h
  · cases h

theorem not_isFraction_point : ¬ IsFraction [byte '.'] := by
  rintro (h | ⟨ds, h, hne, -⟩)
  · cases h
  · cases h
    exact hne rfl

theorem not_isExponent_of_signAmongDigits (h : SignAmongDigits e) : ¬ IsExponent e := by
  rcases h with ⟨mark, ds, sign, ds', rfl, -, hne, hds, hsign, -⟩
  rintro (h | ⟨mark', sign', ds'', h, -, hsign', -, hds''⟩)
  · cases h
  rw [List.cons.injEq] at h
  rcases hsign' with rfl | ⟨c, rfl, hc⟩
  · -- All that follows the mark would be digits.
    have hdigit := hds'' sign (by rw [List.nil_append] at h; rw [← h.2]; simp)
    rw [hsign.not_digit] at hdigit
    cases hdigit
  · -- The sign would follow the mark at once.
    cases ds with
    | nil => exact hne rfl
    | cons d ds =>
        rw [List.cons_append, List.singleton_append, List.cons.injEq] at h
        have hdigit := hds d List.mem_cons_self
        rw [h.2.1, hc.not_digit] at hdigit
        cases hdigit

/-- A text with a misshapen part is not a number. -/
theorem IsMisshapen.not_isNumber (h : IsMisshapen t) : ¬ IsNumber t := by
  rcases h with ⟨i, f, e, rfl, hnumeral, hpart⟩
  rintro ⟨i', f', e', heq, hi, hf, he⟩
  rcases hnumeral.unique ⟨Or.inl hi, Or.inl hf, Or.inl he⟩ heq with ⟨rfl, rfl, rfl⟩
  rcases hpart with rfl | rfl | hsign
  · exact not_isInteger_minus hi
  · exact not_isFraction_point hf
  · exact not_isExponent_of_signAmongDigits hsign he

/-- Behind a number in an array comes the end or the next element. -/
theorem Value.tokens_number {v : Value} {w : List TokenType}
    (h : .openingSquareBrace :: .numericValue :: w = v.tokens) :
    w.head? = some .closingSquareBrace ∨ w.head? = some .comma := by
  cases v with
  | array elements =>
      rw [Value.tokens, List.cons_append, List.cons.injEq] at h
      cases elements with
      | one v =>
          have hrest : w = [.closingSquareBrace] := (Value.tokens_append_inj .number v h.2).2
          rw [hrest]
          exact Or.inl rfl
      | more v others =>
          rw [Elements.tokens, List.append_assoc] at h
          have hrest : w = .comma :: others.tokens ++ [.closingSquareBrace] :=
            (Value.tokens_append_inj .number v h.2).2
          rw [hrest]
          exact Or.inr rfl
  | emptyArray => cases h
  | string hasValue => cases hasValue <;> cases h
  | _ => cases h

/-- A byte of a text with one behind it is the last one or belongs to the text. -/
theorem eq_or_mem_of_concat {b x : UInt8} {u rest : List UInt8}
    (h : t ++ [b] = u ++ x :: rest) : t = u ∨ x ∈ t := by
  rcases List.eq_nil_or_concat rest with rfl | ⟨rest, b', rfl⟩
  · exact Or.inl (List.append_inj' h rfl).1
  · rw [List.concat_eq_append, ← List.cons_append, ← List.append_assoc] at h
    rw [(List.append_inj' h rfl).1]
    exact Or.inr (List.mem_append_right u List.mem_cons_self)

/-- The texts that are accepted as the only element of an array, if they have only the
    characters of numbers. -/
theorem parseText_numeral (hne : t ≠ []) (ht : ∀ c ∈ t, isNumberEnd c = true) :
    parseText (inArray t) = true ↔ ∃ i f e, t = i ++ f ++ e ∧ IsNumeral i f e := by
  rw [parseText_iff, significantTokens_inArray]
  constructor
  · rintro ⟨tokens, htokens, v, -, htypes, -⟩
    rcases Option.map_eq_some_iff.mp htokens with ⟨others, hothers, rfl⟩
    cases t with
    | nil => exact absurd rfl hne
    | cons c t =>
      rw [List.cons_append] at hothers
      rcases significantTokens_numeric (ht c List.mem_cons_self) hothers with
        ⟨r, more, hnumber, hmore, rfl⟩
      rcases handleNumeric_eq_some hnumber with ⟨i, f, e, y, hi, hf, -, heq, -, htook⟩
      cases htook with
      | ended hy _ he =>
          -- The closing bracket is none of the characters of a number.
          have hmem : byte ']' ∈ i ++ (f ++ e) := by
            rw [← hy, ← heq]
            simp only [↓Char.isValue, List.mem_cons, List.mem_append, List.not_mem_nil, or_false,
              or_true]
          cases numeral_chars hi hf (he.imp And.left id) _ hmem
      | found hy he =>
          rw [hy, ← List.append_assoc, ← List.cons_append, ← List.append_assoc] at heq
          rcases eq_or_mem_of_concat heq with htext | hmem
          · exact ⟨i, f, e, htext, hi, hf, he⟩
          -- What is left of the text begins with another token, which can only be a number.
          rcases significantTokens_numeric (ht _ hmem) hmore with ⟨r', last, -, -, rfl⟩
          rcases Value.tokens_number htypes with h | h
          · cases h
          · cases h
  · rintro ⟨i, f, e, rfl, h⟩
    cases i with
    | nil => exact absurd rfl (integer_ne_nil h.integer)
    | cons c i =>
        have hchar := integer_chars h.integer c List.mem_cons_self
        have hnul : c ≠ 0 := by
          rintro rfl
          cases hchar
        have hread := readToken_numeric hchar (i ++ (f ++ (e ++ [byte ']'])))
        rw [handleNumeric_of_numeral h rfl, Option.map_some] at hread
        rw [List.append_assoc, List.append_assoc, List.cons_append,
          significantTokens_read (scan_of_readToken hnul hread),
          significantTokens_closing]
        exact ⟨_, rfl, .array (.one .number), Or.inr trivial, rfl, by decide⟩

/-- The check accepts a text as a number where it should, unless one of the parts is
    misshapen. -/
theorem parseText_number_iff (hne : t ≠ []) (ht : ∀ c ∈ t, isNumberEnd c = true) :
    (parseText (inArray t) = true ↔ IsNumber t) ↔ ¬ IsMisshapen t := by
  rw [parseText_numeral hne ht]
  constructor
  · rintro h hmisshapen
    rcases hmisshapen with ⟨i, f, e, heq, hnumeral, hpart⟩
    exact IsMisshapen.not_isNumber ⟨i, f, e, heq, hnumeral, hpart⟩ (h.mp ⟨i, f, e, heq, hnumeral⟩)
  · intro hshape
    constructor
    · rintro ⟨i, f, e, heq, h⟩
      refine ⟨i, f, e, heq, h.integer.resolve_right ?_, h.fraction.resolve_right ?_,
        h.exponent.resolve_right ?_⟩
      · exact fun hminus => hshape ⟨i, f, e, heq, h, Or.inl hminus⟩
      · exact fun hpoint => hshape ⟨i, f, e, heq, h, Or.inr (Or.inl hpoint)⟩
      · exact fun hsign => hshape ⟨i, f, e, heq, h, Or.inr (Or.inr hsign)⟩
    · rintro ⟨i, f, e, heq, hi, hf, he⟩
      exact ⟨i, f, e, heq, Or.inl hi, Or.inl hf, Or.inl he⟩

/-- A number with a sign. -/
theorem parseText_number_iff_negative :
    ([byte '-', byte '7'] ≠ [] ∧ ∀ c ∈ [byte '-', byte '7'], isNumberEnd c = true) ∧
      ((parseText (inArray [byte '-', byte '7']) = true ↔ IsNumber [byte '-', byte '7']) ↔
        ¬ IsMisshapen [byte '-', byte '7']) := by
  have hne : [byte '-', byte '7'] ≠ [] := List.cons_ne_nil _ _
  have ht : ∀ c ∈ [byte '-', byte '7'], isNumberEnd c = true := List.all_eq_true.mp (by decide)
  exact ⟨⟨hne, ht⟩, parseText_number_iff hne ht⟩

/-- A minus sign is accepted as a number. -/
theorem not_parseText_number :
    ¬ ∀ t, t ≠ [] → (∀ c ∈ t, isNumberEnd c = true) →
      (parseText (inArray t) = true ↔ IsNumber t) := by
  intro h
  have hnumeral : IsNumeral [byte '-'] [] [] :=
    ⟨Or.inr rfl, Or.inl (Or.inl rfl), Or.inl (Or.inl rfl)⟩
  have hne : [byte '-'] ≠ [] := List.cons_ne_nil _ _
  have ht : ∀ c ∈ [byte '-'], isNumberEnd c = true := List.forall_mem_singleton.mpr rfl
  have haccept := (parseText_numeral hne ht).mpr ⟨_, _, _, rfl, hnumeral⟩
  exact IsMisshapen.not_isNumber ⟨_, _, _, rfl, hnumeral, Or.inl rfl⟩ ((h _ hne ht).mp haccept)

end Json

end CodingChallenges
