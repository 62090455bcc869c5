import CodingChallenges.Json.Completeness

/-!
# Nesting and Levels

The limit of the parser is meant to be one on how deep containers are nested. It is
one on the height of documents, to which long lists contribute as well: the parser
goes one level deeper for every element of an array that it has passed, and for every
member of an object.

A container has only one tree, so the height belongs to what is written. Trees are told
apart token by token, by what each begins with and, for the lists, by whether a comma
follows.

## Main definitions

* `Value.nesting`: How deep the containers of a value are nested.

## Theorems

* `Value.tokens_injective`: A value is determined by how it is written.
* `parse_document_iff`: Which documents the parser accepts.
* `parse_numbers`: Width alone is enough to get past the limit.
-/

namespace CodingChallenges

namespace Json

mutual

/-- How deep the containers of a value are nested. -/
def Value.nesting : Value → Nat
  | .emptyObject => 1
  | .object members => 1 + members.nesting
  | .emptyArray => 1
  | .array elements => 1 + elements.nesting
  | .string _ | .null | .number | .boolean => 0

/-- How deep the values of the members are nested. -/
def Members.nesting : Members → Nat
  | .one _ v => v.nesting
  | .more _ v others => max v.nesting others.nesting

/-- How deep the elements are nested. -/
def Elements.nesting : Elements → Nat
  | .one v => v.nesting
  | .more v others => max v.nesting others.nesting

end

@[simp] theorem head?_stringTokens (hasValue : Bool) :
    (stringTokens hasValue).head? = some .dblQuote := by
  cases hasValue <;> rfl

theorem stringTokens_append_inj {b b' : Bool} {r r' : List TokenType}
    (h : stringTokens b ++ r = stringTokens b' ++ r') : b = b' ∧ r = r' := by
  cases b <;> cases b' <;> simp_all [stringTokens]

@[simp] theorem Members.head?_tokens (ms : Members) : ms.tokens.head? = some .dblQuote := by
  cases ms <;> simp [Members.tokens]

theorem Value.head?_tokens (v : Value) :
    ∃ t, v.tokens.head? = some t ∧ t ≠ .closingSquareBrace := by
  cases v <;> simp [Value.tokens]

theorem Elements.head?_tokens (es : Elements) :
    ∃ t, es.tokens.head? = some t ∧ t ≠ .closingSquareBrace := by
  cases es with
  | one v => exact v.head?_tokens
  | more v others =>
      rcases v.head?_tokens with ⟨t, ht, hne⟩
      exact ⟨t, by simp [Elements.tokens, ht], hne⟩

mutual

theorem Value.tokens_append_inj (v v' : Value) {r r' : List TokenType}
    (h : v.tokens ++ r = v'.tokens ++ r') : v = v' ∧ r = r' := by
  -- The first token tells what the value is, except that an empty container begins as one
  -- with contents does; there the second token does.
  have hhead := congrArg List.head? h
  cases v with
  | object members =>
      cases v' with
      | object members' =>
          simp only [Value.tokens, List.cons_append, List.append_assoc, List.cons.injEq] at h
          rcases Members.tokens_append_inj members members' (by simp) (by simp) h.2 with
            ⟨rfl, hrest⟩
          exact ⟨rfl, (List.cons.inj hrest).2⟩
      | emptyObject =>
          have hhead' := congrArg (fun w => w.tail.head?) h
          simp only [Value.tokens, List.cons_append, List.append_assoc, List.nil_append,
            List.tail_cons, List.head?_append, Members.head?_tokens, List.head?_cons,
            Option.or_some, Option.getD_some, Option.some.injEq, reduceCtorEq] at hhead'
      | _ => simp [Value.tokens] at hhead
  | emptyObject =>
      cases v' with
      | object members' =>
          have hhead' := congrArg (fun w => w.tail.head?) h
          simp only [Value.tokens, List.cons_append, List.nil_append, List.tail_cons,
            List.head?_cons, List.append_assoc, List.head?_append, Members.head?_tokens,
            Option.or_some, Option.getD_some, Option.some.injEq, reduceCtorEq] at hhead'
      | emptyObject => exact ⟨rfl, List.append_cancel_left h⟩
      | _ => simp [Value.tokens] at hhead
  | array elements =>
      cases v' with
      | array elements' =>
          simp only [Value.tokens, List.cons_append, List.append_assoc, List.cons.injEq] at h
          rcases Elements.tokens_append_inj elements elements' (by simp) (by simp) h.2 with
            ⟨rfl, hrest⟩
          exact ⟨rfl, (List.cons.inj hrest).2⟩
      | emptyArray =>
          have hhead' := congrArg (fun w => w.tail.head?) h
          rcases elements.head?_tokens with ⟨t, ht, hne⟩
          simp only [Value.tokens, List.cons_append, List.append_assoc, List.nil_append,
            List.tail_cons, List.head?_append, ht, List.head?_cons, Option.or_some,
            Option.getD_some, Option.some.injEq, hne] at hhead'
      | _ => simp [Value.tokens] at hhead
  | emptyArray =>
      cases v' with
      | array elements' =>
          have hhead' := congrArg (fun w => w.tail.head?) h
          rcases elements'.head?_tokens with ⟨t, ht, hne⟩
          simp only [Value.tokens, List.cons_append, List.nil_append, List.tail_cons,
            List.head?_cons, List.append_assoc, List.head?_append, ht, Option.or_some,
            Option.getD_some, Option.some.injEq, hne.symm] at hhead'
      | emptyArray => exact ⟨rfl, List.append_cancel_left h⟩
      | _ => simp [Value.tokens] at hhead
  | string hasValue =>
      cases v' with
      | string hasValue' =>
          rcases stringTokens_append_inj h with ⟨rfl, hrest⟩
          exact ⟨rfl, hrest⟩
      | _ => simp [Value.tokens] at hhead
  | null =>
      cases v' with
      | null => exact ⟨rfl, List.append_cancel_left h⟩
      | _ => simp [Value.tokens] at hhead
  | number =>
      cases v' with
      | number => exact ⟨rfl, List.append_cancel_left h⟩
      | _ => simp [Value.tokens] at hhead
  | boolean =>
      cases v' with
      | boolean => exact ⟨rfl, List.append_cancel_left h⟩
      | _ => simp [Value.tokens] at hhead

theorem Members.tokens_append_inj (ms ms' : Members) {r r' : List TokenType}
    (hr : r.head? ≠ some .comma) (hr' : r'.head? ≠ some .comma)
    (h : ms.tokens ++ r = ms'.tokens ++ r') : ms = ms' ∧ r = r' := by
  -- Behind the first member a comma follows exactly where there are others.
  cases ms with
  | one hasValue v =>
      cases ms' with
      | one hasValue' v' =>
          simp only [Members.tokens, List.append_assoc, List.cons_append] at h
          rcases stringTokens_append_inj h with ⟨rfl, hcolon⟩
          rcases Value.tokens_append_inj v v' (List.cons.inj hcolon).2 with ⟨rfl, hrest⟩
          exact ⟨rfl, hrest⟩
      | more hasValue' v' others' =>
          simp only [Members.tokens, List.append_assoc, List.cons_append] at h
          rcases stringTokens_append_inj h with ⟨rfl, hcolon⟩
          rcases Value.tokens_append_inj v v' (List.cons.inj hcolon).2 with ⟨rfl, rfl⟩
          exact absurd rfl hr
  | more hasValue v others =>
      cases ms' with
      | one hasValue' v' =>
          simp only [Members.tokens, List.append_assoc, List.cons_append] at h
          rcases stringTokens_append_inj h with ⟨rfl, hcolon⟩
          rcases Value.tokens_append_inj v v' (List.cons.inj hcolon).2 with ⟨rfl, rfl⟩
          exact absurd rfl hr'
      | more hasValue' v' others' =>
          simp only [Members.tokens, List.append_assoc, List.cons_append] at h
          rcases stringTokens_append_inj h with ⟨rfl, hcolon⟩
          rcases Value.tokens_append_inj v v' (List.cons.inj hcolon).2 with ⟨rfl, hcomma⟩
          rcases Members.tokens_append_inj others others' hr hr' (List.cons.inj hcomma).2 with
            ⟨rfl, hrest⟩
          exact ⟨rfl, hrest⟩

theorem Elements.tokens_append_inj (es es' : Elements) {r r' : List TokenType}
    (hr : r.head? ≠ some .comma) (hr' : r'.head? ≠ some .comma)
    (h : es.tokens ++ r = es'.tokens ++ r') : es = es' ∧ r = r' := by
  cases es with
  | one v =>
      cases es' with
      | one v' =>
          rcases Value.tokens_append_inj v v' h with ⟨rfl, hrest⟩
          exact ⟨rfl, hrest⟩
      | more v' others' =>
          simp only [Elements.tokens, List.append_assoc, List.cons_append] at h
          rcases Value.tokens_append_inj v v' h with ⟨rfl, rfl⟩
          exact absurd rfl hr
  | more v others =>
      cases es' with
      | one v' =>
          simp only [Elements.tokens, List.append_assoc, List.cons_append] at h
          rcases Value.tokens_append_inj v v' h with ⟨rfl, rfl⟩
          exact absurd rfl hr'
      | more v' others' =>
          simp only [Elements.tokens, List.append_assoc, List.cons_append] at h
          rcases Value.tokens_append_inj v v' h with ⟨rfl, hcomma⟩
          rcases Elements.tokens_append_inj others others' hr hr' (List.cons.inj hcomma).2 with
            ⟨rfl, hrest⟩
          exact ⟨rfl, hrest⟩

end

/-- A value is determined by how it is written. -/
theorem Value.tokens_injective {v v' : Value} (h : v.tokens = v'.tokens) : v = v' :=
  (Value.tokens_append_inj v v' (congrArg (· ++ []) h)).1

/-- What the parser accepts is not too high. -/
theorem height_le_of_parse {tokens : List Token} {doc : Value}
    (htypes : types (filteredTokens tokens) = doc.tokens) (h : parse tokens = true) :
    doc.height ≤ maxIndentLevel := by
  rcases fits_of_derives (derives_of_parse h) with ⟨v, -, htokens, hheight⟩
  rw [Value.tokens_injective (htypes.symm.trans htokens)]
  omega

/-- Whether the parser accepts a document depends on its height, whatever its nesting. -/
theorem parse_document_iff {tokens : List Token} {doc : Value}
    (hdoc : doc.IsObject ∨ doc.IsArray) (htypes : types (filteredTokens tokens) = doc.tokens) :
    parse tokens = true ↔ doc.height ≤ maxIndentLevel :=
  ⟨height_le_of_parse htypes, parse_of_value hdoc htypes⟩

/-- A token of each type. -/
def tokensOf (w : List TokenType) : List Token :=
  w.map fun t => ⟨t, []⟩

/-- Arrays within one another, one more than the argument says, with a string in the innermost. -/
def nestedArrays : Nat → Value
  | 0 => .array (.one (.string true))
  | n + 1 => .array (.one (nestedArrays n))

/-- The arrays that the limit was made for: 19 of them, and a string at the last level. -/
theorem parse_nineteen_arrays :
    (nestedArrays 18).nesting = 19 ∧
      (parse (tokensOf (nestedArrays 18).tokens) = true ↔
        (nestedArrays 18).height ≤ maxIndentLevel) ∧
      (nestedArrays 18).height ≤ maxIndentLevel :=
  ⟨by decide, parse_document_iff (Or.inr trivial) (by decide), by decide⟩

/-- A list of numbers, one more than the argument says. -/
def numbers : Nat → Elements
  | 0 => .one .number
  | n + 1 => .more .number (numbers n)

theorem types_numbers (n : Nat) :
    types (filteredTokens (tokensOf (Value.array (numbers n)).tokens)) =
      (Value.array (numbers n)).tokens := by
  have hnumbers : ∀ w, types (filteredTokens (tokensOf ((numbers n).tokens ++ w))) =
      (numbers n).tokens ++ types (filteredTokens (tokensOf w)) := by
    intro w
    induction n with
    | zero => rfl
    | succ n ih => exact congrArg (.numericValue :: .comma :: ·) ih
  exact congrArg (.openingSquareBrace :: ·) (hnumbers [.closingSquareBrace])

theorem height_numbers (n : Nat) : (numbers n).height = n + 2 := by
  induction n with
  | zero => rfl
  | succ n ih =>
      rw [numbers, Elements.height, ih]
      simp only [Value.height]
      omega

theorem nesting_numbers (n : Nat) : (numbers n).nesting = 0 := by
  induction n with
  | zero => rfl
  | succ n ih =>
      rw [numbers, Elements.nesting, ih]
      rfl

/-- Width alone is enough to get past the limit. -/
theorem parse_numbers (n : Nat) :
    parse (tokensOf (Value.array (numbers n)).tokens) = true ↔ n + 1 ≤ 74 := by
  have harray : (Value.array (numbers n)).IsArray := trivial
  have hheight : (Value.array (numbers n)).height ≤ maxIndentLevel ↔ n + 1 ≤ 74 := by
    rw [Value.height, height_numbers, maxIndentLevel]
    omega
  rw [← hheight]
  exact ⟨height_le_of_parse (types_numbers n), parse_of_value (Or.inr harray) (types_numbers n)⟩

/-- An array of 75 numbers is one level too high. -/
theorem rejects_seventyFive_numbers :
    (Value.array (numbers 74)).nesting = 1 ∧
      types (filteredTokens (tokensOf (Value.array (numbers 74)).tokens)) =
        (Value.array (numbers 74)).tokens ∧
      parse (tokensOf (Value.array (numbers 74)).tokens) = false := by
  refine ⟨?_, types_numbers 74, ?_⟩
  · rw [Value.nesting, nesting_numbers]
  · rw [Bool.eq_false_iff, ne_eq, parse_numbers]
    omega

end Json

end CodingChallenges
