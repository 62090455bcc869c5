import CodingChallenges.Json.Document

/-!
# What Is Derivable the Parser Accepts

The parser finds a tree whenever its height leaves it enough levels, and so it accepts
exactly what the grammar derives within the limit.

That the parser tries its rules in order and takes the first that matches does no
harm. Most rules can be told apart by their first token. The rules that cannot are
those for a list of one and for a longer list, and here the longer one comes first and
the token behind the list says which of them is meant.

## Theorems

* `Spans.cons`, `Spans.split`, `Spans.bracketed`: Where the parts of what is spanned are.
* `parseJson_list_more`, `parseJson_list_one`: Which rule for a list matches.
* `parseJson_value`, `parseJson_members`, `parseJson_elements`: The parser finds a tree
  that is low enough.
* `parse_of_value`: The parser accepts the containers that are low enough.
* `parse_iff_derives`: The parser recognises the grammar up to the limit.
-/

namespace CodingChallenges

namespace Json

open RuleTable

variable {tokens : List Token} {i j k levels : Nat} {t : TokenType} {u v w : List TokenType}

/-- Where a token begins what is spanned. -/
theorem Spans.cons (h : Spans tokens i j (t :: w)) :
    tokens[i]?.map Token.type = some t ∧ i + 1 ≤ tokens.length ∧ Spans tokens (i + 1) j w := by
  rcases getElem?_of_drop h.drop with ⟨hget, hdrop, hlt⟩
  exact ⟨hget, hlt, h.le, hdrop⟩

/-- Where the first part of what is spanned ends. -/
theorem Spans.split (h : Spans tokens i j (u ++ v)) (hi : i ≤ tokens.length) :
    ∃ k, Spans tokens i k u ∧ Spans tokens k j v := by
  induction u generalizing i with
  | nil => exact ⟨i, Spans.nil hi, h⟩
  | cons t u ih =>
      rcases h.cons with ⟨hget, hlt, hrest⟩
      rcases ih hrest hlt with ⟨k, hu, hv⟩
      exact ⟨k, (Spans.single hget).append hu, hv⟩

theorem Spans.end_eq (h : Spans tokens i j []) (hi : i ≤ tokens.length) : i = j := by
  have hlength := congrArg List.length h.drop
  rw [List.nil_append, List.length_drop, List.length_drop, List.length_map] at hlength
  have hle := h.le
  omega

/-- Two tokens and what is spanned between them. -/
theorem Spans.bracketed {t' : TokenType} (h : Spans tokens i j (t :: w ++ [t'])) :
    ∃ k, tokens[i]?.map Token.type = some t ∧ i + 1 ≤ tokens.length ∧ Spans tokens (i + 1) k w ∧
      tokens[k]?.map Token.type = some t' ∧ k + 1 = j := by
  rcases h.cons with ⟨hopening, hlt, h⟩
  rcases h.split hlt with ⟨k, hspans, h⟩
  rcases h.cons with ⟨hclosing, hle, h⟩
  exact ⟨k, hopening, hlt, hspans, hclosing, h.end_eq hle⟩

theorem Spans.pair {t' : TokenType} (h : Spans tokens i j [t, t']) :
    tokens[i]?.map Token.type = some t ∧ tokens[i + 1]?.map Token.type = some t' ∧ i + 2 = j := by
  rcases h.cons with ⟨hopening, -, h⟩
  rcases h.cons with ⟨hclosing, hle, h⟩
  exact ⟨hopening, hclosing, h.end_eq hle⟩

theorem ne_length_of_getElem? (hi : tokens[i]?.map Token.type = some t) : i ≠ tokens.length :=
  Nat.ne_of_lt (drop_of_getElem? hi).1

theorem ne_length_of_parseJson {n : LeftSideNonTerminal}
    (h : parseJson tokens levels i n = some j) :
    i ≠ tokens.length := by
  intro hi
  cases levels with
  | zero => cases h
  | succ levels =>
      rw [parseJson, if_pos hi] at h
      cases h

theorem parseJson_succ (n : LeftSideNonTerminal) (hi : i ≠ tokens.length) :
    parseJson tokens (levels + 1) i n =
      (ruleMap n).findSome? (matchRule tokens (parseJson tokens levels) i) := by
  rw [parseJson, if_neg hi]

theorem parseJson_none {n : LeftSideNonTerminal} (hlevels : levels ≤ maxIndentLevel + 1)
    (hi : tokens[i]?.map Token.type = some t) (ht : t ∉ firstTypes n) :
    parseJson tokens levels i n = none :=
  parseJson_eq_none hlevels (drop_of_getElem? hi).2 ht

theorem parseJson_string {hasValue : Bool} (hpos : 0 < levels)
    (h : Spans tokens i j (stringTokens hasValue)) :
    parseJson tokens levels i .string = some j := by
  rcases Nat.exists_eq_succ_of_ne_zero (Nat.pos_iff_ne_zero.mp hpos) with ⟨levels, rfl⟩
  cases hasValue with
  | true =>
      rcases h.cons with ⟨hopen, -, h⟩
      rcases h.cons with ⟨hvalue, -, h⟩
      rcases h.cons with ⟨hclose, hle, h⟩
      rw [← h.end_eq hle, parseJson_succ _ (ne_length_of_getElem? hopen)]
      simp only [ruleMap, matchRule, hopen, ↓reduceIte, hvalue, hclose, Option.isSome_some,
        List.findSome?_cons_of_isSome]
  | false =>
      rcases h.pair with ⟨hopen, hclose, rfl⟩
      rw [parseJson_succ _ (ne_length_of_getElem? hopen)]
      simp only [ruleMap, matchRule, hopen, ↓reduceIte, hclose, Option.some.injEq, reduceCtorEq,
        Option.isSome_some, List.findSome?_cons_of_isSome]

/-- A value that is a single token. -/
theorem parseJson_value_single (hlevels : levels + 1 ≤ maxIndentLevel + 1)
    (h : Spans tokens i j [t])
    (ht : t = .nullValue ∨ t = .numericValue ∨ t = .booleanValue) :
    parseJson tokens (levels + 1) i .value = some j := by
  rcases h.cons with ⟨hi, hle, h⟩
  have hobject : parseJson tokens levels i .object = none :=
    parseJson_none (by omega) hi (by rcases ht with rfl | rfl | rfl <;> decide)
  have harray : parseJson tokens levels i .array = none :=
    parseJson_none (by omega) hi (by rcases ht with rfl | rfl | rfl <;> decide)
  have hstring : parseJson tokens levels i .string = none :=
    parseJson_none (by omega) hi (by rcases ht with rfl | rfl | rfl <;> decide)
  rw [← h.end_eq hle, parseJson_succ _ (ne_length_of_getElem? hi)]
  rcases ht with rfl | rfl | rfl
  all_goals simp [ruleMap, matchRule, hobject, harray, hstring, hi]

theorem parseJson_value_string (hlevels : levels + 1 ≤ maxIndentLevel + 1)
    (hi : tokens[i]?.map Token.type = some .dblQuote)
    (h : parseJson tokens levels i .string = some j) :
    parseJson tokens (levels + 1) i .value = some j := by
  have hobject : parseJson tokens levels i .object = none :=
    parseJson_none (by omega) hi (by decide)
  have harray : parseJson tokens levels i .array = none :=
    parseJson_none (by omega) hi (by decide)
  rw [parseJson_succ _ (ne_length_of_getElem? hi)]
  simp only [ruleMap, matchRule, hobject, Option.isNone_none, List.findSome?_cons_of_isNone, harray,
    h, Option.isSome_some, List.findSome?_cons_of_isSome]

/-- An object where one can stand, and an array: these are the first two rules both of
    a value and of a document. -/
theorem parseJson_object_rule {n : LeftSideNonTerminal} (hn : n = .value ∨ n = .json)
    (hi : tokens[i]?.map Token.type = some .openingBraces)
    (h : parseJson tokens levels i .object = some j) :
    parseJson tokens (levels + 1) i n = some j := by
  rw [parseJson_succ _ (ne_length_of_getElem? hi)]
  rcases hn with rfl | rfl
  all_goals simp only [ruleMap, matchRule, h, Option.isSome_some, List.findSome?_cons_of_isSome]

theorem parseJson_array_rule {n : LeftSideNonTerminal} (hlevels : levels + 1 ≤ maxIndentLevel + 1)
    (hn : n = .value ∨ n = .json) (hi : tokens[i]?.map Token.type = some .openingSquareBrace)
    (h : parseJson tokens levels i .array = some j) :
    parseJson tokens (levels + 1) i n = some j := by
  have hobject : parseJson tokens levels i .object = none :=
    parseJson_none (by omega) hi (by decide)
  rw [parseJson_succ _ (ne_length_of_getElem? hi)]
  rcases hn with rfl | rfl
  all_goals simp [ruleMap, matchRule, hobject, h]

theorem parseJson_element (h : parseJson tokens levels i .value = some j) :
    parseJson tokens (levels + 1) i .element = some j := by
  rw [parseJson_succ _ (ne_length_of_parseJson h)]
  simp only [ruleMap, matchRule, h, Option.isSome_some, List.findSome?_cons_of_isSome]

theorem parseJson_member (hstring : parseJson tokens levels i .string = some j)
    (hcolon : tokens[j]?.map Token.type = some .colon)
    (helement : parseJson tokens levels (j + 1) .element = some k) :
    parseJson tokens (levels + 1) i .member = some k := by
  rw [parseJson_succ _ (ne_length_of_parseJson hstring)]
  simp only [ruleMap, matchRule, hstring, hcolon, ↓reduceIte, helement, Option.isSome_some,
    List.findSome?_cons_of_isSome]

/-- What a list consists of. -/
def itemOf : LeftSideNonTerminal → Option LeftSideNonTerminal
  | .elements => some .element
  | .members => some .member
  | _ => none

/-- A list goes on at a comma if what is behind it is a list. -/
theorem parseJson_list_more {n item : LeftSideNonTerminal} (hn : itemOf n = some item)
    (hitem : parseJson tokens levels i item = some j)
    (hcomma : tokens[j]?.map Token.type = some .comma)
    (hothers : parseJson tokens levels (j + 1) n = some k) :
    parseJson tokens (levels + 1) i n = some k := by
  rw [parseJson_succ _ (ne_length_of_parseJson hitem)]
  cases n with
  | elements => cases hn; simp [ruleMap, matchRule, hitem, hcomma, hothers]
  | members => cases hn; simp [ruleMap, matchRule, hitem, hcomma, hothers]
  | _ => cases hn

/-- A list ends where no comma follows. -/
theorem parseJson_list_one {n item : LeftSideNonTerminal} (hn : itemOf n = some item)
    (hitem : parseJson tokens levels i item = some j)
    (hcomma : tokens[j]?.map Token.type ≠ some .comma) :
    parseJson tokens (levels + 1) i n = some j := by
  rw [parseJson_succ _ (ne_length_of_parseJson hitem)]
  cases n with
  | elements => cases hn; simp [ruleMap, matchRule, hitem, hcomma]
  | members => cases hn; simp [ruleMap, matchRule, hitem, hcomma]
  | _ => cases hn

/-- How a container is written: its brackets and the list between them. -/
def listOf : LeftSideNonTerminal → Option (TokenType × LeftSideNonTerminal × TokenType)
  | .object => some (.openingBraces, .members, .closingBraces)
  | .array => some (.openingSquareBrace, .elements, .closingSquareBrace)
  | _ => none

theorem parseJson_container {n list : LeftSideNonTerminal} {opening closing : TokenType}
    (hn : listOf n = some (opening, list, closing))
    (hopening : tokens[i]?.map Token.type = some opening)
    (hlist : parseJson tokens levels (i + 1) list = some j)
    (hclosing : tokens[j]?.map Token.type = some closing) :
    parseJson tokens (levels + 1) i n = some (j + 1) := by
  rw [parseJson_succ _ (ne_length_of_getElem? hopening)]
  cases n with
  | object => cases hn; simp [ruleMap, matchRule, hopening, hlist, hclosing]
  | array => cases hn; simp [ruleMap, matchRule, hopening, hlist, hclosing]
  | _ => cases hn

theorem parseJson_emptyContainer {n list : LeftSideNonTerminal} {opening closing : TokenType}
    (hlevels : levels + 1 ≤ maxIndentLevel + 1) (hn : listOf n = some (opening, list, closing))
    (hopening : tokens[i]?.map Token.type = some opening)
    (hclosing : tokens[i + 1]?.map Token.type = some closing) :
    parseJson tokens (levels + 1) i n = some (i + 2) := by
  rw [parseJson_succ _ (ne_length_of_getElem? hopening)]
  cases n with
  | object =>
      cases hn
      have hlist : parseJson tokens levels (i + 1) .members = none :=
        parseJson_none (by omega) hclosing (by decide)
      simp only [ruleMap, matchRule, hopening, ↓reduceIte, hlist, Option.isNone_none,
        List.findSome?_cons_of_isNone, hclosing, Option.isSome_some, List.findSome?_cons_of_isSome]
  | array =>
      cases hn
      have hlist : parseJson tokens levels (i + 1) .elements = none :=
        parseJson_none (by omega) hclosing (by decide)
      simp only [ruleMap, matchRule, hopening, ↓reduceIte, hlist, Option.isNone_none,
        List.findSome?_cons_of_isNone, hclosing, Option.isSome_some, List.findSome?_cons_of_isSome]
  | _ => cases hn

/-- Where a value is to be found: anywhere, or as the document if it is a container. -/
def Value.StandsFor (v : Value) (n : LeftSideNonTerminal) : Prop :=
  n = .value ∨ n = .json ∧ (v.IsObject ∨ v.IsArray)

theorem Value.StandsFor.eq_value {v : Value} {n : LeftSideNonTerminal} (hn : v.StandsFor n)
    (hobject : ¬ v.IsObject) (harray : ¬ v.IsArray) : n = .value :=
  hn.resolve_right fun h => h.2.elim hobject harray

theorem Value.StandsFor.rule {v : Value} {n : LeftSideNonTerminal} (hn : v.StandsFor n) :
    n = .value ∨ n = .json :=
  hn.imp id And.left

mutual

/-- The parser finds a value that is low enough. -/
theorem parseJson_value {levels i j : Nat} (v : Value) {n : LeftSideNonTerminal}
    (hn : v.StandsFor n) (hlevels : levels ≤ maxIndentLevel + 1) (hheight : v.height < levels)
    (h : Spans tokens i j v.tokens) :
    parseJson tokens levels i n = some j := by
  cases v with
  -- What is between the brackets is one level further down than the container, and this is
  -- one further down than the value.
  | emptyObject =>
      rw [Value.height] at hheight
      rcases Nat.exists_eq_add_of_le' hheight with ⟨levels, rfl⟩
      rcases h.pair with ⟨hopening, hclosing, rfl⟩
      have hobject : parseJson tokens (levels + 1) i .object = some (i + 2) :=
        parseJson_emptyContainer (by omega) rfl hopening hclosing
      exact parseJson_object_rule hn.rule hopening hobject
  | object members =>
      rw [Value.height] at hheight
      rcases Nat.exists_eq_add_of_le' (by omega : 2 ≤ levels) with ⟨levels, rfl⟩
      rcases h.bracketed with ⟨k, hopening, hlt, hspans, hclosing, rfl⟩
      have hmembers : parseJson tokens levels (i + 1) .members = some k :=
        parseJson_members members (by omega) (by omega) hlt hspans (by rw [hclosing]; decide)
      have hobject : parseJson tokens (levels + 1) i .object = some (k + 1) :=
        parseJson_container rfl hopening hmembers hclosing
      exact parseJson_object_rule hn.rule hopening hobject
  | emptyArray =>
      rw [Value.height] at hheight
      rcases Nat.exists_eq_add_of_le' hheight with ⟨levels, rfl⟩
      rcases h.pair with ⟨hopening, hclosing, rfl⟩
      have harray : parseJson tokens (levels + 1) i .array = some (i + 2) :=
        parseJson_emptyContainer (by omega) rfl hopening hclosing
      exact parseJson_array_rule hlevels hn.rule hopening harray
  | array elements =>
      rw [Value.height] at hheight
      rcases Nat.exists_eq_add_of_le' (by omega : 2 ≤ levels) with ⟨levels, rfl⟩
      rcases h.bracketed with ⟨k, hopening, hlt, hspans, hclosing, rfl⟩
      have helements : parseJson tokens levels (i + 1) .elements = some k :=
        parseJson_elements elements (by omega) (by omega) hlt hspans (by rw [hclosing]; decide)
      have harray : parseJson tokens (levels + 1) i .array = some (k + 1) :=
        parseJson_container rfl hopening helements hclosing
      exact parseJson_array_rule hlevels hn.rule hopening harray
  | string hasValue =>
      rw [Value.height] at hheight
      rcases Nat.exists_eq_add_of_le' hheight with ⟨levels, rfl⟩
      rw [hn.eq_value nofun nofun]
      have hstring : parseJson tokens (levels + 1) i .string = some j :=
        parseJson_string (Nat.succ_pos levels) h
      cases hasValue with
      | true => exact parseJson_value_string hlevels h.cons.1 hstring
      | false => exact parseJson_value_string hlevels h.cons.1 hstring
  | null =>
      rcases Nat.exists_eq_add_of_le' hheight with ⟨levels, rfl⟩
      rw [hn.eq_value nofun nofun]
      exact parseJson_value_single hlevels h (Or.inl rfl)
  | number =>
      rcases Nat.exists_eq_add_of_le' hheight with ⟨levels, rfl⟩
      rw [hn.eq_value nofun nofun]
      exact parseJson_value_single hlevels h (Or.inr (Or.inl rfl))
  | boolean =>
      rcases Nat.exists_eq_add_of_le' hheight with ⟨levels, rfl⟩
      rw [hn.eq_value nofun nofun]
      exact parseJson_value_single hlevels h (Or.inr (Or.inr rfl))

/-- The parser finds the members of an object, if no comma is behind them. -/
theorem parseJson_members {levels i j : Nat} (members : Members)
    (hlevels : levels ≤ maxIndentLevel + 1) (hheight : members.height < levels)
    (hi : i ≤ tokens.length) (h : Spans tokens i j members.tokens)
    (hcomma : tokens[j]?.map Token.type ≠ some .comma) :
    parseJson tokens levels i .members = some j := by
  cases members with
  | one hasValue v =>
      rw [Members.height] at hheight
      rcases Nat.exists_eq_add_of_le' (by omega : 3 ≤ levels) with ⟨levels, rfl⟩
      rcases h.split hi with ⟨k, hstring, h⟩
      rcases h.cons with ⟨hcolon, hlt, h⟩
      have hvalue : parseJson tokens levels (k + 1) .value = some j :=
        parseJson_value v (Or.inl rfl) (by omega) (by omega) h
      have hmember := parseJson_member (parseJson_string (Nat.succ_pos levels) hstring) hcolon
        (parseJson_element hvalue)
      exact parseJson_list_one rfl hmember hcomma
  | more hasValue v others =>
      rw [Members.height] at hheight
      rcases Nat.exists_eq_add_of_le' (by omega : 3 ≤ levels) with ⟨levels, rfl⟩
      rw [Members.tokens, List.append_assoc, List.cons_append] at h
      -- The comma is the first token behind the value, so that the longer rule is tried first and
      -- fits.
      rcases h.split hi with ⟨k, hstring, h⟩
      rcases h.cons with ⟨hcolon, hlt, h⟩
      rcases h.split hlt with ⟨k', hspans, h⟩
      rcases h.cons with ⟨hmore, hle, h⟩
      have hvalue : parseJson tokens levels (k + 1) .value = some k' :=
        parseJson_value v (Or.inl rfl) (by omega) (by omega) hspans
      have hmember := parseJson_member (parseJson_string (Nat.succ_pos levels) hstring) hcolon
        (parseJson_element hvalue)
      have hothers : parseJson tokens (levels + 2) (k' + 1) .members = some j :=
        parseJson_members others (by omega) (by omega) hle h hcomma
      exact parseJson_list_more rfl hmember hmore hothers

/-- The parser finds the elements of an array, if no comma is behind them. -/
theorem parseJson_elements {levels i j : Nat} (elements : Elements)
    (hlevels : levels ≤ maxIndentLevel + 1) (hheight : elements.height < levels)
    (hi : i ≤ tokens.length) (h : Spans tokens i j elements.tokens)
    (hcomma : tokens[j]?.map Token.type ≠ some .comma) :
    parseJson tokens levels i .elements = some j := by
  cases elements with
  | one v =>
      rw [Elements.height] at hheight
      rcases Nat.exists_eq_add_of_le' (by omega : 2 ≤ levels) with ⟨levels, rfl⟩
      have hvalue : parseJson tokens levels i .value = some j :=
        parseJson_value v (Or.inl rfl) (by omega) (by omega) h
      exact parseJson_list_one rfl (parseJson_element hvalue) hcomma
  | more v others =>
      rw [Elements.height] at hheight
      rcases Nat.exists_eq_add_of_le' (by omega : 2 ≤ levels) with ⟨levels, rfl⟩
      rcases h.split hi with ⟨k, hspans, h⟩
      rcases h.cons with ⟨hmore, hle, h⟩
      have hvalue : parseJson tokens levels i .value = some k :=
        parseJson_value v (Or.inl rfl) (by omega) (by omega) hspans
      have hothers : parseJson tokens (levels + 1) (k + 1) .elements = some j :=
        parseJson_elements others (by omega) (by omega) hle h hcomma
      exact parseJson_list_more rfl (parseJson_element hvalue) hmore hothers

end

/-- All token types are the same as what is spanned from the first to behind the last. -/
theorem spans_all : Spans tokens 0 tokens.length w ↔ types tokens = w := by
  have hend : (types tokens).drop tokens.length = [] :=
    List.drop_eq_nil_of_le (by simp only [List.length_map, Std.le_refl])
  constructor
  · intro h
    have hdrop := h.drop
    rwa [List.drop_zero, hend, List.append_nil] at hdrop
  · intro h
    exact ⟨Nat.le_refl _, by rw [List.drop_zero, hend, List.append_nil, h]⟩

/-- The parser accepts if it matches all tokens but the whitespace. -/
theorem parse_iff_parseJson (tokens : List Token) :
    parse tokens = true ↔ parseJson (filteredTokens tokens) (maxIndentLevel + 1) 0 .json =
      some (filteredTokens tokens).length := by
  rw [parse]
  by_cases hempty : tokens = []
  · rw [if_pos hempty, hempty]
    decide
  rw [if_neg hempty]
  cases hparse : parseJson (filteredTokens tokens) (maxIndentLevel + 1) 0 .json with
  | none => simp only [Bool.false_eq_true, reduceCtorEq]
  | some tokenIndex =>
      rcases parseJson_sound (Nat.le_refl _) (Nat.zero_le _) hparse with ⟨w, hspans, -⟩
      have hle := hspans.le
      simp only [Bool.not_eq_eq_eq_not, Bool.not_true, decide_eq_false_iff_not, Nat.not_lt,
        Option.some.injEq]
      omega

theorem parse_of_value {tokens : List Token} {v : Value} (hv : v.IsObject ∨ v.IsArray)
    (htypes : types (filteredTokens tokens) = v.tokens) (hheight : v.height ≤ maxIndentLevel) :
    parse tokens = true :=
  (parse_iff_parseJson tokens).mpr <|
    parseJson_value v (Or.inr ⟨rfl, hv⟩) (Nat.le_refl _) (Nat.lt_succ_of_le hheight)
      (spans_all.mpr htypes)

/-- The parser accepts only what is derivable. -/
theorem derives_of_parse {tokens : List Token} (h : parse tokens = true) :
    Derives ruleMap maxIndentLevel 0 [.nonTerminal .json] (types (filteredTokens tokens)) := by
  rcases parseJson_sound (Nat.le_refl _) (Nat.zero_le _) ((parse_iff_parseJson tokens).mp h) with
    ⟨w, hspans, hderives⟩
  rw [Nat.sub_self] at hderives
  rwa [spans_all.mp hspans]

/-- The parser recognises the grammar up to the limit. -/
theorem parse_iff_derives (tokens : List Token) :
    parse tokens = true ↔
      Derives ruleMap maxIndentLevel 0 [.nonTerminal .json] (types (filteredTokens tokens)) := by
  constructor
  · exact derives_of_parse
  · intro h
    rcases fits_of_derives h with ⟨v, hv, htypes, hheight⟩
    exact parse_of_value hv htypes (by omega)

end Json

end CodingChallenges
