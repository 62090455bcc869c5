import CodingChallenges.Json.Parser

/-!
# What the Parser Accepts Is Derivable

Each step of the parser is one of a derivation: if the parser finds that a
nonterminal matches the tokens from one index to another, then the nonterminal
derives the types of these tokens, with no node below the last level.

A first use of this is to see at one token which nonterminals cannot match, because
no sequence that they derive begins with it.

## Main definitions

* `types`: The types of the tokens.
* `Spans`: The token types between two indices.
* `firstTypes`: The types with which a nonterminal begins.

## Theorems

* `matchRule_sound`, `parseJson_sound`: What matches is derivable.
* `parseJson_eq_none`: What begins with another type does not match.
-/

namespace CodingChallenges

namespace Json

open RuleTable

/-- The types of the tokens. The parser looks at nothing else. -/
abbrev types (tokens : List Token) : List TokenType := tokens.map Token.type

/-- The token types from one index to another. -/
structure Spans (tokens : List Token) (i j : Nat) (w : List TokenType) : Prop where
  le : j ≤ tokens.length
  drop : (types tokens).drop i = w ++ (types tokens).drop j

variable {tokens : List Token} {i j k : Nat} {u v w rest : List TokenType}

theorem Spans.nil (h : i ≤ tokens.length) : Spans tokens i i [] :=
  ⟨h, rfl⟩

theorem Spans.append (h : Spans tokens i j u) (h' : Spans tokens j k v) :
    Spans tokens i k (u ++ v) :=
  ⟨h'.le, by rw [h.drop, h'.drop, List.append_assoc]⟩

/-- The token at an index, and those behind it. -/
theorem drop_of_getElem? {t : TokenType} (h : tokens[i]?.map Token.type = some t) :
    i < tokens.length ∧ (types tokens).drop i = t :: (types tokens).drop (i + 1) := by
  rcases Option.map_eq_some_iff.mp h with ⟨token, htoken, rfl⟩
  rcases List.getElem?_eq_some_iff.mp htoken with ⟨hlt, rfl⟩
  refine ⟨hlt, ?_⟩
  have hlt' : i < (types tokens).length := by rwa [List.length_map]
  rw [List.drop_eq_getElem_cons hlt', List.getElem_map]

theorem getElem?_of_drop {t : TokenType} (h : (types tokens).drop i = t :: rest) :
    tokens[i]?.map Token.type = some t ∧ (types tokens).drop (i + 1) = rest ∧
      i < tokens.length := by
  have hget : (types tokens)[i]? = some t := by
    have hhead : ((types tokens).drop i)[0]? = (types tokens)[i + 0]? := List.getElem?_drop
    rw [h, Nat.add_zero] at hhead
    exact hhead.symm
  rw [List.getElem?_map] at hget
  have hdrop := drop_of_getElem? hget
  rw [h, List.cons.injEq] at hdrop
  exact ⟨hget, hdrop.2.2.symm, hdrop.1⟩

theorem Spans.single {t : TokenType} (h : tokens[i]?.map Token.type = some t) :
    Spans tokens i (i + 1) [t] := by
  rcases drop_of_getElem? h with ⟨hlt, hdrop⟩
  exact ⟨hlt, hdrop⟩

/-- The rules derive what they match, if the nonterminals do. -/
theorem matchRule_sound {parse : Nat → LeftSideNonTerminal → Option Nat} {depth : Nat}
    (hparse : ∀ i n j, i ≤ tokens.length → parse i n = some j →
      ∃ w, Spans tokens i j w ∧ Derives ruleMap maxIndentLevel depth [.nonTerminal n] w)
    {rule : Rule} (hi : i ≤ tokens.length) (h : matchRule tokens parse i rule = some j) :
    ∃ w, Spans tokens i j w ∧ Derives ruleMap maxIndentLevel depth rule w := by
  induction rule generalizing i with
  | nil =>
      cases h
      exact ⟨[], Spans.nil hi, .nil depth⟩
  | cons symbol rule ih =>
      cases symbol with
      | nonTerminal n =>
          rw [matchRule] at h
          cases hn : parse i n with
          | none =>
              rw [hn] at h
              cases h
          | some i' =>
              rw [hn] at h
              rcases hparse i n i' hi hn with ⟨u, hu, hderives⟩
              rcases ih hu.le h with ⟨v, hv, hrest⟩
              exact ⟨u ++ v, hu.append hv, hderives.cons hrest⟩
      | terminal t optional =>
          rw [matchRule] at h
          by_cases htype : tokens[i]?.map Token.type = some t
          · rw [if_pos htype] at h
            have hspan := Spans.single htype
            rcases ih hspan.le h with ⟨v, hv, hrest⟩
            exact ⟨t :: v, hspan.append hv, .terminal hrest⟩
          · rw [if_neg htype] at h
            cases optional with
            | false => cases h
            -- An optional terminal that is not there is skipped.
            | true =>
                rcases ih hi h with ⟨v, hv, hrest⟩
                exact ⟨v, hv, .skip hrest⟩

/-- What the parser matches is derivable, by induction on the levels that are left. -/
theorem parseJson_sound {levels : Nat} {n : LeftSideNonTerminal}
    (hlevels : levels ≤ maxIndentLevel + 1) (hi : i ≤ tokens.length)
    (h : parseJson tokens levels i n = some j) :
    ∃ w, Spans tokens i j w ∧
      Derives ruleMap maxIndentLevel (maxIndentLevel + 1 - levels) [.nonTerminal n] w := by
  induction levels generalizing i n j with
  | zero => cases h
  | succ levels ih =>
      by_cases hend : i = tokens.length
      · rw [parseJson, if_pos hend] at h
        cases h
      rw [parseJson, if_neg hend] at h
      rcases List.exists_of_findSome?_eq_some h with ⟨rule, hrule, hmatch⟩
      have hdepth : maxIndentLevel + 1 - (levels + 1) + 1 = maxIndentLevel + 1 - levels := by omega
      rcases matchRule_sound (fun _ _ _ hi' h' => ih (by omega) hi' h') hi hmatch with
        ⟨w, hspans, hderives⟩
      rw [← hdepth] at hderives
      exact ⟨w, hspans, .single (by omega) hrule hderives⟩

/-- The types with which the sequences of a nonterminal begin. -/
def firstTypes : LeftSideNonTerminal → List TokenType
  | .json => [.openingBraces, .openingSquareBrace]
  | .element | .elements | .value =>
    [.openingBraces, .openingSquareBrace, .dblQuote, .nullValue, .numericValue, .booleanValue]
  | .members | .member | .string => [.dblQuote]
  | .object => [.openingBraces]
  | .array => [.openingSquareBrace]

/-- What a symbol at the beginning of a rule says about the beginning of the rule. -/
def beginsWithin (first : List TokenType) : RuleSymbol → Bool
  | .nonTerminal n => (firstTypes n).all (· ∈ first)
  | .terminal t optional => t ∈ first && !optional

theorem ruleMap_beginsWithin (n : LeftSideNonTerminal) :
    ∀ rule ∈ ruleMap n, rule.head?.any (beginsWithin (firstTypes n)) = true := by
  cases n <;> decide

theorem derives_first {limit depth : Nat} {n : LeftSideNonTerminal}
    (h : Derives ruleMap limit depth [.nonTerminal n] w) :
    ∃ t ∈ firstTypes n, ∃ v, w = t :: v := by
  have hmatches := h.matches (fun _ n w => ∃ t ∈ firstTypes n, ∃ v, w = t :: v) ?_
  · rcases hmatches with ⟨u, v, rfl, ⟨t, ht, v', rfl⟩, hnil⟩
    exact ⟨t, ht, v' ++ v, rfl⟩
  · intro depth n rule w _ hrule hrest
    have hbegins := ruleMap_beginsWithin n rule hrule
    cases rule with
    | nil => cases hbegins
    | cons symbol rule =>
        rw [List.head?_cons, Option.any_some] at hbegins
        cases symbol with
        | nonTerminal m =>
            rcases hrest with ⟨u, v, rfl, ⟨t, ht, v', rfl⟩, -⟩
            rw [beginsWithin, List.all_eq_true] at hbegins
            exact ⟨t, of_decide_eq_true (hbegins t ht), v' ++ v, rfl⟩
        | terminal t optional =>
            -- No rule begins with a terminal that may be missing.
            rw [beginsWithin, Bool.and_eq_true, Bool.not_eq_true'] at hbegins
            rcases hrest with ⟨v, rfl, -⟩ | ⟨hoptional, -⟩
            · exact ⟨t, of_decide_eq_true hbegins.1, v, rfl⟩
            · rw [hbegins.2] at hoptional
              cases hoptional

/-- A nonterminal does not match where no sequence of it begins. -/
theorem parseJson_eq_none {levels : Nat} {n : LeftSideNonTerminal} {t : TokenType}
    (hlevels : levels ≤ maxIndentLevel + 1) (hdrop : (types tokens).drop i = t :: rest)
    (ht : t ∉ firstTypes n) : parseJson tokens levels i n = none := by
  cases h : parseJson tokens levels i n with
  | none => rfl
  | some j =>
      have hi := (getElem?_of_drop hdrop).2.2
      rcases parseJson_sound hlevels (Nat.le_of_lt hi) h with ⟨w, hspans, hderives⟩
      rcases derives_first hderives with ⟨t', ht', v, rfl⟩
      have hhead := hspans.drop
      rw [hdrop, List.cons_append, List.cons.injEq] at hhead
      rw [hhead.1] at ht
      exact absurd ht' ht

end Json

end CodingChallenges
