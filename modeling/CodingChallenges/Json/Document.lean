import Mathlib.Data.List.Basic
import CodingChallenges.Json.Grammar

/-!
# JSON Documents

The trees that the grammar is about.

A tree has a height, which is that of its derivation: not only nesting adds to it,
but also every step from one member of a list to the next, because a list is a member
and the list of the others.

## Main definitions

* `Value`, `Members`, `Elements`: The trees.
* `Value.tokens`, `Value.height`: How they are written, and how high they are.
* `Fits`: The trees that a nonterminal stands for, within the limit.

## Theorems

* `fits_of_rule`: The trees fit together as the rules say.
* `fits_of_derives`: Derivations are trees.
-/

namespace CodingChallenges

namespace Json

open RuleTable

mutual

/-- A value. A string may have no token for its contents. -/
inductive Value where
  | emptyObject
  | object (members : Members)
  | emptyArray
  | array (elements : Elements)
  | string (hasValue : Bool)
  | null
  | number
  | boolean

/-- The members of an object, at least one. The key of each is a string. -/
inductive Members where
  | one (hasValue : Bool) (v : Value)
  | more (hasValue : Bool) (v : Value) (others : Members)

/-- The elements of an array, at least one. -/
inductive Elements where
  | one (v : Value)
  | more (v : Value) (others : Elements)

end

/-- A string with or without characters. -/
def stringTokens : Bool → List TokenType
  | true => [.dblQuote, .stringValue, .dblQuote]
  | false => [.dblQuote, .dblQuote]

mutual

/-- The tokens of a value. -/
def Value.tokens : Value → List TokenType
  | .emptyObject => [.openingBraces, .closingBraces]
  | .object members => .openingBraces :: members.tokens ++ [.closingBraces]
  | .emptyArray => [.openingSquareBrace, .closingSquareBrace]
  | .array elements => .openingSquareBrace :: elements.tokens ++ [.closingSquareBrace]
  | .string hasValue => stringTokens hasValue
  | .null => [.nullValue]
  | .number => [.numericValue]
  | .boolean => [.booleanValue]

/-- The tokens of the members, with a comma between two of them. -/
def Members.tokens : Members → List TokenType
  | .one hasValue v => stringTokens hasValue ++ .colon :: v.tokens
  | .more hasValue v others =>
    stringTokens hasValue ++ .colon :: v.tokens ++ .comma :: others.tokens

/-- The tokens of the elements, with a comma between two of them. -/
def Elements.tokens : Elements → List TokenType
  | .one v => v.tokens
  | .more v others => v.tokens ++ .comma :: others.tokens

end

mutual

/-- How many levels of nonterminals there are below that of the value. -/
def Value.height : Value → Nat
  | .emptyObject => 1
  | .object members => 2 + members.height
  | .emptyArray => 1
  | .array elements => 2 + elements.height
  | .string _ => 1
  | .null => 0
  | .number => 0
  | .boolean => 0

/-- Each member adds a level for the members behind it. -/
def Members.height : Members → Nat
  | .one _ v => 3 + v.height
  | .more _ v others => max (3 + v.height) (1 + others.height)

/-- Each element adds a level for the elements behind it. -/
def Elements.height : Elements → Nat
  | .one v => 2 + v.height
  | .more v others => max (2 + v.height) (1 + others.height)

end

/-- An object. -/
def Value.IsObject : Value → Prop
  | .emptyObject | .object _ => True
  | _ => False

/-- An array. -/
def Value.IsArray : Value → Prop
  | .emptyArray | .array _ => True
  | _ => False

/-- The sequences that a nonterminal stands for, as far as their trees fit between the
    depth and the limit. -/
def Fits (limit depth : Nat) : LeftSideNonTerminal → List TokenType → Prop
  | .json, w => ∃ v : Value, (v.IsObject ∨ v.IsArray) ∧ w = v.tokens ∧ depth + v.height ≤ limit
  | .element, w => ∃ v : Value, w = v.tokens ∧ depth + 1 + v.height ≤ limit
  | .elements, w => ∃ es : Elements, w = es.tokens ∧ depth + es.height ≤ limit
  | .members, w => ∃ ms : Members, w = ms.tokens ∧ depth + ms.height ≤ limit
  | .member, w => ∃ hasValue, ∃ v : Value,
      w = stringTokens hasValue ++ .colon :: v.tokens ∧ depth + 2 + v.height ≤ limit
  | .value, w => ∃ v : Value, w = v.tokens ∧ depth + v.height ≤ limit
  | .object, w => ∃ v : Value, v.IsObject ∧ w = v.tokens ∧ depth + v.height ≤ limit + 1
  | .array, w => ∃ v : Value, v.IsArray ∧ w = v.tokens ∧ depth + v.height ≤ limit + 1
  | .string, w => ∃ hasValue, w = stringTokens hasValue ∧ depth ≤ limit

/-- The trees fit together as the rules say. -/
theorem fits_of_rule {limit depth : Nat} {n : LeftSideNonTerminal} {rule : Rule}
    {w : List TokenType} (hdepth : depth ≤ limit) (hrule : rule ∈ ruleMap n)
    (h : Matches (Fits limit (depth + 1)) rule w) : Fits limit depth n w := by
  cases n with
  | json =>
      rcases List.mem_pair.mp hrule with rfl | rfl
      · rcases matches_single.mp h with ⟨tree, hobject, rfl, hheight⟩
        exact ⟨tree, Or.inl hobject, rfl, by omega⟩
      · rcases matches_single.mp h with ⟨tree, harray, rfl, hheight⟩
        exact ⟨tree, Or.inr harray, rfl, by omega⟩
  | element =>
      rcases List.mem_singleton.mp hrule with rfl
      rcases matches_single.mp h with ⟨tree, rfl, hheight⟩
      exact ⟨tree, rfl, by omega⟩
  -- A list goes on behind a comma, one level further down.
  | elements =>
      rcases List.mem_pair.mp hrule with rfl | rfl
      · rcases h with ⟨u, v, rfl, ⟨tree, rfl, hheight⟩, hcomma⟩
        rcases matches_terminal.mp hcomma with ⟨v, rfl, hrest⟩
        rcases matches_single.mp hrest with ⟨others, rfl, hothers⟩
        refine ⟨.more tree others, rfl, ?_⟩
        rw [Elements.height]
        omega
      · rcases matches_single.mp h with ⟨tree, rfl, hheight⟩
        refine ⟨.one tree, rfl, ?_⟩
        rw [Elements.height]
        omega
  | members =>
      rcases List.mem_pair.mp hrule with rfl | rfl
      · rcases h with ⟨u, v, rfl, ⟨hasValue, tree, rfl, hheight⟩, hcomma⟩
        rcases matches_terminal.mp hcomma with ⟨v, rfl, hrest⟩
        rcases matches_single.mp hrest with ⟨others, rfl, hothers⟩
        refine ⟨.more hasValue tree others, rfl, ?_⟩
        rw [Members.height]
        omega
      · rcases matches_single.mp h with ⟨hasValue, tree, rfl, hheight⟩
        refine ⟨.one hasValue tree, rfl, ?_⟩
        rw [Members.height]
        omega
  | member =>
      rcases List.mem_singleton.mp hrule with rfl
      rcases h with ⟨u, v, rfl, ⟨hasValue, rfl, -⟩, hcolon⟩
      rcases matches_terminal.mp hcolon with ⟨v, rfl, hrest⟩
      rcases matches_single.mp hrest with ⟨tree, rfl, hheight⟩
      exact ⟨hasValue, tree, rfl, by omega⟩
  | object =>
      rcases List.mem_pair.mp hrule with rfl | rfl
      · rcases matches_bracketed.mp h with ⟨u, rfl, members, rfl, hheight⟩
        refine ⟨.object members, trivial, rfl, ?_⟩
        rw [Value.height]
        omega
      · rcases matches_terminal.mp h with ⟨v, rfl, hclosing⟩
        rcases matches_terminal.mp hclosing with ⟨v, rfl, rfl⟩
        exact ⟨.emptyObject, trivial, rfl, Nat.succ_le_succ hdepth⟩
  | array =>
      rcases List.mem_pair.mp hrule with rfl | rfl
      · rcases matches_bracketed.mp h with ⟨u, rfl, elements, rfl, hheight⟩
        refine ⟨.array elements, trivial, rfl, ?_⟩
        rw [Value.height]
        omega
      · rcases matches_terminal.mp h with ⟨v, rfl, hclosing⟩
        rcases matches_terminal.mp hclosing with ⟨v, rfl, rfl⟩
        exact ⟨.emptyArray, trivial, rfl, Nat.succ_le_succ hdepth⟩
  | string =>
      rcases List.mem_singleton.mp hrule with rfl
      rcases matches_terminal.mp h with ⟨v, rfl, hcontents⟩
      -- The contents are optional: there is no token for those of an empty string.
      rcases hcontents with ⟨v, rfl, hclosing⟩ | ⟨-, hclosing⟩
      · rcases matches_terminal.mp hclosing with ⟨v, rfl, rfl⟩
        exact ⟨true, rfl, hdepth⟩
      · rcases matches_terminal.mp hclosing with ⟨v, rfl, rfl⟩
        exact ⟨false, rfl, hdepth⟩
  | value =>
      have hrules : rule = [.nonTerminal .object] ∨ rule = [.nonTerminal .array] ∨
          rule = [.nonTerminal .string] ∨ rule = [.terminal .nullValue false] ∨
          rule = [.terminal .numericValue false] ∨ rule = [.terminal .booleanValue false] := by
        simpa only [ruleMap, List.mem_cons, List.not_mem_nil, or_false] using hrule
      rcases hrules with rfl | rfl | rfl | rfl | rfl | rfl
      · rcases matches_single.mp h with ⟨tree, -, rfl, hheight⟩
        exact ⟨tree, rfl, by omega⟩
      · rcases matches_single.mp h with ⟨tree, -, rfl, hheight⟩
        exact ⟨tree, rfl, by omega⟩
      · rcases matches_single.mp h with ⟨hasValue, rfl, hheight⟩
        exact ⟨.string hasValue, rfl, hheight⟩
      · rcases matches_terminal.mp h with ⟨v, rfl, rfl⟩
        exact ⟨.null, rfl, hdepth⟩
      · rcases matches_terminal.mp h with ⟨v, rfl, rfl⟩
        exact ⟨.number, rfl, hdepth⟩
      · rcases matches_terminal.mp h with ⟨v, rfl, rfl⟩
        exact ⟨.boolean, rfl, hdepth⟩

/-- Every derivation is that of a tree. -/
theorem fits_of_derives {limit depth : Nat} {n : LeftSideNonTerminal} {w : List TokenType}
    (h : Derives ruleMap limit depth [.nonTerminal n] w) : Fits limit depth n w := by
  refine matches_single.mp (h.matches (Fits limit) ?_)
  intro _ _ _ _ hdepth hrule hrest
  exact fits_of_rule hdepth hrule hrest

end Json

end CodingChallenges
