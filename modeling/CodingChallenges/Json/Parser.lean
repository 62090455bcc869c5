import CodingChallenges.Library.RuleTable

/-!
# The Parser of JSON Tokens

How a token sequence is checked: `Parser.cpp`, and the token types of
`Tokenizer.hpp`.

The parser walks through a table of rules. For a nonterminal it tries the rules in
their order and takes the first that matches, each rule symbol by symbol. A
nonterminal within a rule is tried one level deeper, and there is a limit on the
levels.

## Main definitions

* `Token`, `TokenType`: What the tokenizer produces.
* `ruleMap`: The table of rules.
* `parseJson`, `parse`: The parser.
-/

namespace CodingChallenges

namespace Json

open RuleTable

/-- The kinds of tokens. -/
inductive TokenType where
  | openingBraces
  | closingBraces
  | openingSquareBrace
  | closingSquareBrace
  | dblQuote
  | colon
  | comma
  | whitespace
  | stringValue
  | booleanValue
  | numericValue
  | nullValue
deriving DecidableEq, Repr

/-- A token with the characters it was made from. -/
structure Token where
  type : TokenType
  value : List UInt8
deriving DecidableEq, Repr

/-- The left sides of the rules. -/
inductive LeftSideNonTerminal where
  | json
  | element
  | elements
  | members
  | member
  | value
  | object
  | array
  | string
deriving DecidableEq, Repr

/-- Part of a rule: a `LeftSideNonTerminal` or a `RightSideTerminal`, which may have an
    epsilon value. -/
abbrev RuleSymbol := RulePart LeftSideNonTerminal TokenType

/-- The right side of a rule. -/
abbrev Rule := List RuleSymbol

/-- `m_rule_map`. -/
def ruleMap : LeftSideNonTerminal → List Rule
  | .json => [[.nonTerminal .object], [.nonTerminal .array]]
  | .element => [[.nonTerminal .value]]
  | .elements =>
    [[.nonTerminal .element, .terminal .comma false, .nonTerminal .elements],
      [.nonTerminal .element]]
  | .value =>
    [[.nonTerminal .object], [.nonTerminal .array], [.nonTerminal .string],
      [.terminal .nullValue false], [.terminal .numericValue false],
      [.terminal .booleanValue false]]
  | .object =>
    [[.terminal .openingBraces false, .nonTerminal .members, .terminal .closingBraces false],
      [.terminal .openingBraces false, .terminal .closingBraces false]]
  | .members =>
    [[.nonTerminal .member, .terminal .comma false, .nonTerminal .members], [.nonTerminal .member]]
  | .member => [[.nonTerminal .string, .terminal .colon false, .nonTerminal .element]]
  | .array =>
    [[.terminal .openingSquareBrace false, .nonTerminal .elements,
        .terminal .closingSquareBrace false],
      [.terminal .openingSquareBrace false, .terminal .closingSquareBrace false]]
  | .string => [[.terminal .dblQuote false, .terminal .stringValue true, .terminal .dblQuote false]]

/-- The symbols of a rule, one after the other from a token on. Nonterminals are left to
    `parse`. The result is the index behind what matched. -/
def matchRule (tokens : List Token) (parse : Nat → LeftSideNonTerminal → Option Nat) :
    Nat → Rule → Option Nat
  | tokenIndex, [] => some tokenIndex
  | tokenIndex, .nonTerminal n :: rest =>
    match parse tokenIndex n with
    | some tokenIndex' => matchRule tokens parse tokenIndex' rest
    | none => none
  | tokenIndex, .terminal t optional :: rest =>
    if tokens[tokenIndex]?.map Token.type = some t then
      matchRule tokens parse (tokenIndex + 1) rest
    else if optional then
      matchRule tokens parse tokenIndex rest
    else
      none

/-- Indent level for nesting level 19, according to the source. -/
def maxIndentLevel : Nat := 77

/-- `parse_json`. The first argument says how many levels are left: at indent level 77
    there is one, and below that there is none. -/
def parseJson (tokens : List Token) : Nat → Nat → LeftSideNonTerminal → Option Nat
  | 0, _, _ => none
  | levels + 1, tokenIndex, n =>
    if tokenIndex = tokens.length then none
    else (ruleMap n).findSome? (matchRule tokens (parseJson tokens levels) tokenIndex)

/-- The tokens that are not whitespace. -/
def filteredTokens (tokens : List Token) : List Token :=
  tokens.filter (·.type ≠ .whitespace)

/-- `parse`: all tokens but whitespace have to be used up. -/
def parse (tokens : List Token) : Bool :=
  if tokens = [] then false
  else
    match parseJson (filteredTokens tokens) (maxIndentLevel + 1) 0 .json with
    -- There may be extra tokens after the JSON structure.
    | some tokenIndex => !(tokenIndex < (filteredTokens tokens).length)
    | none => false

end Json

end CodingChallenges
