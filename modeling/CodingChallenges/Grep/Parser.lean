import CodingChallenges.Library.Decimal
import CodingChallenges.Library.Outcomes
import CodingChallenges.Grep.Syntax

/-!
# The Regex Parser

The recursive-descent parser of `parser.cpp`, from bytes to trees.

A `ParseResult<T>` is either an error text or a value and the rest of the
pattern, which is an `Except` here. A view is only ever shortened from the
front, so it is a list of bytes. The parsers that only see leaves are total
functions. The parsers of groups, items, sub-expressions, and expressions call
one another; here each receives the parser of expressions as an argument, and
`parseExpression` ties the knot with a bound on the nesting of groups. The
loops over items and alternatives have a bound on their rounds. Hitting a bound
is an error of its own, `outOfFuel`, which the bounds `parseRegex` starts from
never let happen.

Several parsers try one alternative after another on the same view, and an
error of one alternative only shows when all of them fail.

## Main definitions

* `parseQuantifier`, `parseChar`, `parseCharacterGroup`, `parseMatch`: Leaves.
* `parseAnchor`, `parseBackreference`: The items without a quantifier.
* `parseGroup`, `parseSubExpressionItem`, `parseSubExpression`: Items, given a
  parser of expressions.
* `parseExpression`, `parseRegex`: The recursion.
-/

namespace CodingChallenges

namespace Grep

/-- A value and the rest of the pattern. -/
structure ParseValue (α : Type) where
  value : α
  remainingRegex : List Byte
deriving DecidableEq, Repr

/-- The text of an error. -/
abbrev ParseError := String

/-- How many values a `std::size_t` has. -/
def sizeTypeBound : Nat := 2 ^ 64

/-- `parse_number`, with `std::from_chars`. -/
def parseNumber (regex : List Byte) : Except ParseError (ParseValue Nat) :=
  match fromChars sizeTypeBound regex with
  | some (number, rest) => return ⟨number, rest⟩
  | none => throw "Failed to parse number"

/-- A letter of ASCII. -/
def isLetter (c : Byte) : Bool :=
  (byte 'a' ≤ c && c ≤ byte 'z') || (byte 'A' ≤ c && c ≤ byte 'Z')

/-- An empty pattern has no first byte that is not a letter, so it is no
    error. -/
def parseLetters (regex : List Byte) : Except ParseError (ParseValue (List Byte)) :=
  if regex ≠ [] ∧ regex.takeWhile isLetter = [] then
    throw "Expected at least one letter"
  else
    return ⟨regex.takeWhile isLetter, regex.dropWhile isLetter⟩

/-- Numbers in braces. -/
def parseRangeQuantifier (regex : List Byte) : Except ParseError (ParseValue RangeQuantifier) :=
  if regex.head? ≠ some (byte '{') then
    throw "Expected '\x7b' at the beginning of range quantifier"
  else do
    let ⟨lowerBound, rest⟩ ← parseNumber regex.tail
    match rest with
    | [] => throw "Expected '\x7d' at the end of range quantifier"
    | c :: rest =>
      if c = byte '}' then
        return ⟨{ exactlyLowerBoundTimes := true, lowerBound }, rest⟩
      -- Behind the comma may be an upper bound, or nothing.
      else if c = byte ',' then
        match rest with
        | [] => throw "Expected '\x7d' at the end of range quantifier"
        | d :: afterComma =>
          if d = byte '}' then
            return ⟨{ lowerBound }, afterComma⟩
          else do
            let ⟨upperBound, rest⟩ ← parseNumber rest
            -- The order of the bounds is checked before the closing brace.
            if upperBound < lowerBound then
              throw "Lower bound cannot be greater than upper bound in range quantifier"
            else if rest.head? ≠ some (byte '}') then
              throw "Expected '\x7d' at the end of range quantifier"
            else
              return ⟨{ lowerBound, upperBound := some upperBound }, rest.tail⟩
      else
        throw "Expected ',' or '\x7d' in range quantifier"

/-- The optional question mark behind a quantifier. -/
def parseLazyModifier (regex : List Byte) : Bool × List Byte :=
  if regex.head? = some (byte '?') then (true, regex.tail) else (false, regex)

/-- A quantifier, lazy if a `?` follows. -/
def parseQuantifier (regex : List Byte) : Except ParseError (ParseValue Quantifier) :=
  match regex with
  | [] => throw "Empty quantifier"
  | c :: rest =>
    if c = byte '*' then
      let (lazyModifier, rest) := parseLazyModifier rest
      return ⟨{ type := .zeroOrMore, lazyModifier }, rest⟩
    else if c = byte '+' then
      let (lazyModifier, rest) := parseLazyModifier rest
      return ⟨{ type := .oneOrMore, lazyModifier }, rest⟩
    else if c = byte '?' then
      let (lazyModifier, rest) := parseLazyModifier rest
      return ⟨{ type := .zeroOrOne, lazyModifier }, rest⟩
    else if c = byte '{' then do
      let ⟨rangeQuantifier, rest⟩ ← parseRangeQuantifier regex
      let (lazyModifier, rest) := parseLazyModifier rest
      return ⟨{ type := .range, rangeQuantifier := some rangeQuantifier, lazyModifier }, rest⟩
    else
      throw "Invalid quantifier"

/-- A UTF-8 continuation byte. -/
def isContinuation (c : Byte) : Bool :=
  0x80 ≤ c && c ≤ 0xBF

/-- The UTF-8 decoding of one code point. -/
def parseChar (regex : List Byte) : Except ParseError (ParseValue Nat) :=
  match regex with
  | [] => throw "Empty character"
  | c :: rest =>
    if c ≤ 0x7F then
      return ⟨c.toNat, rest⟩
    else if 0xC0 ≤ c && c ≤ 0xDF then
      match rest with
      | c₁ :: rest =>
        if isContinuation c₁ then
          return ⟨(c.toNat &&& 0x1F) <<< 6 ||| (c₁.toNat &&& 0x3F), rest⟩
        else
          throw "Invalid UTF-8 byte sequence for codepoint range U+0080 - U+07FF"
      | _ => throw "Invalid UTF-8 byte sequence for codepoint range U+0080 - U+07FF"
    else if 0xE0 ≤ c && c ≤ 0xEF then
      match rest with
      | c₁ :: c₂ :: rest =>
        if isContinuation c₁ && isContinuation c₂ then
          return ⟨(c.toNat &&& 0xF) <<< 12 ||| (c₁.toNat &&& 0x3F) <<< 6 |||
            (c₂.toNat &&& 0x3F), rest⟩
        else
          -- The source names the range of two bytes here.
          throw "Invalid UTF-8 byte sequence for codepoint range U+0080 - U+07FF"
      | _ => throw "Invalid UTF-8 byte sequence for codepoint range U+0800 - U+FFFF"
    else if 0xF0 ≤ c && c ≤ 0xF7 then
      match rest with
      | c₁ :: c₂ :: c₃ :: rest =>
        if isContinuation c₁ && isContinuation c₂ && isContinuation c₃ then
          return ⟨(c.toNat &&& 0x7) <<< 18 ||| (c₁.toNat &&& 0x3F) <<< 12 |||
            (c₂.toNat &&& 0x3F) <<< 6 ||| (c₃.toNat &&& 0x3F), rest⟩
        else
          throw "Invalid UTF-8 byte sequence for codepoint range U+10000 - U+10FFFF"
      | _ => throw "Invalid UTF-8 byte sequence for codepoint range U+10000 - U+10FFFF"
    else
      throw "Invalid UTF-8 byte sequence"

/-- The letters of a category's name. -/
def parseUnicodeCategoryName (regex : List Byte) :
    Except ParseError (ParseValue UnicodeCategoryName) :=
  if regex = [] then
    throw "Empty unicode category name"
  else do
    let ⟨letters, rest⟩ ← parseLetters regex
    return ⟨{ letters }, rest⟩

/-- A category behind `\p`. -/
def parseCharacterClassFromUnicodeCategory (regex : List Byte) :
    Except ParseError (ParseValue CharacterClassFromUnicodeCategory) :=
  if regex = [] then
    throw "Empty character class from unicode category"
  else if ¬ [byte '\\', byte 'p', byte '{'].isPrefixOf regex then
    throw "Expected '\\p\x7b' at the beginning of character class from unicode category"
  else do
    let ⟨categoryName, rest⟩ ← parseUnicodeCategoryName (regex.drop 3)
    if rest.head? ≠ some (byte '}') then
      throw "Expected '\x7d' at the end of character class from unicode category"
    else
      return ⟨{ categoryName }, rest.tail⟩

/-- The letters of the class escapes. -/
def characterClassType (c : Byte) : Option CharacterClassType :=
  if c = byte 'w' then some .anyWord
  else if c = byte 'W' then some .anyWordInverted
  else if c = byte 'd' then some .anyDecimalDigit
  else if c = byte 'D' then some .anyDecimalDigitInverted
  else if c = byte 's' then some .anyWhitespace
  else if c = byte 'S' then some .anyWhitespaceInverted
  else none

/-- A class of one letter behind a backslash. -/
def parseCharacterClass (regex : List Byte) : Except ParseError (ParseValue CharacterClass) :=
  match regex with
  | [] => throw "Empty character class"
  | c :: rest =>
    if c ≠ byte '\\' then
      throw "Expected '\\' at the beginning of character class"
    else
      match rest with
      | [] => throw "Expected a character class type after '\\'"
      | d :: rest =>
        match characterClassType d with
        | some type => return ⟨{ type }, rest⟩
        | none => throw "Invalid character class type"

/-- A character, and the end of a range if a hyphen follows. -/
def parseCharacterRange (regex : List Byte) : Except ParseError (ParseValue CharacterRange) :=
  match regex with
  | [] => throw "Empty character range"
  | c :: _ =>
    -- A hyphen by itself is left to the parser of single characters.
    if c = byte '-' then
      throw "Character range cannot start with '-'"
    else do
      let ⟨start, rest⟩ ← parseChar regex
      if rest.head? = some (byte '-') then do
        let ⟨last, rest⟩ ← parseChar rest.tail
        if last < start then
          throw "Start character cannot be greater than end character in character range"
        else
          return ⟨{ start, endChar := some last }, rest⟩
      else
        return ⟨{ start }, rest⟩

/-- What stands between brackets: a class, a category, a range or a character, tried in this
    order. -/
def parseCharacterGroupItem (regex : List Byte) :
    Except ParseError (ParseValue CharacterGroupItem) :=
  if regex = [] then
    throw "Empty character group item"
  else
    match parseCharacterClass regex with
    | .ok ⟨characterClass, rest⟩ => return ⟨.characterClass characterClass, rest⟩
    | .error classError =>
      match parseCharacterClassFromUnicodeCategory regex with
      | .ok ⟨unicodeCategory, rest⟩ => return ⟨.unicodeCategory unicodeCategory, rest⟩
      | .error categoryError =>
        match parseCharacterRange regex with
        | .ok ⟨characterRange, rest⟩ => return ⟨.characterRange characterRange, rest⟩
        | .error rangeError =>
          -- A hyphen is read here, and the first character of what is no range in order.
          match parseChar regex with
          | .ok ⟨character, rest⟩ => return ⟨.character character, rest⟩
          | .error charError =>
            throw ("Expected a character class or a character class from unicode category " ++
              "or a character range or a character at the beginning of character group item\n" ++
              "  Character class parse error: " ++ classError ++
              "\n  Character class from unicode category parse error: " ++ categoryError ++
              "\n  Character range parse error: " ++ rangeError ++
              "\n  Character parse error: " ++ charError)

/-- The loop of `parse_character_group` over the items. An item takes at least
    one byte, so the loop has no more rounds than the pattern has bytes. -/
def parseCharacterGroupItems : Nat → List Byte → List CharacterGroupItem × List Byte
  | 0, regex => ([], regex)
  | rounds + 1, regex =>
    if regex = [] ∨ regex.head? = some (byte ']') then ([], regex)
    else
      match parseCharacterGroupItem regex with
      -- The error is dropped: the closing bracket is what is missing then.
      | .error _ => ([], regex)
      | .ok ⟨item, rest⟩ =>
        let (items, rest) := parseCharacterGroupItems rounds rest
        (item :: items, rest)

/-- Items in brackets. -/
def parseCharacterGroup (regex : List Byte) : Except ParseError (ParseValue CharacterGroup) :=
  match regex with
  | [] => throw "Empty character group"
  | c :: rest =>
    if c ≠ byte '[' then
      throw "Expected '[' at the beginning of character group"
    else if rest = [] then
      throw "Expected ']' at the end of character group"
    else
      -- Only directly behind the bracket a circumflex negates.
      let negativeModifier := rest.head? == some (byte '^')
      let rest := if negativeModifier then rest.tail else rest
      let (characterGroupItems, rest) := parseCharacterGroupItems rest.length rest
      if rest.head? ≠ some (byte ']') then
        throw "Expected ']' at the end of character group"
      else
        return ⟨{ negativeModifier, characterGroupItems }, rest.tail⟩

/-- A character that stands for itself. -/
def parseMatchCharacter (regex : List Byte) : Except ParseError (ParseValue Nat) :=
  if regex = [] then throw "Empty match character" else parseChar regex

/-- A group of characters, a class or a category. -/
def parseMatchCharacterClass (regex : List Byte) :
    Except ParseError (ParseValue MatchCharacterClass) :=
  if regex = [] then
    throw "Empty match character class"
  else
    match parseCharacterGroup regex with
    | .ok ⟨characterGroup, rest⟩ => return ⟨.characterGroup characterGroup, rest⟩
    | .error groupError =>
      match parseCharacterClass regex with
      | .ok ⟨characterClass, rest⟩ => return ⟨.characterClass characterClass, rest⟩
      | .error classError =>
        match parseCharacterClassFromUnicodeCategory regex with
        | .ok ⟨unicodeCategory, rest⟩ => return ⟨.unicodeCategory unicodeCategory, rest⟩
        | .error categoryError =>
          throw ("Expected a character group or a character class or a character class " ++
            "from unicode category at the beginning of match character class\n" ++
            "  Character group parse error: " ++ groupError ++
            "\n  Character class parse error: " ++ classError ++
            "\n  Character class from unicode category parse error: " ++ categoryError)

/-- What matches one character. -/
def parseMatchItem (regex : List Byte) : Except ParseError (ParseValue MatchItem) :=
  match regex with
  | [] => throw "Empty match item"
  | c :: rest =>
    if c = byte '.' then
      return ⟨.anyCharacter, rest⟩
    else
      match parseMatchCharacterClass regex with
      | .ok ⟨characterClass, rest⟩ => return ⟨.characterClass characterClass, rest⟩
      | .error classError =>
        match parseMatchCharacter regex with
        | .ok ⟨character, rest⟩ => return ⟨.character character, rest⟩
        | .error charError =>
          throw ("Expected a character class or a character at the beginning of match item\n" ++
            "  Character class parse error: " ++ classError ++
            "\n  Character parse error: " ++ charError)

/-- A quantifier that does not parse is left in the pattern. -/
def parseMatch (regex : List Byte) : Except ParseError (ParseValue Match) :=
  if regex = [] then
    throw "Empty match"
  else do
    let ⟨matchItem, rest⟩ ← parseMatchItem regex
    if rest = [] then
      return ⟨{ matchItem }, rest⟩
    else
      match parseQuantifier rest with
      | .error _ => return ⟨{ matchItem }, rest⟩
      | .ok ⟨quantifier, rest⟩ => return ⟨{ matchItem, quantifier := some quantifier }, rest⟩

/-- The letters of the anchor escapes. -/
def anchorType (c : Byte) : Option AnchorType :=
  if c = byte 'b' then some .wordBoundary
  else if c = byte 'B' then some .nonWordBoundary
  else if c = byte 'A' then some .startOfStringOnly
  else if c = byte 'z' then some .endOfStringOnlyNotNewline
  else if c = byte 'Z' then some .endOfStringOnly
  else if c = byte 'G' then some .previousMatchEnd
  else none

/-- An anchor, which is a dollar sign or behind a backslash. -/
def parseAnchor (regex : List Byte) : Except ParseError (ParseValue Anchor) :=
  match regex with
  | [] => throw "Empty anchor"
  | c :: rest =>
    if c = byte '$' then
      return ⟨{ type := .endOfString }, rest⟩
    else if c ≠ byte '\\' then
      throw "Expected '\\' at the beginning of anchor"
    else
      match rest with
      | [] => throw "Expected an anchor type after '\\'"
      | d :: rest =>
        match anchorType d with
        | some type => return ⟨{ type }, rest⟩
        | none => throw "Invalid anchor type"

/-- A number behind a backslash. -/
def parseBackreference (regex : List Byte) : Except ParseError (ParseValue Nat) :=
  match regex with
  | [] => throw "Empty backreference"
  | c :: rest =>
    if c ≠ byte '\\' then
      throw "Expected '\\' at the beginning of backreference"
    else
      match parseNumber rest with
      | .error _ => throw "Failed to parse backreference number"
      | .ok result => return result

/-- Why a parser of trees fails: an error text, or the model's bound. -/
inductive ParseFailure where
  | error (message : String)
  | outOfFuel
deriving DecidableEq, Repr

/-- The result of a parser of leaves where one of trees is expected. -/
def toTree {α : Type} (result : Except ParseError (ParseValue α)) :
    Except ParseFailure (ParseValue α) :=
  result.mapError .error

section Tree

variable (parseExpression : List Byte → Except ParseFailure (ParseValue Expression))

/-- An expression in parentheses, and its quantifier. -/
def parseGroup (regex : List Byte) : Except ParseFailure (ParseValue Group) :=
  match regex with
  | [] => throw (.error "Empty group")
  | c :: rest =>
    if c ≠ byte '(' then
      throw (.error "Expected '(' at the beginning of group")
    else do
      let nonCapturingModifier := [byte '?', byte ':'].isPrefixOf rest
      let ⟨expression, rest⟩ ←
        parseExpression (if nonCapturingModifier then rest.drop 2 else rest)
      if rest.head? ≠ some (byte ')') then
        throw (.error "Expected ')' at the end of group")
      else
        match parseQuantifier rest.tail with
        | .error _ => return ⟨.mk nonCapturingModifier (some expression) none, rest.tail⟩
        | .ok ⟨quantifier, rest⟩ =>
          return ⟨.mk nonCapturingModifier (some expression) (some quantifier), rest⟩

/-- An item of a sequence. What it is tried as depends on its first bytes. -/
def parseSubExpressionItem (regex : List Byte) :
    Except ParseFailure (ParseValue SubExpressionItem) :=
  match regex with
  | [] => throw (.error "Empty sub-expression item")
  | c :: _ =>
    if c = byte '|' ∨ c = byte ')' then
      throw (.error "Sub-expression item cannot start with '|' or ')'")
    else if c = byte '(' then do
      let ⟨group, rest⟩ ← parseGroup parseExpression regex
      return ⟨.group group, rest⟩
    -- A backslash begins an anchor, a backreference or a class, tried in this order.
    else if c = byte '\\' then
      match parseAnchor regex with
      | .ok ⟨anchor, rest⟩ => return ⟨.anchor anchor, rest⟩
      | .error anchorError =>
        match parseBackreference regex with
        | .ok ⟨number, rest⟩ => return ⟨.backreference number, rest⟩
        | .error backreferenceError =>
          match parseMatch regex with
          | .ok ⟨m, rest⟩ => return ⟨.singleMatch m, rest⟩
          | .error matchError =>
            throw (.error ("Expected an anchor or a backreference or a match at the beginning " ++
              "of sub-expression item\n  Anchor parse error: " ++ anchorError ++
              "\n  Backreference parse error: " ++ backreferenceError ++
              "\n  Match parse error: " ++ matchError))
    else if c = byte '$' then do
      let ⟨anchor, rest⟩ ← toTree (parseAnchor regex)
      return ⟨.anchor anchor, rest⟩
    else do
      let ⟨m, rest⟩ ← toTree (parseMatch regex)
      return ⟨.singleMatch m, rest⟩

/-- Where the loop over the items stops. -/
def endsSubExpression (regex : List Byte) : Bool :=
  regex.isEmpty || regex.head? == some (byte '|') || regex.head? == some (byte ')')

/-- The loop of `parse_sub_expression` over the items after the first. -/
def parseSubExpressionItems :
    Nat → List Byte → Except ParseFailure (ParseValue (List SubExpressionItem))
  | 0, regex => if endsSubExpression regex then return ⟨[], regex⟩ else throw .outOfFuel
  | rounds + 1, regex =>
    if endsSubExpression regex then return ⟨[], regex⟩
    else do
      let ⟨item, rest⟩ ← parseSubExpressionItem parseExpression regex
      let ⟨items, rest⟩ ← parseSubExpressionItems rounds rest
      return ⟨item :: items, rest⟩

/-- A sequence of items. -/
def parseSubExpression (regex : List Byte) : Except ParseFailure (ParseValue SubExpression) :=
  if regex = [] then
    throw (.error "Empty sub-expression")
  else do
    let ⟨item, rest⟩ ← parseSubExpressionItem parseExpression regex
    let ⟨items, rest⟩ ← parseSubExpressionItems parseExpression rest.length rest
    return ⟨.mk (item :: items), rest⟩

/-- The loop of `parse_expression` over the alternatives after the first. -/
def parseAlternatives : Nat → List Byte → Except ParseFailure (ParseValue (List SubExpression))
  | 0, regex => if regex.head? = some (byte '|') then throw .outOfFuel else return ⟨[], regex⟩
  | rounds + 1, regex =>
    if regex.head? = some (byte '|') then do
      let ⟨alternative, rest⟩ ← parseSubExpression parseExpression regex.tail
      let ⟨alternatives, rest⟩ ← parseAlternatives rounds rest
      return ⟨alternative :: alternatives, rest⟩
    else
      return ⟨[], regex⟩

end Tree

/-- `parse_expression` with a bound on the nesting of groups. -/
def parseExpression : Nat → List Byte → Except ParseFailure (ParseValue Expression)
  | 0, _ => throw .outOfFuel
  | depth + 1, regex =>
    if regex = [] then
      throw (.error "Empty expression")
    else do
      let ⟨alternative, rest⟩ ← parseSubExpression (parseExpression depth) regex
      let ⟨alternatives, rest⟩ ← parseAlternatives (parseExpression depth) rest.length rest
      return ⟨.mk (alternative :: alternatives), rest⟩

/-- Each nested group takes a byte for its parenthesis, so the length of the
    pattern bounds the nesting. -/
def parseRegex (regex : List Byte) : Except ParseFailure (ParseValue Regex) :=
  if regex = [] then
    throw (.error "Empty regex")
  else do
    -- The circumflex is an anchor of the whole pattern, not an item.
    let startOfStringAnchor := regex.head? == some (byte '^')
    let rest := if startOfStringAnchor then regex.tail else regex
    let ⟨expression, rest⟩ ← parseExpression (rest.length + 1) rest
    return ⟨{ startOfStringAnchor, expression }, rest⟩

end Grep

end CodingChallenges
