import CodingChallenges.Json.Parser
import CodingChallenges.Library.Bytes

/-!
# The Handlers of the JSON Tokenizer

How a single token is read: the handlers and the switch of `Tokenizer.cpp`.

The input is the list of the bytes that are still to be read; getting a byte from an
empty one fails. A handler that finds the end of its token by reading one byte too
many hands this byte back, and the tokenizer takes it as its next one instead of
reading. So this byte stands in front of the rest here. Where the input ended before
such a byte, what is handed back is whatever the variable for it held, in most cases
the zero that it was initialised with.

## Main definitions

* `Reading`: What a handler leaves behind.
* `handleString`, `handleNumeric`, `handleBoolean`, `handleNull`, `handleWhitespace`: The
  handlers.
* `readToken`: The switch over the first byte of a token.
-/

namespace CodingChallenges

namespace Json

/-- `std::isdigit` in the C locale. -/
def isDigit (c : UInt8) : Bool :=
  byte '0' ≤ c && c ≤ byte '9'

/-- `std::isxdigit` in the C locale. -/
def isXDigit (c : UInt8) : Bool :=
  isDigit c || (byte 'a' ≤ c && c ≤ byte 'f') || (byte 'A' ≤ c && c ≤ byte 'F')

/-- Space, line feed, carriage return and tab. -/
def isWhitespace (c : UInt8) : Bool :=
  c = 0x20 || c = 0x0A || c = 0x0D || c = 0x09

/-- What a handler leaves behind: `string_token`, `last_read_char` and the stream. -/
structure Reading where
  stringToken : List UInt8
  lastReadChar : UInt8
  rest : List UInt8
deriving DecidableEq, Repr

/-- The characters that may follow a backslash. -/
def escapes : List UInt8 :=
  [byte '"', byte '\\', byte '/', byte 'b', byte 'f', byte 'n', byte 'r', byte 't', byte 'u']

/-- `handle_string`. The first argument is the number of hexadecimal digits that have to
    come next. -/
def handleString : Nat → List UInt8 → List UInt8 → Option (List UInt8 × List UInt8)
  | _, [], _ => none
  | hexDigits + 1, c :: is, stringToken =>
    if isXDigit c then handleString hexDigits is (stringToken ++ [c]) else none
  | 0, c :: is, stringToken =>
    if c = byte '"' then some (stringToken, is)
    else if c = 0x09 || c = 0x0A || c = 0x09 then none
    else if c = byte '\\' then
      match is with
      | [] => none
      | nextChar :: is' =>
        if nextChar ∈ escapes then
          handleString (if nextChar = byte 'u' then 4 else 0) is' (stringToken ++ [c, nextChar])
        else none
    else handleString 0 is (stringToken ++ [c])

/-- The loop that reads characters of a kind, up to the first one that is not. -/
def readWhile (kind : UInt8 → Bool) : List UInt8 → List UInt8 → UInt8 → Reading
  | [], stringToken, lastReadChar => ⟨stringToken, lastReadChar, []⟩
  | c :: is, stringToken, lastReadChar =>
    if kind c then readWhile kind is (stringToken ++ [c]) lastReadChar else ⟨stringToken, c, is⟩

/-- The digits of `handle_integer` after a sign. A zero that is not the first digit is
    appended twice. -/
def readDigitsAfterSign : Bool → List UInt8 → List UInt8 → UInt8 → Option Reading
  | _, [], stringToken, lastReadChar => some ⟨stringToken, lastReadChar, []⟩
  | isFirstCharAfterSign, c :: is, stringToken, lastReadChar =>
    if c = byte '0' then
      if isFirstCharAfterSign then
        match is with
        | [] => none
        | c' :: is' => some ⟨stringToken ++ [c], c', is'⟩
      else readDigitsAfterSign false is (stringToken ++ [c] ++ [c]) lastReadChar
    else if isDigit c then readDigitsAfterSign false is (stringToken ++ [c]) lastReadChar
    else some ⟨stringToken, c, is⟩

/-- The integer of a number, from its first character on. -/
def handleInteger (firstChar : UInt8) (is : List UInt8) : Option Reading :=
  if firstChar = byte '-' then readDigitsAfterSign true is [firstChar] 0
  else if byte '1' ≤ firstChar && firstChar ≤ byte '9' then
    some (readWhile isDigit is [firstChar] 0)
  else if firstChar = byte '0' then
    match is with
    | [] => none
    | c :: is' => some ⟨[firstChar], c, is'⟩
  else none

/-- `handle_fraction`, with the character read last as its first one. -/
def handleFraction (r : Reading) : Option Reading :=
  if r.lastReadChar = byte 'e' || r.lastReadChar = byte 'E' then some r
  else if r.lastReadChar ≠ byte '.' then some r
  else some (readWhile isDigit r.rest (r.stringToken ++ [r.lastReadChar]) r.lastReadChar)

/-- The loop of `handle_exponent`. -/
def readExponent : Bool → Bool → List UInt8 → List UInt8 → UInt8 → Option Reading
  | _, _, [], stringToken, lastReadChar => some ⟨stringToken, lastReadChar, []⟩
  | signCharEncountered, digitEncountered, c :: is, stringToken, _ =>
    if !signCharEncountered && (c = byte '-' || c = byte '+') then
      readExponent true digitEncountered is (stringToken ++ [c]) c
    else if signCharEncountered && (c = byte '-' || c = byte '+') then none
    else if isDigit c then readExponent signCharEncountered true is (stringToken ++ [c]) c
    else if !signCharEncountered && !digitEncountered ||
        signCharEncountered && !digitEncountered then
      none
    else some ⟨stringToken, c, is⟩

/-- `handle_exponent`, with the character read last as its first one. -/
def handleExponent (r : Reading) : Option Reading :=
  if r.lastReadChar = byte 'e' || r.lastReadChar = byte 'E' then
    readExponent false false r.rest (r.stringToken ++ [r.lastReadChar]) r.lastReadChar
  else some r

/-- An integer, a fraction and an exponent, one behind the other. -/
def handleNumeric (firstChar : UInt8) (is : List UInt8) : Option Reading :=
  ((handleInteger firstChar is).bind handleFraction).bind handleExponent

/-- The remaining characters of a word, read as a block. -/
def readRemaining (remaining : List UInt8) (is stringToken : List UInt8) :
    Option (List UInt8 × List UInt8) :=
  if is.take remaining.length = remaining then
    some (stringToken ++ remaining, is.drop remaining.length)
  else none

/-- The rest of `true` or `false`. -/
def handleBoolean (firstChar : UInt8) (is : List UInt8) : Option (List UInt8 × List UInt8) :=
  if firstChar = byte 't' then readRemaining [byte 'r', byte 'u', byte 'e'] is [firstChar]
  else if firstChar = byte 'f' then
    readRemaining [byte 'a', byte 'l', byte 's', byte 'e'] is [firstChar]
  else none

/-- The rest of `null`. -/
def handleNull (firstChar : UInt8) (is : List UInt8) : Option (List UInt8 × List UInt8) :=
  if firstChar = byte 'n' then readRemaining [byte 'u', byte 'l', byte 'l'] is [firstChar] else none

/-- A run of whitespace is one token. -/
def handleWhitespace (firstChar : UInt8) (is : List UInt8) : Reading :=
  readWhile isWhitespace is [firstChar] 0

/-- The characters that are tokens on their own. -/
def charType (c : UInt8) : Option TokenType :=
  if c = byte '{' then some .openingBraces
  else if c = byte '}' then some .closingBraces
  else if c = byte '[' then some .openingSquareBrace
  else if c = byte ']' then some .closingSquareBrace
  else if c = byte ',' then some .comma
  else if c = byte ':' then some .colon
  else none

/-- The switch of `tokenize`: the tokens for a character and what belongs to it, or an
    error. -/
def readToken (c : UInt8) (is : List UInt8) : Option (List Token × List UInt8) :=
  if let some type := charType c then some ([⟨type, [c]⟩], is)
  else if c = byte '"' then
    (handleString 0 is []).map fun (stringToken, rest) =>
      ([⟨.dblQuote, [c]⟩, ⟨.stringValue, stringToken⟩, ⟨.dblQuote, [c]⟩], rest)
  else if isWhitespace c then
    let r := handleWhitespace c is
    some ([⟨.whitespace, r.stringToken⟩], r.lastReadChar :: r.rest)
  else if c = byte '-' || isDigit c then
    (handleNumeric c is).map fun r =>
      ([⟨.numericValue, r.stringToken⟩], r.lastReadChar :: r.rest)
  else if c = byte 't' || c = byte 'f' then
    (handleBoolean c is).map fun (stringToken, rest) => ([⟨.booleanValue, stringToken⟩], rest)
  else if c = byte 'n' then
    (handleNull c is).map fun (stringToken, rest) => ([⟨.nullValue, stringToken⟩], rest)
  else none

end Json

end CodingChallenges
