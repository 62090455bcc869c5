import CodingChallenges.Redis.RespGenerator

/-!
# Reading Values

The decoder: `RespParser.cpp`.

Each parser looks at the front of its input. It finds a complete value there, or
the beginning of one, or neither, and leaves in `parse_end_pos` how far it
looked. Arrays nest, so the parser of arrays is given the parser of the arrays
in it; the recursion is bounded by a number of levels, which the length of the
input always suffices for (`parse_total`).

The null value is looked for first wherever a message may begin with the byte of
a bulk string, and at the top also where it may begin with that of an array. Its
third spelling is `_\r\n`, which is the one the encoder writes, but no switch of
the decoder has a case for that byte.

## Main definitions

* `RespParserState`, `Parse`: What a parser returns and what it leaves.
* `parseSimpleString`, `parseBulkString`, `parseError`, `parseInteger`,
  `parseNull`, `parseArray`: The parsers of the values.
* `parseFrame`: One value at the top.
* `parse`: All values of a message, one behind the other.
-/

namespace CodingChallenges

namespace Redis

open Delimiter

/-- How far a parse came. -/
inductive RespParserState where
  | incomplete
  | complete
  | invalid
deriving DecidableEq, Repr

/-- What a parser leaves in its output parameters, by the state it returns. -/
inductive Parse (α : Type) where
  | complete (output : α) (parseEndPos : Nat)
  | incomplete (parseEndPos : Nat)
  | invalid (parseEndPos : Nat)
deriving Repr

namespace Parse

variable {α β : Type}

/-- The outcome without the value. -/
def state : Parse α → RespParserState
  | .complete _ _ => .complete
  | .incomplete _ => .incomplete
  | .invalid _ => .invalid

/-- Where the parse ended. -/
def parseEndPos : Parse α → Nat
  | .complete _ e => e
  | .incomplete e => e
  | .invalid e => e

/-- The value, which is there if it is complete. -/
def output? : Parse α → Option α
  | .complete output _ => some output
  | _ => none

/-- Change the value of a complete parse. -/
def map (f : α → β) : Parse α → Parse β
  | .complete output e => .complete (f output) e
  | .incomplete e => .incomplete e
  | .invalid e => .invalid e

/-- Going on behind what is complete. -/
def bind (p : Parse α) (f : α → Nat → Parse β) : Parse β :=
  match p with
  | .complete output e => f output e
  | .incomplete e => .incomplete e
  | .invalid e => .invalid e

end Parse

/-- A type byte and a line. The parsers of simple strings and of errors are this
    one, with their type bytes. -/
def parseLine (typeByte : Byte) (input : List Byte) (parseEndPos : Nat) : Parse (List Byte) :=
  if input.head? ≠ some typeByte then .invalid parseEndPos
  else
    match find crlf input with
    | none => .incomplete 1
    | some contentEndPos =>
      let content := (input.drop 1).take (contentEndPos - 1)
      -- A single `\r` or `\n` does not end the line, and is not allowed in it.
      if content.any (fun c => c == byte '\r' || c == byte '\n') then
        .invalid (contentEndPos + 2)
      else .complete content (contentEndPos + 2)

/-- A simple string is a line. -/
def parseSimpleString (input : List Byte) (parseEndPos : Nat) : Parse RespString :=
  (parseLine (byte '+') input parseEndPos).map fun content => ⟨content, false⟩

/-- An error is a line. -/
def parseError (input : List Byte) (parseEndPos : Nat) : Parse RespError :=
  parseLine (byte '-') input parseEndPos

/-- A type byte and a length. Bulk strings and arrays begin with this. -/
def parseLength (typeByte : Byte) (input : List Byte) (parseEndPos : Nat) : Parse Nat :=
  if input.head? ≠ some typeByte then .invalid parseEndPos
  else
    match find crlf input with
    | none => .incomplete 1
    | some lengthStringEndPos =>
      let lengthString := (input.drop 1).take (lengthStringEndPos - 1)
      if lengthString = [] then .invalid (lengthStringEndPos + 2)
      else
        -- What follows the digits is not looked at.
        match fromChars sizeBound lengthString with
        | none => .invalid (lengthStringEndPos + 2)
        | some (length, _) => .complete length (lengthStringEndPos + 2)

/-- A bulk string is as long as announced, up to the next line end. -/
def parseBulkString (input : List Byte) (parseEndPos : Nat) : Parse RespString :=
  (parseLength (byte '$') input parseEndPos).bind fun expectedContentLen contentPos =>
    match findFrom crlf input contentPos with
    | none => .incomplete contentPos
    | some contentEndPos =>
      let contentLen := contentEndPos - contentPos
      -- The announced length is compared with where the next `\r\n` is.
      if contentLen ≠ expectedContentLen then .invalid (contentEndPos + 2)
      else .complete ⟨(input.drop contentPos).take contentLen, true⟩ (contentEndPos + 2)

/-- `from_chars` reads a prefix of the line. -/
def parseInteger (input : List Byte) (parseEndPos : Nat) : Parse RespInt :=
  if input.head? ≠ some (byte ':') then .invalid parseEndPos
  else
    match find crlf input with
    | none => .incomplete 1
    | some contentEndPos =>
      let content := (input.drop 1).take (contentEndPos - 1)
      if content = [] then .invalid (contentEndPos + 2)
      else
        match fromCharsSigned intBound content with
        | none => .invalid (contentEndPos + 2)
        -- What follows the number is not looked at.
        | some (number, _) => .complete (Int64.ofInt number) (contentEndPos + 2)

/-- The input against one spelling of the null value, from position `index`. -/
def checkNullVariant : List Byte → List Byte → Nat → Parse Unit
  | _, [], index => .complete () index
  -- The input is over, and might still become this spelling.
  | [], _ :: _, index => .incomplete index
  | c :: input, n :: nullVariant, index =>
    if c ≠ n then .invalid index else checkNullVariant input nullVariant (index + 1)

/-- The three spellings of null, one after the other. -/
def parseNull (input : List Byte) (parseEndPos : Nat) : Parse Unit :=
  if input = [] then .invalid parseEndPos
  else
    match checkNullVariant input (bytes "$-1\r\n") 0 with
    | .invalid _ =>
      match checkNullVariant input (bytes "*-1\r\n") 0 with
      | .invalid _ => checkNullVariant input (bytes "_\r\n") 0
      | parsed => parsed
    | parsed => parsed

/-- An element of an array, by its type byte. -/
def parseElement (parseArray : List Byte → Nat → Option (Parse RespArray))
    (element : List Byte) : Option (Parse RespType) :=
  match element with
  | [] => some (.invalid 0)
  | c :: _ =>
    -- Only this case tries the null value: `*-1` in an array goes to the parser of arrays.
    if c = byte '$' then
      match parseNull element 0 with
      | .complete _ e => some (.complete .null e)
      | .incomplete e => some (.incomplete e)
      | .invalid e => some ((parseBulkString element e).map .string)
    else if c = byte ':' then some ((parseInteger element 0).map .int)
    else if c = byte '+' then some ((parseSimpleString element 0).map .string)
    else if c = byte '-' then some ((parseError element 0).map .error)
    else if c = byte '*' then (parseArray element 0).map fun parsed => parsed.map .array
    else some (.invalid 0)

/-- The elements of an array: `input.substr(start_pos)`, the elements that are
    still to come, and those that have been read. -/
def parseElements (parseArray : List Byte → Nat → Option (Parse RespArray)) :
    Nat → List Byte → Nat → RespArray → Option (Parse RespArray)
  -- An array of no elements ends behind its length.
  | 0, _, startPos, parseOutput => some (.complete parseOutput startPos)
  | counter + 1, rest, startPos, parseOutput =>
    if rest = [] then some (.incomplete startPos)
    else
      match parseElement parseArray rest with
      | none => none
      | some (.complete v endPos) =>
        parseElements parseArray counter (rest.drop endPos) (startPos + endPos)
          (parseOutput ++ [v])
      | some (.incomplete endPos) => some (.incomplete (startPos + endPos))
      | some (.invalid endPos) => some (.invalid (startPos + endPos))

/-- An array with at most so many levels of arrays in it; nothing if there are
    more. -/
def parseArray : Nat → List Byte → Nat → Option (Parse RespArray)
  | 0, _, _ => none
  -- Each level takes a byte of the input, so there are fewer levels than bytes.
  | levels + 1, input, parseEndPos =>
    match parseLength (byte '*') input parseEndPos with
    | .complete arrayLen startPos =>
      parseElements (parseArray levels) arrayLen (input.drop startPos) startPos []
    | .incomplete e => some (.incomplete e)
    | .invalid e => some (.invalid e)

/-- The bytes a message may begin with. -/
def isTypeByte (c : Byte) : Bool :=
  c == byte '$' || c == byte '*' || c == byte ':' || c == byte '+' || c == byte '-'

/-- A value at the top, by its type byte. -/
def parseFrame (levels : Nat) (input : List Byte) (parseEndPos : Nat) : Option (Parse RespType) :=
  match input with
  | [] => some (.invalid parseEndPos)
  | c :: _ =>
    if c = byte '$' then
      match parseNull input parseEndPos with
      | .complete _ e => some (.complete .null e)
      | .incomplete e => some (.incomplete e)
      | .invalid e => some ((parseBulkString input e).map .string)
    else if c = byte '*' then
      match parseNull input parseEndPos with
      | .complete _ e => some (.complete .null e)
      | .incomplete e => some (.incomplete e)
      | .invalid e => (parseArray levels input e).map fun parsed => parsed.map .array
    else if c = byte ':' then some ((parseInteger input parseEndPos).map .int)
    else if c = byte '+' then some ((parseSimpleString input parseEndPos).map .string)
    else some ((parseError input parseEndPos).map .error)

/-- What the parser reports of one value. -/
structure RespParserResult where
  type : Option RespType
  state : RespParserState
  parseStartPos : Nat
  parseEndPos : Nat
deriving Repr

/-- The loop over a message: `input` is what is left of it at `parseStartPos`. -/
def parseLoop : Nat → List Byte → Nat → Nat → Option (Bool × List RespParserResult)
  | 0, _, _, _ => none
  | fuel + 1, input, parseStartPos, parseEndPos =>
    match input with
    | [] => some (true, [])
    | c :: _ =>
      if isTypeByte c then
        match parseFrame input.length input parseEndPos with
        | none => none
        | some parsed =>
          let result := ⟨parsed.output?, parsed.state, parseStartPos,
            parseStartPos + parsed.parseEndPos⟩
          -- More bytes may complete it, so this is no error.
          if parsed.state = .incomplete then some (true, [result])
          else
            (parseLoop fuel (input.drop parsed.parseEndPos) (parseStartPos + parsed.parseEndPos)
              parsed.parseEndPos).map fun (ok, results) => (ok, result :: results)
      -- No value begins with this byte: the loop gives up.
      else some (false, [⟨none, .invalid, parseStartPos, parseStartPos + 1⟩])

/-- All values of a message, and whether every one begins with a type byte. -/
def parse (input : List Byte) : Option (Bool × List RespParserResult) :=
  if input = [] then some (false, []) else parseLoop (input.length + 1) input 0 0

end Redis

end CodingChallenges
