import CodingChallenges.Library.Outcomes
import CodingChallenges.Redis.Progress

/-!
# Positions in a Message

The decoder with the bounds check of `std::string_view::substr`, and how its
results cover a message.

A view that is asked for a part behind its end throws. `RespParser.lean` takes
parts of lists and has no such failure, so here are the parsers of
`RespParser.cpp` once more, with positions into the message and with `substr` as
the standard library has it. No call of it fails: each of them comes behind a
type byte or behind a delimiter that was found, or at a position that is in the
message since every parser ends inside its input. So the two decoders are the
same function, and what is known of the other one holds of this one.

The results of a message lie one behind the other from its beginning, each with
a byte at least, and they go on up to the end unless the last is incomplete or
begins with no type byte.

## Main definitions

* `Checked.substr`: A part of a view, or the failure.
* `Checked.parse`: The decoder, by positions.
* `Tiles`: Results that lie one behind the other.

## Theorems

* `Checked.parseArray_eq`, `Checked.parseFrame_eq`: No parser fails.
* `Reads.tiles`: How the results cover a message.
* `parse_tiles`: The decoder ends, fails nowhere, and covers the message.
-/

namespace CodingChallenges

namespace Redis

open Delimiter

namespace Checked

/-- Why the decoder has no result: a view was asked for a part behind its end, or
    a bound of the model was hit. -/
inductive Failure where
  | outOfRange
  | outOfFuel
deriving DecidableEq, Repr

/-- The part from a position on, of at most so many bytes. -/
def substr (input : List Byte) (pos : Nat) (count : Nat := input.length) :
    Except Failure (List Byte) :=
  if input.length < pos then throw .outOfRange else return (input.drop pos).take count

/-- The text between the type byte and the next line end. -/
def parseLine (typeByte : Byte) (input : List Byte) (parseEndPos : Nat) :
    Except Failure (Parse (List Byte)) :=
  if input.head? ≠ some typeByte then return .invalid parseEndPos
  else
    match find crlf input with
    | none => return .incomplete 1
    | some contentEndPos => do
      let content ← substr input 1 (contentEndPos - 1)
      if content.any (fun c => c == byte '\r' || c == byte '\n') then
        return .invalid (contentEndPos + 2)
      else
        return .complete content (contentEndPos + 2)

/-- A simple string is a line. -/
def parseSimpleString (input : List Byte) (parseEndPos : Nat) :
    Except Failure (Parse RespString) := do
  let parsed ← parseLine (byte '+') input parseEndPos
  return parsed.map fun content => ⟨content, false⟩

/-- An error is a line. -/
def parseError (input : List Byte) (parseEndPos : Nat) : Except Failure (Parse RespError) :=
  parseLine (byte '-') input parseEndPos

/-- The length announced in a line. -/
def parseLength (typeByte : Byte) (input : List Byte) (parseEndPos : Nat) :
    Except Failure (Parse Nat) :=
  if input.head? ≠ some typeByte then return .invalid parseEndPos
  else
    match find crlf input with
    | none => return .incomplete 1
    | some lengthStringEndPos => do
      let lengthString ← substr input 1 (lengthStringEndPos - 1)
      if lengthString = [] then
        return .invalid (lengthStringEndPos + 2)
      else
        match fromChars sizeBound lengthString with
        | none => return .invalid (lengthStringEndPos + 2)
        | some (length, _) => return .complete length (lengthStringEndPos + 2)

/-- A bulk string is as long as announced, up to the next line end. -/
def parseBulkString (input : List Byte) (parseEndPos : Nat) :
    Except Failure (Parse RespString) := do
  match ← parseLength (byte '$') input parseEndPos with
  | .incomplete e => return .incomplete e
  | .invalid e => return .invalid e
  | .complete expectedContentLen contentPos =>
    match findFrom crlf input contentPos with
    | none => return .incomplete contentPos
    | some contentEndPos =>
      -- The delimiter is searched for first, so a content that has one is not as long as announced.
      let contentLen := contentEndPos - contentPos
      if contentLen ≠ expectedContentLen then
        return .invalid (contentEndPos + 2)
      else do
        let content ← substr input contentPos contentLen
        return .complete ⟨content, true⟩ (contentEndPos + 2)

/-- `from_chars` reads a prefix of the line. -/
def parseInteger (input : List Byte) (parseEndPos : Nat) : Except Failure (Parse RespInt) :=
  if input.head? ≠ some (byte ':') then return .invalid parseEndPos
  else
    match find crlf input with
    | none => return .incomplete 1
    | some contentEndPos => do
      let content ← substr input 1 (contentEndPos - 1)
      if content = [] then
        return .invalid (contentEndPos + 2)
      else
        match fromCharsSigned intBound content with
        | none => return .invalid (contentEndPos + 2)
        | some (number, _) => return .complete (Int64.ofInt number) (contentEndPos + 2)

/-- What begins like a null value or a bulk string. -/
def parseNullOrBulkString (input : List Byte) (parseEndPos : Nat) :
    Except Failure (Parse RespType) :=
  match parseNull input parseEndPos with
  | .complete _ e => return .complete .null e
  | .incomplete e => return .incomplete e
  | .invalid e => do
    let parsed ← parseBulkString input e
    return parsed.map .string

/-- The switch over the elements of an array. -/
def parseElement (parseArray : List Byte → Nat → Except Failure (Parse RespArray))
    (element : List Byte) : Except Failure (Parse RespType) :=
  match element with
  | [] => return .invalid 0
  | c :: _ =>
    if c = byte '$' then parseNullOrBulkString element 0
    else if c = byte ':' then return (← parseInteger element 0).map .int
    else if c = byte '+' then return (← parseSimpleString element 0).map .string
    else if c = byte '-' then return (← parseError element 0).map .error
    else if c = byte '*' then return (← parseArray element 0).map .array
    else return .invalid 0

/-- The loop over the elements of an array, by positions in its input. -/
def parseElements (parseArray : List Byte → Nat → Except Failure (Parse RespArray))
    (input : List Byte) : Nat → Nat → RespArray → Except Failure (Parse RespArray)
  | 0, startPos, parseOutput => return .complete parseOutput startPos
  | counter + 1, startPos, parseOutput =>
    -- The check keeps the position in the input, where `substr` would throw behind it.
    if input.length ≤ startPos then return .incomplete startPos
    else do
      let element ← substr input startPos
      match ← parseElement parseArray element with
      | .complete v endPos =>
        parseElements parseArray input counter (startPos + endPos) (parseOutput ++ [v])
      | .incomplete endPos => return .incomplete (startPos + endPos)
      | .invalid endPos => return .invalid (startPos + endPos)

/-- An array is parsed level by level, with the levels as fuel. -/
def parseArray : Nat → List Byte → Nat → Except Failure (Parse RespArray)
  | 0, _, _ => throw .outOfFuel
  | levels + 1, input, parseEndPos => do
    match ← parseLength (byte '*') input parseEndPos with
    | .complete arrayLen startPos =>
      parseElements (parseArray levels) input arrayLen startPos []
    | .incomplete e => return .incomplete e
    | .invalid e => return .invalid e

/-- The switch at the top, but for its default. -/
def parseFrame (levels : Nat) (input : List Byte) (parseEndPos : Nat) :
    Except Failure (Parse RespType) :=
  match input with
  | [] => return .invalid parseEndPos
  | c :: _ =>
    if c = byte '$' then parseNullOrBulkString input parseEndPos
    else if c = byte '*' then
      match parseNull input parseEndPos with
      | .complete _ e => return .complete .null e
      | .incomplete e => return .incomplete e
      | .invalid e => return (← parseArray levels input e).map .array
    else if c = byte ':' then return (← parseInteger input parseEndPos).map .int
    else if c = byte '+' then return (← parseSimpleString input parseEndPos).map .string
    else return (← parseError input parseEndPos).map .error

/-- The loop over a message: `input` is the view that is cut shorter in every
    pass. -/
def parseLoop (originalInput : List Byte) : Nat → List Byte → Nat → Nat →
    Except Failure (Bool × List RespParserResult)
  | 0, _, _, _ => throw .outOfFuel
  | fuel + 1, input, parseStartPos, parseEndPos =>
    match originalInput[parseStartPos]? with
    | none => return (true, [])
    | some c =>
      if isTypeByte c then do
        let parsed ← parseFrame input.length input parseEndPos
        let result := ⟨parsed.output?, parsed.state, parseStartPos,
          parseStartPos + parsed.parseEndPos⟩
        -- An incomplete value ends the loop without an error.
        if parsed.state = .incomplete then return (true, [result])
        else do
          let rest ← substr originalInput (parseStartPos + parsed.parseEndPos)
          let (ok, results) ← parseLoop originalInput fuel rest
            (parseStartPos + parsed.parseEndPos) parsed.parseEndPos
          return (ok, result :: results)
      -- The default of the switch ends the loop with an error.
      else return (false, [⟨none, .invalid, parseStartPos, parseStartPos + 1⟩])

/-- All values of a message, by positions in it. -/
def parse (input : List Byte) : Except Failure (Bool × List RespParserResult) :=
  if input = [] then return (false, []) else parseLoop input (input.length + 1) input 0 0

/-- What the other decoder returns, where nothing means that a bound was hit. -/
def ofOption {α : Type} : Option α → Except Failure α
  | none => throw .outOfFuel
  | some a => return a

section Parsers

variable {parseNested : List Byte → Nat → Option (Parse RespArray)}

theorem substr_eq {input : List Byte} {pos : Nat} (h : pos ≤ input.length) (count : Nat) :
    substr input pos count = .ok ((input.drop pos).take count) :=
  if_neg (Nat.not_lt.mpr h)

theorem substr_eq_drop {input : List Byte} {pos : Nat} (h : pos ≤ input.length) :
    substr input pos = .ok (input.drop pos) := by
  rw [substr_eq h, List.take_of_length_le]
  rw [List.length_drop]
  exact Nat.sub_le _ _

/-- There is a byte where a type byte was found. -/
theorem one_le_length {c : Byte} {input : List Byte} (h : ¬ input.head? ≠ some c) :
    1 ≤ input.length := by
  rcases input with _ | ⟨d, text⟩
  · exact absurd (not_not.mp h) (by simp only [List.head?_nil, reduceCtorEq, not_false_eq_true])
  · exact Nat.succ_le_succ (Nat.zero_le _)

theorem parseLine_eq (typeByte : Byte) (input : List Byte) (parseEndPos : Nat) :
    parseLine typeByte input parseEndPos = .ok (Redis.parseLine typeByte input parseEndPos) := by
  unfold parseLine Redis.parseLine
  split
  · rfl
  · next hhead =>
      cases hfind : find crlf input with
      | none => rfl
      | some contentEndPos =>
          -- The type byte is there, so the part behind it can be asked for.
          simp only [substr_eq (one_le_length hhead), ok_bind]
          split <;> rfl

theorem parseSimpleString_eq (input : List Byte) (parseEndPos : Nat) :
    parseSimpleString input parseEndPos = .ok (Redis.parseSimpleString input parseEndPos) := by
  rw [parseSimpleString, parseLine_eq]
  rfl

theorem parseError_eq (input : List Byte) (parseEndPos : Nat) :
    parseError input parseEndPos = .ok (Redis.parseError input parseEndPos) :=
  parseLine_eq (byte '-') input parseEndPos

theorem parseLength_eq (typeByte : Byte) (input : List Byte) (parseEndPos : Nat) :
    parseLength typeByte input parseEndPos =
      .ok (Redis.parseLength typeByte input parseEndPos) := by
  unfold parseLength Redis.parseLength
  split
  · rfl
  · next hhead =>
      cases hfind : find crlf input with
      | none => rfl
      | some lengthStringEndPos =>
          simp only [substr_eq (one_le_length hhead), ok_bind]
          split
          · rfl
          · cases fromChars sizeBound ((input.drop 1).take (lengthStringEndPos - 1)) <;> rfl

/-- The content is in the message, since the delimiter behind it is. -/
theorem parseBulkString_eq (input : List Byte) (parseEndPos : Nat) :
    parseBulkString input parseEndPos = .ok (Redis.parseBulkString input parseEndPos) := by
  unfold parseBulkString Redis.parseBulkString
  rw [parseLength_eq, ok_bind]
  cases Redis.parseLength (byte '$') input parseEndPos with
  | incomplete e => rfl
  | invalid e => rfl
  | complete expectedContentLen contentPos =>
      unfold Parse.bind
      simp only
      cases hfind : findFrom crlf input contentPos with
      | none => rfl
      | some contentEndPos =>
          simp only
          split
          · rfl
          · -- A delimiter was found behind it.
            have hin : contentPos ≤ input.length := by
              unfold findFrom at hfind
              rcases Option.map_eq_some_iff.mp hfind with ⟨i, hi, -⟩
              have hend := find_crlf_le hi
              rw [List.length_drop] at hend
              omega
            rw [substr_eq hin]
            rfl

theorem parseInteger_eq (input : List Byte) (parseEndPos : Nat) :
    parseInteger input parseEndPos = .ok (Redis.parseInteger input parseEndPos) := by
  unfold parseInteger Redis.parseInteger
  split
  · rfl
  · next hhead =>
      cases hfind : find crlf input with
      | none => rfl
      | some contentEndPos =>
          simp only [substr_eq (one_le_length hhead), ok_bind]
          split
          · rfl
          · cases fromCharsSigned intBound ((input.drop 1).take (contentEndPos - 1)) <;> rfl

theorem parseNullOrBulkString_eq (input : List Byte) (parseEndPos : Nat) :
    parseNullOrBulkString input parseEndPos =
      ofOption (match parseNull input parseEndPos with
        | .complete _ e => some (.complete .null e)
        | .incomplete e => some (.incomplete e)
        | .invalid e => some ((Redis.parseBulkString input e).map .string)) := by
  unfold parseNullOrBulkString
  cases parseNull input parseEndPos with
  | complete output e => rfl
  | incomplete e => rfl
  | invalid e =>
      simp only
      rw [parseBulkString_eq]
      rfl

/-- The switch over the elements, if no array in it fails. -/
theorem parseElement_eq {parseArray : List Byte → Nat → Except Failure (Parse RespArray)}
    (harray : ∀ input e, parseArray input e = ofOption (parseNested input e))
    (element : List Byte) :
    parseElement parseArray element = ofOption (Redis.parseElement parseNested element) := by
  unfold parseElement Redis.parseElement
  rcases element with _ | ⟨c, text⟩
  · rfl
  simp only
  split
  · exact parseNullOrBulkString_eq _ 0
  · split
    · rw [parseInteger_eq]
      rfl
    · split
      · rw [parseSimpleString_eq]
        rfl
      · split
        · rw [parseError_eq]
          rfl
        · split
          · rw [harray]
            cases parseNested (c :: text) 0 <;> rfl
          · rfl

/-- The loop over the elements asks for the rest of the input only where there
    is one. -/
theorem parseElements_eq {parseArray : List Byte → Nat → Except Failure (Parse RespArray)}
    (harray : ∀ input e, parseArray input e = ofOption (parseNested input e))
    (input : List Byte) (counter : Nat) :
    ∀ (startPos : Nat) (parseOutput : RespArray),
      parseElements parseArray input counter startPos parseOutput =
        ofOption (Redis.parseElements parseNested counter (input.drop startPos) startPos
          parseOutput) := by
  induction counter with
  | zero => exact fun startPos parseOutput => rfl
  | succ counter ih =>
      intro startPos parseOutput
      unfold parseElements Redis.parseElements
      -- The position is behind the end exactly if nothing is left there.
      by_cases hover : input.length ≤ startPos
      · rw [if_pos hover, if_pos (List.drop_eq_nil_of_le hover)]
        rfl
      · rw [if_neg hover, if_neg (by rwa [List.drop_eq_nil_iff]),
          substr_eq_drop (Nat.le_of_not_le hover), ok_bind, parseElement_eq harray]
        cases Redis.parseElement parseNested (input.drop startPos) with
        | none => rfl
        | some parsed =>
            cases parsed with
            | complete v endPos =>
                simp only [ofOption, pure_eq_ok, ok_bind]
                rw [ih, List.drop_drop]
                rfl
            | incomplete endPos => rfl
            | invalid endPos => rfl

theorem parseArray_eq (levels : Nat) :
    ∀ (input : List Byte) (parseEndPos : Nat),
      parseArray levels input parseEndPos =
        ofOption (Redis.parseArray levels input parseEndPos) := by
  induction levels with
  | zero => exact fun input parseEndPos => rfl
  | succ levels ih =>
      intro input parseEndPos
      unfold parseArray Redis.parseArray
      rw [parseLength_eq, ok_bind]
      cases Redis.parseLength (byte '*') input parseEndPos with
      | incomplete e => rfl
      | invalid e => rfl
      | complete arrayLen startPos => exact parseElements_eq ih input arrayLen startPos []

theorem parseFrame_eq (levels : Nat) (input : List Byte) (parseEndPos : Nat) :
    parseFrame levels input parseEndPos =
      ofOption (Redis.parseFrame levels input parseEndPos) := by
  unfold parseFrame Redis.parseFrame
  rcases input with _ | ⟨c, text⟩
  · rfl
  simp only
  split
  · exact parseNullOrBulkString_eq _ _
  · split
    · cases parseNull (c :: text) parseEndPos with
      | complete output e => rfl
      | incomplete e => rfl
      | invalid e =>
          simp only
          rw [parseArray_eq]
          cases Redis.parseArray levels (c :: text) e <;> rfl
    · split
      · rw [parseInteger_eq]
        rfl
      · split
        · rw [parseSimpleString_eq]
          rfl
        · rw [parseError_eq]
          rfl

end Parsers

section Loop

theorem getElem?_of_drop_eq {start : Nat} {originalInput input : List Byte}
    (h : originalInput.drop start = input) : originalInput[start]? = input.head? := by
  rw [← h, List.head?_drop]

/-- The loop cuts the view inside the message, since every parser ends there. -/
theorem parseLoop_eq {input : List Byte} {start : Nat} {ok : Bool}
    {results : List RespParserResult} (h : Reads input start ok results) :
    ∀ (originalInput : List Byte) (fuel parseEndPos : Nat), originalInput.drop start = input →
      input.length < fuel →
      parseLoop originalInput fuel input start parseEndPos = .ok (ok, results) := by
  induction h with
  | done =>
      intro originalInput fuel parseEndPos hview hfuel
      rcases fuel with _ | fuel
      · exact absurd hfuel (Nat.not_lt_zero _)
      · unfold parseLoop
        rw [getElem?_of_drop_eq hview]
        rfl
  | other hc =>
      intro originalInput fuel parseEndPos hview hfuel
      rcases fuel with _ | fuel
      · exact absurd hfuel (Nat.not_lt_zero _)
      · unfold parseLoop
        rw [getElem?_of_drop_eq hview]
        simp only [List.head?_cons]
        rw [if_neg hc]
        rfl
  | pause hc hframe hstate =>
      intro originalInput fuel parseEndPos hview hfuel
      rcases fuel with _ | fuel
      · exact absurd hfuel (Nat.not_lt_zero _)
      · unfold parseLoop
        rw [getElem?_of_drop_eq hview]
        simp only [List.head?_cons]
        -- The position that is left from the value before does not matter.
        rw [if_pos hc, parseFrame_eq, parseFrame_endPos hc, hframe]
        simp only [ofOption, pure_eq_ok, ok_bind]
        rw [if_pos hstate]
        rfl
  | @next c text start parsed ok results hc hframe hstate hrest ih =>
      intro originalInput fuel parseEndPos hview hfuel
      rcases parseFrame_shrinks hc hframe with ⟨hpos, hend, hshorter, -⟩
      rcases fuel with _ | fuel
      · exact absurd hfuel (Nat.not_lt_zero _)
      · -- The next view begins in the message or at its end.
        have hlength := congrArg List.length hview
        rw [List.length_drop, List.length_cons] at hlength
        rw [List.length_cons] at hend
        have hin : start + parsed.parseEndPos ≤ originalInput.length := by omega
        have hview' : originalInput.drop (start + parsed.parseEndPos)
            = (c :: text).drop parsed.parseEndPos := by
          rw [← hview, List.drop_drop]
        unfold parseLoop
        rw [getElem?_of_drop_eq hview]
        simp only [List.head?_cons]
        rw [if_pos hc, parseFrame_eq, parseFrame_endPos hc, hframe]
        simp only [ofOption, pure_eq_ok, ok_bind]
        rw [if_neg hstate, substr_eq_drop hin, ok_bind, hview',
          ih originalInput fuel parsed.parseEndPos hview' (by omega)]
        rfl

/-- The decoder by positions is the decoder by parts. -/
theorem parse_eq (input : List Byte) : parse input = ofOption (Redis.parse input) := by
  by_cases hne : input = []
  · subst hne
    rfl
  · rcases parse_total input with ⟨ok, results, hparse⟩
    have hreads := (parse_eq_some_iff hne).mp hparse
    rw [hparse, parse, if_neg hne]
    exact parseLoop_eq hreads input _ 0 rfl (Nat.lt_succ_self _)

end Loop

end Checked

section Cover

/-- The results lie one behind the other, each with a byte at least, from a
    position up to another. -/
def Tiles : Nat → List RespParserResult → Nat → Prop
  | start, [], last => start = last
  | start, result :: results, last =>
    result.parseStartPos = start ∧ start < result.parseEndPos ∧
      Tiles result.parseEndPos results last

theorem Tiles.start_le {start last : Nat} {results : List RespParserResult}
    (h : Tiles start results last) : start ≤ last := by
  induction results generalizing start with
  | nil => exact Nat.le_of_eq h
  | cons result results ih => exact Nat.le_trans (Nat.le_of_lt h.2.1) (ih h.2.2)

/-- Every result is between the two positions. -/
theorem Tiles.bounds {start last : Nat} {results : List RespParserResult}
    (h : Tiles start results last) :
    ∀ result ∈ results, result.parseStartPos < result.parseEndPos ∧
      result.parseEndPos ≤ last := by
  induction results generalizing start with
  | nil => exact fun result hmem => absurd hmem List.not_mem_nil
  | cons result results ih =>
      refine List.forall_mem_cons.mpr ⟨⟨?_, h.2.2.start_le⟩, ih h.2.2⟩
      rw [h.1]
      exact h.2.1

/-- The results cover a message from its beginning: only the last can be
    incomplete, and if none is and every value began with a type byte, they go on
    to the end. -/
theorem Reads.tiles {input : List Byte} {start : Nat} {ok : Bool}
    {results : List RespParserResult} (h : Reads input start ok results) :
    ∃ last, Tiles start results last ∧ last ≤ start + input.length ∧
      (∀ result ∈ results.dropLast, result.state ≠ .incomplete) ∧
      ((∀ result ∈ results, result.state ≠ .incomplete) → ok = true →
        last = start + input.length) := by
  induction h with
  | done =>
      exact ⟨_, rfl, Nat.le_refl _, fun result hmem => absurd hmem List.not_mem_nil,
        fun _ _ => rfl⟩
  | @other c text start hc =>
      refine ⟨start + 1, ⟨rfl, Nat.lt_succ_self _, rfl⟩, ?_, ?_, ?_⟩
      · rw [List.length_cons]
        omega
      · exact fun result hmem => absurd hmem List.not_mem_nil
      · exact fun _ hok => by cases hok
  | @pause c text start parsed hc hframe hstate =>
      rcases parseFrame_shrinks hc hframe with ⟨hpos, hend, -⟩
      refine ⟨start + parsed.parseEndPos, ⟨rfl, ?_, rfl⟩, Nat.add_le_add_left hend start, ?_, ?_⟩
      · change start < start + parsed.parseEndPos
        omega
      · exact fun result hmem => absurd hmem List.not_mem_nil
      · exact fun hnone _ => absurd hstate (hnone _ List.mem_cons_self)
  | @next c text start parsed ok results hc hframe hstate hrest ih =>
      rcases parseFrame_shrinks hc hframe with ⟨hpos, hend, -⟩
      rcases ih with ⟨last, htiles, hlast, hdropLast, hwhole⟩
      rw [List.length_drop] at hlast hwhole
      refine ⟨last, ⟨rfl, ?_, htiles⟩, by omega, ?_, fun hnone hok => ?_⟩
      · change start < start + parsed.parseEndPos
        omega
      · -- This result is not the last if there is another.
        intro result hmem
        rcases results with _ | ⟨following, results⟩
        · exact absurd hmem List.not_mem_nil
        · rw [List.dropLast_cons_cons] at hmem
          rcases List.mem_cons.mp hmem with rfl | hmem
          · exact hstate
          · exact hdropLast result hmem
      · rw [hwhole (fun result hmem => hnone result (List.mem_cons_of_mem _ hmem)) hok]
        omega

theorem Reads.results_ne_nil {input : List Byte} {start : Nat} {ok : Bool}
    {results : List RespParserResult} (h : Reads input start ok results) (hne : input ≠ []) :
    results ≠ [] := by
  cases h with
  | done => exact absurd rfl hne
  | other _ => exact List.cons_ne_nil _ _
  | pause _ _ _ => exact List.cons_ne_nil _ _
  | next _ _ _ _ => exact List.cons_ne_nil _ _

/-- The decoder comes to an end on every message and asks for no part behind an
    end. Its results lie one behind the other from the beginning of the message,
    none of them empty or beyond its end; only the last can be incomplete; and if
    none is, and the decoder returns true, they cover the message. -/
theorem parse_tiles {input : List Byte} (hne : input ≠ []) :
    ∃ ok results last,
      Checked.parse input = .ok (ok, results) ∧ parse input = some (ok, results) ∧
      results ≠ [] ∧ Tiles 0 results last ∧
      (∀ result ∈ results, result.parseStartPos < result.parseEndPos ∧
        result.parseEndPos ≤ input.length) ∧
      (∀ result ∈ results.dropLast, result.state ≠ .incomplete) ∧
      ((∀ result ∈ results, result.state ≠ .incomplete) → ok = true → last = input.length) := by
  rcases parse_total input with ⟨ok, results, hparse⟩
  have hreads := (parse_eq_some_iff hne).mp hparse
  rcases hreads.tiles with ⟨last, htiles, hlast, hdropLast, hwhole⟩
  rw [Nat.zero_add] at hlast hwhole
  refine ⟨ok, results, last, ?_, hparse, hreads.results_ne_nil hne, htiles, ?_, hdropLast,
    hwhole⟩
  · rw [Checked.parse_eq, hparse]
    rfl
  · intro result hmem
    rcases htiles.bounds result hmem with ⟨hbyte, hend⟩
    exact ⟨hbyte, Nat.le_trans hend hlast⟩

/-- An integer and the beginning of another. -/
theorem parse_tiles_two :
    bytes ":1\r\n:2" ≠ [] ∧ ∃ ok results last,
      Checked.parse (bytes ":1\r\n:2") = .ok (ok, results) ∧
      parse (bytes ":1\r\n:2") = some (ok, results) ∧
      results ≠ [] ∧ Tiles 0 results last ∧
      (∀ result ∈ results, result.parseStartPos < result.parseEndPos ∧
        result.parseEndPos ≤ (bytes ":1\r\n:2").length) ∧
      (∀ result ∈ results.dropLast, result.state ≠ .incomplete) ∧
      ((∀ result ∈ results, result.state ≠ .incomplete) → ok = true →
        last = (bytes ":1\r\n:2").length) :=
  ⟨by decide, parse_tiles (by decide)⟩

end Cover

end Redis

end CodingChallenges
