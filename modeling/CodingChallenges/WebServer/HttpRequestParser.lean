import CodingChallenges.Library.Bytes
import CodingChallenges.Library.Delimiter

/-!
# Parsing a Request

`HttpRequestParser.cpp`: the request line, and the search for a valid `Host` header.

A request is only accepted if one of its headers is `Host` with a local address. The headers are
gone through in order until it is found. A line without a colon, or with nothing behind its
colon, ends the search as well, and the headers behind it are never seen.

## Main definitions

* `parse`: The function of the source, with `scanHeaders` for its loop and `verdict` for a line.

## Theorems

* `parseMethod_text`: Methods are told by their names.
* `scanHeaders_lines`: The loop goes through the lines.
-/

namespace CodingChallenges

namespace WebServer

open Delimiter

/-- The methods that are known. -/
inductive HttpMethod where
  | get
  | post
  | put
  | patch
  | delete
  | options
  | head
  | trace
  | connect
deriving DecidableEq, Repr

/-- What is kept of a request. -/
structure HttpRequest where
  method : HttpMethod
  path : List UInt8
deriving DecidableEq, Repr

/-- How a method is called. -/
def HttpMethod.text : HttpMethod → List UInt8
  | .get => bytes "GET"
  | .post => bytes "POST"
  | .put => bytes "PUT"
  | .delete => bytes "DELETE"
  | .head => bytes "HEAD"
  | .options => bytes "OPTIONS"
  | .patch => bytes "PATCH"
  | .trace => bytes "TRACE"
  | .connect => bytes "CONNECT"

/-- The first name the text is compared with successfully. -/
def parseMethod (methodStr : List UInt8) : Option HttpMethod :=
  [.get, .post, .put, .delete, .head, .options, .patch, .trace, .connect].find?
    fun method : HttpMethod => method.text = methodStr

/-- The end of a line. -/
def crlf : List UInt8 := [13, 10]

/-- What becomes of the search at a header line. -/
inductive Verdict where
  | stop
  | found
  | next
deriving DecidableEq, Repr

/-- One space behind the colon does not belong to the value. -/
def verdict (headerLine : List UInt8) : Verdict :=
  match find [58] headerLine with
  -- A line without a colon ends the search.
  | none => .stop
  | some colonPos =>
    -- So does one that ends with its colon.
    if headerLine.length ≤ colonPos + 1 then .stop
    else
      let headerName := headerLine.take colonPos
      let colonPos := if headerLine[colonPos + 1]? = some 32 then colonPos + 1 else colonPos
      let headerValue := headerLine.drop (colonPos + 1)
      if headerName = bytes "Host" ∧ headerValue ≠ [] ∧
          (bytes "localhost" <+: headerValue ∨ bytes "127.0.0.1" <+: headerValue) then .found
      else .next

/-- The loop over the header lines. The last of them goes to the end of the text. -/
def scanHeaders (headersStr : List UInt8) (currentPos : Nat) : Bool :=
  if currentPos < headersStr.length then
    let lineEndPos := (findFrom crlf headersStr currentPos).getD headersStr.length
    match verdict ((headersStr.drop currentPos).take (lineEndPos - currentPos)) with
    | .stop => false
    | .found => true
    | .next => scanHeaders headersStr (lineEndPos + 2)
  else false
termination_by headersStr.length - currentPos
decreasing_by
  have hle : currentPos ≤ (findFrom crlf headersStr currentPos).getD headersStr.length := by
    cases hfind : findFrom crlf headersStr currentPos with
    | none => exact Nat.le_of_lt (by assumption)
    | some pos => exact (findFrom_le hfind (List.cons_ne_nil _ _)).1
  omega

/-- `parse`: the request line, and a check of the headers. -/
def parse (input : List UInt8) : Option HttpRequest := do
  let pos ← find crlf input
  let requestLine := input.take pos
  let methodEndPos ← find [32] requestLine
  let method ← parseMethod (requestLine.take methodEndPos)
  let pathStartPos := methodEndPos + 1
  let pathEndPos ← findFrom [32] requestLine pathStartPos
  let pathStr := (requestLine.drop pathStartPos).take (pathEndPos - pathStartPos)
  let protocolStartPos := pathEndPos + 1
  if requestLine.drop protocolStartPos ≠ bytes "HTTP/1.1" then none
  else
    let headersStartPos := pos + 2
    let headersEndPos ← findFrom (crlf ++ crlf) input headersStartPos
    let headersStr := (input.drop headersStartPos).take (headersEndPos - headersStartPos)
    -- Only a valid `Host` header makes a request of the text.
    if scanHeaders headersStr 0 then some ⟨method, pathStr⟩ else none

theorem parseMethod_text (method : HttpMethod) : parseMethod method.text = some method := by
  cases method <;> decide

theorem crlf_unbordered : Unbordered crlf := by
  intro k hpos hlt hat
  have hone : k = 1 := by
    have hlen : crlf.length = 2 := rfl
    omega
  subst hone
  exact absurd (List.isPrefixOf_iff_prefix.mpr hat) (by decide)

/-- The lines with the line breaks between them. -/
def joinLines (lines : List (List UInt8)) : List UInt8 :=
  List.intercalate crlf lines

/-- The search, line by line. -/
def scanLines : List (List UInt8) → Bool
  | [] => false
  | line :: lines =>
    match verdict line with
    | .stop => false
    | .found => true
    | .next => scanLines lines

/-- A line that is not empty, and in which no line break begins. -/
def IsLine (line : List UInt8) : Prop :=
  line ≠ [] ∧ 13 ∉ line

theorem joinLines_cons_cons (line line' : List UInt8) (lines : List (List UInt8)) :
    joinLines (line :: line' :: lines) = line ++ (crlf ++ joinLines (line' :: lines)) := by
  rw [joinLines, List.intercalate_cons_cons, List.append_assoc, ← joinLines]

theorem joinLines_singleton (line : List UInt8) : joinLines [line] = line :=
  List.intercalate_singleton

theorem IsLine.no_break {line : List UInt8} (h : IsLine line) : ¬ crlf <:+: line := by
  intro hoccurs
  exact h.2 (hoccurs.subset List.mem_cons_self)

/-- One round of the loop, when the line ends where it should. -/
theorem scanHeaders_round (front rest : List UInt8) {line : List UInt8} (hne : line ≠ [])
    (hend : (findFrom crlf (front ++ (line ++ rest)) front.length).getD
      (front ++ (line ++ rest)).length = front.length + line.length) :
    scanHeaders (front ++ (line ++ rest)) front.length =
      match verdict line with
      | .stop => false
      | .found => true
      | .next => scanHeaders (front ++ (line ++ rest)) (front.length + line.length + 2) := by
  have hlt : front.length < (front ++ (line ++ rest)).length := by
    have hpos := List.length_pos_iff.mpr hne
    rw [List.length_append, List.length_append]
    omega
  rw [scanHeaders, if_pos hlt]
  simp only [hend, Nat.add_sub_cancel_left, List.drop_left, List.take_left]

/-- Behind the last line the loop ends. -/
theorem scanHeaders_behind {text : List UInt8} {pos : Nat} (h : text.length ≤ pos) :
    scanHeaders text pos = false := by
  rw [scanHeaders, if_neg (by omega)]

/-- The loop goes through the lines. -/
theorem scanHeaders_lines {lines : List (List UInt8)} (h : ∀ line ∈ lines, IsLine line)
    (front : List UInt8) :
    scanHeaders (front ++ joinLines lines) front.length = scanLines lines := by
  -- `front` are the lines that the loop has gone through.
  induction lines generalizing front with
  | nil =>
      refine scanHeaders_behind ?_
      rw [List.length_append]
      exact Nat.le_refl _
  | cons line lines ih =>
      rw [List.forall_mem_cons] at h
      cases lines with
      | nil =>
          -- The last line has no line break behind it and goes up to the end of the text.
          have hnone : find crlf (line ++ []) = none := by
            rw [List.append_nil, find_eq_none_iff]
            exact h.1.no_break
          have hround := scanHeaders_round front [] h.1.1 (by
            rw [findFrom_append, hnone, List.append_nil, List.length_append]
            rfl)
          rw [joinLines_singleton, scanLines]
          rw [List.append_nil] at hround
          rw [hround]
          cases verdict line with
          | stop => rfl
          | found => rfl
          | next =>
              refine scanHeaders_behind ?_
              rw [List.length_append]
              exact Nat.le_add_right _ 2
      | cons line' lines =>
          have hround := scanHeaders_round front
            (crlf ++ joinLines (line' :: lines)) h.1.1 (by
              rw [findFrom_append, find_framed crlf_unbordered h.1.no_break]
              rfl)
          have hrest := ih h.2 (front ++ (line ++ crlf))
          have hpos : (front ++ (line ++ crlf)).length = front.length + line.length + 2 := by
            rw [List.length_append, List.length_append, ← Nat.add_assoc]
            rfl
          rw [joinLines_cons_cons, scanLines, hround]
          cases verdict line with
          | stop => rfl
          | found => rfl
          | next =>
              rw [hpos, List.append_assoc, List.append_assoc] at hrest
              exact hrest

end WebServer

end CodingChallenges
