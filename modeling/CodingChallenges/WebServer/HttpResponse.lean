import CodingChallenges.Library.Decimal
import CodingChallenges.WebServer.HttpRequestParser

/-!
# Responses

`HttpResponse.cpp` and `HttpStatusCodes.cpp`: what is sent for a response.

A response without a body is its status line and an empty line. One with a body has a single
header between the two, the length of the body, and one more line break behind the body. As the
length comes in front of the body, the receiver knows where a response ends without looking at
what is in it.

## Main definitions

* `HttpStatusCode`, `HttpResponse`: The data of a response.
* `HttpResponse.toRawResponse`: What is sent.

## Theorems

* `HttpResponse.toRawResponse_append_inj`: What is sent shows the response and its end.
-/

namespace CodingChallenges

namespace WebServer

open Delimiter

/-- The status codes that are sent. -/
inductive HttpStatusCode where
  | ok
  | badRequest
  | notFound
  | internalServerError
deriving DecidableEq, Repr

/-- `to_string` of a status code. -/
def HttpStatusCode.text : HttpStatusCode → List UInt8
  | .ok => bytes "200 OK"
  | .badRequest => bytes "400 Bad Request"
  | .notFound => bytes "404 Not Found"
  | .internalServerError => bytes "500 Internal Server Error"

/-- A response before it is written out. -/
structure HttpResponse where
  statusCode : HttpStatusCode
  body : List UInt8
deriving DecidableEq, Repr

/-- `to_raw_response`. The length is only given for a body that is not empty. -/
def HttpResponse.toRawResponse (response : HttpResponse) : List UInt8 :=
  let responseStr := bytes "HTTP/1.1 " ++ response.statusCode.text ++ crlf
  let responseStr :=
    if response.body ≠ [] then
      let contentLengthHeader :=
        bytes "Content-Length: " ++ decimalDigits response.body.length ++ crlf
      responseStr ++ (contentLengthHeader ++ crlf)
    else responseStr
  responseStr ++ (response.body ++ crlf)

theorem HttpStatusCode.text_injective : Function.Injective HttpStatusCode.text := by
  intro code code' h
  cases code <;> cases code' <;> first | rfl | exact absurd h (by decide)

/-- The first line of a response. -/
def HttpStatusCode.statusLine (code : HttpStatusCode) : List UInt8 :=
  bytes "HTTP/1.1 " ++ code.text

theorem HttpStatusCode.statusLine_no_break (code : HttpStatusCode) :
    ¬ crlf <:+: code.statusLine := by
  have hfree : 13 ∉ code.statusLine := by
    cases code <;> decide
  intro hoccurs
  exact hfree (hoccurs.subset List.mem_cons_self)

/-- What comes behind the status line. -/
def bodyPart (body : List UInt8) : List UInt8 :=
  if body = [] then crlf
  else bytes "Content-Length: " ++ (decimalDigits body.length ++ (crlf ++ (crlf ++ (body ++ crlf))))

theorem HttpResponse.toRawResponse_eq (response : HttpResponse) :
    response.toRawResponse =
      response.statusCode.statusLine ++ (crlf ++ bodyPart response.body) := by
  unfold toRawResponse bodyPart HttpStatusCode.statusLine
  by_cases hbody : response.body = []
  · simp only [hbody, ne_eq, not_true_eq_false, if_false, if_true, List.nil_append,
      List.append_assoc]
  · simp only [hbody, ne_eq, not_false_eq_true, if_false, if_true, List.append_assoc]

theorem decimalDigits_no_break (n : Nat) : ¬ crlf <:+: decimalDigits n := by
  intro hoccurs
  have hmem : (13 : UInt8) ∈ decimalDigits n := hoccurs.subset List.mem_cons_self
  exact absurd (isDecimalDigit_decimalDigits hmem) (by decide)

/-- Behind the status line there is a line break or the length. -/
theorem head_bodyPart (body rest : List UInt8) :
    (bodyPart body ++ rest).head? = if body = [] then some 13 else some 67 := by
  unfold bodyPart
  split_ifs with hbody
  · rfl
  · rfl

/-- The body is found again, and what comes behind it. -/
theorem bodyPart_append_inj {body body' rest rest' : List UInt8}
    (h : bodyPart body ++ rest = bodyPart body' ++ rest') : body = body' ∧ rest = rest' := by
  have hhead := congrArg List.head? h
  rw [head_bodyPart, head_bodyPart] at hhead
  by_cases hbody : body = []
  · by_cases hbody' : body' = []
    · subst hbody hbody'
      exact ⟨rfl, List.append_cancel_left h⟩
    · rw [if_pos hbody, if_neg hbody'] at hhead
      exact absurd hhead (by decide)
  · by_cases hbody' : body' = []
    · rw [if_neg hbody, if_pos hbody'] at hhead
      exact absurd hhead (by decide)
    · rw [bodyPart, bodyPart, if_neg hbody, if_neg hbody'] at h
      simp only [List.append_assoc] at h
      -- The length ends at its line break, and the body is as long as it says.
      rcases framed_unique crlf_unbordered (decimalDigits_no_break _) (decimalDigits_no_break _)
        (List.append_cancel_left h) with ⟨hdigits, hbehind⟩
      have hlength := decimalDigits_injective hdigits
      rcases List.append_inj (List.append_cancel_left hbehind) hlength with ⟨hsame, hrest⟩
      exact ⟨hsame, List.append_cancel_left hrest⟩

/-- What is sent shows the response and where it ends, whatever is in the body. -/
theorem HttpResponse.toRawResponse_append_inj (response response' : HttpResponse)
    (rest rest' : List UInt8) :
    response.toRawResponse ++ rest = response'.toRawResponse ++ rest' ↔
      response = response' ∧ rest = rest' := by
  constructor
  · intro h
    rw [toRawResponse_eq, toRawResponse_eq, List.append_assoc, List.append_assoc, List.append_assoc,
      List.append_assoc] at h
    rcases framed_unique crlf_unbordered response.statusCode.statusLine_no_break
      response'.statusCode.statusLine_no_break h with ⟨hline, hpart⟩
    rcases bodyPart_append_inj hpart with ⟨hbody, hrest⟩
    have hcode := HttpStatusCode.text_injective (List.append_cancel_left hline)
    cases response
    cases response'
    cases hcode
    cases hbody
    exact ⟨rfl, hrest⟩
  · intro h
    rcases h with ⟨rfl, rfl⟩
    rfl

end WebServer

end CodingChallenges
