import CodingChallenges.WebServer.HttpRequestParser

/-!
# The Order of the Headers

Requests with their headers in one order or another.

The first header that is valid, or that has nothing behind its colon, decides what becomes of a
request. So the order makes a difference exactly if there are headers of both kinds.

## Main definitions

* `RequestLine`, `Header`, `request`: The requests that are made of a request line and headers.
* `Header.ValidHost`: The headers that are looked for.

## Theorems

* `verdict_line`: What becomes of the search at a header.
* `parse_request`: What becomes of a request.
* `parse_perm_iff`: When the order of the headers makes no difference.
-/

namespace CodingChallenges

namespace WebServer

open Delimiter

/-- How a request line is written. -/
def requestLineText (method : HttpMethod) (path : List UInt8) : List UInt8 :=
  method.text ++ 32 :: (path ++ 32 :: bytes "HTTP/1.1")

/-- A valid request line. -/
structure RequestLine where
  method : HttpMethod
  path : List UInt8
  noSpace : 32 ∉ path
  noBreak : ¬ crlf <:+: requestLineText method path

/-- A header whose line is a line. Its value may be empty. -/
structure Header where
  name : List UInt8
  value : List UInt8
  noColon : 58 ∉ name
  nameNoBreak : 13 ∉ name ∧ 10 ∉ name
  valueNoBreak : 13 ∉ value ∧ 10 ∉ value
deriving DecidableEq

/-- The text of a request line. -/
def RequestLine.text (line : RequestLine) : List UInt8 :=
  requestLineText line.method line.path

/-- A header without its line end. -/
def Header.line (header : Header) : List UInt8 :=
  header.name ++ 58 :: header.value

/-- The request line, the headers and the body. -/
def request (line : RequestLine) (headers : List Header) (body : List UInt8) : List UInt8 :=
  line.text ++ (crlf ++ (headers.flatMap (fun header => header.line ++ crlf) ++ (crlf ++ body)))

/-- The value without the space in front of it. -/
def Header.trimmed (header : Header) : List UInt8 :=
  if header.value.head? = some 32 then header.value.tail else header.value

/-- The header that is looked for. -/
def Header.ValidHost (header : Header) : Prop :=
  header.name = bytes "Host" ∧
    (bytes "localhost" <+: header.trimmed ∨ bytes "127.0.0.1" <+: header.trimmed)

instance (header : Header) : Decidable header.ValidHost :=
  inferInstanceAs (Decidable (_ ∧ _))

theorem Header.isLine (header : Header) : IsLine header.line := by
  refine ⟨fun hnil => List.cons_ne_nil _ _ (List.append_eq_nil_iff.mp hnil).2, ?_⟩
  rw [Header.line, List.mem_append, List.mem_cons, not_or, not_or]
  exact ⟨header.nameNoBreak.1, by decide, header.valueNoBreak.1⟩

theorem Header.ValidHost.trimmed_ne_nil {header : Header} (h : header.ValidHost) :
    header.trimmed ≠ [] := by
  intro hnil
  rcases h.2 with hprefix | hprefix
  · rw [hnil] at hprefix
    exact absurd (List.prefix_nil.mp hprefix) (by decide)
  · rw [hnil] at hprefix
    exact absurd (List.prefix_nil.mp hprefix) (by decide)

theorem Header.ValidHost.value_ne_nil {header : Header} (h : header.ValidHost) :
    header.value ≠ [] := by
  intro hnil
  refine h.trimmed_ne_nil ?_
  rw [Header.trimmed, hnil]
  rfl

/-- The search ends at a header without a value, and at a valid one. -/
theorem verdict_line (header : Header) :
    verdict header.line =
      if header.value = [] then .stop else if header.ValidHost then .found else .next := by
  have hcolon : find [58] header.line = some header.name.length := find_singleton header.noColon
  have hname : header.line.take header.name.length = header.name := List.take_left
  have hdrop : header.line.drop (header.name.length + 1) = header.value := by
    rw [Header.line, ← List.drop_drop, List.drop_left]
    rfl
  -- The one byte behind the colon that is looked at is the first byte of the value.
  have hspace : header.line[header.name.length + 1]? = header.value.head? := by
    rw [← List.head?_drop, hdrop]
  have htrimmed : header.line.drop
      ((if header.value.head? = some 32 then header.name.length + 1 else header.name.length) + 1) =
        header.trimmed := by
    rw [Header.trimmed]
    split_ifs with hsp
    · rw [← List.drop_drop, hdrop, List.drop_one]
    · exact hdrop
  have hlength : header.line.length ≤ header.name.length + 1 ↔ header.value = [] := by
    rw [Header.line, List.length_append, List.length_cons, ← List.length_eq_zero_iff]
    omega
  unfold verdict
  simp only [hcolon, hname, hspace, htrimmed, hlength]
  by_cases hnil : header.value = []
  · rw [if_pos hnil, if_pos hnil]
  rw [if_neg hnil, if_neg hnil]
  by_cases hvalid : header.ValidHost
  · rw [if_pos hvalid, if_pos ⟨hvalid.1, hvalid.trimmed_ne_nil, hvalid.2⟩]
  · rw [if_neg hvalid, if_neg fun h => hvalid ⟨h.1, h.2.2⟩]

theorem joinLines_head {line : List UInt8} (lines : List (List UInt8)) (h : IsLine line) :
    ∃ a rest, joinLines (line :: lines) = a :: rest ∧ a ≠ 13 := by
  rcases List.exists_cons_of_ne_nil h.1 with ⟨a, rest, rfl⟩
  have ha : a ≠ 13 := fun hsame => h.2 (hsame ▸ List.mem_cons_self)
  cases lines with
  | nil => exact ⟨a, rest, joinLines_singleton _, ha⟩
  | cons line' lines => exact ⟨a, _, joinLines_cons_cons _ _ _, ha⟩

/-- The first empty line is the one behind the lines. -/
theorem find_emptyLine {lines : List (List UInt8)} (hne : lines ≠ [])
    (h : ∀ line ∈ lines, IsLine line) (body : List UInt8) :
    find (crlf ++ crlf) (joinLines lines ++ (crlf ++ (crlf ++ body))) =
      some (joinLines lines).length := by
  induction lines with
  | nil => exact absurd rfl hne
  | cons line lines ih =>
      rw [List.forall_mem_cons] at h
      have hdelimiter : crlf ++ crlf = 13 :: [10, 13, 10] := rfl
      cases lines with
      | nil =>
          have hhere : find (crlf ++ crlf) (crlf ++ (crlf ++ body)) = some 0 :=
            find_of_isPrefix ⟨body, List.append_assoc _ _ _⟩
          rw [joinLines_singleton, hdelimiter, find_append_of_not_mem h.1.2, ← hdelimiter, hhere]
          rfl
      | cons line' lines =>
          -- The line break behind the line is followed by another line.
          have hnot : ¬ crlf ++ crlf <+:
              crlf ++ (joinLines (line' :: lines) ++ (crlf ++ (crlf ++ body))) := by
            rcases joinLines_head lines (h.2 line' List.mem_cons_self) with ⟨a, rest, hjoin, ha⟩
            rw [List.prefix_append_right_inj, hjoin]
            exact fun hprefix => ha (List.cons_prefix_cons.mp hprefix).1.symm
          have hnot' : ¬ crlf ++ crlf <+:
              10 :: (joinLines (line' :: lines) ++ (crlf ++ (crlf ++ body))) := by
            exact fun hprefix => absurd (List.cons_prefix_cons.mp hprefix).1 (by decide)
          have hrest := ih (List.cons_ne_nil _ _) h.2
          have hbreak : find (crlf ++ crlf)
              (crlf ++ (joinLines (line' :: lines) ++ (crlf ++ (crlf ++ body)))) =
                some ((joinLines (line' :: lines)).length + 1 + 1) := by
            refine (find_cons_of_not_isPrefix hnot).trans ?_
            change (find (crlf ++ crlf)
              (10 :: (joinLines (line' :: lines) ++ (crlf ++ (crlf ++ body))))).map _ = _
            rw [find_cons_of_not_isPrefix hnot', hrest]
            rfl
          rw [joinLines_cons_cons, List.append_assoc, List.append_assoc, hdelimiter,
            find_append_of_not_mem h.1.2, ← hdelimiter, hbreak, List.length_append,
            List.length_append, Nat.add_comm crlf.length]
          rfl

theorem space_not_mem (method : HttpMethod) : 32 ∉ method.text := by
  cases method <;> decide

/-- What becomes of a request with headers. -/
theorem parse_request (line : RequestLine) {headers : List Header} (hne : headers ≠ [])
    (body : List UInt8) :
    parse (request line headers body) =
      if scanLines (headers.map Header.line) then some ⟨line.method, line.path⟩ else none := by
  have hlines : headers.map Header.line ≠ [] := by
    rw [Ne, List.map_eq_nil_iff]
    exact hne
  have hisLine : ∀ l ∈ headers.map Header.line, IsLine l := by
    rw [List.forall_mem_map]
    exact fun header _ => header.isLine
  -- The request line is cut off at the first line break, and taken apart at its spaces.
  have hpos : find crlf (request line headers body) = some line.text.length :=
    find_framed crlf_unbordered line.noBreak
  have hline : (request line headers body).take line.text.length = line.text := List.take_left
  have hmethodEnd : find [32] line.text = some line.method.text.length :=
    find_singleton (space_not_mem line.method)
  have hmethod : line.text.take line.method.text.length = line.method.text := List.take_left
  have hdrop : line.text.drop (line.method.text.length + 1) =
      line.path ++ 32 :: bytes "HTTP/1.1" := by
    rw [RequestLine.text, requestLineText, ← List.drop_drop, List.drop_left]
    rfl
  have hpathEnd : findFrom [32] line.text (line.method.text.length + 1) =
      some (line.method.text.length + 1 + line.path.length) := by
    rw [findFrom, hdrop, find_singleton line.noSpace]
    rfl
  have hprotocol : line.text.drop (line.method.text.length + 1 + line.path.length + 1) =
      bytes "HTTP/1.1" := by
    rw [Nat.add_assoc _ line.path.length, ← List.drop_drop, hdrop, ← List.drop_drop, List.drop_left]
    rfl
  -- The headers go up to the first empty line.
  have hbehind : (request line headers body).drop (line.text.length + 2) =
      joinLines (headers.map Header.line) ++ (crlf ++ (crlf ++ body)) := by
    have hflat : headers.flatMap (fun header => header.line ++ crlf) =
        joinLines (headers.map Header.line) ++ crlf := by
      rw [joinLines, ← flatMap_terminated crlf hlines, List.flatMap_map]
    rw [request, ← List.drop_drop, List.drop_left, hflat, List.append_assoc]
    rfl
  have hend : findFrom (crlf ++ crlf) (request line headers body) (line.text.length + 2) =
      some (line.text.length + 2 + (joinLines (headers.map Header.line)).length) := by
    rw [findFrom, hbehind, find_emptyLine hlines hisLine]
    rfl
  have hscan := scanHeaders_lines hisLine []
  rw [List.nil_append, List.length_nil] at hscan
  simp only [parse, hpos, hline, hmethodEnd, hmethod, parseMethod_text, hpathEnd, hdrop, hprotocol,
    hend, hbehind, hscan, Option.bind_eq_bind, Option.bind_some, Nat.add_sub_cancel_left,
    List.take_left, ne_eq, not_true_eq_false, if_false]

/-- The first header without a value, or a valid one, decides. -/
theorem scanLines_cons (header : Header) (headers : List Header) :
    scanLines ((header :: headers).map Header.line) =
      if header.value = [] then false
      else if header.ValidHost then true else scanLines (headers.map Header.line) := by
  rw [List.map_cons, scanLines, verdict_line]
  split_ifs <;> rfl

theorem scanLines_of_not_validHost {headers : List Header} (h : ∀ x ∈ headers, ¬ x.ValidHost) :
    scanLines (headers.map Header.line) = false := by
  induction headers with
  | nil => rfl
  | cons header headers ih =>
      rw [List.forall_mem_cons] at h
      rw [scanLines_cons, if_neg h.1, ih h.2, ite_self]

theorem scanLines_of_value {headers : List Header} (h : ∀ x ∈ headers, x.value ≠ []) :
    scanLines (headers.map Header.line) = true ↔ ∃ x ∈ headers, x.ValidHost := by
  -- With no header that ends the search, it goes on to the first valid one.
  induction headers with
  | nil =>
      refine iff_of_false Bool.false_ne_true ?_
      rintro ⟨x, hx, -⟩
      exact List.not_mem_nil hx
  | cons header headers ih =>
      rw [List.forall_mem_cons] at h
      simp only [scanLines_cons, if_neg h.1, List.mem_cons, exists_eq_or_imp]
      by_cases hvalid : header.ValidHost
      · rw [if_pos hvalid]
        exact iff_of_true rfl (Or.inl hvalid)
      · rw [if_neg hvalid, ih h.2, or_iff_right hvalid]

/-- Whatever the request is: what becomes of it does not depend on the order of its headers
    exactly if none of them is valid, or none is without a value. -/
theorem parse_perm_iff (line : RequestLine) (headers : List Header) (body : List UInt8) :
    (∀ headers', headers.Perm headers' →
        parse (request line headers' body) = parse (request line headers body)) ↔
      (∀ x ∈ headers, ¬ x.ValidHost) ∨ ∀ x ∈ headers, x.value ≠ [] := by
  constructor
  · intro h
    by_contra hnot
    simp only [not_or, not_forall, not_not] at hnot
    rcases hnot with ⟨⟨x, hx, hvalid⟩, y, hy, hempty⟩
    -- One order has the valid header in front, and one the header without a value.
    rcases List.append_of_mem hx with ⟨before, after, hxs⟩
    rcases List.append_of_mem hy with ⟨before', after', hys⟩
    have hfirst := h (x :: (before ++ after)) (by rw [hxs]; exact List.perm_middle)
    have hsecond := h (y :: (before' ++ after')) (by rw [hys]; exact List.perm_middle)
    rw [← hsecond, parse_request _ (List.cons_ne_nil _ _), parse_request _ (List.cons_ne_nil _ _),
      scanLines_cons, scanLines_cons, if_neg hvalid.value_ne_nil, if_pos hvalid, if_pos hempty]
      at hfirst
    cases hfirst
  · intro h headers' hperm
    by_cases hnil : headers = []
    · rw [hnil] at hperm ⊢
      rw [hperm.nil_eq]
    have hnil' : headers' ≠ [] := fun hsame => hnil (List.Perm.eq_nil (hsame ▸ hperm))
    -- In both cases only what headers there are matters, and a permutation has the same.
    have hsame : scanLines (headers'.map Header.line) = scanLines (headers.map Header.line) := by
      rcases h with hnone | hvalue
      · rw [scanLines_of_not_validHost hnone,
          scanLines_of_not_validHost fun x hx => hnone x (hperm.mem_iff.mpr hx)]
      · rw [Bool.eq_iff_iff, scanLines_of_value hvalue,
          scanLines_of_value fun x hx => hvalue x (hperm.mem_iff.mpr hx)]
        simp only [hperm.mem_iff]
    rw [parse_request _ hnil, parse_request _ hnil', hsame]

/-- A valid header behind one without a value. -/
theorem not_parse_perm :
    ¬ ∀ (line : RequestLine) (headers headers' : List Header) (body : List UInt8),
      headers.Perm headers' →
        parse (request line headers' body) = parse (request line headers body) := by
  intro h
  let host : Header := ⟨bytes "Host", bytes "localhost", by decide, by decide, by decide⟩
  let accept : Header := ⟨bytes "Accept", [], by decide, by decide, by decide⟩
  let line : RequestLine := ⟨.get, bytes "/", by decide, by decide⟩
  have hsame := h line [host, accept] [accept, host] [] (List.Perm.swap _ _ _)
  rw [parse_request _ (List.cons_ne_nil _ _), parse_request _ (List.cons_ne_nil _ _)] at hsame
  exact absurd hsame (by decide)

end WebServer

end CodingChallenges
