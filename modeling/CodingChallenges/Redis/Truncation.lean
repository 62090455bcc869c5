import CodingChallenges.Library.Framing
import CodingChallenges.Redis.RoundTrip

/-!
# Reading a Part of a Message

The decoder on the beginning of what the encoder wrote.

A message that has not come as a whole is incomplete, never invalid: a line that
is cut has no `\r\n`, a bulk string that is cut behind its length has none behind
it, and an array that is cut is cut in one of its elements or between them. The
check for the null value does not get in the way, since it too waits for more
when it has seen the type byte only, and is over at the first digit of a length.

## Theorems

* `parseElement_begins`, `parseFrame_begins`: The beginning of a message.
* `reads_cut`: Whole messages and the beginning of the next one.
-/

namespace CodingChallenges

namespace Redis

open Delimiter Framing

section Leaves

variable {parseEndPos : Nat} {c : Byte} {part : List Byte}

/-- The beginning of a line, with its type byte. -/
theorem find_begins {content : List Byte} (hc : isTypeByte c = true) (h : OneLine content)
    (hpart : part <+: content ++ crlf) (hlt : part.length < content.length + crlf.length) :
    find crlf (c :: part) = none := by
  have hline := oneLine_cons (isTypeByte_ne hc) h
  refine find_truncated crlf_unbordered hline.not_infix (List.prefix_cons_inj c |>.mpr hpart) ?_
  rw [List.length_cons, List.length_cons]
  omega

theorem parseLine_begins {content : List Byte} (hc : isTypeByte c = true) (h : OneLine content)
    (hpart : part <+: content ++ crlf) (hlt : part.length < content.length + crlf.length) :
    parseLine c (c :: part) parseEndPos = .incomplete 1 := by
  unfold parseLine
  rw [List.head?_cons, if_neg (not_not_intro rfl), find_begins hc h hpart hlt]

theorem parseLength_begins {n : Nat} (hc : isTypeByte c = true)
    (hpart : part <+: decimalDigits n ++ crlf)
    (hlt : part.length < (decimalDigits n).length + crlf.length) :
    parseLength c (c :: part) parseEndPos = .incomplete 1 := by
  unfold parseLength
  rw [List.head?_cons, if_neg (not_not_intro rfl),
    find_begins hc (oneLine_decimalDigits n) hpart hlt]

theorem parseInteger_begins {n : Int} (hpart : part <+: signedDigits n ++ crlf)
    (hlt : part.length < (signedDigits n).length + crlf.length) :
    parseInteger (byte ':' :: part) parseEndPos = .incomplete 1 := by
  unfold parseInteger
  rw [List.head?_cons, if_neg (not_not_intro rfl),
    find_begins (by decide) (oneLine_signedDigits n) hpart hlt]

/-- A part of what begins with a length is the type byte alone, or goes on with a
    digit. -/
theorem begins_length {n : Nat} {rest : List Byte} (hpart : part <+: decimalDigits n ++ rest) :
    part = [] ∨ ∃ d more, part = d :: more ∧ isDecimalDigit d = true := by
  rcases part with _ | ⟨d, more⟩
  · exact Or.inl rfl
  · right
    refine ⟨d, more, rfl, ?_⟩
    rcases hdigits : decimalDigits n with _ | ⟨d', digits⟩
    · exact absurd hdigits (decimalDigits_ne_nil n)
    · rw [hdigits, List.cons_append, List.cons_prefix_cons] at hpart
      rw [hpart.1]
      exact isDecimalDigit_decimalDigits (by rw [hdigits]; exact List.mem_cons_self)

theorem parseBulkString_begins {str : List Byte} (h : ¬ crlf <:+: str)
    (hsize : str.length < sizeBound)
    (hpart : part <+: (decimalDigits str.length ++ crlf) ++ (str ++ crlf))
    (hlt : part.length < (decimalDigits str.length ++ crlf).length + (str ++ crlf).length) :
    ∃ e, parseBulkString (byte '$' :: part) parseEndPos = .incomplete e := by
  unfold parseBulkString
  -- Either the length is cut, or what comes behind it.
  rcases cut_append hpart with ⟨hlength, hshort⟩ | ⟨more, rfl, hmore⟩
  · rw [List.length_append] at hshort
    rw [parseLength_begins (by decide) hlength hshort]
    exact ⟨1, rfl⟩
  · -- The length has come, and the content is cut.
    have hdrop : (byte '$' :: (decimalDigits str.length ++ (crlf ++ more))).drop
        ((decimalDigits str.length).length + 3) = more := by
      rw [List.drop_succ_cons, ← List.append_assoc]
      exact List.drop_left' (by rw [List.length_append]; rfl)
    have hcut : more.length < str.length + crlf.length := by
      rw [List.length_append, List.length_append] at hlt
      rw [List.length_append] at hlt
      omega
    rw [List.append_assoc, parseLength_framed (by decide) hsize]
    unfold Parse.bind findFrom
    simp only
    -- The search for the end of the content begins behind the length and finds nothing.
    rw [hdrop, find_truncated crlf_unbordered h hmore hcut]
    exact ⟨_, rfl⟩

end Leaves

section Arrays

theorem begins_cons {c : Byte} {part text : List Byte} (h : Begins part (c :: text)) :
    ∃ more, part = c :: more ∧ more <+: text ∧ more.length < text.length := by
  rcases h with ⟨hne, hpart, hlt⟩
  rcases List.exists_cons_of_ne_nil hne with ⟨c', more, rfl⟩
  rw [List.cons_prefix_cons] at hpart
  rcases hpart with ⟨rfl, hmore⟩
  exact ⟨more, rfl, hmore, Nat.lt_of_succ_lt_succ hlt⟩

theorem parseElement_begins_string {parseArray : List Byte → Nat → Option (Parse RespArray)}
    {s : RespString} {part : List Byte} (h : (RespType.string s).Delimited)
    (hsize : s.str.length < sizeBound) (hpart : Begins part (generateRespString s)) :
    ∃ e, parseElement parseArray part = some (.incomplete e) := by
  rcases s with ⟨str, isBulk⟩
  cases isBulk with
  | true =>
      rw [generateRespString, if_pos rfl, List.cons_append] at hpart
      rcases begins_cons hpart with ⟨more, rfl, hmore, hlt⟩
      rw [List.length_append] at hlt
      rw [List.append_assoc] at hmore
      rcases begins_length hmore with rfl | ⟨d, digits, rfl, hd⟩
      · -- The type byte alone may still become a null value.
        exact ⟨1, rfl⟩
      · -- The first digit has come, and with it the null value is ruled out.
        rw [← List.append_assoc] at hmore
        have hbulk : ∃ e, parseBulkString (byte '$' :: d :: digits) 0 = .incomplete e :=
          parseBulkString_begins h hsize hmore hlt
        rcases hbulk with ⟨e, he⟩
        rw [parseElement_dollar, parseNull_length (Or.inl rfl) hd]
        simp only
        rw [he]
        exact ⟨e, rfl⟩
  | false =>
      rw [generateRespString, if_neg Bool.false_ne_true] at hpart
      rcases begins_cons hpart with ⟨more, rfl, hmore, hlt⟩
      rw [List.length_append] at hlt
      have hline : parseLine (byte '+') (byte '+' :: more) 0 = .incomplete 1 :=
        parseLine_begins (by decide) h hmore hlt
      refine ⟨1, ?_⟩
      change some (((parseLine (byte '+') (byte '+' :: more) 0).map _).map _) = _
      rw [hline]
      rfl

theorem parseElement_begins_int {parseArray : List Byte → Nat → Option (Parse RespArray)}
    {n : RespInt} {part : List Byte} (hpart : Begins part (generateRespInt n)) :
    ∃ e, parseElement parseArray part = some (.incomplete e) := by
  rw [generateRespInt] at hpart
  rcases begins_cons hpart with ⟨more, rfl, hmore, hlt⟩
  rw [List.length_append] at hlt
  have hint : parseInteger (byte ':' :: more) 0 = .incomplete 1 :=
    parseInteger_begins hmore hlt
  refine ⟨1, ?_⟩
  change some ((parseInteger (byte ':' :: more) 0).map _) = _
  rw [hint]
  rfl

theorem parseElement_begins_error {parseArray : List Byte → Nat → Option (Parse RespArray)}
    {e : RespError} {part : List Byte} (h : OneLine e)
    (hpart : Begins part (generateRespError e)) :
    ∃ e, parseElement parseArray part = some (.incomplete e) := by
  rw [generateRespError] at hpart
  rcases begins_cons hpart with ⟨more, rfl, hmore, hlt⟩
  rw [List.length_append] at hlt
  have hline : parseLine (byte '-') (byte '-' :: more) 0 = .incomplete 1 :=
    parseLine_begins (by decide) h hmore hlt
  refine ⟨1, ?_⟩
  change some ((parseLine (byte '-') (byte '-' :: more) 0).map _) = _
  rw [hline]
  rfl

/-- An array whose announcement is cut. -/
theorem parseArray_begins {n levels : Nat} {part : List Byte}
    (hpart : Begins part (generateArrayLength n)) :
    ∃ text, part = byte '*' :: text ∧ parseArray (levels + 1) part 0 = some (.incomplete 1) := by
  rw [generateArrayLength] at hpart
  rcases begins_cons hpart with ⟨more, rfl, hmore, hlt⟩
  rw [List.length_append] at hlt
  refine ⟨more, rfl, ?_⟩
  unfold parseArray
  rw [parseLength_begins (by decide) hmore hlt]

mutual

/-- The beginning of an element is incomplete. -/
theorem parseElement_begins (v : RespType) {levels : Nat} {part : List Byte}
    (hnull : v.NoNull) (hdelimited : v.Delimited) (hsize : (generate v).length < sizeBound)
    (hpart : Begins part (generate v)) (hlevels : part.length ≤ levels) :
    ∃ e, parseElement (parseArray levels) part = some (.incomplete e) := by
  cases v with
  | string s =>
      rw [generate] at hsize hpart
      exact parseElement_begins_string hdelimited
        (Nat.lt_trans (length_lt_generateRespString s) hsize) hpart
  | int n => exact parseElement_begins_int hpart
  | error e => exact parseElement_begins_error hdelimited hpart
  | null => exact absurd rfl hnull
  | array elements =>
      rw [generate_array, generateRespArray] at hsize hpart
      rcases hpart with ⟨hne, hpart, hlt⟩
      have hpos := List.length_pos_iff.mpr hne
      rcases levels with _ | levels
      · exact absurd hlevels (Nat.not_le_of_lt hpos)
      have hcase : ∀ text p, parseArray (levels + 1) (byte '*' :: text) 0 = some (.incomplete p) →
          parseElement (parseArray (levels + 1)) (byte '*' :: text) = some (.incomplete p) := by
        intro text p hp
        change (parseArray (levels + 1) (byte '*' :: text) 0).map _ = _
        rw [hp]
        rfl
      rcases cut_append hpart with ⟨hlength, hshort⟩ | ⟨more, rfl, hmore⟩
      · -- The announcement itself is cut.
        have hbegins : ∃ text, part = byte '*' :: text ∧
            parseArray (levels + 1) part 0 = some (.incomplete 1) :=
          parseArray_begins ⟨hne, hlength, hshort⟩
        rcases hbegins with ⟨text, rfl, hparsed⟩
        exact ⟨1, hcase text 1 hparsed⟩
      · -- The announcement has come, and one of the elements is cut.
        have hhead : 0 < (generateArrayLength elements.length).length := Nat.succ_pos _
        have hcount := length_le_generateElements elements
        rw [List.length_append] at hlevels hsize
        rw [List.length_append, List.length_append] at hlt
        have hcut : ∃ e, parseElements (parseArray levels) elements.length more
            (generateArrayLength elements.length).length [] = some (.incomplete e) :=
          parseElements_begins elements hnull hdelimited (by omega) hmore (by omega) (by omega)
        rcases hcut with ⟨e, he⟩
        refine ⟨e, ?_⟩
        have hparsed : parseArray (levels + 1)
            (generateArrayLength elements.length ++ more) 0 = some (.incomplete e) := by
          rw [parseArray_framed (by omega), he]
        exact hcase _ e hparsed

/-- The beginning of the elements of an array is incomplete. -/
theorem parseElements_begins (elements : List RespType) {levels startPos : Nat}
    {part : List Byte} {parseOutput : RespArray}
    (hnull : RespType.ForallElements (· ≠ .null) elements)
    (hdelimited : RespType.ForallElements RespType.DelimitedLeaf elements)
    (hsize : (generateElements elements).length < sizeBound)
    (hpart : part <+: generateElements elements)
    (hlt : part.length < (generateElements elements).length) (hlevels : part.length ≤ levels) :
    ∃ e, parseElements (parseArray levels) elements.length part startPos parseOutput =
      some (.incomplete e) := by
  cases elements with
  | nil => exact absurd hlt (Nat.not_lt_zero _)
  | cons v elements =>
      rw [generateElements_cons, List.length_append] at hsize hlt
      rw [generateElements_cons] at hpart
      rcases cut_append hpart with ⟨hfirst, hshort⟩ | ⟨more, rfl, hmore⟩
      · by_cases hnil : part = []
        · -- The cut is between two elements.
          subst hnil
          exact ⟨startPos, rfl⟩
        · -- The cut is in the first element.
          have hbegins : ∃ e, parseElement (parseArray levels) part = some (.incomplete e) :=
            parseElement_begins v hnull.1 hdelimited.1 (by omega) ⟨hnil, hfirst, hshort⟩ hlevels
          rcases hbegins with ⟨e, he⟩
          refine ⟨startPos + e, ?_⟩
          rw [List.length_cons]
          unfold parseElements
          rw [if_neg hnil, he]
      · -- The first element has come, and the cut is in or in front of another one.
        rw [List.length_append] at hlt hlevels
        have hread : parseElement (parseArray levels) (generate v ++ more) = _ :=
          parseElement_generate v hnull.1 hdelimited.1 (by omega) (by omega)
        rw [List.length_cons, parseElements_step (List.ne_nil_of_length_pos (generate_pos v)) hread]
        exact parseElements_begins elements hnull.2 hdelimited.2 (by omega) hmore (by omega)
          (by omega)

end

end Arrays

section Frames

/-- The beginning of a message is incomplete. -/
theorem parseFrame_begins (v : RespType) {levels : Nat} {part : List Byte} (hnull : v.NoNull)
    (hdelimited : v.Delimited) (hsize : (generate v).length < sizeBound)
    (hpart : Begins part (generate v)) (hlevels : part.length ≤ levels) :
    ∃ c text e, part = c :: text ∧ isTypeByte c = true ∧
      parseFrame levels part 0 = some (.incomplete e) := by
  have hne : v ≠ .null := by
    intro heq
    subst heq
    exact hnull rfl
  rcases parseElement_begins v hnull hdelimited hsize hpart hlevels with ⟨e, he⟩
  rcases head_generate hne with ⟨c, text, hshape, hc, harray⟩
  have hcons := hpart
  rw [hshape] at hcons
  rcases begins_cons hcons with ⟨more, rfl, hmore, -⟩
  by_cases hstar : c = byte '*'
  · -- An array is looked at as a null value first.
    subst hstar
    rcases harray.mp rfl with ⟨elements, rfl⟩
    rw [generate_array, generateRespArray, generateArrayLength, List.cons_append,
      List.append_assoc, List.cons.injEq] at hshape
    rw [← hshape.2] at hmore
    rcases begins_length hmore with rfl | ⟨d, digits, rfl, hd⟩
    · -- The type byte alone may still become a null value.
      exact ⟨_, _, 1, rfl, hc, rfl⟩
    · refine ⟨_, _, e, rfl, hc, ?_⟩
      rw [parseFrame_array (parseNull_length (Or.inr rfl) hd)]
      exact he
  · refine ⟨_, _, e, rfl, hc, ?_⟩
    rw [parseFrame_eq_parseElement (parseArray levels) hc hstar]
    exact he

/-- Whole messages, and then nothing or the beginning of the next one. -/
theorem reads_cut {values others : List RespType} {more : List Byte}
    (hnull : ∀ v ∈ values ++ others, v.NoNull) (hdelimited : ∀ v ∈ values ++ others, v.Delimited)
    (hsize : (values.flatMap generate).length < sizeBound)
    (hframe : ∀ v ∈ others, (generate v).length < sizeBound)
    (hmore : Pending generate more others) :
    ∃ results, Reads (values.flatMap generate ++ more) 0 true (framesOf 0 values ++ results) ∧
      ∀ result ∈ results, result.state = .incomplete := by
  -- Behind the whole messages the loop is at its end, or it pauses.
  have hpart : ∃ results, Reads more (0 + (values.flatMap generate).length) true results ∧
      ∀ result ∈ results, result.state = .incomplete := by
    rcases hmore with rfl | ⟨v, rest, rfl, hbegins⟩
    · exact ⟨[], .done, fun result hmem => absurd hmem List.not_mem_nil⟩
    · have hv : v ∈ values ++ v :: rest := List.mem_append_right _ List.mem_cons_self
      rcases parseFrame_begins v (hnull v hv) (hdelimited v hv) (hframe v List.mem_cons_self)
        hbegins (Nat.le_refl _) with ⟨c, text, e, rfl, hc, hparsed⟩
      exact ⟨_, .pause hc hparsed rfl, List.forall_mem_singleton.mpr rfl⟩
  rcases hpart with ⟨results, hreads, hincomplete⟩
  exact ⟨results, reads_frames values (fun v hv => hnull v (List.mem_append_left _ hv))
    (fun v hv => hdelimited v (List.mem_append_left _ hv)) hsize hreads, hincomplete⟩

end Frames

end Redis

end CodingChallenges
