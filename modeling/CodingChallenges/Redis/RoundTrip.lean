import CodingChallenges.Redis.Progress

/-!
# Reading What Was Written

The decoder on what the encoder wrote.

A message is read whatever follows it, and how far the parser looked is exactly
its length. Within an array the positions are relative to the array, so the
lengths of the elements add up, and the loop at the top finds the next message
where the last one ended.

The null value is the exception. The encoder writes its third spelling, which
begins with a byte that no switch of the decoder has a case for, so a message is
read back if and only if there is no null value in it.

## Main definitions

* `framesOf`: The results that say where each of several messages is.
* `ReadsBack`: Reading the message of a value yields it.

## Theorems

* `parseElement_generate`, `parseArray_generate`: A message in an array.
* `parseFrame_generate`: A message at the top.
* `reads_frames`: Several messages and what follows them.
* `parse_pipeline`: Several messages.
* `parse_generate_iff`: What is read back.
* `bulkStrings_readBack_iff`: Which bulk strings are.
-/

namespace CodingChallenges

namespace Redis

open Delimiter

section Lines

/-- A line is found again, whatever follows it. -/
theorem find_line {content rest : List Byte} (h : OneLine content) :
    find crlf (content ++ (crlf ++ rest)) = some content.length :=
  find_framed crlf_unbordered h.not_infix

theorem oneLine_cons {c : Byte} {content : List Byte} (hc : c ≠ byte '\r' ∧ c ≠ byte '\n')
    (h : OneLine content) : OneLine (c :: content) :=
  List.forall_mem_cons.mpr ⟨hc, h⟩

theorem isTypeByte_ne {c : Byte} (h : isTypeByte c = true) :
    c ≠ byte '\r' ∧ c ≠ byte '\n' := by
  refine ⟨fun heq => ?_, fun heq => ?_⟩ <;> subst heq <;> exact absurd h (by decide)

theorem oneLine_of_digits {digits : List Byte}
    (h : ∀ d ∈ digits, isDecimalDigit d = true) : OneLine digits := by
  intro d hd
  have hdigit := h d hd
  refine ⟨fun heq => ?_, fun heq => ?_⟩ <;> subst heq <;> exact absurd hdigit (by decide)

theorem oneLine_decimalDigits (n : Nat) : OneLine (decimalDigits n) :=
  oneLine_of_digits fun _ hd => isDecimalDigit_decimalDigits hd

theorem oneLine_signedDigits (n : Int) : OneLine (signedDigits n) := by
  cases n with
  | ofNat n => exact oneLine_decimalDigits n
  | negSucc n => exact oneLine_cons (by decide) (oneLine_decimalDigits (n + 1))

/-- A search that begins with a type byte finds the line behind it. -/
theorem find_typed {c : Byte} {content rest : List Byte} (hc : isTypeByte c = true)
    (h : OneLine content) :
    find crlf (c :: (content ++ (crlf ++ rest))) = some (content.length + 1) :=
  find_line (oneLine_cons (isTypeByte_ne hc) h)

/-- What is cut out between the type byte and the end of the line. -/
theorem cut_line {c : Byte} {content rest : List Byte} :
    ((c :: (content ++ (crlf ++ rest))).drop 1).take (content.length + 1 - 1) = content := by
  rw [Nat.add_sub_cancel, List.drop_succ_cons, List.drop_zero, List.take_left]

theorem not_any_of_oneLine {content : List Byte} (h : OneLine content) :
    content.any (fun c => c == byte '\r' || c == byte '\n') = false := by
  rw [List.any_eq_false]
  intro c hc
  rw [Bool.or_eq_true, beq_iff_eq, beq_iff_eq, not_or]
  exact h c hc

end Lines

section Leaves

variable {rest : List Byte} {parseEndPos : Nat}

theorem parseLine_framed {c : Byte} {content : List Byte} (hc : isTypeByte c = true)
    (h : OneLine content) :
    parseLine c (c :: (content ++ (crlf ++ rest))) parseEndPos =
      .complete content (content.length + 3) := by
  unfold parseLine
  rw [List.head?_cons, if_neg (not_not_intro rfl), find_typed hc h]
  simp only
  rw [cut_line, not_any_of_oneLine h, if_neg Bool.false_ne_true]

theorem parseLength_framed {c : Byte} {n : Nat} (hc : isTypeByte c = true) (hn : n < sizeBound) :
    parseLength c (c :: (decimalDigits n ++ (crlf ++ rest))) parseEndPos =
      .complete n ((decimalDigits n).length + 3) := by
  -- The length is spelled by its digits alone, so reading leaves nothing.
  have hread : fromChars sizeBound (decimalDigits n) = some (n, []) := by
    have h : fromChars sizeBound (decimalDigits n ++ []) = some (n, []) :=
      fromChars_decimalDigits hn (fun c hc => by cases hc)
    rw [List.append_nil] at h
    exact h
  unfold parseLength
  rw [List.head?_cons, if_neg (not_not_intro rfl), find_typed hc (oneLine_decimalDigits n)]
  simp only
  rw [cut_line, if_neg (decimalDigits_ne_nil n), hread]

theorem parseInteger_framed (n : RespInt) :
    parseInteger (generateRespInt n ++ rest) parseEndPos =
      .complete n (generateRespInt n).length := by
  have hlow : -(intBound : Int) ≤ n.toInt := Int64.le_toInt n
  have hhigh : n.toInt < intBound := Int64.toInt_lt n
  have hread : fromCharsSigned intBound (signedDigits n.toInt) = some (n.toInt, []) := by
    have h : fromCharsSigned intBound (signedDigits n.toInt ++ []) = some (n.toInt, []) :=
      fromCharsSigned_signedDigits hlow hhigh (fun c hc => by cases hc)
    rw [List.append_nil] at h
    exact h
  -- No digits would be read as no number.
  have hne : signedDigits n.toInt ≠ [] := by
    intro hnil
    rw [hnil] at hread
    cases hread
  have hshape : generateRespInt n ++ rest
      = byte ':' :: (signedDigits n.toInt ++ (crlf ++ rest)) := by
    rw [generateRespInt, List.cons_append, List.append_assoc]
  rw [hshape]
  unfold parseInteger
  rw [List.head?_cons, if_neg (not_not_intro rfl),
    find_typed (by decide) (oneLine_signedDigits n.toInt)]
  simp only
  rw [cut_line, if_neg hne, hread]
  simp only [Int64.ofInt_toInt, generateRespInt, List.length_cons, List.length_append,
    List.length_nil]

/-- A bulk string is read back if the next `\r\n` is the one behind it. -/
theorem parseBulkString_framed {str : List Byte} (h : ¬ crlf <:+: str)
    (hsize : str.length < sizeBound) :
    parseBulkString (generateRespString ⟨str, true⟩ ++ rest) parseEndPos =
      .complete ⟨str, true⟩ (generateRespString ⟨str, true⟩).length := by
  have hshape : generateRespString ⟨str, true⟩ ++ rest
      = byte '$' :: (decimalDigits str.length ++ (crlf ++ (str ++ (crlf ++ rest)))) := by
    rw [generateRespString, if_pos rfl, List.cons_append, List.cons_append, List.append_assoc,
      List.append_assoc, List.append_assoc]
  have hlen : (generateRespString ⟨str, true⟩).length
      = (decimalDigits str.length).length + 3 + str.length + 2 := by
    rw [generateRespString, if_pos rfl]
    simp only [List.length_append, List.length_cons, List.length_nil]
    omega
  -- Behind the length are the content, the delimiter, and the rest.
  have hdrop : (byte '$' :: (decimalDigits str.length ++ (crlf ++ (str ++ (crlf ++ rest))))).drop
      ((decimalDigits str.length).length + 3) = str ++ (crlf ++ rest) := by
    rw [List.drop_succ_cons, ← List.append_assoc]
    exact List.drop_left' (by rw [List.length_append]; rfl)
  rw [hshape, hlen]
  unfold parseBulkString
  rw [parseLength_framed (by decide) hsize]
  unfold Parse.bind findFrom
  simp only
  rw [hdrop, find_framed crlf_unbordered h]
  simp only [Option.map_some]
  -- The length that was announced is the one that was found.
  rw [Nat.add_sub_cancel_left, if_neg (not_not_intro rfl), List.take_left]

/-- Nothing that begins with a length is a null value. -/
theorem parseNull_length {c d : Byte} {text : List Byte} (hc : c = byte '$' ∨ c = byte '*')
    (hd : isDecimalDigit d = true) : parseNull (c :: d :: text) parseEndPos = .invalid 0 := by
  have hminus : d ≠ byte '-' := by
    intro heq
    subst heq
    exact absurd hd (by decide)
  unfold parseNull
  rw [if_neg (List.cons_ne_nil _ _)]
  rcases hc with rfl | rfl
  · have hfirst : checkNullVariant (byte '$' :: d :: text) (bytes "$-1\r\n") 0 = .invalid 1 :=
      if_pos hminus
    rw [hfirst]
    rfl
  · -- An array length fails at its first digit in the second spelling only.
    have hsecond : checkNullVariant (byte '*' :: d :: text) (bytes "*-1\r\n") 0 = .invalid 1 :=
      if_pos hminus
    have hfirst : checkNullVariant (byte '*' :: d :: text) (bytes "$-1\r\n") 0 = .invalid 0 :=
      rfl
    rw [hfirst, hsecond]
    rfl

end Leaves

section Arrays

variable {rest : List Byte} {parseEndPos levels startPos : Nat} {parseOutput : RespArray}

/-- What announces an array is read, and its elements are what is left. -/
theorem parseArray_framed {n : Nat} (hn : n < sizeBound) :
    parseArray (levels + 1) (generateArrayLength n ++ rest) parseEndPos =
      parseElements (parseArray levels) n rest (generateArrayLength n).length [] := by
  have hshape : generateArrayLength n ++ rest
      = byte '*' :: (decimalDigits n ++ (crlf ++ rest)) := by
    rw [generateArrayLength, List.cons_append, List.append_assoc]
  have hlen : (generateArrayLength n).length = (decimalDigits n).length + 3 := by
    rw [generateArrayLength, List.length_cons, List.length_append]
    rfl
  have hdrop : (generateArrayLength n ++ rest).drop ((decimalDigits n).length + 3) = rest :=
    List.drop_left' hlen
  rw [hshape] at hdrop ⊢
  rw [hlen]
  unfold parseArray
  rw [parseLength_framed (by decide) hn]
  simp only
  rw [hdrop]

/-- An element that is complete is one element less to come. -/
theorem parseElements_step {parseArray : List Byte → Nat → Option (Parse RespArray)}
    {counter : Nat} {v : RespType} {message : List Byte} (hne : message ≠ [])
    (h : parseElement parseArray (message ++ rest) = some (.complete v message.length)) :
    parseElements parseArray (counter + 1) (message ++ rest) startPos parseOutput =
      parseElements parseArray counter rest (startPos + message.length)
        (parseOutput ++ [v]) := by
  have hmore : message ++ rest ≠ [] := fun hnil => hne (List.append_eq_nil_iff.mp hnil).1
  conv_lhs => unfold parseElements
  rw [if_neg hmore, h]
  simp only
  rw [List.drop_left]

/-- Behind a dollar sign the null value is tried first. -/
theorem parseElement_dollar (parseArray : List Byte → Nat → Option (Parse RespArray))
    (text : List Byte) :
    parseElement parseArray (byte '$' :: text) =
      match parseNull (byte '$' :: text) 0 with
      | .complete _ e => some (.complete .null e)
      | .incomplete e => some (.incomplete e)
      | .invalid e => some ((parseBulkString (byte '$' :: text) e).map .string) :=
  rfl

theorem parseElement_string {parseArray : List Byte → Nat → Option (Parse RespArray)}
    {s : RespString} (h : (RespType.string s).Delimited) (hsize : s.str.length < sizeBound) :
    parseElement parseArray (generateRespString s ++ rest) =
      some (.complete (.string s) (generateRespString s).length) := by
  rcases s with ⟨str, isBulk⟩
  cases isBulk with
  | true =>
      have hread : ∀ e, parseBulkString (generateRespString ⟨str, true⟩ ++ rest) e = _ :=
        fun e => parseBulkString_framed h hsize
      -- The parser tries the null value first, and fails at the first digit of the length.
      rcases hdigits : decimalDigits str.length with _ | ⟨d, digits⟩
      · exact absurd hdigits (decimalDigits_ne_nil _)
      have hd : isDecimalDigit d = true :=
        isDecimalDigit_decimalDigits (by rw [hdigits]; exact List.mem_cons_self)
      have hshape : generateRespString ⟨str, true⟩ ++ rest
          = byte '$' :: d :: (digits ++ crlf ++ (str ++ crlf) ++ rest) := by
        rw [generateRespString, if_pos rfl, hdigits]
        rfl
      rw [hshape] at hread ⊢
      rw [parseElement_dollar, parseNull_length (Or.inl rfl) hd]
      simp only
      rw [hread]
      rfl
  | false =>
      have hshape : generateRespString ⟨str, false⟩ ++ rest
          = byte '+' :: (str ++ (crlf ++ rest)) := by
        rw [generateRespString, if_neg Bool.false_ne_true, List.cons_append, List.append_assoc]
      have hlen : (generateRespString ⟨str, false⟩).length = str.length + 3 := by
        rw [generateRespString, if_neg Bool.false_ne_true, List.length_cons, List.length_append]
        rfl
      have hread : parseLine (byte '+') (byte '+' :: (str ++ (crlf ++ rest))) 0
          = .complete str (str.length + 3) := parseLine_framed (by decide) h
      rw [hshape, hlen]
      change some (((parseLine (byte '+') (byte '+' :: (str ++ (crlf ++ rest))) 0).map _).map _) = _
      rw [hread]
      rfl

theorem parseElement_int {parseArray : List Byte → Nat → Option (Parse RespArray)}
    (n : RespInt) :
    parseElement parseArray (generateRespInt n ++ rest) =
      some (.complete (.int n) (generateRespInt n).length) := by
  have hread : parseInteger (generateRespInt n ++ rest) 0
      = .complete n (generateRespInt n).length := parseInteger_framed n
  change some ((parseInteger (generateRespInt n ++ rest) 0).map _) = _
  rw [hread]
  rfl

theorem parseElement_error {parseArray : List Byte → Nat → Option (Parse RespArray)}
    {e : RespError} (h : OneLine e) :
    parseElement parseArray (generateRespError e ++ rest) =
      some (.complete (.error e) (generateRespError e).length) := by
  have hshape : generateRespError e ++ rest = byte '-' :: (e ++ (crlf ++ rest)) := by
    rw [generateRespError, List.cons_append, List.append_assoc]
  have hlen : (generateRespError e).length = e.length + 3 := by
    rw [generateRespError, List.length_cons, List.length_append]
    rfl
  have hread : parseLine (byte '-') (byte '-' :: (e ++ (crlf ++ rest))) 0
      = .complete e (e.length + 3) := parseLine_framed (by decide) h
  rw [hshape, hlen]
  change some ((parseLine (byte '-') (byte '-' :: (e ++ (crlf ++ rest))) 0).map _) = _
  rw [hread]
  rfl

theorem parseElement_array {parseArray : List Byte → Nat → Option (Parse RespArray)}
    (elements : RespArray) :
    parseElement parseArray (generateRespArray elements ++ rest) =
      (parseArray (generateRespArray elements ++ rest) 0).map fun parsed => parsed.map .array :=
  rfl

mutual

/-- A message in an array is read back, whatever follows it. -/
theorem parseElement_generate (v : RespType) {levels : Nat} {rest : List Byte}
    (hnull : v.NoNull) (hdelimited : v.Delimited) (hlevels : (generate v).length ≤ levels)
    (hsize : (generate v).length < sizeBound) :
    parseElement (parseArray levels) (generate v ++ rest) =
      some (.complete v (generate v).length) := by
  cases v with
  | string s =>
      rw [generate] at hsize ⊢
      exact parseElement_string hdelimited
        (Nat.lt_trans (length_lt_generateRespString s) hsize)
  | int n =>
      rw [generate]
      exact parseElement_int n
  | error e =>
      rw [generate]
      exact parseElement_error hdelimited
  | null => exact absurd rfl hnull
  | array elements =>
      rw [generate_array] at hlevels hsize ⊢
      rw [parseElement_array]
      -- The announcement takes a level, and has at least as many bytes.
      rcases levels with _ | levels
      · exact absurd hlevels (Nat.not_succ_le_zero _)
      · have hhead : 0 < (generateArrayLength elements.length).length := Nat.succ_pos _
        have hcount := length_le_generateElements elements
        rw [generateRespArray, List.length_append] at hlevels hsize
        rw [generateRespArray, List.append_assoc, parseArray_framed (by omega),
          parseElements_generate elements hnull hdelimited (by omega) (by omega)]
        simp only [Option.map_some, Parse.map, List.nil_append, List.length_append]

/-- The messages of all elements of an array are read back. -/
theorem parseElements_generate (elements : List RespType) {levels startPos : Nat}
    {rest : List Byte} {parseOutput : RespArray}
    (hnull : RespType.ForallElements (· ≠ .null) elements)
    (hdelimited : RespType.ForallElements RespType.DelimitedLeaf elements)
    (hlevels : (generateElements elements).length ≤ levels)
    (hsize : (generateElements elements).length < sizeBound) :
    parseElements (parseArray levels) elements.length (generateElements elements ++ rest)
        startPos parseOutput =
      some (.complete (parseOutput ++ elements)
        (startPos + (generateElements elements).length)) := by
  cases elements with
  | nil =>
      rw [generateElements, List.append_nil]
      rfl
  | cons v elements =>
      rw [generateElements_cons, List.length_append] at hlevels hsize
      have hread : parseElement (parseArray levels)
          (generate v ++ (generateElements elements ++ rest)) = _ :=
        parseElement_generate v hnull.1 hdelimited.1 (by omega) (by omega)
      rw [generateElements_cons, List.append_assoc, List.length_cons,
        parseElements_step (List.ne_nil_of_length_pos (generate_pos v)) hread,
        parseElements_generate elements hnull.2 hdelimited.2 (by omega) (by omega),
        List.append_assoc, List.singleton_append, List.length_append, Nat.add_assoc]

end

end Arrays

section Frames

variable {levels parseEndPos : Nat} {rest : List Byte}

/-- Every message but that of the null value begins with a type byte. -/
theorem head_generate {v : RespType} (h : v ≠ .null) :
    ∃ c text, generate v = c :: text ∧ isTypeByte c = true ∧
      (c = byte '*' ↔ ∃ elements, v = .array elements) := by
  cases v with
  | string s =>
      rw [generate, generateRespString]
      split
      · exact ⟨_, _, rfl, rfl, iff_of_false (by decide) (fun h => by cases h.choose_spec)⟩
      · exact ⟨_, _, rfl, rfl, iff_of_false (by decide) (fun h => by cases h.choose_spec)⟩
  | int n =>
      rw [generate]
      exact ⟨_, _, rfl, rfl, iff_of_false (by decide) (fun h => by cases h.choose_spec)⟩
  | error e =>
      rw [generate]
      exact ⟨_, _, rfl, rfl, iff_of_false (by decide) (fun h => by cases h.choose_spec)⟩
  | array elements =>
      rw [generate]
      exact ⟨_, _, rfl, rfl, iff_of_true rfl ⟨elements, rfl⟩⟩
  | null => exact absurd rfl h

/-- What begins with the length of an array is not the null value. -/
theorem parseNull_array (n : Nat) :
    ∃ text, generateArrayLength n ++ rest = byte '*' :: text ∧
      parseNull (byte '*' :: text) parseEndPos = .invalid 0 := by
  rcases hdigits : decimalDigits n with _ | ⟨d, digits⟩
  · exact absurd hdigits (decimalDigits_ne_nil n)
  have hd : isDecimalDigit d = true :=
    isDecimalDigit_decimalDigits (by rw [hdigits]; exact List.mem_cons_self)
  refine ⟨d :: (digits ++ crlf ++ rest), ?_, parseNull_length (Or.inr rfl) hd⟩
  rw [generateArrayLength, hdigits]
  rfl

/-- The switch at the top on a message is the one in arrays. -/
theorem parseFrame_message {v : RespType} (h : v ≠ .null) :
    parseFrame levels (generate v ++ rest) parseEndPos =
      parseElement (parseArray levels) (generate v ++ rest) := by
  -- Only arrays are treated differently at the top, where they may be null values.
  rcases head_generate h with ⟨c, text, hshape, hc, harray⟩
  by_cases hstar : c = byte '*'
  · rcases harray.mp hstar with ⟨elements, rfl⟩
    rw [generate_array, parseElement_array, generateRespArray, List.append_assoc]
    rcases parseNull_array elements.length with ⟨text', htext, hnull⟩
    rw [htext, parseFrame_array hnull]
  · rw [hshape, List.cons_append]
    exact parseFrame_eq_parseElement _ hc hstar

/-- A message at the top is read back, whatever follows it. -/
theorem parseFrame_generate (v : RespType) (hnull : v.NoNull) (hdelimited : v.Delimited)
    (hlevels : (generate v).length ≤ levels) (hsize : (generate v).length < sizeBound) :
    parseFrame levels (generate v ++ rest) parseEndPos =
      some (.complete v (generate v).length) := by
  have hne : v ≠ .null := by
    intro heq
    subst heq
    exact hnull rfl
  rw [parseFrame_message hne]
  exact parseElement_generate v hnull hdelimited hlevels hsize

end Frames

section Pipelines

/-- The results that say that there is one message after the other from `start`
    on. -/
def framesOf : Nat → List RespType → List RespParserResult
  | _, [] => []
  | start, v :: values =>
    ⟨some v, .complete, start, start + (generate v).length⟩ ::
      framesOf (start + (generate v).length) values

/-- A message at the front of what the loop reads is its first result. -/
theorem reads_message {v : RespType} {rest : List Byte} {start : Nat} {ok : Bool}
    {results : List RespParserResult} (hnull : v.NoNull) (hdelimited : v.Delimited)
    (hsize : (generate v).length < sizeBound)
    (hrest : Reads rest (start + (generate v).length) ok results) :
    Reads (generate v ++ rest) start ok
      (⟨some v, .complete, start, start + (generate v).length⟩ :: results) := by
  have hne : v ≠ .null := by
    intro heq
    subst heq
    exact hnull rfl
  -- As many levels are allowed as the message has bytes, and it is not the whole.
  have hlevels : (generate v).length ≤ (generate v ++ rest).length := by
    rw [List.length_append]
    exact Nat.le_add_right _ _
  have hframe : parseFrame (generate v ++ rest).length (generate v ++ rest) 0 = _ :=
    parseFrame_generate v hnull hdelimited hlevels hsize
  have hdrop : Reads ((generate v ++ rest).drop (generate v).length)
      (start + (generate v).length) ok results := by
    rw [List.drop_left]
    exact hrest
  rcases head_generate hne with ⟨c, text, hshape, hc, -⟩
  rw [hshape, List.cons_append] at hframe hdrop ⊢
  exact .next hc hframe (fun h => by cases h) hdrop

/-- Messages at the front of what the loop reads are its first results, and it
    goes on behind them. -/
theorem reads_frames (values : List RespType) {rest : List Byte} {start : Nat} {ok : Bool}
    {results : List RespParserResult} (hnull : ∀ v ∈ values, v.NoNull)
    (hdelimited : ∀ v ∈ values, v.Delimited)
    (hsize : (values.flatMap generate).length < sizeBound)
    (hrest : Reads rest (start + (values.flatMap generate).length) ok results) :
    Reads (values.flatMap generate ++ rest) start ok (framesOf start values ++ results) := by
  induction values generalizing start with
  | nil => exact hrest
  | cons v values ih =>
      rw [List.flatMap_cons, List.length_append] at hsize hrest
      rcases List.forall_mem_cons.mp hnull with ⟨hv, hvalues⟩
      rcases List.forall_mem_cons.mp hdelimited with ⟨hv', hvalues'⟩
      rw [← Nat.add_assoc] at hrest
      rw [List.flatMap_cons, List.append_assoc]
      exact reads_message hv hv' (by omega) (ih hvalues hvalues' (by omega) hrest)

/-- Several messages, one behind the other, are read back as the values they are
    the messages of, each with its place in the input. -/
theorem parse_pipeline (values : List RespType) (hne : values ≠ [])
    (hnull : ∀ v ∈ values, v.NoNull) (hdelimited : ∀ v ∈ values, v.Delimited)
    (hsize : (values.flatMap generate).length < sizeBound) :
    parse (values.flatMap generate) = some (true, framesOf 0 values) := by
  have hinput : values.flatMap generate ≠ [] := by
    rcases List.exists_cons_of_ne_nil hne with ⟨v, others, rfl⟩
    have hpos := generate_pos v
    refine List.ne_nil_of_length_pos ?_
    rw [List.flatMap_cons, List.length_append]
    omega
  have hreads : Reads (values.flatMap generate ++ []) 0 true (framesOf 0 values ++ []) :=
    reads_frames values hnull hdelimited hsize .done
  rw [List.append_nil, List.append_nil] at hreads
  exact (parse_eq_some_iff hinput).mpr hreads

/-- A command and a reply behind it. -/
theorem parse_pipeline_ping :
    parse ([.array [.string ⟨bytes "PING", true⟩], .int (-7)].flatMap generate) =
      some (true, framesOf 0 [.array [.string ⟨bytes "PING", true⟩], .int (-7)]) := by
  have hdelimited : ¬ crlf <:+: bytes "PING" := find_eq_none_iff.mp (by decide)
  refine parse_pipeline _ (List.cons_ne_nil _ _) ?_ ?_ (by decide)
  · have hping : RespType.string ⟨bytes "PING", true⟩ ≠ .null := fun h => by cases h
    have hseven : RespType.int (-7) ≠ .null := fun h => by cases h
    exact List.forall_mem_cons.mpr ⟨⟨hping, trivial⟩, List.forall_mem_singleton.mpr hseven⟩
  · exact List.forall_mem_cons.mpr ⟨⟨hdelimited, trivial⟩, List.forall_mem_singleton.mpr trivial⟩

end Pipelines

section Null

variable {rest : List Byte}

mutual

/-- A message with the null value in it is not read back. -/
theorem parseElement_null (v : RespType) {levels : Nat} {rest : List Byte}
    (hnull : ¬ v.NoNull) (hdelimited : v.Delimited) (hlevels : (generate v).length ≤ levels)
    (hsize : (generate v).length < sizeBound) :
    ∃ e, parseElement (parseArray levels) (generate v ++ rest) = some (.invalid e) := by
  cases v with
  | string s => exact absurd (fun h => by cases h) hnull
  | int n => exact absurd (fun h => by cases h) hnull
  | error e => exact absurd (fun h => by cases h) hnull
  | null =>
      rw [generate]
      -- No case of the switch is for the byte it begins with.
      exact ⟨0, rfl⟩
  | array elements =>
      rw [generate_array] at hlevels hsize ⊢
      rcases levels with _ | levels
      · exact absurd hlevels (Nat.not_succ_le_zero _)
      · have hhead : 0 < (generateArrayLength elements.length).length := Nat.succ_pos _
        have hcount := length_le_generateElements elements
        rw [generateRespArray, List.length_append] at hlevels hsize
        have hinvalid : ∃ e, parseElements (parseArray levels) elements.length
            (generateElements elements ++ rest) (generateArrayLength elements.length).length []
              = some (.invalid e) :=
          parseElements_null elements hnull hdelimited (by omega) (by omega)
        rcases hinvalid with ⟨e, he⟩
        refine ⟨e, ?_⟩
        rw [parseElement_array, generateRespArray, List.append_assoc,
          parseArray_framed (by omega), he]
        rfl

/-- An array ends at the first of its elements that is not read back. -/
theorem parseElements_null (elements : List RespType) {levels startPos : Nat}
    {rest : List Byte} {parseOutput : RespArray}
    (hnull : ¬ RespType.ForallElements (· ≠ .null) elements)
    (hdelimited : RespType.ForallElements RespType.DelimitedLeaf elements)
    (hlevels : (generateElements elements).length ≤ levels)
    (hsize : (generateElements elements).length < sizeBound) :
    ∃ e, parseElements (parseArray levels) elements.length (generateElements elements ++ rest)
        startPos parseOutput = some (.invalid e) := by
  cases elements with
  | nil => exact absurd trivial hnull
  | cons v elements =>
      have hne : generate v ++ (generateElements elements ++ rest) ≠ [] :=
        List.ne_nil_of_length_pos (by
          have hpos := generate_pos v
          rw [List.length_append]
          omega)
      rw [generateElements_cons, List.length_append] at hlevels hsize
      rw [generateElements_cons, List.append_assoc, List.length_cons]
      by_cases hv : v.NoNull
      · -- The element is read back, so it is among the others.
        have hothers : ¬ RespType.ForallElements (· ≠ .null) elements := fun h => hnull ⟨hv, h⟩
        have hread : parseElement (parseArray levels)
            (generate v ++ (generateElements elements ++ rest)) = _ :=
          parseElement_generate v hv hdelimited.1 (by omega) (by omega)
        rw [parseElements_step (List.ne_nil_of_length_pos (generate_pos v)) hread]
        exact parseElements_null elements hothers hdelimited.2 (by omega) (by omega)
      · -- This is the element, and the array is invalid with it.
        have hinvalid : ∃ e, parseElement (parseArray levels)
            (generate v ++ (generateElements elements ++ rest)) = some (.invalid e) :=
          parseElement_null v hv hdelimited.1 (by omega) (by omega)
        rcases hinvalid with ⟨e, he⟩
        refine ⟨startPos + e, ?_⟩
        unfold parseElements
        rw [if_neg hne, he]

end

/-- A message is read back exactly if there is no null value in it. -/
theorem parse_generate_iff (v : RespType) (hdelimited : v.Delimited)
    (hsize : (generate v).length < sizeBound) :
    parse (generate v) = some (true, [⟨some v, .complete, 0, (generate v).length⟩]) ↔
      v.NoNull := by
  constructor
  · intro hparse
    by_contra hnull
    have hpos := generate_pos v
    by_cases hv : v = .null
    · -- At the top no switch has a case for the byte it begins with.
      subst hv
      have hfalse : parse (generate .null) = some (false, [⟨none, .invalid, 0, 1⟩]) := by
        rw [generate]
        rfl
      rw [hfalse] at hparse
      cases hparse
    · -- In an array it is an invalid element, and the array is the first result.
      rcases head_generate hv with ⟨c, text, hshape, hc, -⟩
      have hinvalid : ∃ e, parseElement (parseArray (generate v).length) (generate v ++ [])
          = some (.invalid e) :=
        parseElement_null v hnull hdelimited (Nat.le_refl _) hsize
      rcases hinvalid with ⟨e, he⟩
      have hframe : parseFrame (generate v).length (generate v) 0 = some (.invalid e) := by
        have hmessage : parseFrame (generate v).length (generate v ++ []) 0 = _ :=
          parseFrame_message hv
        rw [he, List.append_nil] at hmessage
        exact hmessage
      have hinput : generate v ≠ [] := List.ne_nil_of_length_pos hpos
      have hreads := (parse_eq_some_iff hinput).mp hparse
      rw [hshape] at hreads hframe
      rcases hreads.first hframe hc with ⟨others, hothers⟩
      cases hothers
  · intro hnull
    have hall : ([v].flatMap generate).length < sizeBound := by
      rw [List.flatMap_singleton]
      exact hsize
    have hparse := parse_pipeline [v] (List.cons_ne_nil _ _) (List.forall_mem_singleton.mpr hnull)
      (List.forall_mem_singleton.mpr hdelimited) hall
    rw [List.flatMap_singleton] at hparse
    rw [hparse, framesOf, framesOf, Nat.zero_add]

/-- A list with an integer in it. -/
theorem parse_generate_iff_list :
    parse (generate (.array [.int 5])) =
      some (true,
        [⟨some (.array [.int 5]), .complete, 0, (generate (.array [.int 5])).length⟩]) := by
  have hfive : RespType.int 5 ≠ .null := fun h => by cases h
  exact (parse_generate_iff (.array [.int 5]) ⟨trivial, trivial⟩ (by decide)).mpr ⟨hfive, trivial⟩

/-- The null value, as the encoder writes it, is not read back. -/
theorem parse_generate_null :
    ¬ ∀ v : RespType, v.Delimited → (generate v).length < sizeBound →
      parse (generate v) = some (true, [⟨some v, .complete, 0, (generate v).length⟩]) := by
  intro h
  have hnull := h .null trivial (by decide)
  have hfalse : parse (generate .null) = some (false, [⟨none, .invalid, 0, 1⟩]) := rfl
  rw [hfalse] at hnull
  cases hnull

end Null

section BulkStrings

/-- Reading the message of a value yields that value. -/
def ReadsBack (v : RespType) : Prop :=
  ∃ ok results, parse (generate v) = some (ok, results) ∧
    ∃ result ∈ results, result.state = .complete ∧ result.type = some v

/-- A command, as clients send it: an array of bulk strings. -/
def commandOf (strings : List (List Byte)) : RespType :=
  .array (strings.map fun str => .string ⟨str, true⟩)

/-- Without null values it depends on the strings alone whether a value is read
    back: what is read never has a delimiter in it. -/
theorem readsBack_iff {v : RespType} (hnull : v.NoNull)
    (hsize : (generate v).length < sizeBound) : ReadsBack v ↔ v.Delimited := by
  constructor
  · -- Whatever is read has no delimiter in it, so neither has the value.
    intro h
    rcases h with ⟨ok, results, hparse, result, hmem, -, hv⟩
    exact parse_delimited hparse hmem hv
  · intro hdelimited
    exact ⟨true, _, (parse_generate_iff v hdelimited hsize).mpr hnull, _, List.mem_cons_self,
      rfl, rfl⟩

theorem commandOf_noNull (strings : List (List Byte)) : (commandOf strings).NoNull := by
  refine RespType.forallElements_iff.mpr fun v hv => ?_
  rcases List.mem_map.mp hv with ⟨str, -, rfl⟩
  exact fun h => by cases h

theorem commandOf_delimited_iff (strings : List (List Byte)) :
    (commandOf strings).Delimited ↔ ∀ str ∈ strings, ¬ crlf <:+: str := by
  constructor
  · intro h str hstr
    exact RespType.forallElements_iff.mp h _ (List.mem_map_of_mem hstr)
  · intro h
    refine RespType.forallElements_iff.mpr fun v hv => ?_
    rcases List.mem_map.mp hv with ⟨str, hstr, rfl⟩
    exact h str hstr

/-- Bulk strings are read back, alone and in commands, exactly if there is no
    delimiter in them. -/
theorem bulkStrings_readBack_iff (str : List Byte) (strings : List (List Byte))
    (hstr : (generate (.string ⟨str, true⟩)).length < sizeBound)
    (hstrings : (generate (commandOf strings)).length < sizeBound) :
    (ReadsBack (.string ⟨str, true⟩) ↔ ¬ crlf <:+: str) ∧
      (ReadsBack (commandOf strings) ↔ ∀ str ∈ strings, ¬ crlf <:+: str) := by
  constructor
  · have hnull : (RespType.string ⟨str, true⟩).NoNull := fun h => by cases h
    rw [readsBack_iff hnull hstr]
    exact Iff.rfl
  · rw [readsBack_iff (commandOf_noNull strings) hstrings]
    exact commandOf_delimited_iff strings

/-- Half a delimiter does no harm. -/
theorem bulkStrings_readBack_iff_return :
    ReadsBack (.string ⟨bytes "a\r", true⟩) ∧
      ReadsBack (commandOf [bytes "ECHO", bytes "\na"]) := by
  have hreturn : ¬ crlf <:+: bytes "a\r" := find_eq_none_iff.mp (by decide)
  have hecho : ¬ crlf <:+: bytes "ECHO" := find_eq_none_iff.mp (by decide)
  have hnewline : ¬ crlf <:+: bytes "\na" := find_eq_none_iff.mp (by decide)
  rcases bulkStrings_readBack_iff (bytes "a\r") [bytes "ECHO", bytes "\na"] (by decide)
    (by decide) with ⟨halone, hcommand⟩
  exact ⟨halone.mpr hreturn,
    hcommand.mpr (List.forall_mem_cons.mpr ⟨hecho, List.forall_mem_singleton.mpr hnewline⟩)⟩

/-- A string that is a delimiter is not read back, although its length is sent. -/
theorem bulkStrings_not_binarySafe :
    ¬ ∀ str : List Byte, (generate (.string ⟨str, true⟩)).length < sizeBound →
      ReadsBack (.string ⟨str, true⟩) := by
  intro h
  rcases h crlf (by decide) with ⟨ok, results, hparse, result, hmem, -, hv⟩
  have hdelimited : ¬ crlf <:+: crlf := parse_delimited hparse hmem hv
  exact hdelimited List.infix_rfl

end BulkStrings

end Redis

end CodingChallenges
