import CodingChallenges.Redis.Progress

/-!
# Well-Formed Frames

Which frames the decoder reports complete, and which of them are well formed.

`Frame` is the notation of values as bytes, with two parameters: what may stand
between a number and the end of its line, and what may be the content of a bulk
string. Nothing may stand there in a well-formed frame. The decoder has
`std::from_chars` read the numbers, which stops at the first byte that is no
digit, and does not look at what is left; so it accepts anything there. All the
rest of the notation it enforces: the announced lengths and counts are right, at
every depth.

Whether something stands there is seen without the decoder. A frame is made of
lines, and the numbers are on lines of their own, which their first bytes tell
apart; only the line behind the announcement of a bulk string is content.

## Main definitions

* `Frame`, `WellFormed`, `Accepted`: The notation, as it should be and as it is
  read.
* `lines`: A message, cut at the ends of lines.
* `cleanHeaders`: The scan of the lines for numbers with something behind them.
* `PassesScan`: Texts in which the scan finds nothing.

## Theorems

* `parseArray_accepted`, `parseFrame_accepted`: What is complete is a frame.
* `Accepted.wellFormed_iff`: The scan tells the well-formed frames from the
  others.
* `parse_wellFormed_iff`: The complete results that are well formed.
-/

namespace CodingChallenges

namespace Redis

open Delimiter

section Notation

variable (trailing content : List Byte → Prop)

/-- Digits that spell the number, and what stands between the last of them and the
    end of the line. -/
def SpellsNumber (number : Nat) (field : List Byte) : Prop :=
  ∃ digits rest, field = digits ++ rest ∧ digits ≠ [] ∧ (∀ d ∈ digits, isDecimalDigit d = true) ∧
    decimalValue digits = number ∧ NoDigitHead rest ∧ trailing rest

/-- A number with or without a minus sign. -/
def SpellsInteger (field : List Byte) : Prop :=
  ∃ number, SpellsNumber trailing number field ∨
    ∃ rest, field = byte '-' :: rest ∧ SpellsNumber trailing number rest

/-- The frames of values. -/
inductive Frame : List Byte → Prop
  | simpleString {text : List Byte} (h : OneLine text) : Frame (byte '+' :: text ++ crlf)
  | error {text : List Byte} (h : OneLine text) : Frame (byte '-' :: text ++ crlf)
  | integer {field : List Byte} (hline : ¬ crlf <:+: field) (h : SpellsInteger trailing field) :
      Frame (byte ':' :: field ++ crlf)
  | null {line : List Byte} (h : line ∈ [bytes "$-1", bytes "*-1", bytes "_"]) :
      Frame (line ++ crlf)
  | bulkString {field text : List Byte} (hline : ¬ crlf <:+: field)
      (h : SpellsNumber trailing text.length field) (htext : content text) :
      Frame (byte '$' :: field ++ (crlf ++ (text ++ crlf)))
  | array {field : List Byte} {frames : List (List Byte)} (hline : ¬ crlf <:+: field)
      (h : SpellsNumber trailing frames.length field) (hframes : ∀ frame ∈ frames, Frame frame) :
      Frame (byte '*' :: field ++ (crlf ++ frames.flatten))

/-- Numbers go up to the ends of their lines, and a bulk string may have any
    content of its length. -/
def WellFormed : List Byte → Prop :=
  Frame (· = []) fun _ => True

/-- Anything may follow a number, and the content of a bulk string has no end of
    a line in it. -/
def Accepted : List Byte → Prop :=
  Frame (fun _ => True) fun text => ¬ crlf <:+: text

end Notation

section Accepts

/-- What the parser reports complete is a frame at the front of its input. -/
def Parse.Accepts {α : Type} (input : List Byte) (p : Parse α) : Prop :=
  ∀ v e, p = .complete v e → Accepted (input.take e)

theorem Parse.accepts_incomplete {α : Type} {input : List Byte} {e : Nat} :
    (Parse.incomplete e : Parse α).Accepts input := by
  intro v e' heq
  cases heq

theorem Parse.accepts_invalid {α : Type} {input : List Byte} {e : Nat} :
    (Parse.invalid e : Parse α).Accepts input := by
  intro v e' heq
  cases heq

theorem Parse.accepts_map {α β : Type} {input : List Byte} {p : Parse α} {f : α → β}
    (h : p.Accepts input) : (p.map f).Accepts input := by
  intro v e heq
  cases p with
  | complete w e' =>
      cases heq
      exact h w e rfl
  | incomplete e' => cases heq
  | invalid e' => cases heq

/-- The input up to a delimiter that was found. -/
theorem take_of_find {c : Byte} {text : List Byte} {i : Nat} (hc : c ≠ byte '\r')
    (h : find crlf (c :: text) = some i) :
    (c :: text).take (i + 2) = c :: text.take (i - 1) ++ crlf ∧
      ((c :: text).drop 1).take (i - 1) = text.take (i - 1) ∧
      ¬ crlf <:+: c :: text.take (i - 1) := by
  have hat := (find_eq_some_iff.mp h).2.1
  have hle := (find_eq_some_iff.mp h).1
  rcases i with _ | i
  · -- The delimiter does not begin with a type byte.
    rw [List.drop_zero, List.cons_prefix_cons] at hat
    exact absurd hat.1.symm hc
  · have hpos : 0 < crlf.length := Nat.two_pos
    have hfree := find_take hpos h
    rw [List.take_succ_cons] at hfree
    refine ⟨?_, rfl, hfree⟩
    rcases hat with ⟨rest, hrest⟩
    rw [List.drop_succ_cons] at hrest
    have hlen : i ≤ text.length := Nat.le_of_succ_le_succ hle
    have htake : (text.take i ++ crlf).length = i + 2 := by
      rw [List.length_append, List.length_take_of_le hlen]
      rfl
    have htext : text = (text.take i ++ crlf) ++ rest := by
      rw [List.append_assoc, hrest, List.take_append_drop]
    have hfront : text.take (i + 2) = text.take i ++ crlf := by
      conv_lhs => rw [htext]
      exact List.take_left' htake
    rw [Nat.add_sub_cancel, show i + 1 + 2 = (i + 2) + 1 from rfl, List.take_succ_cons, hfront]
    rfl

theorem parseLine_complete {c : Byte} {text content : List Byte} {parseEndPos e : Nat}
    (hc : c ≠ byte '\r') (h : parseLine c (c :: text) parseEndPos = .complete content e) :
    (c :: text).take e = c :: content ++ crlf ∧ OneLine content := by
  have hline := (parseLine_spec c text parseEndPos).2
  rw [h] at hline
  refine ⟨?_, hline content rfl⟩
  unfold parseLine at h
  rw [List.head?_cons, if_neg (not_not_intro rfl)] at h
  cases hfind : find crlf (c :: text) with
  | none =>
      rw [hfind] at h
      cases h
  | some i =>
      rcases take_of_find hc hfind with ⟨htake, hcontent, -⟩
      simp only [hfind, hcontent] at h
      split at h
      · cases h
      · cases h
        exact htake

/-- What `std::from_chars` reads of a field. -/
theorem spellsNumber_of_fromChars {bound number : Nat} {field rest : List Byte}
    (h : fromChars bound field = some (number, rest)) :
    SpellsNumber (fun _ => True) number field := by
  rcases fromChars_eq_some h with ⟨digits, hdigits, hne, hall, hvalue, -⟩
  exact ⟨digits, rest, hdigits, hne, hall, hvalue, noDigitHead_of_fromChars h, trivial⟩

theorem parseLength_complete {c : Byte} {text : List Byte} {parseEndPos number e : Nat}
    (hc : c ≠ byte '\r') (h : parseLength c (c :: text) parseEndPos = .complete number e) :
    ∃ field, (c :: text).take e = c :: field ++ crlf ∧ ¬ crlf <:+: field ∧
      SpellsNumber (fun _ => True) number field := by
  unfold parseLength at h
  rw [List.head?_cons, if_neg (not_not_intro rfl)] at h
  cases hfind : find crlf (c :: text) with
  | none =>
      rw [hfind] at h
      cases h
  | some i =>
      rcases take_of_find hc hfind with ⟨htake, hfield, hfree⟩
      simp only [hfind, hfield] at h
      split at h
      · cases h
      · split at h
        · cases h
        · next length rest hchars =>
            cases h
            refine ⟨text.take (i - 1), htake, fun hoccurs => hfree ?_,
              spellsNumber_of_fromChars hchars⟩
            exact hoccurs.trans (List.suffix_cons _ _).isInfix

theorem parseInteger_accepts (text : List Byte) (parseEndPos : Nat) :
    (parseInteger (byte ':' :: text) parseEndPos).Accepts (byte ':' :: text) := by
  intro v e h
  unfold parseInteger at h
  rw [List.head?_cons, if_neg (not_not_intro rfl)] at h
  cases hfind : find crlf (byte ':' :: text) with
  | none =>
      rw [hfind] at h
      cases h
  | some i =>
      rcases take_of_find (by decide) hfind with ⟨htake, hfield, hfree⟩
      simp only [hfind, hfield] at h
      split at h
      · cases h
      · split at h
        · cases h
        · next number rest hchars =>
            cases h
            rw [htake]
            refine .integer (fun hoccurs => hfree (hoccurs.trans (List.suffix_cons _ _).isInfix)) ?_
            unfold fromCharsSigned at hchars
            split at hchars
            · next unsigned hminus =>
                -- The number behind the minus sign.
                rcases Option.map_eq_some_iff.mp hchars with ⟨⟨n, rest'⟩, hread, -⟩
                exact ⟨n, Or.inr ⟨unsigned, hminus, spellsNumber_of_fromChars hread⟩⟩
            · rcases Option.map_eq_some_iff.mp hchars with ⟨⟨n, rest'⟩, hread, -⟩
              exact ⟨n, Or.inl (spellsNumber_of_fromChars hread)⟩

/-- The content of a bulk string is cut at the first end of a line, and has the
    length that was announced. -/
theorem parseBulkString_accepts (text : List Byte) (parseEndPos : Nat) :
    (parseBulkString (byte '$' :: text) parseEndPos).Accepts (byte '$' :: text) := by
  intro v e h
  unfold parseBulkString at h
  cases hparsed : parseLength (byte '$') (byte '$' :: text) parseEndPos with
  | incomplete e' =>
      rw [hparsed] at h
      cases h
  | invalid e' =>
      rw [hparsed] at h
      cases h
  | complete expectedContentLen contentPos =>
      have hspan := parseLength_spec (byte '$') text parseEndPos
      rw [hparsed] at h hspan
      unfold Parse.bind findFrom at h
      simp only at h
      cases hfind : find crlf ((byte '$' :: text).drop contentPos) with
      | none =>
          rw [hfind] at h
          cases h
      | some i =>
          rcases parseLength_complete (by decide) hparsed with ⟨field, hheader, hline, hnumber⟩
          have hpos : 0 < crlf.length := Nat.two_pos
          have hfree := find_take hpos hfind
          have hend := find_crlf_le hfind
          simp only [hfind, Option.map_some, Nat.add_sub_cancel_left] at h
          split at h
          · cases h
          · next hlength =>
              cases h
              -- The content ends at the delimiter and is as long as announced.
              have hlen : (((byte '$' :: text).drop contentPos).take i).length
                  = expectedContentLen := by
                rw [List.length_take_of_le (by omega)]
                exact not_not.mp hlength
              rcases (find_eq_some_iff.mp hfind).2.1 with ⟨rest, hrest⟩
              have hcontent : ((byte '$' :: text).drop contentPos).take (i + 2)
                  = ((byte '$' :: text).drop contentPos).take i ++ crlf := by
                rw [List.take_add, ← hrest]
                rfl
              rw [← hlen] at hnumber
              rw [show contentPos + i + 2 = contentPos + (i + 2) from Nat.add_assoc _ _ _,
                List.take_add, hheader, hcontent, List.append_assoc]
              exact .bulkString hline hnumber hfree

/-- A spelling that is found is at the front of the input. -/
theorem checkNullVariant_complete {input nullVariant : List Byte} {index e : Nat}
    (h : checkNullVariant input nullVariant index = .complete () e) :
    nullVariant <+: input ∧ e = index + nullVariant.length := by
  induction input, nullVariant, index using checkNullVariant.induct with
  | case1 input index =>
      rw [checkNullVariant] at h
      cases h
      exact ⟨List.nil_prefix, rfl⟩
  | case2 n nullVariant index =>
      rw [checkNullVariant] at h
      cases h
  | case3 c input n nullVariant index hne =>
      rw [checkNullVariant, if_pos hne] at h
      cases h
  | case4 c input n nullVariant index heq ih =>
      rw [checkNullVariant, if_neg heq] at h
      rcases ih h with ⟨hfront, rfl⟩
      rw [not_not.mp heq, List.length_cons]
      exact ⟨List.cons_prefix_cons.mpr ⟨rfl, hfront⟩, by omega⟩

theorem parseNull_accepts (input : List Byte) (parseEndPos : Nat) :
    (parseNull input parseEndPos).Accepts input := by
  have hvariant : ∀ (line : List Byte) (e : Nat),
      line ∈ [bytes "$-1", bytes "*-1", bytes "_"] →
      checkNullVariant input (line ++ crlf) 0 = .complete () e → Accepted (input.take e) := by
    intro line e hline h
    rcases checkNullVariant_complete h with ⟨hfront, rfl⟩
    rw [Nat.zero_add, ← List.prefix_iff_eq_take.mp hfront]
    exact .null hline
  intro v e h
  unfold parseNull at h
  split at h
  · cases h
  · split at h
    · split at h
      · exact hvariant (bytes "_") e (by decide) h
      · exact hvariant (bytes "*-1") e (by decide) h
    · exact hvariant (bytes "$-1") e (by decide) h

/-- What goes on with another parser where there is no null value. -/
theorem parseNull_or_accepts {input : List Byte} {parseEndPos : Nat}
    {other : Nat → Option (Parse RespType)} {p : Parse RespType}
    (h : (match parseNull input parseEndPos with
      | .complete _ e => some (.complete .null e)
      | .incomplete e => some (.incomplete e)
      | .invalid e => other e) = some p)
    (hother : ∀ e, parseNull input parseEndPos = .invalid e → other e = some p →
      p.Accepts input) :
    p.Accepts input := by
  cases hnull : parseNull input parseEndPos with
  | complete output e =>
      rw [hnull] at h
      cases h
      intro v e' heq
      cases heq
      exact parseNull_accepts _ _ _ _ hnull
  | incomplete e =>
      rw [hnull] at h
      cases h
      exact Parse.accepts_incomplete
  | invalid e =>
      rw [hnull] at h
      exact hother e hnull h

theorem parseLine_accepts {c : Byte} {text : List Byte} {parseEndPos : Nat}
    (hc : c = byte '+' ∨ c = byte '-') :
    (parseLine c (c :: text) parseEndPos).Accepts (c :: text) := by
  intro content e h
  rcases hc with rfl | rfl
  · rcases parseLine_complete (by decide) h with ⟨htake, hline⟩
    rw [htake]
    exact .simpleString hline
  · rcases parseLine_complete (by decide) h with ⟨htake, hline⟩
    rw [htake]
    exact .error hline

section Nested

variable {parseNested : List Byte → Nat → Option (Parse RespArray)}
  (harray : ∀ text p, parseNested (byte '*' :: text) 0 = some p → p.Accepts (byte '*' :: text))
include harray

theorem parseElement_accepts {element : List Byte} {p : Parse RespType}
    (h : parseElement parseNested element = some p) : p.Accepts element := by
  unfold parseElement at h
  split at h
  · cases h
    exact Parse.accepts_invalid
  · next c text =>
      split at h
      -- Only behind a dollar sign two parsers are tried.
      · next hc =>
          subst hc
          refine parseNull_or_accepts h fun e hnull hbulk => ?_
          cases hbulk
          exact Parse.accepts_map (parseBulkString_accepts text e)
      · split at h
        · next hc =>
            subst hc
            cases h
            exact Parse.accepts_map (parseInteger_accepts text 0)
        · split at h
          · next hc =>
              subst hc
              cases h
              exact Parse.accepts_map (Parse.accepts_map (parseLine_accepts (Or.inl rfl)))
          · split at h
            · next hc =>
                subst hc
                cases h
                exact Parse.accepts_map (parseLine_accepts (Or.inr rfl))
            · split at h
              · next hc =>
                  subst hc
                  rcases Option.map_eq_some_iff.mp h with ⟨parsed, hparsed, rfl⟩
                  exact Parse.accepts_map (harray text parsed hparsed)
              · cases h
                exact Parse.accepts_invalid

/-- The elements of an array that is complete are as many frames as were
    announced. -/
theorem parseElements_accepts (counter : Nat) :
    ∀ {rest : List Byte} {startPos e : Nat} {parseOutput v : RespArray},
      parseElements parseNested counter rest startPos parseOutput = some (.complete v e) →
      ∃ frames : List (List Byte), frames.length = counter ∧
        (∀ frame ∈ frames, Accepted frame) ∧ startPos ≤ e ∧
        rest.take (e - startPos) = frames.flatten := by
  induction counter with
  | zero =>
      intro rest startPos e parseOutput v h
      cases h
      refine ⟨[], rfl, fun frame hmem => absurd hmem List.not_mem_nil, Nat.le_refl _, ?_⟩
      rw [Nat.sub_self]
      rfl
  | succ counter ih =>
      intro rest startPos e parseOutput v h
      unfold parseElements at h
      split at h
      · cases h
      · split at h
        · cases h
        · next w endPos helement =>
            rcases ih h with ⟨frames, hlength, hframes, hle, hrest⟩
            -- One frame is taken off the front of what is left of the array.
            have hfirst := parseElement_accepts harray helement w endPos rfl
            refine ⟨rest.take endPos :: frames, congrArg (· + 1) hlength,
              List.forall_mem_cons.mpr ⟨hfirst, hframes⟩, by omega, ?_⟩
            rw [show e - startPos = endPos + (e - (startPos + endPos)) by omega, List.take_add,
              hrest, List.flatten_cons]
        · cases h
        · cases h

end Nested

theorem parseArray_accepted (levels : Nat) :
    ∀ (text : List Byte) (p : Parse RespArray),
      parseArray levels (byte '*' :: text) 0 = some p → p.Accepts (byte '*' :: text) := by
  induction levels with
  | zero => exact fun text p h => by cases h
  | succ levels ih =>
      intro text p h v e hcomplete
      subst hcomplete
      unfold parseArray at h
      cases hparsed : parseLength (byte '*') (byte '*' :: text) 0 with
      | incomplete e' =>
          rw [hparsed] at h
          cases h
      | invalid e' =>
          rw [hparsed] at h
          cases h
      | complete arrayLen startPos =>
          rw [hparsed] at h
          rcases parseLength_complete (by decide) hparsed with ⟨field, hheader, hline, hnumber⟩
          rcases parseElements_accepts ih arrayLen h with
            ⟨frames, hlength, hframes, hle, helements⟩
          rw [← hlength] at hnumber
          rw [show e = startPos + (e - startPos) by omega, List.take_add, hheader, helements,
            List.append_assoc]
          exact .array hline hnumber hframes

theorem parseFrame_accepted {levels parseEndPos : Nat} {input : List Byte} {p : Parse RespType}
    (hc : ∀ c ∈ input.head?, isTypeByte c = true)
    (h : parseFrame levels input parseEndPos = some p) : p.Accepts input := by
  rcases input with _ | ⟨c, text⟩
  · cases h
    exact Parse.accepts_invalid
  have htype := hc c rfl
  by_cases hstar : c = byte '*'
  · subst hstar
    rw [parseFrame_star] at h
    refine parseNull_or_accepts h fun e hnull harray => ?_
    rw [parseArray_endPos] at harray
    rcases Option.map_eq_some_iff.mp harray with ⟨parsed, hparsed, rfl⟩
    exact Parse.accepts_map (parseArray_accepted levels text parsed hparsed)
  · rw [parseFrame_eq_parseElement (parseArray levels) htype hstar] at h
    exact parseElement_accepts (parseArray_accepted levels) h

end Accepts

section Lines

/-- A text cut at the ends of its lines, given what the current line has so
    far. -/
def lines : List Byte → List Byte → List (List Byte)
  | line, [] => if line = [] then [] else [line]
  | line, c :: text =>
    if c = byte '\n' ∧ line.getLast? = some (byte '\r') then line.dropLast :: lines [] text
    else lines (line ++ [c]) text

/-- The line is not a number, or it is one up to its end. -/
def cleanHeader : List Byte → Bool
  | [] => true
  | c :: field =>
    if c = byte ':' then
      (if field.head? = some (byte '-') then field.tail else field).all isDecimalDigit
    else if c = byte '$' ∨ c = byte '*' then
      field == bytes "-1" || field.all isDecimalDigit
    else true

/-- The line announces a bulk string. -/
def announcesContent (line : List Byte) : Bool :=
  line.head? == some (byte '$') && line != bytes "$-1"

/-- All numbers end where their lines do; the flag says that the next line is the
    content of a bulk string. -/
def cleanHeaders : Bool → List (List Byte) → Bool
  | _, [] => true
  | true, _ :: rest => cleanHeaders false rest
  | false, line :: rest => cleanHeader line && cleanHeaders (announcesContent line) rest

/-- A line that has been read up to its end. -/
theorem lines_crlf (content : List Byte) :
    ∀ (line rest : List Byte), ¬ crlf <:+: line ++ content →
      lines line (content ++ (crlf ++ rest)) = (line ++ content) :: lines [] rest := by
  induction content with
  | nil =>
      intro line rest hfree
      have hlast : (line ++ [byte '\r']).getLast? = some (byte '\r') := List.getLast?_concat
      change lines line (byte '\r' :: byte '\n' :: rest) = _
      rw [lines, if_neg (fun h => absurd h.1 (by decide)), lines, if_pos ⟨rfl, hlast⟩,
        List.dropLast_concat, List.append_nil]
  | cons c content ih =>
      intro line rest hfree
      have hmiddle : line ++ c :: content = (line ++ [c]) ++ content := by
        rw [List.append_assoc]
        rfl
      -- The delimiter would be in the line if it ended here.
      have hgoes : ¬ (c = byte '\n' ∧ line.getLast? = some (byte '\r')) := by
        rintro ⟨rfl, hlast⟩
        rcases List.getLast?_eq_some_iff.mp hlast with ⟨front, rfl⟩
        refine hfree ⟨front, content, ?_⟩
        simp only [List.append_assoc, List.cons_append, List.nil_append]
      rw [hmiddle] at hfree ⊢
      rw [List.cons_append, lines, if_neg hgoes]
      exact ih (line ++ [c]) rest hfree

/-- A frame's first line. -/
theorem cleanHeaders_line {line rest : List Byte} (hfree : ¬ crlf <:+: line) :
    cleanHeaders false (lines [] (line ++ (crlf ++ rest))) =
      (cleanHeader line && cleanHeaders (announcesContent line) (lines [] rest)) := by
  rw [lines_crlf line [] rest hfree]
  rfl

/-- The content of a bulk string is skipped. -/
theorem cleanHeaders_content {text rest : List Byte} (hfree : ¬ crlf <:+: text) :
    cleanHeaders true (lines [] (text ++ (crlf ++ rest))) = cleanHeaders false (lines [] rest) := by
  rw [lines_crlf text [] rest hfree]
  rfl

/-- A type byte in front of a line does not end one. -/
theorem not_infix_cons {c : Byte} {field : List Byte} (hc : c ≠ byte '\r')
    (h : ¬ crlf <:+: field) : ¬ crlf <:+: c :: field := by
  rw [List.infix_cons_iff, not_or]
  exact ⟨fun hfront => hc (List.cons_prefix_cons.mp hfront).1.symm, h⟩

end Lines

section Numbers

variable {number : Nat} {field : List Byte}

/-- Only digits, and at least one. -/
theorem spellsNumber_nil_iff :
    SpellsNumber (· = []) number field ↔
      field ≠ [] ∧ (∀ d ∈ field, isDecimalDigit d = true) ∧ decimalValue field = number := by
  constructor
  · rintro ⟨digits, rest, rfl, hne, hall, hvalue, -, rfl⟩
    rw [List.append_nil]
    exact ⟨hne, hall, hvalue⟩
  · rintro ⟨hne, hall, hvalue⟩
    have hhead : NoDigitHead [] := fun c hc => absurd hc (Option.not_mem_none c)
    exact ⟨field, [], (List.append_nil field).symm, hne, hall, hvalue, hhead, rfl⟩

/-- Where all is digits, nothing is behind them. -/
theorem SpellsNumber.nil_of_digits {trailing : List Byte → Prop}
    (h : SpellsNumber trailing number field) (hall : ∀ d ∈ field, isDecimalDigit d = true) :
    SpellsNumber (· = []) number field := by
  rcases h with ⟨digits, rest, rfl, hne, hdigits, hvalue, hhead, -⟩
  have hrest : rest = [] := by
    rcases rest with _ | ⟨c, rest⟩
    · rfl
    · have hno := hhead c rfl
      rw [hall c (List.mem_append_right _ List.mem_cons_self)] at hno
      cases hno
  exact ⟨digits, rest, rfl, hne, hdigits, hvalue, hhead, hrest⟩

/-- A line that is all digits spells one number. -/
theorem SpellsNumber.unique {trailing : List Byte → Prop} {number' : Nat}
    (h : SpellsNumber trailing number field) (h' : SpellsNumber (· = []) number' field) :
    number = number' ∧ SpellsNumber (· = []) number field := by
  have hall := (spellsNumber_nil_iff.mp h').2.1
  have hstrict := h.nil_of_digits hall
  have hvalue := (spellsNumber_nil_iff.mp hstrict).2.2
  exact ⟨hvalue.symm.trans (spellsNumber_nil_iff.mp h').2.2, hstrict⟩

theorem SpellsNumber.mono {trailing trailing' : List Byte → Prop}
    (himp : ∀ w, trailing w → trailing' w) (h : SpellsNumber trailing number field) :
    SpellsNumber trailing' number field := by
  rcases h with ⟨digits, rest, heq, hne, hdigits, hvalue, hhead, htrailing⟩
  exact ⟨digits, rest, heq, hne, hdigits, hvalue, hhead, himp _ htrailing⟩

theorem SpellsInteger.mono {trailing trailing' : List Byte → Prop}
    (himp : ∀ w, trailing w → trailing' w) (h : SpellsInteger trailing field) :
    SpellsInteger trailing' field := by
  rcases h with ⟨number, h | ⟨rest, hrest, h⟩⟩
  · exact ⟨number, Or.inl (h.mono himp)⟩
  · exact ⟨number, Or.inr ⟨rest, hrest, h.mono himp⟩⟩

/-- A number begins with a digit. -/
theorem SpellsNumber.head {trailing : List Byte → Prop}
    (h : SpellsNumber trailing number field) :
    ∃ d rest, field = d :: rest ∧ isDecimalDigit d = true := by
  rcases h with ⟨digits, rest, rfl, hne, hdigits, -⟩
  rcases digits with _ | ⟨d, digits⟩
  · exact absurd rfl hne
  · exact ⟨d, digits ++ rest, rfl, hdigits d List.mem_cons_self⟩

theorem SpellsNumber.head_ne_minus {trailing : List Byte → Prop} {rest : List Byte}
    (h : SpellsNumber trailing number field) : field ≠ byte '-' :: rest := by
  rcases h.head with ⟨d, others, rfl, hd⟩
  intro heq
  rw [(List.cons.inj heq).1] at hd
  exact absurd hd (by decide)

/-- The scan of a length or a count. -/
theorem cleanHeader_number_iff {c : Byte} (hc : c = byte '$' ∨ c = byte '*')
    (h : SpellsNumber (fun _ => True) number field) :
    cleanHeader (c :: field) = true ↔ SpellsNumber (· = []) number field := by
  have hminus : field ≠ bytes "-1" := h.head_ne_minus
  have hcolon : c ≠ byte ':' := by
    rcases hc with rfl | rfl
    · decide
    · decide
  rw [cleanHeader, if_neg hcolon, if_pos hc, Bool.or_eq_true, beq_iff_eq, List.all_eq_true]
  constructor
  · rintro (heq | hall)
    · exact absurd heq hminus
    · exact h.nil_of_digits hall
  · intro hstrict
    exact Or.inr (spellsNumber_nil_iff.mp hstrict).2.1

/-- A length is not that of the null value. -/
theorem announcesContent_bulkString {trailing : List Byte → Prop}
    (h : SpellsNumber trailing number field) : announcesContent (byte '$' :: field) = true := by
  unfold announcesContent
  rw [Bool.and_eq_true, bne_iff_ne]
  exact ⟨rfl, fun heq => h.head_ne_minus (List.cons.inj heq).2⟩

/-- The scan of an integer. -/
theorem cleanHeader_integer_iff (h : SpellsInteger (fun _ => True) field) :
    cleanHeader (byte ':' :: field) = true ↔ SpellsInteger (· = []) field := by
  rw [cleanHeader, if_pos rfl, List.all_eq_true]
  rcases h with ⟨number, h | ⟨rest, rfl, h⟩⟩
  · have hhead : ¬ field.head? = some (byte '-') := by
      rcases h.head with ⟨d, others, rfl, hd⟩
      intro heq
      rw [Option.some.inj heq] at hd
      exact absurd hd (by decide)
    rw [if_neg hhead]
    constructor
    · exact fun hall => ⟨number, Or.inl (h.nil_of_digits hall)⟩
    · rintro ⟨number', h' | ⟨rest, hrest, -⟩⟩
      · exact (spellsNumber_nil_iff.mp h').2.1
      · exact absurd hrest h.head_ne_minus
  · rw [List.head?_cons, if_pos rfl, List.tail_cons]
    constructor
    · exact fun hall => ⟨number, Or.inr ⟨rest, rfl, h.nil_of_digits hall⟩⟩
    · rintro ⟨number', h' | ⟨rest', hrest, h'⟩⟩
      · exact absurd rfl h'.head_ne_minus
      · rw [(List.cons.inj hrest).2]
        exact (spellsNumber_nil_iff.mp h').2.1

end Numbers

section Scanned

/-- Well formed, and no end of a line in the bulk strings. -/
def Readable : List Byte → Prop :=
  Frame (· = []) fun text => ¬ crlf <:+: text

theorem Readable.wellFormed {w : List Byte} (h : Readable w) : WellFormed w := by
  induction h with
  | simpleString h => exact .simpleString h
  | error h => exact .error h
  | integer hline h => exact .integer hline h
  | null h => exact .null h
  | bulkString hline h _ => exact .bulkString hline h trivial
  | array hline h _ ih => exact .array hline h ih

/-- What stands behind the first line of a frame, by the first byte. -/
def Continues (trailing content : List Byte → Prop) (c : Byte) (field body : List Byte) : Prop :=
  if c = byte '+' ∨ c = byte '-' then body = []
  else if c = byte ':' then SpellsInteger trailing field ∧ body = []
  else if c = byte '$' then
    (field = bytes "-1" ∧ body = []) ∨
      ∃ text : List Byte,
        SpellsNumber trailing text.length field ∧ content text ∧ body = text ++ crlf
  else if c = byte '*' then
    (field = bytes "-1" ∧ body = []) ∨
      ∃ frames : List (List Byte), SpellsNumber trailing frames.length field ∧
        (∀ frame ∈ frames, Frame trailing content frame) ∧ body = frames.flatten
  else body = []

variable {trailing content : List Byte → Prop}

section Continues

variable {field body : List Byte}

theorem continues_line {c : Byte} (hc : c = byte '+' ∨ c = byte '-') :
    Continues trailing content c field body ↔ body = [] := by
  rw [Continues, if_pos hc]

theorem continues_integer :
    Continues trailing content (byte ':') field body ↔
      SpellsInteger trailing field ∧ body = [] := by
  rw [Continues, if_neg (by decide), if_pos rfl]

theorem continues_bulkString :
    Continues trailing content (byte '$') field body ↔
      (field = bytes "-1" ∧ body = []) ∨
        ∃ text : List Byte,
          SpellsNumber trailing text.length field ∧ content text ∧ body = text ++ crlf := by
  rw [Continues, if_neg (by decide), if_neg (by decide), if_pos rfl]

theorem continues_array :
    Continues trailing content (byte '*') field body ↔
      (field = bytes "-1" ∧ body = []) ∨
        ∃ frames : List (List Byte), SpellsNumber trailing frames.length field ∧
          (∀ frame ∈ frames, Frame trailing content frame) ∧ body = frames.flatten := by
  rw [Continues, if_neg (by decide), if_neg (by decide), if_neg (by decide), if_pos rfl]

theorem continues_underscore :
    Continues trailing content (byte '_') field body ↔ body = [] := by
  rw [Continues, if_neg (by decide), if_neg (by decide), if_neg (by decide), if_neg (by decide)]

end Continues

section NullLines

variable {line : List Byte}

theorem minus_one_oneLine : OneLine (bytes "-1") := by
  intro c hc
  have hcases : c = byte '-' ∨ c = byte '1' := by
    rcases List.mem_cons.mp hc with h | h
    · exact Or.inl h
    · exact Or.inr (List.mem_singleton.mp h)
  rcases hcases with rfl | rfl
  · exact ⟨by decide, by decide⟩
  · exact ⟨by decide, by decide⟩

/-- The three spellings of the null value, each with its type byte. -/
theorem null_cases (h : line ∈ [bytes "$-1", bytes "*-1", bytes "_"]) :
    (∃ c, (c = byte '$' ∨ c = byte '*') ∧ line = c :: bytes "-1") ∨ line = [byte '_'] := by
  simp only [List.mem_cons, List.not_mem_nil, or_false] at h
  rcases h with rfl | rfl | rfl
  · exact Or.inl ⟨byte '$', Or.inl rfl, rfl⟩
  · exact Or.inl ⟨byte '*', Or.inr rfl, rfl⟩
  · exact Or.inr rfl

/-- A null value is a line of its own, and neither a number nor the announcement of
    a content. -/
theorem null_line (h : line ∈ [bytes "$-1", bytes "*-1", bytes "_"]) :
    ¬ crlf <:+: line ∧ cleanHeader line = true ∧ announcesContent line = false := by
  rcases null_cases h with ⟨c, rfl | rfl, rfl⟩ | rfl
  · exact ⟨not_infix_cons (by decide) minus_one_oneLine.not_infix, by decide, by decide⟩
  · exact ⟨not_infix_cons (by decide) minus_one_oneLine.not_infix, by decide, by decide⟩
  · refine ⟨not_infix_cons (by decide) fun h => ?_, by decide, by decide⟩
    exact absurd (List.infix_nil.mp h) (List.cons_ne_nil _ _)

end NullLines

/-- A frame has a first line, which says what is behind it. -/
theorem Frame.first {w : List Byte} (h : Frame trailing content w) :
    ∃ c field body, w = c :: field ++ (crlf ++ body) ∧ ¬ crlf <:+: c :: field ∧
      Continues trailing content c field body := by
  cases h with
  | @simpleString text h =>
      have hline := not_infix_cons (c := byte '+') (by decide) h.not_infix
      exact ⟨byte '+', text, [], rfl, hline, (continues_line (Or.inl rfl)).mpr rfl⟩
  | @error text h =>
      have hline := not_infix_cons (c := byte '-') (by decide) h.not_infix
      exact ⟨byte '-', text, [], rfl, hline, (continues_line (Or.inr rfl)).mpr rfl⟩
  | @integer field hline h =>
      have hline := not_infix_cons (c := byte ':') (by decide) hline
      exact ⟨byte ':', field, [], rfl, hline, continues_integer.mpr ⟨h, rfl⟩⟩
  -- A null value is one of three lines.
  | @null line h =>
      have hline := (null_line h).1
      rcases null_cases h with ⟨c, rfl | rfl, rfl⟩ | rfl
      · exact ⟨byte '$', bytes "-1", [], rfl, hline,
          continues_bulkString.mpr (Or.inl ⟨rfl, rfl⟩)⟩
      · exact ⟨byte '*', bytes "-1", [], rfl, hline, continues_array.mpr (Or.inl ⟨rfl, rfl⟩)⟩
      · exact ⟨byte '_', [], [], rfl, hline, continues_underscore.mpr rfl⟩
  | @bulkString field text hline h htext =>
      have hline := not_infix_cons (c := byte '$') (by decide) hline
      exact ⟨byte '$', field, text ++ crlf, rfl, hline,
        continues_bulkString.mpr (Or.inr ⟨text, h, htext, rfl⟩)⟩
  | @array field frames hline h hframes =>
      have hline := not_infix_cons (c := byte '*') (by decide) hline
      exact ⟨byte '*', field, frames.flatten, rfl, hline,
        continues_array.mpr (Or.inr ⟨frames, h, hframes, rfl⟩)⟩

/-- Two texts that begin with frames have the same first line. -/
theorem Frame.first_eq {c : Byte} {field body w' r r' : List Byte}
    (hline : ¬ crlf <:+: c :: field) (h' : Frame trailing content w')
    (heq : (c :: field ++ (crlf ++ body)) ++ r = w' ++ r') :
    ∃ body', w' = c :: field ++ (crlf ++ body') ∧ body ++ r = body' ++ r' ∧
      Continues trailing content c field body' := by
  rcases h'.first with ⟨c', field', body', rfl, hline', hcontinues⟩
  simp only [List.append_assoc] at heq
  rcases framed_unique crlf_unbordered hline hline' heq with ⟨hfirst, hbody⟩
  cases hfirst
  exact ⟨body', rfl, hbody, hcontinues⟩

theorem SpellsNumber.ne_minus_one {number : Nat} {field : List Byte}
    (h : SpellsNumber trailing number field) : field ≠ bytes "-1" :=
  h.head_ne_minus

/-- The frame is the only one at the front of a text, and is readable if that is
    well formed. -/
def UniqueFrame (w : List Byte) : Prop :=
  ∀ {w' r r' : List Byte}, WellFormed w' → w ++ r = w' ++ r' → w = w' ∧ r = r' ∧ Readable w

/-- Elements that are as many are the same, frame by frame. -/
theorem elements_unique {frames : List (List Byte)} (h : ∀ frame ∈ frames, UniqueFrame frame) :
    ∀ {frames' : List (List Byte)} {r r' : List Byte}, (∀ frame ∈ frames', WellFormed frame) →
      frames.length = frames'.length → frames.flatten ++ r = frames'.flatten ++ r' →
      frames = frames' ∧ r = r' ∧ ∀ frame ∈ frames, Readable frame := by
  induction frames with
  | nil =>
      intro frames' r r' _ hlength hflatten
      rw [List.eq_nil_of_length_eq_zero hlength.symm] at hflatten ⊢
      exact ⟨rfl, hflatten, fun frame hmem => absurd hmem List.not_mem_nil⟩
  | cons frame frames ih =>
      intro frames' r r' hwell hlength hflatten
      rcases frames' with _ | ⟨frame', frames'⟩
      · exact absurd hlength (Nat.succ_ne_zero _)
      rw [List.flatten_cons, List.flatten_cons, List.append_assoc, List.append_assoc] at hflatten
      rcases List.forall_mem_cons.mp h with ⟨hframe, hothers⟩
      rcases List.forall_mem_cons.mp hwell with ⟨hwell', hwells⟩
      -- The first frames are the same, and so are the texts behind them.
      rcases hframe hwell' hflatten with ⟨rfl, hflatten', hreadable⟩
      rcases ih hothers hwells (Nat.succ.inj hlength) hflatten' with ⟨rfl, hr, hreadables⟩
      exact ⟨rfl, hr, List.forall_mem_cons.mpr ⟨hreadable, hreadables⟩⟩

/-- A frame that is accepted is cut off a text in one way only. -/
theorem Accepted.unique {w : List Byte} (h : Accepted w) : UniqueFrame w := by
  induction h with
  | @simpleString text h =>
      intro w' r r' h' heq
      have hline := not_infix_cons (c := byte '+') (by decide) h.not_infix
      rcases Frame.first_eq hline h' heq with ⟨body', rfl, hrest, hbody⟩
      rw [continues_line (Or.inl rfl)] at hbody
      subst hbody
      exact ⟨rfl, hrest, .simpleString h⟩
  | @error text h =>
      intro w' r r' h' heq
      have hline := not_infix_cons (c := byte '-') (by decide) h.not_infix
      rcases Frame.first_eq hline h' heq with ⟨body', rfl, hrest, hbody⟩
      rw [continues_line (Or.inr rfl)] at hbody
      subst hbody
      exact ⟨rfl, hrest, .error h⟩
  | @integer field hline h =>
      intro w' r r' h' heq
      rcases Frame.first_eq (not_infix_cons (c := byte ':') (by decide) hline) h' heq
        with ⟨body', rfl, hrest, hbody⟩
      rcases continues_integer.mp hbody with ⟨hinteger, rfl⟩
      exact ⟨rfl, hrest, .integer hline hinteger⟩
  | @null line h =>
      intro w' r r' h' heq
      have hline := (null_line h).1
      rcases null_cases h with ⟨c, rfl | rfl, rfl⟩ | rfl
      · rcases Frame.first_eq hline h' heq with ⟨body', rfl, hrest, hbody⟩
        rcases continues_bulkString.mp hbody with ⟨-, rfl⟩ | ⟨text, hnumber, -⟩
        · exact ⟨rfl, hrest, .null h⟩
        · exact absurd rfl hnumber.ne_minus_one
      · rcases Frame.first_eq hline h' heq with ⟨body', rfl, hrest, hbody⟩
        rcases continues_array.mp hbody with ⟨-, rfl⟩ | ⟨frames, hnumber, -⟩
        · exact ⟨rfl, hrest, .null h⟩
        · exact absurd rfl hnumber.ne_minus_one
      · rcases Frame.first_eq hline h' heq with ⟨body', rfl, hrest, hbody⟩
        rw [continues_underscore] at hbody
        subst hbody
        exact ⟨rfl, hrest, .null h⟩
  | @bulkString field text hline h htext =>
      intro w' r r' h' heq
      rcases Frame.first_eq (not_infix_cons (c := byte '$') (by decide) hline) h' heq
        with ⟨body', rfl, hrest, hbody⟩
      rcases continues_bulkString.mp hbody with ⟨hminus, -⟩ | ⟨text', hnumber, -, rfl⟩
      · exact absurd hminus h.ne_minus_one
      rcases h.unique hnumber with ⟨hlength, hstrict⟩
      -- The contents have the same length, so they are the same.
      rw [List.append_assoc, List.append_assoc] at hrest
      rcases List.append_inj hrest hlength with ⟨rfl, hrest⟩
      exact ⟨rfl, List.append_cancel_left (List.append_cancel_left hrest),
        .bulkString hline hstrict htext⟩
  | @array field frames hline h hframes ih =>
      intro w' r r' h' heq
      rcases Frame.first_eq (not_infix_cons (c := byte '*') (by decide) hline) h' heq
        with ⟨body', rfl, hrest, hbody⟩
      rcases continues_array.mp hbody with ⟨hminus, -⟩ | ⟨frames', hnumber, hframes', rfl⟩
      · exact absurd hminus h.ne_minus_one
      rcases h.unique hnumber with ⟨hlength, hstrict⟩
      rcases elements_unique ih hframes' hlength hrest with ⟨rfl, hr, hreadables⟩
      exact ⟨rfl, hr, .array hline hstrict hreadables⟩

/-- The scan goes over a text and finds nothing in it, whatever is behind it. -/
def PassesScan (w : List Byte) : Prop :=
  ∀ rest, cleanHeaders false (lines [] (w ++ rest)) = cleanHeaders false (lines [] rest)

theorem passesScan_flatten {frames : List (List Byte)}
    (h : ∀ frame ∈ frames, PassesScan frame) : PassesScan frames.flatten := by
  induction frames with
  | nil =>
      intro rest
      rfl
  | cons frame frames ih =>
      intro rest
      rcases List.forall_mem_cons.mp h with ⟨hframe, hothers⟩
      rw [List.flatten_cons, List.append_assoc, hframe]
      exact ih hothers rest

/-- A line that is no announcement, and in which nothing is to be found. -/
theorem passesScan_line {line : List Byte} (hfree : ¬ crlf <:+: line)
    (hclean : cleanHeader line = true) (hannounces : announcesContent line = false) :
    PassesScan (line ++ crlf) := by
  intro rest
  rw [List.append_assoc, cleanHeaders_line hfree, hclean, hannounces]
  rfl

/-- The scan finds nothing in a readable frame. -/
theorem Readable.passesScan {w : List Byte} (h : Readable w) : PassesScan w := by
  induction h with
  | @simpleString text h =>
      exact passesScan_line (not_infix_cons (by decide) h.not_infix) rfl rfl
  | @error text h =>
      exact passesScan_line (not_infix_cons (by decide) h.not_infix) rfl rfl
  | @integer field hline h =>
      have hclean := (cleanHeader_integer_iff (h.mono fun _ _ => trivial)).mpr h
      exact passesScan_line (not_infix_cons (by decide) hline) hclean rfl
  | @null line h =>
      rcases null_line h with ⟨hfree, hclean, hannounces⟩
      exact passesScan_line hfree hclean hannounces
  | @bulkString field text hline h htext =>
      intro rest
      have hclean := (cleanHeader_number_iff (Or.inl rfl) (h.mono fun _ _ => trivial)).mpr h
      rw [List.append_assoc, List.append_assoc, List.append_assoc,
        cleanHeaders_line (not_infix_cons (by decide) hline), hclean, Bool.true_and,
        announcesContent_bulkString h, cleanHeaders_content htext]
  | @array field frames hline h hframes ih =>
      intro rest
      have hclean := (cleanHeader_number_iff (Or.inr rfl) (h.mono fun _ _ => trivial)).mpr h
      rw [List.append_assoc, List.append_assoc,
        cleanHeaders_line (not_infix_cons (by decide) hline), hclean, Bool.true_and]
      exact passesScan_flatten ih rest

/-- Where the scan finds nothing in a text, it begins with this frame as a readable
    one, and the scan finds nothing in the rest. -/
def ReadableIfClean (w : List Byte) : Prop :=
  ∀ rest, cleanHeaders false (lines [] (w ++ rest)) = true →
    Readable w ∧ cleanHeaders false (lines [] rest) = true

theorem Readable.readableIfClean {w : List Byte} (h : Readable w) : ReadableIfClean w := by
  intro rest hclean
  rw [h.passesScan] at hclean
  exact ⟨h, hclean⟩

theorem elements_readable {frames : List (List Byte)}
    (h : ∀ frame ∈ frames, ReadableIfClean frame) {rest : List Byte}
    (hclean : cleanHeaders false (lines [] (frames.flatten ++ rest)) = true) :
    (∀ frame ∈ frames, Readable frame) ∧ cleanHeaders false (lines [] rest) = true := by
  induction frames with
  | nil => exact ⟨fun frame hmem => absurd hmem List.not_mem_nil, hclean⟩
  | cons frame frames ih =>
      rcases List.forall_mem_cons.mp h with ⟨hframe, hothers⟩
      rw [List.flatten_cons, List.append_assoc] at hclean
      rcases hframe _ hclean with ⟨hreadable, hclean'⟩
      rcases ih hothers hclean' with ⟨hreadables, hrest⟩
      exact ⟨List.forall_mem_cons.mpr ⟨hreadable, hreadables⟩, hrest⟩

/-- A frame in which the scan finds nothing is readable. -/
theorem Accepted.readableIfClean {w : List Byte} (h : Accepted w) : ReadableIfClean w := by
  induction h with
  | @simpleString text h =>
      have hreadable : Readable (byte '+' :: text ++ crlf) := .simpleString h
      exact hreadable.readableIfClean
  | @error text h =>
      have hreadable : Readable (byte '-' :: text ++ crlf) := .error h
      exact hreadable.readableIfClean
  | @integer field hline h =>
      intro rest hclean
      rw [List.append_assoc, cleanHeaders_line (not_infix_cons (by decide) hline),
        Bool.and_eq_true] at hclean
      exact ⟨.integer hline ((cleanHeader_integer_iff h).mp hclean.1), hclean.2⟩
  | @null line h =>
      have hreadable : Readable (line ++ crlf) := .null h
      exact hreadable.readableIfClean
  | @bulkString field text hline h htext =>
      intro rest hclean
      rw [List.append_assoc, List.append_assoc, List.append_assoc,
        cleanHeaders_line (not_infix_cons (by decide) hline), Bool.and_eq_true,
        announcesContent_bulkString h, cleanHeaders_content htext] at hclean
      exact ⟨.bulkString hline ((cleanHeader_number_iff (Or.inl rfl) h).mp hclean.1) htext,
        hclean.2⟩
  | @array field frames hline h hframes ih =>
      intro rest hclean
      rw [List.append_assoc, List.append_assoc,
        cleanHeaders_line (not_infix_cons (by decide) hline), Bool.and_eq_true] at hclean
      -- The scan has gone through the elements, one behind the other.
      rcases elements_readable ih hclean.2 with ⟨hreadables, hrest⟩
      exact ⟨.array hline ((cleanHeader_number_iff (Or.inr rfl) h).mp hclean.1) hreadables, hrest⟩

/-- The scan tells the well-formed frames from the others. -/
theorem Accepted.wellFormed_iff {w : List Byte} (h : Accepted w) :
    WellFormed w ↔ cleanHeaders false (lines [] w) = true := by
  constructor
  · intro hwell
    have hreadable := (h.unique hwell (rfl : w ++ [] = w ++ [])).2.2
    have hscan := hreadable.passesScan []
    rw [List.append_nil] at hscan
    exact hscan
  · intro hscan
    rw [← List.append_nil w] at hscan
    exact (h.readableIfClean [] hscan).1.wellFormed

end Scanned

section Results

/-- The bytes of a message from a position up to another. -/
def frameBytes (input : List Byte) (start last : Nat) : List Byte :=
  (input.drop start).take (last - start)

/-- What the loop reports complete is a frame that is accepted. -/
theorem Reads.accepted {input : List Byte} {start : Nat} {ok : Bool}
    {results : List RespParserResult} (h : Reads input start ok results) :
    ∀ original : List Byte, original.drop start = input → ∀ result ∈ results,
      result.state = .complete →
      Accepted (frameBytes original result.parseStartPos result.parseEndPos) := by
  induction h with
  | done => exact fun original _ result hmem => absurd hmem List.not_mem_nil
  | other hc =>
      exact fun original _ => List.forall_mem_singleton.mpr fun hstate => by cases hstate
  | pause hc hframe hstate =>
      intro original _
      refine List.forall_mem_singleton.mpr fun hcomplete => ?_
      exact absurd (hcomplete.symm.trans hstate) (by decide)
  | @next c text start parsed ok results hc hframe hstate hrest ih =>
      intro original hview
      -- The next value begins where this one ends.
      have hview' : original.drop (start + parsed.parseEndPos)
          = (c :: text).drop parsed.parseEndPos := by
        rw [← hview, List.drop_drop]
      refine List.forall_mem_cons.mpr ⟨fun hcomplete => ?_, ih original hview'⟩
      have hstart : frameBytes original start (start + parsed.parseEndPos)
          = (c :: text).take parsed.parseEndPos := by
        unfold frameBytes
        rw [hview, Nat.add_sub_cancel_left]
      change Accepted (frameBytes original start (start + parsed.parseEndPos))
      rw [hstart]
      have haccepts := parseFrame_accepted (fun b hb => by cases hb; exact hc) hframe
      cases parsed with
      | complete v e => exact haccepts v e rfl
      | incomplete e => cases hcomplete
      | invalid e => cases hcomplete

/-- What is reported complete is a frame that is accepted. -/
theorem parse_accepted {input : List Byte} {ok : Bool} {results : List RespParserResult}
    (h : parse input = some (ok, results)) {result : RespParserResult} (hmem : result ∈ results)
    (hcomplete : result.state = .complete) :
    Accepted (frameBytes input result.parseStartPos result.parseEndPos) := by
  by_cases hne : input = []
  · subst hne
    cases h
    exact absurd hmem List.not_mem_nil
  · exact ((parse_eq_some_iff hne).mp h).accepted input rfl result hmem hcomplete

/-- What is reported complete is a well-formed frame unless the scan of its lines
    finds a length, a count, or an integer with something behind its digits. -/
theorem parse_wellFormed_iff {input : List Byte} {ok : Bool} {results : List RespParserResult}
    (h : parse input = some (ok, results)) {result : RespParserResult} (hmem : result ∈ results)
    (hcomplete : result.state = .complete) :
    WellFormed (frameBytes input result.parseStartPos result.parseEndPos) ↔
      cleanHeaders false
        (lines [] (frameBytes input result.parseStartPos result.parseEndPos)) = true :=
  (parse_accepted h hmem hcomplete).wellFormed_iff

/-- An array of one integer. -/
theorem parse_wellFormed_iff_array :
    ∃ result, parse (bytes "*1\r\n:5\r\n") = some (true, [result]) ∧
      result.state = .complete ∧
      (WellFormed (frameBytes (bytes "*1\r\n:5\r\n") result.parseStartPos result.parseEndPos) ↔
        cleanHeaders false (lines [] (frameBytes (bytes "*1\r\n:5\r\n") result.parseStartPos
          result.parseEndPos)) = true) := by
  have h : ∃ result, parse (bytes "*1\r\n:5\r\n") = some (true, [result]) ∧
      result.state = .complete := ⟨⟨some (.array [.int 5]), .complete, 0, 8⟩, rfl, rfl⟩
  rcases h with ⟨result, hparse, hcomplete⟩
  exact ⟨result, hparse, hcomplete, parse_wellFormed_iff hparse List.mem_cons_self hcomplete⟩

/-- `:12.34` is reported complete. -/
theorem parse_not_wellFormed :
    ¬ ∀ (input : List Byte) (ok : Bool) (results : List RespParserResult),
      parse input = some (ok, results) → ∀ result ∈ results, result.state = .complete →
        WellFormed (frameBytes input result.parseStartPos result.parseEndPos) := by
  intro hall
  have hparse : parse (bytes ":12.34\r\n")
      = some (true, [⟨some (.int 12), .complete, 0, 8⟩]) := rfl
  have haccepted := parse_accepted hparse List.mem_cons_self rfl
  have hscan := haccepted.wellFormed_iff.mp (hall _ _ _ hparse _ List.mem_cons_self rfl)
  exact absurd hscan (by decide)

end Results

end Redis

end CodingChallenges
