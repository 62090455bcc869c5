import CodingChallenges.Redis.RespParser

/-!
# How Far a Parser Gets

Where the parsers of `RespParser.cpp` end, on any input.

Every parser ends inside its input, and one that is called at its type byte
moves forward. So an array in an array is parsed on a shorter input, the length
of the input bounds the levels of nesting, and the loop at the top comes to its
end.

What is found complete also has the shape the encoder relies on: a line has no
`\r` or `\n` in it, and a bulk string no `\r\n`, since it was cut at the first
one.

## Main definitions

* `Parse.Spans`: A parser that moved forward and ended inside its input.
* `Parse.Holds`: What holds of a value if it is complete.
* `Reads`: What the loop at the top finds in a message.

## Theorems

* `parseArray_spec`, `parseFrame_spec`: Every parser ends, and where.
* `Reads.loop`, `exists_reads`: The loop ends, with what it finds.
* `parse_total`: Parsing ends.
* `parse_delimited`: What is complete has no delimiter in its strings.
-/

namespace CodingChallenges

namespace Redis

open Delimiter

/-- The parser moved forward and ended inside the input. -/
def Parse.Spans {α : Type} (size : Nat) (p : Parse α) : Prop :=
  0 < p.parseEndPos ∧ p.parseEndPos ≤ size

/-- The predicate holds of the value, if it is complete. -/
def Parse.Holds {α : Type} (P : α → Prop) (p : Parse α) : Prop :=
  ∀ v ∈ p.output?, P v

section Parse

variable {α β : Type} {p : Parse α}

@[simp] theorem Parse.map_parseEndPos (f : α → β) : (p.map f).parseEndPos = p.parseEndPos := by
  cases p <;> rfl

theorem Parse.map_spans {size : Nat} {f : α → β} (h : p.Spans size) : (p.map f).Spans size := by
  unfold Parse.Spans
  rw [Parse.map_parseEndPos]
  exact h

theorem Parse.map_holds {P : α → Prop} {Q : β → Prop} {f : α → β} (h : p.Holds P)
    (himp : ∀ v, P v → Q (f v)) : (p.map f).Holds Q := by
  cases p with
  | complete v e =>
      intro w hw
      cases hw
      exact himp v (h v rfl)
  | incomplete e => exact fun w hw => by cases hw
  | invalid e => exact fun w hw => by cases hw

theorem Parse.holds_complete {P : α → Prop} {v : α} {e : Nat} (h : P v) :
    (Parse.complete v e).Holds P := by
  intro w hw
  cases hw
  exact h

theorem Parse.holds_incomplete {P : α → Prop} {e : Nat} : (Parse.incomplete e).Holds P :=
  fun w hw => by cases hw

theorem Parse.holds_invalid {P : α → Prop} {e : Nat} : (Parse.invalid e).Holds P :=
  fun w hw => by cases hw

end Parse

section Leaves

theorem find_crlf_le {i : Nat} {input : List Byte} (h : find crlf input = some i) :
    i + 2 ≤ input.length :=
  find_le h

theorem parseLine_spec (c : Byte) (text : List Byte) (parseEndPos : Nat) :
    (parseLine c (c :: text) parseEndPos).Spans (c :: text).length ∧
      (parseLine c (c :: text) parseEndPos).Holds OneLine := by
  unfold parseLine
  rw [List.head?_cons, if_neg (not_not_intro rfl)]
  cases hfind : find crlf (c :: text) with
  | none => exact ⟨⟨Nat.one_pos, Nat.succ_le_succ (Nat.zero_le _)⟩, Parse.holds_incomplete⟩
  | some i =>
      have hend := find_crlf_le hfind
      simp only
      split
      · exact ⟨⟨Nat.succ_pos _, hend⟩, Parse.holds_invalid⟩
      · next hclean =>
          refine ⟨⟨Nat.succ_pos _, hend⟩, Parse.holds_complete fun b hb => ?_⟩
          rw [Bool.not_eq_true, List.any_eq_false] at hclean
          have hb' := hclean b hb
          rw [Bool.or_eq_true, beq_iff_eq, beq_iff_eq, not_or] at hb'
          exact hb'

theorem parseLength_spec (c : Byte) (text : List Byte) (parseEndPos : Nat) :
    (parseLength c (c :: text) parseEndPos).Spans (c :: text).length := by
  unfold parseLength
  rw [List.head?_cons, if_neg (not_not_intro rfl)]
  cases hfind : find crlf (c :: text) with
  | none => exact ⟨Nat.one_pos, Nat.succ_le_succ (Nat.zero_le _)⟩
  | some i =>
      have hend := find_crlf_le hfind
      simp only
      split
      · exact ⟨Nat.succ_pos _, hend⟩
      · split <;> exact ⟨Nat.succ_pos _, hend⟩

theorem parseInteger_spec (text : List Byte) (parseEndPos : Nat) :
    (parseInteger (byte ':' :: text) parseEndPos).Spans (byte ':' :: text).length := by
  unfold parseInteger
  rw [List.head?_cons, if_neg (not_not_intro rfl)]
  cases hfind : find crlf (byte ':' :: text) with
  | none => exact ⟨Nat.one_pos, Nat.succ_le_succ (Nat.zero_le _)⟩
  | some i =>
      have hend := find_crlf_le hfind
      simp only
      split
      · exact ⟨Nat.succ_pos _, hend⟩
      · split <;> exact ⟨Nat.succ_pos _, hend⟩

/-- The content of a bulk string ends at the first delimiter behind its length. -/
theorem parseBulkString_spec (text : List Byte) (parseEndPos : Nat) :
    (parseBulkString (byte '$' :: text) parseEndPos).Spans (byte '$' :: text).length ∧
      (parseBulkString (byte '$' :: text) parseEndPos).Holds
        fun s => (RespType.string s).Delimited := by
  have hlength : (parseLength (byte '$') (byte '$' :: text) parseEndPos).Spans _ :=
    parseLength_spec (byte '$') text parseEndPos
  unfold parseBulkString
  cases hparsed : parseLength (byte '$') (byte '$' :: text) parseEndPos with
  | incomplete e =>
      rw [hparsed] at hlength
      exact ⟨hlength, Parse.holds_incomplete⟩
  | invalid e =>
      rw [hparsed] at hlength
      exact ⟨hlength, Parse.holds_invalid⟩
  | complete expectedContentLen contentPos =>
      rw [hparsed] at hlength
      unfold Parse.bind findFrom
      simp only
      cases hfind : find crlf ((byte '$' :: text).drop contentPos) with
      | none => exact ⟨hlength, Parse.holds_incomplete⟩
      | some i =>
          have hend := find_crlf_le hfind
          have hpos : 0 < contentPos := hlength.1
          rw [List.length_drop] at hend
          have hspan : 0 < contentPos + i + 2 ∧ contentPos + i + 2 ≤ (byte '$' :: text).length :=
            ⟨by omega, by omega⟩
          -- The content is what stands in front of the first delimiter, so none is in it.
          simp only [Option.map_some, Nat.add_sub_cancel_left]
          split
          · exact ⟨hspan, Parse.holds_invalid⟩
          · exact ⟨hspan, Parse.holds_complete (find_take Nat.two_pos hfind)⟩

/-- A spelling is compared byte by byte, at most to the end of the input. -/
theorem checkNullVariant_spec (input nullVariant : List Byte) (index : Nat) :
    let p := checkNullVariant input nullVariant index
    p.parseEndPos ≤ index + input.length ∧
      (p.state = .complete → p.parseEndPos = index + nullVariant.length) ∧
      (p.state = .incomplete → p.parseEndPos = index + input.length) := by
  induction input, nullVariant, index using checkNullVariant.induct with
  | case1 input index =>
      rw [checkNullVariant]
      exact ⟨Nat.le_add_right _ _, fun _ => rfl, fun h => (by cases h)⟩
  | case2 n nullVariant index =>
      rw [checkNullVariant]
      exact ⟨Nat.le_refl _, fun h => (by cases h), fun _ => rfl⟩
  | case3 c input n nullVariant index hne =>
      rw [checkNullVariant, if_pos hne]
      exact ⟨Nat.le_add_right _ _, fun h => (by cases h), fun h => (by cases h)⟩
  -- The bytes agree, and the comparison goes on behind them.
  | case4 c input n nullVariant index heq ih =>
      rw [checkNullVariant, if_neg heq, List.length_cons, List.length_cons]
      refine ⟨Nat.le_trans ih.1 (by omega), fun h => ?_, fun h => ?_⟩
      · rw [ih.2.1 h]
        omega
      · rw [ih.2.2 h]
        omega

/-- The null value is found, or more is waited for, somewhere behind the
    beginning. -/
theorem parseNull_spec {input : List Byte} (hne : input ≠ []) (parseEndPos : Nat) :
    (parseNull input parseEndPos).parseEndPos ≤ input.length ∧
      ((parseNull input parseEndPos).state ≠ .invalid →
        0 < (parseNull input parseEndPos).parseEndPos) := by
  have hvariant : ∀ nullVariant : List Byte, nullVariant ≠ [] →
      (checkNullVariant input nullVariant 0).parseEndPos ≤ input.length ∧
        ((checkNullVariant input nullVariant 0).state ≠ .invalid →
          0 < (checkNullVariant input nullVariant 0).parseEndPos) := by
    intro nullVariant hvariant
    have hspec := checkNullVariant_spec input nullVariant 0
    simp only [Nat.zero_add] at hspec
    refine ⟨hspec.1, fun hstate => ?_⟩
    cases h : (checkNullVariant input nullVariant 0).state with
    | complete =>
        rw [hspec.2.1 h]
        exact List.length_pos_iff.mpr hvariant
    | incomplete =>
        rw [hspec.2.2 h]
        exact List.length_pos_iff.mpr hne
    | invalid => exact absurd h hstate
  -- All three spellings are compared with the whole input, so one fact is enough for each.
  unfold parseNull
  rw [if_neg hne]
  split
  · split
    · exact hvariant _ (List.cons_ne_nil _ _)
    · exact hvariant _ (List.cons_ne_nil _ _)
  · exact hvariant _ (List.cons_ne_nil _ _)

end Leaves

section Arrays

variable {levels size parseEndPos : Nat} {parseNested : List Byte → Nat → Option (Parse RespArray)}

theorem isTypeByte_iff {c : Byte} :
    isTypeByte c = true ↔
      c = byte '$' ∨ c = byte '*' ∨ c = byte ':' ∨ c = byte '+' ∨ c = byte '-' := by
  simp only [isTypeByte, Bool.or_eq_true, beq_iff_eq, or_assoc]

/-- The parser of arrays, on inputs of at most this size. -/
def ArraySpec (size : Nat) (parseNested : List Byte → Nat → Option (Parse RespArray)) : Prop :=
  ∀ text, (byte '*' :: text).length ≤ size →
    ∃ p, parseNested (byte '*' :: text) 0 = some p ∧ p.Spans (byte '*' :: text).length ∧
      p.Holds (RespType.ForallElements RespType.DelimitedLeaf)

/-- What begins like a null value or a bulk string. -/
theorem parseNullOrBulkString_spec (text : List Byte) :
    ∃ p, (match parseNull (byte '$' :: text) parseEndPos with
        | .complete _ e => some (.complete .null e)
        | .incomplete e => some (.incomplete e)
        | .invalid e => some ((parseBulkString (byte '$' :: text) e).map .string)) = some p ∧
      p.Spans (byte '$' :: text).length ∧ p.Holds RespType.Delimited := by
  have hnull := parseNull_spec (List.cons_ne_nil (byte '$') text) parseEndPos
  cases hparsed : parseNull (byte '$' :: text) parseEndPos with
  | complete output e =>
      rw [hparsed] at hnull
      exact ⟨_, rfl, ⟨hnull.2 (fun h => by cases h), hnull.1⟩, Parse.holds_complete trivial⟩
  | incomplete e =>
      rw [hparsed] at hnull
      exact ⟨_, rfl, ⟨hnull.2 (fun h => by cases h), hnull.1⟩, Parse.holds_incomplete⟩
  | invalid e =>
      have hbulk := parseBulkString_spec text e
      exact ⟨_, rfl, Parse.map_spans hbulk.1, Parse.map_holds hbulk.2 fun _ h => h⟩

/-- An element that begins with a type byte is read forward, inside the array. -/
theorem parseElement_spec (harray : ArraySpec size parseNested) {c : Byte} {text : List Byte}
    (hc : isTypeByte c = true) (hsize : (c :: text).length ≤ size) :
    ∃ p, parseElement parseNested (c :: text) = some p ∧ p.Spans (c :: text).length ∧
      p.Holds RespType.Delimited := by
  rcases isTypeByte_iff.mp hc with rfl | rfl | rfl | rfl | rfl
  · exact parseNullOrBulkString_spec text
  · rcases harray text hsize with ⟨p, hp, hspan, hholds⟩
    refine ⟨p.map .array, ?_, Parse.map_spans hspan, Parse.map_holds hholds fun _ h => h⟩
    change (parseNested (byte '*' :: text) 0).map _ = _
    rw [hp]
    rfl
  · have hspan := parseInteger_spec text 0
    have hany : (parseInteger (byte ':' :: text) 0).Holds fun _ => True := fun _ _ => trivial
    exact ⟨_, rfl, Parse.map_spans hspan, Parse.map_holds hany fun _ h => h⟩
  · have hline := parseLine_spec (byte '+') text 0
    exact ⟨_, rfl, Parse.map_spans (Parse.map_spans hline.1),
      Parse.map_holds (Parse.map_holds hline.2 fun _ h => h) fun _ h => h⟩
  · have hline := parseLine_spec (byte '-') text 0
    exact ⟨_, rfl, Parse.map_spans hline.1, Parse.map_holds hline.2 fun _ h => h⟩

/-- Nothing else is an element. -/
theorem parseElement_other {c : Byte} {text : List Byte} (hc : isTypeByte c ≠ true) :
    parseElement parseNested (c :: text) = some (.invalid 0) := by
  -- The cases of the switch, in the order in which they are tried.
  rw [ne_eq, isTypeByte_iff, not_or, not_or, not_or, not_or] at hc
  unfold parseElement
  simp only
  rw [if_neg hc.1, if_neg hc.2.2.1, if_neg hc.2.2.2.1, if_neg hc.2.2.2.2, if_neg hc.2.1]

theorem forallElements_append {P : RespType → Prop} {elements : List RespType} {v : RespType}
    (h : RespType.ForallElements P elements) (hv : v.ForallLeaves P) :
    RespType.ForallElements P (elements ++ [v]) := by
  rw [RespType.forallElements_iff] at h ⊢
  intro w hw
  rcases List.mem_append.mp hw with hw | hw
  · exact h w hw
  · rw [List.mem_singleton.mp hw]
    exact hv

/-- The elements end behind the announcement of the array and inside of it. -/
theorem parseElements_spec (harray : ArraySpec size parseNested) (counter : Nat) :
    ∀ (rest : List Byte) (startPos : Nat) (parseOutput : RespArray), rest.length ≤ size →
      RespType.ForallElements RespType.DelimitedLeaf parseOutput →
      ∃ p, parseElements parseNested counter rest startPos parseOutput = some p ∧
        startPos ≤ p.parseEndPos ∧ p.parseEndPos ≤ startPos + rest.length ∧
        p.Holds (RespType.ForallElements RespType.DelimitedLeaf) := by
  induction counter with
  | zero =>
      intro rest startPos parseOutput _ houtput
      exact ⟨_, rfl, Nat.le_refl _, Nat.le_add_right _ _, Parse.holds_complete houtput⟩
  | succ counter ih =>
      intro rest startPos parseOutput hsize houtput
      rcases rest with _ | ⟨c, text⟩
      · -- Elements are missing: more is waited for.
        exact ⟨_, rfl, Nat.le_refl _, Nat.le_refl _, Parse.holds_incomplete⟩
      unfold parseElements
      rw [if_neg (List.cons_ne_nil c text)]
      by_cases hc : isTypeByte c = true
      · rcases parseElement_spec harray hc hsize with ⟨p, hp, hspan, hholds⟩
        rw [hp]
        have hend : p.parseEndPos ≤ (c :: text).length := hspan.2
        cases p with
        | complete v endPos =>
            -- The others are on a shorter rest.
            have hrest : ((c :: text).drop endPos).length = (c :: text).length - endPos :=
              List.length_drop
            have hv : v.Delimited := hholds v rfl
            have hend' : endPos ≤ (c :: text).length := hend
            rcases ih ((c :: text).drop endPos) (startPos + endPos) (parseOutput ++ [v])
              (by omega) (forallElements_append houtput hv) with ⟨q, hq, hlow, hhigh, hall⟩
            exact ⟨q, hq, by omega, by omega, hall⟩
        | incomplete endPos =>
            exact ⟨_, rfl, Nat.le_add_right _ _, Nat.add_le_add_left hend _,
              Parse.holds_incomplete⟩
        | invalid endPos =>
            exact ⟨_, rfl, Nat.le_add_right _ _, Nat.add_le_add_left hend _,
              Parse.holds_invalid⟩
      · rw [parseElement_other hc]
        exact ⟨_, rfl, Nat.le_refl _, Nat.le_add_right _ _, Parse.holds_invalid⟩

/-- An array whose levels are as many as its bytes is read forward. -/
theorem parseArray_spec (levels : Nat) : ArraySpec levels (parseArray levels) := by
  induction levels with
  | zero => exact fun text hsize => absurd hsize (Nat.not_succ_le_zero _)
  | succ levels ih =>
      intro text hsize
      have hlength := parseLength_spec (byte '*') text 0
      unfold parseArray
      cases hparsed : parseLength (byte '*') (byte '*' :: text) 0 with
      | incomplete e =>
          rw [hparsed] at hlength
          exact ⟨_, rfl, hlength, Parse.holds_incomplete⟩
      | invalid e =>
          rw [hparsed] at hlength
          exact ⟨_, rfl, hlength, Parse.holds_invalid⟩
      | complete arrayLen startPos =>
          rw [hparsed] at hlength
          have hpos : 0 < startPos := hlength.1
          have hend : startPos ≤ (byte '*' :: text).length := hlength.2
          have hrest : ((byte '*' :: text).drop startPos).length
              = (byte '*' :: text).length - startPos := List.length_drop
          -- The elements are shorter than the array, so one level less is enough for those
          -- that are arrays themselves.
          rcases parseElements_spec ih arrayLen ((byte '*' :: text).drop startPos) startPos []
            (by omega) trivial with ⟨p, hp, hlow, hhigh, hall⟩
          exact ⟨p, hp, ⟨by omega, by omega⟩, hall⟩

end Arrays

section Frames

variable {levels parseEndPos : Nat}

/-- A parser that finds its type byte does not keep the position it was given. -/
theorem parseLine_endPos {c : Byte} {text : List Byte} :
    parseLine c (c :: text) parseEndPos = parseLine c (c :: text) 0 := by
  unfold parseLine
  rw [List.head?_cons, if_neg (not_not_intro rfl), if_neg (not_not_intro rfl)]

theorem parseLength_endPos {c : Byte} {text : List Byte} :
    parseLength c (c :: text) parseEndPos = parseLength c (c :: text) 0 := by
  unfold parseLength
  rw [List.head?_cons, if_neg (not_not_intro rfl), if_neg (not_not_intro rfl)]

theorem parseInteger_endPos {text : List Byte} :
    parseInteger (byte ':' :: text) parseEndPos = parseInteger (byte ':' :: text) 0 := by
  unfold parseInteger
  rw [List.head?_cons, if_neg (not_not_intro rfl), if_neg (not_not_intro rfl)]

theorem parseArray_endPos {text : List Byte} :
    parseArray levels (byte '*' :: text) parseEndPos =
      parseArray levels (byte '*' :: text) 0 := by
  cases levels with
  | zero => rfl
  | succ levels =>
      unfold parseArray
      rw [parseLength_endPos]

/-- The switch at the top is the one in arrays, but for arrays. -/
theorem parseFrame_eq_parseElement (parseArray : List Byte → Nat → Option (Parse RespArray))
    {c : Byte} {text : List Byte} (hc : isTypeByte c = true) (hne : c ≠ byte '*') :
    parseFrame levels (c :: text) parseEndPos = parseElement parseArray (c :: text) := by
  rcases isTypeByte_iff.mp hc with rfl | rfl | rfl | rfl | rfl
  · -- Null values and bulk strings get position 0 in both.
    rfl
  · exact absurd rfl hne
  · change some ((parseInteger _ parseEndPos).map _) = some ((parseInteger _ 0).map _)
    rw [parseInteger_endPos]
  · change some (((parseLine _ _ parseEndPos).map _).map _) = some (((parseLine _ _ 0).map _).map _)
    rw [parseLine_endPos]
  · change some ((parseLine _ _ parseEndPos).map _) = some ((parseLine _ _ 0).map _)
    rw [parseLine_endPos]

/-- A null value or an array at the top. -/
theorem parseFrame_star (text : List Byte) :
    parseFrame levels (byte '*' :: text) parseEndPos =
      match parseNull (byte '*' :: text) parseEndPos with
      | .complete _ e => some (.complete .null e)
      | .incomplete e => some (.incomplete e)
      | .invalid e =>
        (parseArray levels (byte '*' :: text) e).map fun parsed => parsed.map .array :=
  rfl

/-- An array at the top, if it is not the null value. -/
theorem parseFrame_array {text : List Byte} {e : Nat}
    (h : parseNull (byte '*' :: text) parseEndPos = .invalid e) :
    parseFrame levels (byte '*' :: text) parseEndPos =
      (parseArray levels (byte '*' :: text) 0).map fun parsed => parsed.map .array := by
  rw [parseFrame_star, h]
  simp only
  rw [parseArray_endPos]

/-- The position that is left from before does not matter. -/
theorem parseFrame_endPos {c : Byte} {text : List Byte} (hc : isTypeByte c = true) :
    parseFrame levels (c :: text) parseEndPos = parseFrame levels (c :: text) 0 := by
  by_cases harray : c = byte '*'
  · subst harray
    have hnull : parseNull (byte '*' :: text) parseEndPos = parseNull (byte '*' :: text) 0 := rfl
    cases h : parseNull (byte '*' :: text) 0 with
    | invalid e => rw [parseFrame_array (hnull.trans h), parseFrame_array h]
    | complete output e => exact rfl
    | incomplete e => exact rfl
  · rw [parseFrame_eq_parseElement (fun _ _ => none) hc harray,
      parseFrame_eq_parseElement (fun _ _ => none) hc harray]

theorem parseLoop_endPos {fuel start parseEndPos : Nat} {input : List Byte} :
    parseLoop fuel input start parseEndPos = parseLoop fuel input start 0 := by
  rcases fuel with _ | fuel
  · rfl
  · rcases input with _ | ⟨c, text⟩
    · rfl
    · unfold parseLoop
      simp only
      by_cases hc : isTypeByte c = true
      · rw [if_pos hc, if_pos hc, parseFrame_endPos hc]
      · rw [if_neg hc, if_neg hc]

/-- A value at the top is read forward, inside the message. -/
theorem parseFrame_spec {c : Byte} {text : List Byte} (hc : isTypeByte c = true)
    (hlevels : (c :: text).length ≤ levels) :
    ∃ p, parseFrame levels (c :: text) parseEndPos = some p ∧ p.Spans (c :: text).length ∧
      p.Holds RespType.Delimited := by
  by_cases hstar : c = byte '*'
  · subst hstar
    have hspec := parseNull_spec (List.cons_ne_nil (byte '*') text) parseEndPos
    cases hnull : parseNull (byte '*' :: text) parseEndPos with
    | complete output e =>
        rw [hnull] at hspec
        have hcase : parseFrame levels (byte '*' :: text) parseEndPos
            = some (.complete .null e) := by
          change (match parseNull (byte '*' :: text) parseEndPos with
            | .complete _ e => _ | .incomplete e => _ | .invalid e => _) = _
          rw [hnull]
        exact ⟨_, hcase, ⟨hspec.2 (fun h => by cases h), hspec.1⟩, Parse.holds_complete trivial⟩
    | incomplete e =>
        rw [hnull] at hspec
        have hcase : parseFrame levels (byte '*' :: text) parseEndPos
            = some (.incomplete e) := by
          change (match parseNull (byte '*' :: text) parseEndPos with
            | .complete _ e => _ | .incomplete e => _ | .invalid e => _) = _
          rw [hnull]
        exact ⟨_, hcase, ⟨hspec.2 (fun h => by cases h), hspec.1⟩, Parse.holds_incomplete⟩
    | invalid e =>
        rcases parseArray_spec levels text hlevels with ⟨p, hp, hspan, hholds⟩
        refine ⟨p.map .array, ?_, Parse.map_spans hspan, Parse.map_holds hholds fun _ h => h⟩
        rw [parseFrame_array hnull, hp]
        rfl
  · rw [parseFrame_eq_parseElement (parseArray levels) hc hstar]
    exact parseElement_spec (parseArray_spec levels) hc hlevels

end Frames

section Loop

/-- The result of a pass, and where it was in the message. -/
def resultAt (start : Nat) (parsed : Parse RespType) : RespParserResult :=
  ⟨parsed.output?, parsed.state, start, start + parsed.parseEndPos⟩

theorem parseLoop_pass {c : Byte} {text : List Byte} {fuel start : Nat} {parsed : Parse RespType}
    (hc : isTypeByte c = true) (h : parseFrame (c :: text).length (c :: text) 0 = some parsed) :
    parseLoop (fuel + 1) (c :: text) start 0 =
      if parsed.state = .incomplete then some (true, [resultAt start parsed])
      else
        (parseLoop fuel ((c :: text).drop parsed.parseEndPos) (start + parsed.parseEndPos) 0).map
          fun (ok, results) => (ok, resultAt start parsed :: results) := by
  conv_lhs => unfold parseLoop
  simp only
  rw [if_pos hc, h]
  simp only
  rw [parseLoop_endPos]
  rfl

theorem parseLoop_other {c : Byte} {text : List Byte} {fuel start : Nat}
    (hc : isTypeByte c ≠ true) :
    parseLoop (fuel + 1) (c :: text) start 0 =
      some (false, [⟨none, .invalid, start, start + 1⟩]) := by
  conv_lhs => unfold parseLoop
  simp only
  rw [if_neg hc]

/-- What the loop finds in a message that is at `start` in the whole: one case for
    each way a pass of the loop ends. -/
inductive Reads : List Byte → Nat → Bool → List RespParserResult → Prop
  | done {start : Nat} : Reads [] start true []
  | other {c : Byte} {text : List Byte} {start : Nat} (hc : isTypeByte c ≠ true) :
      Reads (c :: text) start false [⟨none, .invalid, start, start + 1⟩]
  | pause {c : Byte} {text : List Byte} {start : Nat} {parsed : Parse RespType}
      (hc : isTypeByte c = true)
      (hframe : parseFrame (c :: text).length (c :: text) 0 = some parsed)
      (hstate : parsed.state = .incomplete) :
      Reads (c :: text) start true [resultAt start parsed]
  | next {c : Byte} {text : List Byte} {start : Nat} {parsed : Parse RespType} {ok : Bool}
      {results : List RespParserResult} (hc : isTypeByte c = true)
      (hframe : parseFrame (c :: text).length (c :: text) 0 = some parsed)
      (hstate : parsed.state ≠ .incomplete)
      (hrest : Reads ((c :: text).drop parsed.parseEndPos) (start + parsed.parseEndPos) ok
        results) :
      Reads (c :: text) start ok (resultAt start parsed :: results)

/-- A pass of the loop makes the input shorter, inside the message. -/
theorem parseFrame_shrinks {c : Byte} {text : List Byte} {parsed : Parse RespType}
    (hc : isTypeByte c = true)
    (hframe : parseFrame (c :: text).length (c :: text) 0 = some parsed) :
    0 < parsed.parseEndPos ∧ parsed.parseEndPos ≤ (c :: text).length ∧
      ((c :: text).drop parsed.parseEndPos).length < (c :: text).length ∧
      parsed.Holds RespType.Delimited := by
  have hspec : ∃ p, parseFrame (c :: text).length (c :: text) 0 = some p ∧
      p.Spans (c :: text).length ∧ p.Holds RespType.Delimited :=
    parseFrame_spec hc (Nat.le_refl _)
  rcases hspec with ⟨p, hp, ⟨hpos, hend⟩, hholds⟩
  rw [hp, Option.some.injEq] at hframe
  subst hframe
  refine ⟨hpos, hend, ?_, hholds⟩
  rw [List.length_drop]
  omega

/-- The loop comes to its end on every message. -/
theorem exists_reads (size : Nat) :
    ∀ (input : List Byte) (start : Nat), input.length ≤ size →
      ∃ ok results, Reads input start ok results := by
  induction size with
  | zero =>
      intro input start hsize
      rw [List.eq_nil_of_length_eq_zero (Nat.le_zero.mp hsize)]
      exact ⟨_, _, .done⟩
  | succ size ih =>
      intro input start hsize
      rcases input with _ | ⟨c, text⟩
      · exact ⟨_, _, .done⟩
      by_cases hc : isTypeByte c = true
      · have hspec : ∃ p, parseFrame (c :: text).length (c :: text) 0 = some p ∧ _ :=
          parseFrame_spec hc (Nat.le_refl _)
        rcases hspec with ⟨p, hp, -⟩
        -- The loop stops at what is incomplete, and is on a shorter message otherwise.
        by_cases hstate : p.state = .incomplete
        · exact ⟨_, _, .pause hc hp hstate⟩
        · have hshorter := (parseFrame_shrinks hc hp).2.2.1
          rcases ih ((c :: text).drop p.parseEndPos) (start + p.parseEndPos) (by omega)
            with ⟨ok, results, hrest⟩
          exact ⟨_, _, .next hc hp hstate hrest⟩
      · exact ⟨_, _, .other hc⟩

/-- The first result is that of the first pass. -/
theorem Reads.first {c : Byte} {text : List Byte} {start : Nat} {ok : Bool}
    {results : List RespParserResult} {parsed : Parse RespType}
    (h : Reads (c :: text) start ok results)
    (hframe : parseFrame (c :: text).length (c :: text) 0 = some parsed)
    (hc : isTypeByte c = true) : ∃ others, results = resultAt start parsed :: others := by
  cases h with
  | other hc' => exact absurd hc hc'
  | pause _ hframe' _ =>
      rw [hframe, Option.some.injEq] at hframe'
      rw [hframe']
      exact ⟨_, rfl⟩
  | next _ hframe' _ _ =>
      rw [hframe, Option.some.injEq] at hframe'
      rw [hframe']
      exact ⟨_, rfl⟩

/-- As many passes as the message has bytes, and one more, are enough. -/
theorem Reads.loop {input : List Byte} {start : Nat} {ok : Bool}
    {results : List RespParserResult} (h : Reads input start ok results) :
    ∀ fuel, input.length < fuel → parseLoop fuel input start 0 = some (ok, results) := by
  induction h with
  | done =>
      intro fuel hfuel
      rcases fuel with _ | fuel
      · exact absurd hfuel (Nat.not_lt_zero _)
      · rfl
  | other hc =>
      intro fuel hfuel
      rcases fuel with _ | fuel
      · exact absurd hfuel (Nat.not_lt_zero _)
      · exact parseLoop_other hc
  | pause hc hframe hstate =>
      intro fuel hfuel
      rcases fuel with _ | fuel
      · exact absurd hfuel (Nat.not_lt_zero _)
      · rw [parseLoop_pass hc hframe, if_pos hstate]
  | next hc hframe hstate hrest ih =>
      intro fuel hfuel
      -- One pass takes at least a byte, so the passes that are left are enough.
      have hshorter := (parseFrame_shrinks hc hframe).2.2.1
      rcases fuel with _ | fuel
      · exact absurd hfuel (Nat.not_lt_zero _)
      · rw [parseLoop_pass hc hframe, if_neg hstate, ih fuel (by omega)]
        rfl

/-- Parsing ends, with what the loop finds. -/
theorem parse_eq_some_iff {input : List Byte} (hne : input ≠ []) {ok : Bool}
    {results : List RespParserResult} :
    parse input = some (ok, results) ↔ Reads input 0 ok results := by
  unfold parse
  rw [if_neg hne]
  constructor
  · intro h
    rcases exists_reads input.length input 0 (Nat.le_refl _) with ⟨ok', results', hreads⟩
    rw [hreads.loop _ (Nat.lt_succ_self _), Option.some.injEq, Prod.mk.injEq] at h
    rcases h with ⟨rfl, rfl⟩
    exact hreads
  · intro h
    exact h.loop _ (Nat.lt_succ_self _)

/-- Parsing ends on every message. -/
theorem parse_total (input : List Byte) : ∃ ok results, parse input = some (ok, results) := by
  by_cases hne : input = []
  · subst hne
    exact ⟨_, _, rfl⟩
  · rcases exists_reads input.length input 0 (Nat.le_refl _) with ⟨ok, results, hreads⟩
    exact ⟨ok, results, (parse_eq_some_iff hne).mpr hreads⟩

/-- The results are behind the beginning, and one that is complete has a value. -/
theorem Reads.behind {input : List Byte} {start : Nat} {ok : Bool}
    {results : List RespParserResult} (h : Reads input start ok results) :
    ∀ result ∈ results, start ≤ result.parseEndPos ∧
      (result.state = .complete → result.type ≠ none) := by
  -- State and value come from one parse, and only a complete one has a value.
  have hvalue : ∀ {parsed : Parse RespType}, parsed.state = .complete → parsed.output? ≠ none := by
    intro parsed hstate hnone
    cases parsed with
    | complete v e => cases hnone
    | incomplete e => cases hstate
    | invalid e => cases hstate
  induction h with
  | done => exact fun result hmem => absurd hmem List.not_mem_nil
  | other hc => exact List.forall_mem_singleton.mpr ⟨Nat.le_succ _, fun h => by cases h⟩
  | pause hc hframe hstate =>
      exact List.forall_mem_singleton.mpr ⟨Nat.le_add_right _ _, hvalue⟩
  | next hc hframe hstate hrest ih =>
      refine List.forall_mem_cons.mpr ⟨⟨Nat.le_add_right _ _, hvalue⟩, fun result hmem => ?_⟩
      exact ⟨Nat.le_trans (Nat.le_add_right _ _) (ih result hmem).1, (ih result hmem).2⟩

/-- Where a message is in the whole moves its results and nothing else. -/
theorem Reads.move {input : List Byte} {start : Nat} {ok : Bool}
    {results : List RespParserResult} (h : Reads input start ok results) :
    ∀ start', ∃ results', Reads input start' ok results' := by
  induction h with
  | done => exact fun start' => ⟨_, .done⟩
  | other hc => exact fun start' => ⟨_, .other hc⟩
  | pause hc hframe hstate => exact fun start' => ⟨_, .pause hc hframe hstate⟩
  | next hc hframe hstate hrest ih =>
      intro start'
      rcases ih (start' + _) with ⟨results', hresults'⟩
      exact ⟨_, .next hc hframe hstate hresults'⟩

/-- The strings of what is found complete have no delimiter in them. -/
theorem Reads.delimited {input : List Byte} {start : Nat} {ok : Bool}
    {results : List RespParserResult} (h : Reads input start ok results) :
    ∀ result ∈ results, ∀ v ∈ result.type, v.Delimited := by
  induction h with
  | done => exact fun result hmem => absurd hmem List.not_mem_nil
  | other hc => exact List.forall_mem_singleton.mpr fun v hv => by cases hv
  | pause hc hframe hstate =>
      exact List.forall_mem_singleton.mpr (parseFrame_shrinks hc hframe).2.2.2
  | next hc hframe hstate hrest ih =>
      exact List.forall_mem_cons.mpr ⟨(parseFrame_shrinks hc hframe).2.2.2, ih⟩

/-- Every value that is read from a message has no delimiter in its strings. -/
theorem parse_delimited {input : List Byte} {ok : Bool} {results : List RespParserResult}
    (h : parse input = some (ok, results)) {result : RespParserResult} (hmem : result ∈ results)
    {v : RespType} (hv : result.type = some v) : v.Delimited := by
  by_cases hne : input = []
  · subst hne
    cases h
    exact absurd hmem List.not_mem_nil
  · exact ((parse_eq_some_iff hne).mp h).delimited result hmem v hv

end Loop

end Redis

end CodingChallenges
