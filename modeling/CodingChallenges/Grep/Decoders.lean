import CodingChallenges.Grep.Decoding
import CodingChallenges.Library.Fuel

/-!
# Two Decoders

The decoder of lines, `convert_to_u32string` of `grep.cpp`, beside the one of patterns,
`parse_char` of `parser.cpp`.

The one goes through a line with an index and looks at the bytes from there on; the other is
given what is left of a pattern and hands back what is left of that. A literal of a pattern
is found in a line only if both make the same code points of the same bytes.

They do (`decoders_agree`). The line that stands in front of the index is never looked at
again, so that at any index the first decoder does what the second one does with the rest.

## Main definitions

* `byteAt`, `decodeAt`: A byte of a line, and the code point that begins there.
* `convertToU32StringFrom`: The loop over the index.
* `parseChars`: The decoder of patterns, applied as long as something is left.
* `AgreeBehind`: What the two have in common behind a part of a line.

## Theorems

* `decodeAt_takesOff`: What is read at an index.
* `agreeBehind_stops`, `agreeBehind_goesOn`: One round of both loops.
* `convertToU32StringFrom_returns`: The loop does what the recursion over the bytes does that
  the results about the tool are about.
* `decoders_agree`: The decoders accept the same bytes, for the same code points.
-/

namespace CodingChallenges

namespace Grep

/-- How the loop over a line can go wrong. -/
inductive DecodingFault where
  | outOfRange
  | outOfFuel
deriving DecidableEq, Repr

/-- A byte of the line, which has to be there. -/
def byteAt (input : List Byte) (i : Nat) : Except DecodingFault Byte :=
  match input[i]? with
  | some c => .ok c
  | none => .error .outOfRange

/-- The code point that begins at the index, with the index behind it, or nothing if the bytes
    there are none. -/
def decodeAt (input : List Byte) (i : Nat) : Except DecodingFault (Option (Nat × Nat)) := do
  let c ← byteAt input i
  if c ≤ 0x7F then
    return some (c.toNat, i + 1)
  else if 0xC0 ≤ c && c ≤ 0xDF then
    if input.length ≤ i + 1 then
      return none
    else do
      let c₁ ← byteAt input (i + 1)
      if isContinuation c₁ then
        return some ((c.toNat &&& 0x1F) <<< 6 ||| (c₁.toNat &&& 0x3F), i + 2)
      else
        return none
  else if 0xE0 ≤ c && c ≤ 0xEF then
    if input.length ≤ i + 1 ∨ input.length ≤ i + 2 then
      return none
    else do
      let c₁ ← byteAt input (i + 1)
      let c₂ ← byteAt input (i + 2)
      if isContinuation c₁ && isContinuation c₂ then
        return some ((c.toNat &&& 0xF) <<< 12 ||| (c₁.toNat &&& 0x3F) <<< 6 |||
          (c₂.toNat &&& 0x3F), i + 3)
      else
        return none
  else if 0xF0 ≤ c && c ≤ 0xF7 then
    if input.length ≤ i + 1 ∨ input.length ≤ i + 2 ∨ input.length ≤ i + 3 then
      return none
    else do
      let c₁ ← byteAt input (i + 1)
      let c₂ ← byteAt input (i + 2)
      let c₃ ← byteAt input (i + 3)
      if isContinuation c₁ && isContinuation c₂ && isContinuation c₃ then
        return some ((c.toNat &&& 0x7) <<< 18 ||| (c₁.toNat &&& 0x3F) <<< 12 |||
          (c₂.toNat &&& 0x3F) <<< 6 ||| (c₃.toNat &&& 0x3F), i + 4)
      else
        return none
  else
    return none

/-- The loop over a line. It returns whether the line was decoded, and the code points up to
    where it was. -/
def convertToU32StringFrom (input : List Byte) :
    Nat → Nat → List Nat → Except DecodingFault (Bool × List Nat)
  | 0, _, _ => .error .outOfFuel
  | fuel + 1, i, output =>
    if i < input.length then do
      match ← decodeAt input i with
      | none => return (false, output)
      | some (codePoint, i) => convertToU32StringFrom input fuel i (output ++ [codePoint])
    else
      return (true, output)

/-- The decoder of patterns, applied to what it leaves as long as that is not empty. -/
def parseChars : Nat → List Byte → Except DecodingFault (Except ParseError (List Nat))
  | 0, _ => .error .outOfFuel
  | fuel + 1, regex =>
    if regex = [] then
      return .ok []
    else
      match parseChar regex with
      | .error e => return .error e
      | .ok ⟨codePoint, remainingRegex⟩ => do
        let parsed ← parseChars fuel remainingRegex
        return parsed.map (codePoint :: ·)

section Reading

/-- What stands in front of the index is not looked at. -/
theorem byteAt_append (front text : List Byte) (k : Nat) :
    byteAt (front ++ text) (front.length + k) = byteAt text k := by
  rw [byteAt, byteAt, List.getElem?_append_right (Nat.le_add_right _ _), Nat.add_sub_cancel_left]

theorem byteAt_append_zero (front text : List Byte) :
    byteAt (front ++ text) front.length = byteAt text 0 :=
  byteAt_append front text 0

/-- The check in front of an access is one of what is left of the line. -/
theorem length_append_le (front text : List Byte) (k : Nat) :
    (front ++ text).length ≤ front.length + k ↔ text.length ≤ k := by
  rw [List.length_append]
  exact Nat.add_le_add_iff_left

@[simp] theorem byteAt_cons_zero (c : Byte) (text : List Byte) : byteAt (c :: text) 0 = .ok c :=
  rfl

@[simp] theorem byteAt_cons_succ (c : Byte) (text : List Byte) (k : Nat) :
    byteAt (c :: text) (k + 1) = byteAt text k := rfl

/-- What is read behind the front: what the parser takes off the rest, if it takes anything. -/
def TakesOff (front text : List Byte) (result : Option (Nat × Nat)) : Prop :=
  match parseChar text with
  | .ok ⟨codePoint, rest⟩ =>
    ∃ w, text = w ++ rest ∧ result = some (codePoint, front.length + w.length)
  | .error _ => result = none

/-- At any index the decoder of lines does what the decoder of patterns does with the rest. -/
theorem decodeAt_takesOff (front : List Byte) (c : Byte) (text : List Byte) :
    ∃ result, decodeAt (front ++ c :: text) front.length = .ok result ∧
      TakesOff front (c :: text) result := by
  unfold decodeAt TakesOff parseChar
  simp only [byteAt_append_zero, byteAt_append, length_append_le, byteAt_cons_zero,
    byteAt_cons_succ, ok_bind]
  by_cases hone : c ≤ 0x7F
  · rw [if_pos hone, if_pos hone]
    exact ⟨_, rfl, [c], rfl, rfl⟩
  rw [if_neg hone, if_neg hone]
  -- Both look at the same bytes, and at none of them before they know that it is there.
  by_cases htwo : (0xC0 ≤ c && c ≤ 0xDF) = true
  · rw [if_pos htwo, if_pos htwo]
    rcases text with _ | ⟨c₁, text⟩
    · exact ⟨_, rfl, rfl⟩
    · rw [if_neg (by simp only [List.length_cons, add_le_iff_nonpos_left, nonpos_iff_eq_zero,
        Nat.add_eq_zero_iff, List.length_eq_zero_iff, one_ne_zero, and_false, not_false_eq_true])]
      simp only [byteAt_cons_zero, ok_bind]
      by_cases htails : isContinuation c₁ = true
      · rw [if_pos htails, if_pos htails]
        exact ⟨_, rfl, [c, c₁], rfl, rfl⟩
      · rw [if_neg htails, if_neg htails]
        exact ⟨_, rfl, rfl⟩
  rw [if_neg htwo, if_neg htwo]
  by_cases hthree : (0xE0 ≤ c && c ≤ 0xEF) = true
  · rw [if_pos hthree, if_pos hthree]
    rcases text with _ | ⟨c₁, _ | ⟨c₂, text⟩⟩
    · exact ⟨_, rfl, rfl⟩
    · exact ⟨_, rfl, rfl⟩
    · rw [if_neg (by simp)]
      simp only [byteAt_cons_zero, byteAt_cons_succ, ok_bind]
      by_cases htails : (isContinuation c₁ && isContinuation c₂) = true
      · rw [if_pos htails, if_pos htails]
        exact ⟨_, rfl, [c, c₁, c₂], rfl, rfl⟩
      · rw [if_neg htails, if_neg htails]
        exact ⟨_, rfl, rfl⟩
  rw [if_neg hthree, if_neg hthree]
  by_cases hfour : (0xF0 ≤ c && c ≤ 0xF7) = true
  · rw [if_pos hfour, if_pos hfour]
    rcases text with _ | ⟨c₁, _ | ⟨c₂, _ | ⟨c₃, text⟩⟩⟩
    · exact ⟨_, rfl, rfl⟩
    · exact ⟨_, rfl, rfl⟩
    · exact ⟨_, rfl, rfl⟩
    · rw [if_neg (by simp)]
      simp only [byteAt_cons_zero, byteAt_cons_succ, ok_bind]
      by_cases htails : (isContinuation c₁ && isContinuation c₂ && isContinuation c₃) = true
      · rw [if_pos htails, if_pos htails]
        exact ⟨_, rfl, [c, c₁, c₂, c₃], rfl, rfl⟩
      · rw [if_neg htails, if_neg htails]
        exact ⟨_, rfl, rfl⟩
  · rw [if_neg hfour, if_neg hfour]
    exact ⟨_, rfl, rfl⟩

end Reading

section Rounds

variable {front text : List Byte} {c : Byte}

/-- The loop ends where there is no code point. -/
theorem convertToU32StringFrom_stops
    (h : decodeAt (front ++ c :: text) front.length = .ok none) (fuel : Nat) (output : List Nat) :
    convertToU32StringFrom (front ++ c :: text) (fuel + 1) front.length output =
      .ok (false, output) := by
  rw [convertToU32StringFrom, if_pos (by simp only [List.length_append, List.length_cons,
      lt_add_iff_pos_right, add_pos_iff, zero_lt_one, or_true]), h, ok_bind]
  rfl

/-- A code point is added to the output, and the loop goes on behind it. -/
theorem convertToU32StringFrom_goesOn {codePoint i : Nat}
    (h : decodeAt (front ++ c :: text) front.length = .ok (some (codePoint, i))) (fuel : Nat)
    (output : List Nat) :
    convertToU32StringFrom (front ++ c :: text) (fuel + 1) front.length output =
      convertToU32StringFrom (front ++ c :: text) fuel i (output ++ [codePoint]) := by
  rw [convertToU32StringFrom, if_pos (by simp only [List.length_append, List.length_cons,
      lt_add_iff_pos_right, add_pos_iff, zero_lt_one, or_true]), h, ok_bind]

theorem convertToU32StringFrom_end (front : List Byte) (fuel : Nat) (output : List Nat) :
    convertToU32StringFrom (front ++ []) (fuel + 1) front.length output = .ok (true, output) := by
  rw [List.append_nil, convertToU32StringFrom, if_neg (Nat.lt_irrefl _)]
  rfl

theorem parseChars_round (c : Byte) (text : List Byte) (fuel : Nat) :
    parseChars (fuel + 1) (c :: text) =
      match parseChar (c :: text) with
      | .error e => .ok (.error e)
      | .ok ⟨codePoint, rest⟩ =>
        parseChars fuel rest >>= fun parsed => .ok (parsed.map (codePoint :: ·)) := by
  rw [parseChars, if_neg (List.cons_ne_nil _ _)]
  rfl

/-- Behind the front the decoders end, with one answer and, if it is yes, with the same code
    points, which are those of the recursion over the bytes. -/
def AgreeBehind (front text : List Byte) (output : List Nat) : Prop :=
  ∃ accepted more parsed,
    Returns (fun fuel => convertToU32StringFrom (front ++ text) fuel front.length output)
      (accepted, output ++ more) ∧
    Returns (fun fuel => parseChars fuel text) parsed ∧
    convertToU32String text = parsed.toOption ∧
    (accepted = true ↔ ∃ codePoints, parsed = .ok codePoints) ∧
    ∀ codePoints, parsed = .ok codePoints → more = codePoints

/-- At the end of the line both have found nothing more. -/
theorem agreeBehind_nil (front : List Byte) (output : List Nat) : AgreeBehind front [] output := by
  have hline : Returns (fun fuel => convertToU32StringFrom (front ++ []) fuel front.length output)
      (true, output) :=
    Returns.succ ⟨0, fun fuel _ => convertToU32StringFrom_end front fuel output⟩
  have hchars : Returns (fun fuel => parseChars fuel []) (.ok []) :=
    Returns.succ ⟨0, fun fuel _ => rfl⟩
  refine ⟨true, [], .ok [], ?_, hchars, rfl, iff_of_true rfl ⟨[], rfl⟩, ?_⟩
  · rwa [List.append_nil output]
  · intro codePoints h
    cases h
    rfl

/-- Where there is no code point, both stop. -/
theorem agreeBehind_stops {e : ParseError}
    (hdecode : decodeAt (front ++ c :: text) front.length = .ok none)
    (hparse : parseChar (c :: text) = .error e) (output : List Nat) :
    AgreeBehind front (c :: text) output := by
  have hround := parseChars_round c text
  rw [hparse] at hround
  have hline : Returns
      (fun fuel => convertToU32StringFrom (front ++ c :: text) fuel front.length output)
      (false, output) :=
    Returns.succ ⟨0, fun fuel _ => convertToU32StringFrom_stops hdecode fuel output⟩
  have hchars : Returns (fun fuel => parseChars fuel (c :: text)) (.error e) :=
    Returns.succ ⟨0, fun fuel _ => hround fuel⟩
  refine ⟨false, [], .error e, ?_, hchars, convertToU32String_of_error hparse,
    iff_of_false Bool.false_ne_true ?_, ?_⟩
  · rwa [List.append_nil]
  · rintro ⟨codePoints, h⟩
    cases h
  · intro codePoints h
    cases h

/-- Behind a code point both go on with what is left. -/
theorem agreeBehind_goesOn {w rest : List Byte} {codePoint : Nat} {output : List Nat}
    (hsplit : c :: text = w ++ rest)
    (hdecode : decodeAt (front ++ c :: text) front.length =
      .ok (some (codePoint, front.length + w.length)))
    (hparse : parseChar (c :: text) = .ok ⟨codePoint, rest⟩)
    (h : AgreeBehind (front ++ w) rest (output ++ [codePoint])) :
    AgreeBehind front (c :: text) output := by
  rcases h with ⟨accepted, more, parsed, hline, hchars, hrecursion, hiff, hsame⟩
  have hround := parseChars_round c text
  rw [hparse] at hround
  -- The index behind the code point is the end of a longer front.
  rw [List.append_assoc, ← hsplit, List.length_append, List.append_assoc,
    List.singleton_append] at hline
  have hchars' : Returns (fun fuel => parseChars fuel rest >>=
      fun parsed => .ok (parsed.map (codePoint :: ·))) (parsed.map (codePoint :: ·)) :=
    hchars.andThen rfl
  refine ⟨accepted, codePoint :: more, parsed.map (codePoint :: ·),
    Returns.succ (hline.congr fun fuel => ?_), Returns.succ (hchars'.congr hround), ?_,
    hiff.trans ?_, ?_⟩
  · exact convertToU32StringFrom_goesOn hdecode fuel output
  · rw [convertToU32String_of_parseChar hparse, hrecursion]
    cases parsed with
    | error e => rfl
    | ok codePoints => rfl
  · cases parsed with
    | error e => exact iff_of_false nofun nofun
    | ok codePoints => exact iff_of_true ⟨_, rfl⟩ ⟨_, rfl⟩
  · intro codePoints h
    rcases map_eq_ok.mp h with ⟨codePoints', hok, rfl⟩
    rw [hsame codePoints' hok]

/-- Behind any front the decoders agree. -/
theorem decoders_agree_behind (front text : List Byte) (output : List Nat) :
    AgreeBehind front text output := by
  -- The induction is on the rest, which each code point shortens.
  induction hn : text.length using Nat.strong_induction_on generalizing front text output with
  | _ n ih =>
      cases text with
      | nil => exact agreeBehind_nil front output
      | cons c text =>
          rcases decodeAt_takesOff front c text with ⟨result, hdecode, htakes⟩
          rw [TakesOff] at htakes
          cases hparse : parseChar (c :: text) with
          | error e =>
              rw [hparse] at htakes
              rw [show result = none from htakes] at hdecode
              exact agreeBehind_stops hdecode hparse output
          | ok value =>
              rcases value with ⟨codePoint, rest⟩
              rw [hparse] at htakes
              rcases htakes with ⟨w, hsplit, rfl⟩
              have hshorter : rest.length < n := by
                rw [← hn]
                exact parseChar_sound.length_lt hparse
              exact agreeBehind_goesOn hsplit hdecode hparse
                (ih rest.length hshorter (front ++ w) rest (output ++ [codePoint]) rfl)

end Rounds

/-- The decoder of lines accepts bytes exactly if the decoder of patterns, applied to them and
    then to each rest, takes them all, and then both have found the same code points. -/
theorem decoders_agree (b : List Byte) :
    ∃ accepted output parsed,
      Returns (fun fuel => convertToU32StringFrom b fuel 0 []) (accepted, output) ∧
      Returns (fun fuel => parseChars fuel b) parsed ∧
      (accepted = true ↔ ∃ codePoints, parsed = .ok codePoints) ∧
      ∀ codePoints, parsed = .ok codePoints → output = codePoints := by
  rcases decoders_agree_behind [] b [] with
    ⟨accepted, output, parsed, hreturns, hparsed, -, hiff, hsame⟩
  exact ⟨accepted, output, parsed, hreturns, hparsed, hiff, hsame⟩

/-- The loop over the index does what the recursion over the bytes does. -/
theorem convertToU32StringFrom_returns (b : List Byte) :
    ∃ output, Returns (fun fuel => convertToU32StringFrom b fuel 0 [])
        ((convertToU32String b).isSome, output) ∧
      ∀ codePoints, convertToU32String b = some codePoints → output = codePoints := by
  rcases decoders_agree_behind [] b [] with
    ⟨accepted, output, parsed, hreturns, -, hrecursion, hiff, hsame⟩
  refine ⟨output, ?_, fun codePoints h => hsame codePoints ?_⟩
  · have haccepted : accepted = (convertToU32String b).isSome := by
      rw [Bool.eq_iff_iff, hiff, hrecursion]
      cases parsed with
      | error e => exact iff_of_false nofun nofun
      | ok codePoints => exact iff_of_true ⟨_, rfl⟩ rfl
    rw [← haccepted]
    exact hreturns
  · cases parsed with
    | error e =>
        rw [hrecursion] at h
        cases h
    | ok codePoints' =>
        rw [hrecursion] at h
        cases h
        rfl

end Grep

end CodingChallenges
