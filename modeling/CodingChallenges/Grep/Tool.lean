import CodingChallenges.Grep.Scan

/-!
# The Command-Line Tool

What `grep.cpp` does with a pattern and the lines of a file.

The pattern is compiled once. Every line is decoded and scanned, and is printed
if the scan has results, or, with an inverted selection, if it has none. A line
that is not decoded is not printed either way. To ignore case, the bytes of the
pattern and the bytes of each line are lower-cased before anything else looks
at them; what is printed is the line as it was.

The decoder of lines is a loop of its own. It reads code points off a line the
way the parser's `parseChar` reads one off a pattern
(`convertToU32String_of_parseChar`).

## Main definitions

* `convertToU32String`: The decoding of a line.
* `compileRegex`, `regexMatch`: From a pattern to its matches in a line.
* `toLower`: How case is ignored.
* `selectsLine`, `processOneFile`: The lines that are printed.
* `grep`: A pattern and one line.

## Theorems

* `convertToU32String_of_parseChar`: The two decoders agree.
-/

namespace CodingChallenges

namespace Grep

/-- The UTF-8 decoding of a line. -/
def convertToU32String : List Byte → Option (List Nat)
  | [] => some []
  | c :: rest =>
    if c ≤ 0x7F then
      (convertToU32String rest).map (c.toNat :: ·)
    else if 0xC0 ≤ c && c ≤ 0xDF then
      match rest with
      | c₁ :: rest =>
        if isContinuation c₁ then
          (convertToU32String rest).map
            (((c.toNat &&& 0x1F) <<< 6 ||| (c₁.toNat &&& 0x3F)) :: ·)
        else none
      | _ => none
    else if 0xE0 ≤ c && c ≤ 0xEF then
      match rest with
      | c₁ :: c₂ :: rest =>
        if isContinuation c₁ && isContinuation c₂ then
          (convertToU32String rest).map
            (((c.toNat &&& 0xF) <<< 12 ||| (c₁.toNat &&& 0x3F) <<< 6 ||| (c₂.toNat &&& 0x3F)) :: ·)
        else none
      | _ => none
    else if 0xF0 ≤ c && c ≤ 0xF7 then
      match rest with
      | c₁ :: c₂ :: c₃ :: rest =>
        if isContinuation c₁ && isContinuation c₂ && isContinuation c₃ then
          (convertToU32String rest).map
            (((c.toNat &&& 0x7) <<< 18 ||| (c₁.toNat &&& 0x3F) <<< 12 |||
              (c₂.toNat &&& 0x3F) <<< 6 ||| (c₃.toNat &&& 0x3F)) :: ·)
        else none
      | _ => none
    else none

/-- A pattern that was compiled, or nothing. -/
abbrev RegexMatcher := Option Matcher

/-- The matcher of the empty pattern has one state, which accepts. -/
def compileEmptyRegex : RegexMatcher :=
  some { regexNfaElement := ⟨0, 0⟩, states := [{ id := 0 }] }

/-- The rest of the pattern that the parser leaves is not looked at. -/
def compileRegex (pattern : List Byte) : Except Exception RegexMatcher :=
  if pattern = [] then
    return compileEmptyRegex
  else
    match parseRegex pattern with
    | .error _ => return none
    | .ok ⟨regex, _⟩ => do
      let (nfaElement, nfa) ← (buildRegex regex).run {}
      return some { regexNfaElement := nfaElement, states := nfa.states }

/-- A pattern that failed to compile gives no result at all. -/
def regexMatch (matcher : RegexMatcher) (line : List Nat) :
    Except Exception (Option (List MatchResult)) :=
  match matcher with
  | none => return none
  | some matcher => do
    let results ← matchAll matcher line
    return some results

/-- The `std::tolower` of the "C" locale, which the program never leaves. -/
def toLower (c : Byte) : Byte :=
  if byte 'A' ≤ c ∧ c ≤ byte 'Z' then c + 32 else c

/-- The calls of `std::getline` on an input, given what the current line has so
    far. A last line need not end in a newline, but it is not empty. -/
def getLines : List Byte → List Byte → List (List Byte)
  | line, [] => if line = [] then [] else [line]
  | line, c :: rest =>
    if c = byte '\n' then line :: getLines [] rest else getLines (line ++ [c]) rest

/-- The body of the loop of `process_one_file`: whether the line is printed. -/
def selectsLine (matcher : RegexMatcher) (isInverted ignoreCase : Bool) (originalLine : List Byte) :
    Except Exception Bool :=
  let line := if ignoreCase then originalLine.map toLower else originalLine
  match convertToU32String line with
  | none => return false
  | some u32Line => do
    let matchResults ← regexMatch matcher u32Line
    let anyResult := (matchResults.map fun results => !results.isEmpty).getD false
    return if isInverted then !anyResult else anyResult

/-- The loop of `process_one_file`: the lines that are printed. -/
def selectedLines (matcher : RegexMatcher) (isInverted ignoreCase : Bool) :
    List (List Byte) → Except Exception (List (List Byte))
  | [] => return []
  | line :: rest => do
    let selected ← selectsLine matcher isInverted ignoreCase line
    let printed ← selectedLines matcher isInverted ignoreCase rest
    return if selected then line :: printed else printed

/-- What is printed, and whether any line matched. -/
def processOneFile (input : List Byte) (matcher : RegexMatcher) (isInverted ignoreCase : Bool) :
    Except Exception (List (List Byte) × Bool) := do
  let printed ← selectedLines matcher isInverted ignoreCase (getLines [] input)
  return (printed, !printed.isEmpty)

/-- The pattern as `main` compiles it. -/
def patternOf (ignoreCase : Bool) (pattern : List Byte) : List Byte :=
  if ignoreCase then pattern.map toLower else pattern

/-- Whether `main` prints a line: it ends if the pattern is not compiled. -/
def grep (isInverted ignoreCase : Bool) (pattern line : List Byte) : Except Exception Bool := do
  match ← compileRegex (patternOf ignoreCase pattern) with
  | none => return false
  | some matcher => selectsLine (some matcher) isInverted ignoreCase line

/-- The decoder of lines looks at the first bytes as the parser does. -/
theorem convertToU32String_cons (c : Byte) (text : List Byte) :
    convertToU32String (c :: text) =
      match parseChar (c :: text) with
      | .ok ⟨x, rest⟩ => (convertToU32String rest).map (x :: ·)
      | .error _ => none := by
  conv_lhs => unfold convertToU32String
  unfold parseChar
  simp only
  by_cases hone : c ≤ 0x7F
  · rw [if_pos hone, if_pos hone]
    rfl
  rw [if_neg hone, if_neg hone]
  -- The first byte says how many others are looked at, if there are as many.
  by_cases htwo : (0xC0 ≤ c && c ≤ 0xDF) = true
  · rw [if_pos htwo, if_pos htwo]
    rcases text with _ | ⟨c₁, text⟩
    · rfl
    · simp only
      by_cases htails : isContinuation c₁ = true
      · rw [if_pos htails, if_pos htails]
        rfl
      · rw [if_neg htails, if_neg htails]
        rfl
  rw [if_neg htwo, if_neg htwo]
  by_cases hthree : (0xE0 ≤ c && c ≤ 0xEF) = true
  · rw [if_pos hthree, if_pos hthree]
    rcases text with _ | ⟨c₁, _ | ⟨c₂, text⟩⟩
    · rfl
    · rfl
    · simp only
      by_cases htails : (isContinuation c₁ && isContinuation c₂) = true
      · rw [if_pos htails, if_pos htails]
        rfl
      · rw [if_neg htails, if_neg htails]
        rfl
  rw [if_neg hthree, if_neg hthree]
  by_cases hfour : (0xF0 ≤ c && c ≤ 0xF7) = true
  · rw [if_pos hfour, if_pos hfour]
    rcases text with _ | ⟨c₁, _ | ⟨c₂, _ | ⟨c₃, text⟩⟩⟩
    · rfl
    · rfl
    · rfl
    · simp only
      by_cases htails : (isContinuation c₁ && isContinuation c₂ && isContinuation c₃) = true
      · rw [if_pos htails, if_pos htails]
        rfl
      · rw [if_neg htails, if_neg htails]
        rfl
  · rw [if_neg hfour, if_neg hfour]
    rfl

/-- What the parser reads as one code point, the decoder of lines reads as the
    same code point. -/
theorem convertToU32String_of_parseChar {text rest : List Byte} {x : Nat}
    (h : parseChar text = .ok ⟨x, rest⟩) :
    convertToU32String text = (convertToU32String rest).map (x :: ·) := by
  cases text with
  | nil => cases h
  | cons c text => rw [convertToU32String_cons, h]

/-- A line is not decoded where the parser finds no code point. -/
theorem convertToU32String_of_error {c : Byte} {text : List Byte} {e : ParseError}
    (h : parseChar (c :: text) = .error e) : convertToU32String (c :: text) = none := by
  rw [convertToU32String_cons, h]

end Grep

end CodingChallenges
