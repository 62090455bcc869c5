import CodingChallenges.Calculator.Infix

/-!
# The Tokenizer of the Calculator

How an expression is read: the parsers of the parts of a number and the loop of
`tokenize` in `calculator.cpp`.

The parsers go by an index into the whole expression, and what they find is an index
where it starts and a length. The length is 0 where there is nothing to be found. The
loop knows a sign in front of an operand from one between two of them by its index and
by the token before it.

An error takes away all tokens, so the tokens do not tell an expression that was not
accepted from an empty one. The loop here returns no list at all in the first case.

## Main definitions

* `parseNumber`: Where the number at an index starts, and its length.
* `readToken`: The body of the loop.
* `tokenize`: The tokens of an expression.
* `Lexed`: What the tokens look like.

## Theorems

* `readToken_lexed`: One round of the loop adds a token of this kind, or none.
* `tokenize_lexed`: All tokens of an expression are of this kind.
-/

namespace CodingChallenges

namespace Calculator

open Token

/-- `std::isdigit`. -/
def isDigit (c : UInt8) : Bool :=
  48 ≤ c && c ≤ 57

/-- `std::isspace`: a blank, or one of the bytes from the tab to the carriage return. -/
def isSpace (c : UInt8) : Bool :=
  c == 32 || (9 ≤ c && c ≤ 13)

/-- The index behind the digits that start at an index. -/
def skipDigits (input : List UInt8) (index : Nat) : Nat :=
  index + ((input.drop index).takeWhile isDigit).length

/-- Where the integer starts, and how long it is. Nothing follows a zero. -/
def parseIntegerPart (input : List UInt8) (index : Nat) : Nat × Nat :=
  match input[index]? with
  | some c =>
    if c = 48 then (index, 1)
    else if 49 ≤ c ∧ c ≤ 57 then (index, skipDigits input (index + 1) - index)
    else (0, 0)
  | none => (0, 0)

/-- Where the digits of the fraction start, and how many there are. -/
def parseFractionalPart (input : List UInt8) (index : Nat) : Nat × Nat :=
  (index, skipDigits input index - index)

/-- The index behind a sign, if there is one. -/
def skipSign (input : List UInt8) (index : Nat) : Nat :=
  match input[index]? with
  | some c => if c = 45 ∨ c = 43 then index + 1 else index
  | none => index

/-- Where the exponent starts, and how long it is. A sign alone is none. -/
def parseExponentPart (input : List UInt8) (index : Nat) : Nat × Nat :=
  match input[skipSign input index]? with
  | some c =>
    if isDigit c then (index, skipDigits input (skipSign input index + 1) - index) else (0, 0)
  | none => (0, 0)

/-- An exponent is looked for only behind a fraction. -/
def parseNumber (input : List UInt8) (index : Nat) : Nat × Nat :=
  let (istart, ilen) := parseIntegerPart input index
  if ilen = 0 then (0, 0)
  else if input[istart + ilen]? = some 46 then
    let (fstart, flen) := parseFractionalPart input (istart + ilen + 1)
    if flen = 0 then (istart, ilen)
    else if input[fstart + flen]? = some 101 ∨ input[fstart + flen]? = some 69 then
      let (estart, elen) := parseExponentPart input (fstart + flen + 1)
      if elen = 0 then (istart, fstart + flen - istart)
      else (istart, estart + elen - istart)
    else (istart, fstart + flen - istart)
  else (istart, ilen)

/-- `std::string_view::substr`, which stops at the end of the input. -/
def substr (input : List UInt8) (start length : Nat) : List UInt8 :=
  (input.drop start).take length

/-- The target stands at the index. -/
def checkSubtring (input : List UInt8) (startIndex : Nat) (target : List UInt8) : Bool :=
  substr input startIndex target.length == target

/-- Whether a sign at an index stands in front of an operand. -/
def isUnary (index : Nat) (tokens : List Token) : Bool :=
  index == 0 ||
    tokens.getLast?.any fun token => token.type == .binaryOperator || token.type == .leftParentheses

/-- A function is read if its name stands at the index. -/
def readFunction (input : List UInt8) (index : Nat) (tokens : List Token) (target : List UInt8)
    (fn : FunctionType) : Option (List Token × Nat) :=
  if checkSubtring input index target then some (tokens ++ [ofFunction fn], 2) else none

/-- The body of the loop: the tokens after it and how far it moves the index, or no tokens
    after an error. -/
def readToken (input : List UInt8) (index : Nat) (tokens : List Token) (c : UInt8) :
    Option (List Token × Nat) :=
  if isSpace c then some (tokens, 0)
  else match c with
  | 40 => some (tokens ++ [openParenthesis], 0)
  | 41 => some (tokens ++ [closeParenthesis], 0)
  | 43 =>
    -- A unary plus is left out.
    if isUnary index tokens then some (tokens, 0) else some (tokens ++ [ofBinary .add], 0)
  | 45 =>
    -- A minus in front of an operand is a token of its own.
    if isUnary index tokens then some (tokens ++ [ofNegation], 0)
    else some (tokens ++ [ofBinary .subtract], 0)
  | 42 => some (tokens ++ [ofBinary .multiply], 0)
  | 47 => some (tokens ++ [ofBinary .divide], 0)
  | 94 => some (tokens ++ [ofBinary .exponent], 0)
  | 115 => readFunction input index tokens [115, 105, 110] .sine
  | 99 => readFunction input index tokens [99, 111, 115] .cosine
  | 116 => readFunction input index tokens [116, 97, 110] .tangent
  | 108 => readFunction input index tokens [108, 111, 103] .logarithm
  | 101 => readFunction input index tokens [101, 120, 112] .exponentiation
  | _ =>
    if isDigit c then
      let (start, length) := parseNumber input index
      some (tokens ++ [ofOperand (substr input start length)], length - 1)
    else none

/-- The loop of `tokenize`. -/
def tokenizeFrom (input : List UInt8) (index : Nat) (tokens : List Token) :
    Option (List Token) :=
  if h : index < input.length then
    match readToken input index tokens input[index] with
    | some (tokens', moved) => tokenizeFrom input (index + moved + 1) tokens'
    | none => none
  else some tokens
termination_by input.length - index

/-- An input that cannot be tokenized gives no tokens. -/
def tokenize (input : List UInt8) : List Token :=
  (tokenizeFrom input 0 []).getD []

/-- The tokens that the loop makes. -/
inductive Lexed : Token → Prop
  | operand (text : List UInt8) : Lexed (ofOperand text)
  | negation : Lexed ofNegation
  | function (fn : FunctionType) : Lexed (ofFunction fn)
  | binary (op : BinaryOperatorType) : Lexed (ofBinary op)
  | openParenthesis : Lexed openParenthesis
  | closeParenthesis : Lexed closeParenthesis

theorem tokenizeFrom_done {input : List UInt8} {index : Nat} (tokens : List Token)
    (h : input.length ≤ index) : tokenizeFrom input index tokens = some tokens := by
  rw [tokenizeFrom, dif_neg (Nat.not_lt.mpr h)]

theorem tokenizeFrom_error {input : List UInt8} {index : Nat} {tokens : List Token}
    (h : index < input.length) (hread : readToken input index tokens input[index] = none) :
    tokenizeFrom input index tokens = none := by
  rw [tokenizeFrom, dif_pos h, hread]

theorem tokenizeFrom_read {input : List UInt8} {index moved : Nat} {tokens tokens' : List Token}
    (h : index < input.length)
    (hread : readToken input index tokens input[index] = some (tokens', moved)) :
    tokenizeFrom input index tokens = tokenizeFrom input (index + moved + 1) tokens' := by
  rw [tokenizeFrom, dif_pos h, hread]

theorem readFunction_eq_some {input target : List UInt8} {index moved : Nat}
    {tokens tokens' : List Token} {fn : FunctionType}
    (h : readFunction input index tokens target fn = some (tokens', moved)) :
    checkSubtring input index target = true ∧ tokens' = tokens ++ [ofFunction fn] ∧ moved = 2 := by
  by_cases hcheck : checkSubtring input index target = true
  · rw [readFunction, if_pos hcheck, Option.some.injEq, Prod.mk.injEq] at h
    exact ⟨hcheck, h.1.symm, h.2.symm⟩
  · rw [readFunction, if_neg hcheck] at h
    cases h

/-- One round of the loop adds a token of this kind, or none. -/
theorem readToken_lexed {input : List UInt8} {index moved : Nat} {tokens tokens' : List Token}
    {c : UInt8} (h : readToken input index tokens c = some (tokens', moved)) :
    tokens' = tokens ∨ ∃ token, tokens' = tokens ++ [token] ∧ Lexed token := by
  have hfunction : ∀ target fn, readFunction input index tokens target fn = some (tokens', moved) →
      ∃ token, tokens' = tokens ++ [token] ∧ Lexed token := by
    intro target fn h
    exact ⟨ofFunction fn, (readFunction_eq_some h).2.1, .function fn⟩
  unfold readToken at h
  split at h
  · cases h
    exact Or.inl rfl
  split at h
  case h_8 | h_9 | h_10 | h_11 | h_12 => exact Or.inr (hfunction _ _ h)
  -- A plus that is a sign adds no token.
  case h_3 =>
    split at h
    · cases h
      exact Or.inl rfl
    · cases h
      exact Or.inr ⟨_, rfl, .binary .add⟩
  -- A minus that is a sign adds one of its own.
  case h_4 =>
    split at h
    · cases h
      exact Or.inr ⟨_, rfl, .negation⟩
    · cases h
      exact Or.inr ⟨_, rfl, .binary .subtract⟩
  case h_13 =>
    split at h
    · cases h
      exact Or.inr ⟨_, rfl, .operand _⟩
    · cases h
  case h_1 =>
    cases h
    exact Or.inr ⟨_, rfl, .openParenthesis⟩
  case h_2 =>
    cases h
    exact Or.inr ⟨_, rfl, .closeParenthesis⟩
  all_goals
    cases h
    exact Or.inr ⟨_, rfl, .binary _⟩

/-- The loop leaves the tokens it has and adds only tokens of this kind. -/
theorem tokenizeFrom_lexed (input : List UInt8) (index : Nat) (tokens : List Token)
    (htokens : ∀ token ∈ tokens, Lexed token) {result : List Token}
    (h : tokenizeFrom input index tokens = some result) : ∀ token ∈ result, Lexed token := by
  induction index, tokens using tokenizeFrom.induct input with
  | case1 index tokens hlt tokens' moved hread ih =>
      rw [tokenizeFrom_read hlt hread] at h
      refine ih (fun token hmem => ?_) h
      rcases readToken_lexed hread with rfl | ⟨new, rfl, hnew⟩
      · exact htokens token hmem
      · rcases List.mem_append.mp hmem with hmem | hmem
        · exact htokens token hmem
        · rw [List.mem_singleton.mp hmem]
          exact hnew
  | case2 index tokens hlt hread =>
      rw [tokenizeFrom_error hlt hread] at h
      cases h
  | case3 index tokens hdone =>
      rw [tokenizeFrom_done tokens (Nat.not_lt.mp hdone)] at h
      cases h
      exact htokens

/-- All tokens of an expression are of this kind. -/
theorem tokenize_lexed (input : List UInt8) : ∀ token ∈ tokenize input, Lexed token := by
  intro token hmem
  unfold tokenize at hmem
  cases h : tokenizeFrom input 0 [] with
  | none =>
      rw [h] at hmem
      cases hmem
  | some tokens =>
      rw [h] at hmem
      exact tokenizeFrom_lexed input 0 [] (fun _ h => nomatch h) h token hmem

end Calculator

end CodingChallenges
