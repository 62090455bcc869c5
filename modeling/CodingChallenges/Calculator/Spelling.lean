import CodingChallenges.Calculator.Layout
import CodingChallenges.Calculator.Malformed
import CodingChallenges.Library.Bytes
import CodingChallenges.Library.Decimal
import Mathlib.Data.List.Chain

/-!
# From the Text to the Value

What the calculator prints for an expression that somebody writes down.

An expression is written as its tokens, with any whitespace in front of each and behind the last.
The numbers are literals that the tokenizer reads whole. Two things have to be minded. A minus
that is the first byte is taken for a sign, and behind whitespace it is not. And of two signs in
a row the second is taken for an operator, so there have to be parentheses between them.

Otherwise the tokens are read as they were written, since nothing that may follow a number
in an expression goes on with it. From the tokens the tree is built, and of the tree the value is
computed, so all that is left to do is to put these together (`main_value`).

## Main definitions

* `Expression.value`: What an expression means.
* `Written`, `Spelled`: How tokens are written.
* `SignsApart`: There are no two signs in a row.
* `main`: The program.

## Theorems

* `evaluateNode_tree`: The tree of an expression has its value.
* `tokenize_spelled`: The tokens are read as they were written.
* `main_value`: The value of an expression is printed.
-/

namespace CodingChallenges

namespace Calculator

open Token

section Values

variable {D : Type} (d : Doubles D)

/-- What an expression means. -/
def Expression.value : Expression → D
  | operand text => d.fromChars text
  | negation e => d.negate e.value
  | function fn e => evaluateFunction d e.value fn
  | binary op left right => evaluateBinaryOperator d left.value right.value op

theorem Expression.tree_ne_null (e : Expression) : e.tree ≠ .null := by
  cases e <;> exact TreeNode.noConfusion

/-- The tree of an expression has its value. -/
theorem evaluateNode_tree (e : Expression) : evaluateNode d e.tree = .ok (e.value d) := by
  induction e with
  | operand text => rfl
  | negation e ih =>
      rw [Expression.tree, evaluateNode_negation d e.tree_ne_null, ih, ok_bind]
      rfl
  | function fn e ih =>
      rw [Expression.tree, evaluateNode_function d fn e.tree_ne_null, ih, ok_bind]
      rfl
  | binary op left right ihleft ihright =>
      rw [Expression.tree, evaluateNode_binary d op left.tree_ne_null, ihleft, ok_bind, ihright,
        ok_bind]
      rfl

/-- The tokens of an expression have its value. -/
theorem evaluate_infix {tokens : List Token} {e : Expression} (h : Infix .sum tokens e) :
    evaluate d tokens = .ok (some (e.value d)) := by
  have hbuild : buildTree e.postorder = .ok e.tree := by
    rw [buildTree, buildNodes_postorder, ok_bind]
  have htree : evaluateTree d e.tree = (evaluateNode d e.tree).map some := by
    cases e <;> rfl
  rw [evaluate, h.infixToPostfix_eq]
  simp only [hbuild, htree, evaluateNode_tree, e.postorder_ne_nil, and_false, if_false]
  rfl

end Values

section Spelling

/-- The name a function is called by. -/
def nameOf : FunctionType → List UInt8
  | .sine => [115, 105, 110]
  | .cosine => [99, 111, 115]
  | .tangent => [116, 97, 110]
  | .logarithm => [108, 111, 103]
  | .exponentiation => [101, 120, 112]

/-- The character of an operator. -/
def symbolOf : BinaryOperatorType → UInt8
  | .add => 43
  | .subtract => 45
  | .multiply => 42
  | .divide => 47
  | .exponent => 94

/-- How a token is written. -/
inductive Written : Token → List UInt8 → Prop
  | operand (l : Literal) : l.Read → Written (ofOperand l.text) l.text
  | negation : Written ofNegation [45]
  | function (fn : FunctionType) : Written (ofFunction fn) (nameOf fn)
  | openParenthesis : Written openParenthesis [40]
  | closeParenthesis : Written closeParenthesis [41]
  | binary (op : BinaryOperatorType) : Written (ofBinary op) [symbolOf op]

/-- The tokens one after the other, with whitespace in front of each and behind the last. -/
inductive Spelled : List Token → List UInt8 → Prop
  | nil {spaces : List UInt8} : (∀ c ∈ spaces, isSpace c = true) → Spelled [] spaces
  | cons {spaces lexeme text : List UInt8} {token : Token} {tokens : List Token} :
      (∀ c ∈ spaces, isSpace c = true) → Written token lexeme → Spelled tokens text →
      Spelled (token :: tokens) (spaces ++ (lexeme ++ text))

/-- No sign stands right behind another. -/
def SignsApart (tokens : List Token) : Prop :=
  tokens.IsChain fun a b => ¬(a.type = .unaryOperator ∧ b.type = .unaryOperator)

/-- A byte with which no number goes on. -/
def EndsNumber (c : UInt8) : Prop :=
  isDigit c = false ∧ c ≠ 46 ∧ c ≠ 101 ∧ c ≠ 69

theorem stops_cons (l : Literal) {c : UInt8} (v : List UInt8) (h : EndsNumber c) :
    l.Stops (c :: v) := by
  rcases h with ⟨hdigit, hdot, he, hE⟩
  refine ⟨fun _ => outside_cons.mpr hdigit, fun _ d v' h => ?_, fun _ _ x v' h => ?_⟩
  · exact absurd (List.cons.inj h).1 hdot
  · have hmark := (List.cons.inj h).1
    rcases x.mark_eq with hx | hx
    · exact absurd (hmark.trans hx) he
    · exact absurd (hmark.trans hx) hE

theorem stops_nil (l : Literal) : l.Stops [] := by
  refine ⟨fun _ => outside_nil, fun _ => nofun, fun _ _ x v' h => ?_⟩
  cases h

/-- What comes behind a number in an expression ends it. -/
theorem Spelled.stops {tokens : List Token} {text : List UInt8} (h : Spelled tokens text)
    (hfits : fits .operator tokens = true) (l : Literal) : l.Stops text := by
  cases h with
  | nil hspaces =>
      cases text with
      | nil => exact stops_nil l
      | cons c spaces => exact Layout.stops_space _ (hspaces c List.mem_cons_self)
  | @cons spaces lexeme text token tokens hspaces hwritten _ =>
      cases spaces with
      | cons c spaces => exact Layout.stops_space _ (hspaces c List.mem_cons_self)
      | nil =>
          rw [fits_cons, Bool.and_eq_true] at hfits
          cases hwritten with
          | closeParenthesis => exact stops_cons l _ (by unfold EndsNumber; decide)
          | binary op => exact stops_cons l _ (by unfold EndsNumber; cases op <;> decide)
          | operand l' => cases hfits.1
          | negation => cases hfits.1
          | function fn => cases hfits.1
          | openParenthesis => cases hfits.1

/-- What is expected behind the tokens that have been read. -/
def expectedBehind (tokens : List Token) : Expected :=
  tokens.getLast?.elim .operand fun token => expectedAfter token.type

/-- Where an operand is expected, a minus is a sign, if it does not stand behind another. -/
theorem isUnary_of_operand {before : List UInt8} {tokens : List Token}
    (hexpected : expectedBehind tokens = .operand) (hbefore : tokens = [] → before = [])
    (hsign : ∀ token ∈ tokens.getLast?, token.type ≠ .unaryOperator) :
    isUnary before.length tokens = true := by
  unfold isUnary
  cases hlast : tokens.getLast? with
  | none =>
      rw [hbefore (List.getLast?_eq_none_iff.mp hlast)]
      rfl
  | some token =>
      have hne := hsign token hlast
      rw [expectedBehind, hlast, Option.elim_some] at hexpected
      rw [Option.any_some, Bool.or_eq_true]
      cases htype : token.type with
      | binaryOperator => exact Or.inr rfl
      | leftParentheses => exact Or.inr rfl
      | unaryOperator => exact absurd htype hne
      | operand => rw [htype] at hexpected; cases hexpected
      | function => rw [htype] at hexpected; cases hexpected
      | rightParentheses => rw [htype] at hexpected; cases hexpected

/-- Where an operator is expected, a sign is one. -/
theorem isUnary_of_operator {before : List UInt8} {tokens : List Token}
    (hexpected : expectedBehind tokens = .operator) (hbehind : tokens ≠ [] → before ≠ []) :
    isUnary before.length tokens = false := by
  unfold isUnary
  cases hlast : tokens.getLast? with
  | none =>
      rw [expectedBehind, hlast] at hexpected
      cases hexpected
  | some token =>
      have htokens : tokens ≠ [] := by
        rintro rfl
        cases hlast
      have hindex : (before.length == 0) = false :=
        beq_eq_false_iff_ne.mpr fun h => hbehind htokens (List.length_eq_zero_iff.mp h)
      rw [expectedBehind, hlast, Option.elim_some] at hexpected
      rw [hindex, Bool.false_or, Option.any_some]
      cases htype : token.type with
      | operand => rfl
      | rightParentheses => rfl
      | binaryOperator => rw [htype] at hexpected; cases hexpected
      | leftParentheses => rw [htype] at hexpected; cases hexpected
      | unaryOperator => rw [htype] at hexpected; cases hexpected
      | function => rw [htype] at hexpected; cases hexpected

/-- The loop reads a token as it was written, if it fits the one before it. -/
theorem tokenizeRest_written {before lexeme text : List UInt8} {token : Token}
    {tokens rest : List Token} (hwritten : Written token lexeme)
    (hfits : fits (expectedBehind tokens) (token :: rest) = true) (hrest : Spelled rest text)
    (hbefore : tokens = [] → token.type = .unaryOperator → before = [])
    (hbehind : tokens ≠ [] → before ≠ [])
    (hsigns : ∀ last ∈ tokens.getLast?,
      ¬(last.type = .unaryOperator ∧ token.type = .unaryOperator)) :
    tokenizeRest before (lexeme ++ text) tokens =
      tokenizeRest (before ++ lexeme) text (tokens ++ [token]) := by
  rw [fits_cons, Bool.and_eq_true] at hfits
  cases hwritten with
  | operand l hread =>
      have hround := tokenizeFrom_literal before l tokens hread (hrest.stops hfits.2 l)
      rw [tokenizeRest, hround, tokenizeRest, List.append_assoc, List.length_append]
  | negation =>
      have hexpected : expectedBehind tokens = .operand := by
        cases h : expectedBehind tokens with
        | operand => rfl
        | operator => rw [h] at hfits; cases hfits.1
        | parenthesis => rw [h] at hfits; cases hfits.1
      have hunary := isUnary_of_operand hexpected (fun h => hbefore h rfl)
        fun last hlast h => hsigns last hlast ⟨h, rfl⟩
      have hround : readToken (before ++ 45 :: text) before.length tokens 45 =
          some (tokens ++ [ofNegation], 0) := if_pos hunary
      exact tokenizeRest_read hround (List.singleton_append ..).symm rfl
  | function fn =>
      have hname : (nameOf fn).length = 3 := by cases fn <;> rfl
      have hround : ∀ c v, nameOf fn ++ text = c :: v → readToken (before ++ c :: v) before.length
          tokens c = some (tokens ++ [ofFunction fn], 2) := by
        intro c v hsplit
        have hcheck : checkSubtring (before ++ c :: v) before.length (nameOf fn) = true := by
          rw [← hsplit, checkSubtring, substr, List.drop_left, List.take_left, beq_self_eq_true]
        cases fn <;> cases hsplit <;> exact if_pos hcheck
      cases hsplit : nameOf fn ++ text with
      | nil => cases fn <;> cases hsplit
      | cons c v => exact tokenizeRest_read (hround c v hsplit) hsplit.symm hname
  | openParenthesis =>
      have hround : readToken (before ++ 40 :: text) before.length tokens 40 =
          some (tokens ++ [openParenthesis], 0) := rfl
      exact tokenizeRest_read hround (List.singleton_append ..).symm rfl
  | closeParenthesis =>
      have hround : readToken (before ++ 41 :: text) before.length tokens 41 =
          some (tokens ++ [closeParenthesis], 0) := rfl
      exact tokenizeRest_read hround (List.singleton_append ..).symm rfl
  | binary op =>
      have hexpected : expectedBehind tokens = .operator := by
        cases h : expectedBehind tokens with
        | operator => rfl
        | operand => rw [h] at hfits; cases hfits.1
        | parenthesis => rw [h] at hfits; cases hfits.1
      have hbinary : ¬ isUnary before.length tokens = true := by
        rw [isUnary_of_operator hexpected hbehind]
        exact Bool.false_ne_true
      have hround : readToken (before ++ symbolOf op :: text) before.length tokens (symbolOf op) =
          some (tokens ++ [ofBinary op], 0) := by
        cases op with
        | add => exact if_neg hbinary
        | subtract => exact if_neg hbinary
        | multiply => rfl
        | divide => rfl
        | exponent => rfl
      exact tokenizeRest_read hround (List.singleton_append ..).symm rfl

theorem Written.ne_nil {token : Token} {lexeme : List UInt8} (h : Written token lexeme) :
    lexeme ≠ [] := by
  cases h with
  | operand l =>
      rcases head_literal l with ⟨d, ds, htext, -⟩
      rw [htext]
      exact List.cons_ne_nil _ _
  | function fn => cases fn <;> exact List.cons_ne_nil _ _
  | _ => exact List.cons_ne_nil _ _

/-- From any place on, all tokens are read as they were written. -/
theorem tokenizeRest_spelled {before text : List UInt8} {tokens rest : List Token}
    (hspelled : Spelled rest text) (hfits : fits (expectedBehind tokens) rest = true)
    (hbefore : tokens = [] → before = [] ∧
      (rest.head?.map Token.type = some .unaryOperator → Outside isSpace text))
    (hbehind : tokens ≠ [] → before ≠ []) (hsigns : SignsApart (tokens ++ rest)) :
    tokenizeRest before text tokens = some (tokens ++ rest) := by
  induction hspelled generalizing before tokens with
  | @nil spaces hspaces =>
      have hread := tokenizeRest_spaces before [] tokens hspaces
      rw [List.append_nil, tokenizeRest_nil] at hread
      rw [hread, List.append_nil]
  | @cons spaces lexeme text token rest hspaces hwritten hrest ih =>
      have hstart : tokens = [] → token.type = .unaryOperator → before ++ spaces = [] := by
        intro hnil htype
        rcases hbefore hnil with ⟨rfl, houtside⟩
        cases spaces with
        | nil => rfl
        | cons c spaces =>
            have hspace := houtside (congrArg some htype) c rfl
            rw [hspaces c List.mem_cons_self] at hspace
            cases hspace
      have hapart : ∀ last ∈ tokens.getLast?,
          ¬(last.type = .unaryOperator ∧ token.type = .unaryOperator) := fun last hlast =>
        (List.isChain_append.mp hsigns).2.2 last hlast token rfl
      have hexpected : expectedBehind (tokens ++ [token]) = expectedAfter token.type := by
        simp only [expectedBehind, List.getLast?_append, List.getLast?_singleton, Option.some_or,
          Option.elim_some]
      rw [tokenizeRest_spaces before _ tokens hspaces,
        tokenizeRest_written hwritten hfits hrest hstart
          (fun hne hnil => hbehind hne (List.append_eq_nil_iff.mp hnil).1) hapart]
      have hall : tokens ++ token :: rest = tokens ++ [token] ++ rest := by simp only
          [List.append_assoc, List.cons_append, List.nil_append]
      rw [hall] at hsigns ⊢
      refine ih ?_ (fun hnil => absurd hnil (by simp only [List.append_eq_nil_iff,
          List.cons_ne_self, and_false, not_false_eq_true])) (fun _ => ?_) hsigns
      · rw [hexpected]
        rw [fits_cons, Bool.and_eq_true] at hfits
        exact hfits.2
      · exact List.append_ne_nil_of_right_ne_nil _ hwritten.ne_nil

/-- The tokens are read as they were written. -/
theorem tokenize_spelled {tokens : List Token} {text : List UInt8} (hspelled : Spelled tokens text)
    (hfits : fits .operand tokens = true) (hsigns : SignsApart tokens)
    (hfirst : tokens.head?.map Token.type = some .unaryOperator → Outside isSpace text) :
    tokenize text = tokens := by
  have hread : tokenizeRest [] text [] = some tokens :=
    tokenizeRest_spelled hspelled hfits (fun _ => ⟨rfl, hfirst⟩) (fun h => absurd rfl h) hsigns
  have hloop : tokenizeFrom text 0 [] = some tokens := hread
  rw [tokenize, hloop, Option.getD_some]

end Spelling

section Program

variable {D : Type} (d : Doubles D)

/-- The exit code, and what is printed on the standard output. How a number is printed is a
    parameter. -/
def main (print : D → List UInt8) (args : List (List UInt8)) :
    Except Exception (Nat × List UInt8) :=
  match args with
  | [inputExpression] => do
    let input := bytes "Input expression: " ++ inputExpression ++ [10]
    let result ← evaluate d (tokenize inputExpression)
    return (0, input ++ result.elim [] fun value => bytes "Result: " ++ print value ++ [10])
  | _ => return (1, [])

/-- The value of an expression is printed, however it is written. -/
theorem main_value (print : D → List UInt8) {tokens : List Token} {e : Expression}
    {text : List UInt8} (hgrammar : Infix .sum tokens e) (hspelled : Spelled tokens text)
    (hsigns : SignsApart tokens)
    (hfirst : tokens.head?.map Token.type = some .unaryOperator → Outside isSpace text) :
    main d print [text] =
      .ok (0, bytes "Input expression: " ++ text ++ [10] ++
        (bytes "Result: " ++ print (e.value d) ++ [10])) := by
  have hfits : fits .operand tokens = true := by
    have happend := hgrammar.fits_append []
    rwa [List.append_nil] at happend
  rw [main, tokenize_spelled hspelled hfits hsigns hfirst, evaluate_infix d hgrammar]
  rfl

/-- `-2 *3` -/
theorem main_value_product :
    main wholeNumbers signedDigits [[45, 50, 32, 42, 51]] =
      .ok (0, bytes "Input expression: " ++ [45, 50, 32, 42, 51] ++ [10] ++
        (bytes "Result: " ++ signedDigits (-6) ++ [10])) := by
  have hread : ∀ d, 49 ≤ d → d ≤ 57 → Written (ofOperand [d]) [d] := fun d hlow hhigh =>
    .operand ⟨[d], none, none, .digits hlow hhigh (List.forall_mem_nil _), by simp only
        [Option.mem_def, reduceCtorEq, ne_eq, IsEmpty.forall_iff, implies_true], by simp only
        [Option.mem_def, reduceCtorEq, IsEmpty.forall_iff, implies_true]⟩
      fun _ => rfl
  have hnil : ∀ c ∈ ([] : List UInt8), isSpace c = true := List.forall_mem_nil _
  have hblank : ∀ c ∈ ([32] : List UInt8), isSpace c = true :=
    List.forall_mem_singleton.mpr (by decide)
  have hspelled : Spelled [ofNegation, ofOperand [50], ofBinary .multiply, ofOperand [51]]
      [45, 50, 32, 42, 51] :=
    .cons hnil .negation (.cons hnil (hread 50 (by decide) (by decide))
      (.cons hblank (.binary .multiply)
        (.cons hnil (hread 51 (by decide) (by decide)) (.nil hnil))))
  exact main_value wholeNumbers signedDigits
    (.ofProduct (.product (Or.inl rfl) (.ofPower (.factor (.negation (.operand [50]))))
      (.factor (.operand [51])))) hspelled (by unfold SignsApart; decide)
    fun _ => outside_cons.mpr (by decide)

end Program

end Calculator

end CodingChallenges
