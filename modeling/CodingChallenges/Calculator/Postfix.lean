import CodingChallenges.Library.Outcomes

/-!
# From Tokens to a Tree

How the calculator orders the tokens of an expression and builds a tree from them:
`infix_to_postfix` and the constructor of `Tree` in `calculator.cpp`.

The first goes through the tokens with a stack of those that still wait for an
operand. An operator that arrives sends the waiting operators that bind tighter to
the output; a closing parenthesis sends everything down to the opening one, and
the function in front of that. The second goes through the output with a stack of
trees.

The tokens carry more than their type: an optional value, of which the code expects
that it fits the type. Where it does not, `std::get` throws.

## Main definitions

* `Token`: A token with its associativity and its value.
* `convert`, `infixToPostfix`: The tokens in postfix order.
* `TreeNode`, `buildTree`: The tree of a postfix sequence.
-/

namespace CodingChallenges

namespace Calculator

/-- The kinds of tokens. -/
inductive TokenType where
  | operand
  | binaryOperator
  | unaryOperator
  | function
  | leftParentheses
  | rightParentheses
deriving DecidableEq, Repr

/-- How operators of the same precedence group. -/
inductive AssociativityType where
  | left
  | right
  | none
deriving DecidableEq, Repr

/-- The operators with two operands. -/
inductive BinaryOperatorType where
  | add
  | subtract
  | multiply
  | divide
  | exponent
deriving DecidableEq, Repr

/-- A higher number binds tighter. -/
def getPrecedenceBinaryOperator : BinaryOperatorType → Nat
  | .add => 1
  | .subtract => 1
  | .multiply => 2
  | .divide => 2
  | .exponent => 3

/-- The operators with one operand. -/
inductive UnaryOperatorType where
  | negate
deriving DecidableEq, Repr

/-- The functions that can be called. -/
inductive FunctionType where
  | sine
  | cosine
  | tangent
  | logarithm
  | exponentiation
deriving DecidableEq, Repr

/-- What a token stands for. The text is that of an operand. -/
inductive Value where
  | text (text : List UInt8)
  | binaryOperator (op : BinaryOperatorType)
  | unaryOperator (op : UnaryOperatorType)
  | function (fn : FunctionType)
deriving DecidableEq, Repr

/-- A token, with its value unless it is a parenthesis. -/
structure Token where
  type : TokenType
  associativity : AssociativityType
  value : Option Value
deriving DecidableEq, Repr

/-- Why the loop over the tokens ends early: an error message and an empty result,
    or an exception. -/
inductive Stop where
  | emptyResult
  | badVariantAccess
deriving DecidableEq, Repr

/-- The output so far and the tokens that wait, the last one first. -/
structure Conversion where
  output : List Token
  stack : List Token
deriving DecidableEq, Repr

/-- `std::get` of a binary operator. -/
def getBinaryOperator : Value → Except Stop BinaryOperatorType
  | .binaryOperator op => .ok op
  | _ => .error .badVariantAccess

/-- Whether the operator on top of the stack goes to the output when another arrives. -/
def shouldPushStackToken (stackToken token : Token) : Except Stop Bool :=
  if stackToken.type = .unaryOperator ∧ token.type = .binaryOperator then
    .ok true
  else if stackToken.type = .binaryOperator ∧ token.type = .binaryOperator then
    match stackToken.value, token.value with
    | some stackValue, some value => do
      let stackTokenPrecedence := getPrecedenceBinaryOperator (← getBinaryOperator stackValue)
      let tokenPrecedence := getPrecedenceBinaryOperator (← getBinaryOperator value)
      return stackTokenPrecedence > tokenPrecedence ∨
        (stackTokenPrecedence = tokenPrecedence ∧ token.associativity = .left)
    | _, _ => .error .emptyResult
  else
    .ok false

/-- The operators that go to the output when another arrives. -/
def popOperators (token : Token) (output : List Token) : List Token → Except Stop Conversion
  | [] => .ok ⟨output, []⟩
  | stackToken :: s =>
    if stackToken.type = .unaryOperator ∨ stackToken.type = .binaryOperator then
      match shouldPushStackToken stackToken token with
      | .ok true => popOperators token (output ++ [stackToken]) s
      | .ok false => .ok ⟨output, stackToken :: s⟩
      | .error stop => .error stop
    else
      .ok ⟨output, stackToken :: s⟩

/-- The tokens that go to the output when a parenthesis is closed. -/
def popParentheses (output : List Token) : List Token → Except Stop Conversion
  | [] => .error .emptyResult
  | stackToken :: s =>
    if stackToken.type = .leftParentheses then .ok ⟨output, s⟩
    else popParentheses (output ++ [stackToken]) s

/-- The function in front of a parenthesis that was closed. -/
def popFunction (c : Conversion) : Conversion :=
  match c.stack with
  | stackToken :: s =>
    if stackToken.type = .function then ⟨c.output ++ [stackToken], s⟩ else c
  | [] => c

/-- What is done with a token. -/
def convertToken (c : Conversion) (token : Token) : Except Stop Conversion :=
  match token.type with
  | .operand => .ok { c with output := c.output ++ [token] }
  | .function => .ok { c with stack := token :: c.stack }
  | .unaryOperator | .binaryOperator =>
    (popOperators token c.output c.stack).map fun c' => { c' with stack := token :: c'.stack }
  | .leftParentheses => .ok { c with stack := token :: c.stack }
  | .rightParentheses => (popParentheses c.output c.stack).map popFunction

/-- The loop over the tokens. -/
def convert (c : Conversion) : List Token → Except Stop Conversion
  | [] => .ok c
  | token :: tokens => convertToken c token >>= fun c' => convert c' tokens

/-- The tokens in postfix order: none of them after an error message, and no result at
    all after an exception. -/
def infixToPostfix (tokens : List Token) : Option (List Token) :=
  match convert ⟨[], []⟩ tokens with
  | .ok c => some (c.output ++ c.stack)
  | .error .emptyResult => some []
  | .error .badVariantAccess => none

/-- A tree, or a null pointer. -/
inductive TreeNode where
  | null
  | node (token : Token) (left right : TreeNode)
deriving DecidableEq, Repr

/-- The messages of the `std::length_error` that the constructor throws. -/
inductive LengthError where
  | expectedTwoOperands
  | expectedOneOperand
  | expectedOneElement
deriving DecidableEq, Repr

/-- What is done with a token, given the trees built so far. -/
def buildNode (s : List TreeNode) (token : Token) : Except LengthError (List TreeNode) :=
  match token.type with
  | .binaryOperator =>
    match s with
    | right :: left :: s => .ok (.node token left right :: s)
    | _ => .error .expectedTwoOperands
  | .unaryOperator | .function =>
    match s with
    | operand :: s => .ok (.node token operand .null :: s)
    | [] => .error .expectedOneOperand
  | .operand | .leftParentheses | .rightParentheses => .ok (.node token .null .null :: s)

/-- The loop over the tokens. -/
def buildNodes (s : List TreeNode) : List Token → Except LengthError (List TreeNode)
  | [] => .ok s
  | token :: tokens => buildNode s token >>= fun s' => buildNodes s' tokens

/-- The tree that the constructor builds. -/
def buildTree (tokens : List Token) : Except LengthError TreeNode :=
  buildNodes [] tokens >>= fun
    | [root] => .ok root
    | _ => .error .expectedOneElement

theorem popFunction_cons (output rest : List Token) (token : Token) :
    popFunction ⟨output, token :: rest⟩ =
      if token.type = .function then ⟨output ++ [token], rest⟩ else ⟨output, token :: rest⟩ :=
  rfl

theorem convert_cons (c : Conversion) (token : Token) (tokens : List Token) :
    convert c (token :: tokens) = convertToken c token >>= fun c' => convert c' tokens :=
  rfl

/-- Tokens that follow each other are converted one after the other. -/
theorem convert_append (c : Conversion) (first second : List Token) :
    convert c (first ++ second) = convert c first >>= fun c' => convert c' second := by
  induction first generalizing c with
  | nil => rfl
  | cons token tokens ih =>
      rw [List.cons_append, convert_cons, convert_cons]
      cases convertToken c token with
      | error stop => rfl
      | ok c' =>
          simp only [ok_bind]
          exact ih c'

theorem buildNodes_append (s : List TreeNode) (first second : List Token) :
    buildNodes s (first ++ second) = buildNodes s first >>= fun s' => buildNodes s' second := by
  induction first generalizing s with
  | nil => rfl
  | cons token tokens ih =>
      simp only [List.cons_append, buildNodes]
      cases buildNode s token with
      | error e => rfl
      | ok s' =>
          simp only [ok_bind]
          exact ih s'

end Calculator

end CodingChallenges
