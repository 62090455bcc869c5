import CodingChallenges.Calculator.Postfix

/-!
# The Infix Grammar

The expressions the calculator is for, how they are written, and that the
calculator finds the tree of each of them.

The grammar has one level for each strength of binding. A sum is a chain of products
that associates to the left, a product is a chain of powers that does so too, a power
associates to the right, and a factor is what binds tighter than every binary
operator: an operand, a parenthesised sum, a function of one, or a negated factor.

The conversion has no grammar, only a stack. What connects the two is what a part of
an expression leaves behind: some of its tokens are on the output and the others
wait, and together they are the postfix form of the part. Those that wait bind at
least as tightly as the level of the part, so an operator outside the part sends
all of them to the output, and what waited before the part is not touched because
it binds less tightly.

## Main definitions

* `Expression`: A syntax tree.
* `Infix`: The token sequences of an expression, at each level.
* `Expression.postorder`, `Expression.tree`: Its postfix form and its tree.
* `Waits`, `Holds`: What waits after a part, and what may wait before it.

## Theorems

* `popOperators_waiting`: An operator takes what waits down to what holds.
* `Infix.converts`: What the conversion of a part leaves.
* `buildNodes_postorder`: The tree of a postfix form.
* `buildTree_infixToPostfix`: The tree of an expression is found.
-/

namespace CodingChallenges

namespace Calculator

/-- The expressions that infix sequences stand for. -/
inductive Expression where
  | operand (text : List UInt8)
  | negation (e : Expression)
  | function (fn : FunctionType) (e : Expression)
  | binary (op : BinaryOperatorType) (left right : Expression)
deriving DecidableEq, Repr

namespace Token

/-- The token of a literal. -/
def ofOperand (text : List UInt8) : Token := ⟨.operand, .none, some (.text text)⟩

/-- The token of a sign. -/
def ofNegation : Token := ⟨.unaryOperator, .right, some (.unaryOperator .negate)⟩

/-- The token of a function. -/
def ofFunction (fn : FunctionType) : Token := ⟨.function, .none, some (.function fn)⟩

/-- The token of `(`. -/
def openParenthesis : Token := ⟨.leftParentheses, .none, none⟩

/-- The token of `)`. -/
def closeParenthesis : Token := ⟨.rightParentheses, .none, none⟩

/-- The associativity with which the tokenizer marks an operator. -/
def associativityOf : BinaryOperatorType → AssociativityType
  | .exponent => .right
  | _ => .left

/-- The token of a binary operator. -/
def ofBinary (op : BinaryOperatorType) : Token :=
  ⟨.binaryOperator, associativityOf op, some (.binaryOperator op)⟩

end Token

open Token

/-- How tightly a part of an expression binds. -/
inductive Level where
  | sum
  | product
  | power
  | factor
deriving DecidableEq, Repr

/-- The grammar: the token sequences of an expression at each level. -/
inductive Infix : Level → List Token → Expression → Prop
  | operand (text : List UInt8) : Infix .factor [ofOperand text] (.operand text)
  | parenthesised {tokens : List Token} {e : Expression} :
      Infix .sum tokens e →
      Infix .factor (openParenthesis :: tokens ++ [closeParenthesis]) e
  | function (fn : FunctionType) {tokens : List Token} {e : Expression} :
      Infix .sum tokens e →
      Infix .factor (ofFunction fn :: openParenthesis :: tokens ++ [closeParenthesis])
        (.function fn e)
  | negation {tokens : List Token} {e : Expression} :
      Infix .factor tokens e → Infix .factor (ofNegation :: tokens) (.negation e)
  | factor {tokens : List Token} {e : Expression} : Infix .factor tokens e → Infix .power tokens e
  | power {first second : List Token} {left right : Expression} :
      Infix .factor first left → Infix .power second right →
      Infix .power (first ++ ofBinary .exponent :: second) (.binary .exponent left right)
  | ofPower {tokens : List Token} {e : Expression} :
      Infix .power tokens e → Infix .product tokens e
  | product {op : BinaryOperatorType} {first second : List Token} {left right : Expression} :
      op = .multiply ∨ op = .divide → Infix .product first left → Infix .power second right →
      Infix .product (first ++ ofBinary op :: second) (.binary op left right)
  | ofProduct {tokens : List Token} {e : Expression} :
      Infix .product tokens e → Infix .sum tokens e
  | sum {op : BinaryOperatorType} {first second : List Token} {left right : Expression} :
      op = .add ∨ op = .subtract → Infix .sum first left → Infix .product second right →
      Infix .sum (first ++ ofBinary op :: second) (.binary op left right)

namespace Expression

/-- The tokens of an expression with each operator behind its operands. -/
def postorder : Expression → List Token
  | operand text => [ofOperand text]
  | negation e => e.postorder ++ [ofNegation]
  | function fn e => e.postorder ++ [ofFunction fn]
  | binary op left right => left.postorder ++ right.postorder ++ [ofBinary op]

/-- The tree of an expression. An operator with one operand has it on the left. -/
def tree : Expression → TreeNode
  | operand text => .node (ofOperand text) .null .null
  | negation e => .node ofNegation e.tree .null
  | function fn e => .node (ofFunction fn) e.tree .null
  | binary op left right => .node (ofBinary op) left.tree right.tree

theorem postorder_ne_nil (e : Expression) : e.postorder ≠ [] := by
  cases e with
  | operand text => exact List.cons_ne_nil _ _
  | _ => exact List.append_ne_nil_of_right_ne_nil _ (List.cons_ne_nil _ _)

end Expression

/-- The least precedence of a binary operator at a level. At the level of factors
    there is none. -/
def Level.precedence : Level → Nat
  | .sum => 1
  | .product => 2
  | .power => 3
  | .factor => 4

/-- A token that may wait after a part of the level: a negation, or an operator of at
    least its precedence. -/
def Waits (level : Level) (token : Token) : Prop :=
  token = ofNegation ∨
    ∃ op, token = ofBinary op ∧ level.precedence ≤ getPrecedenceBinaryOperator op

/-- The operator that arrives does not send what waits to the output. -/
def Stops (op : BinaryOperatorType) : List Token → Prop
  | [] => True
  | token :: _ => token.type ≠ .unaryOperator ∧
      (token.type = .binaryOperator → shouldPushStackToken token (ofBinary op) = .ok false)

/-- What waits before a part of the level stays while the part is converted: no
    operator of the part takes it, and no parenthesis of the part closes a function of
    it. -/
structure Holds (level : Level) (stack : List Token) : Prop where
  stops : ∀ op, level.precedence ≤ getPrecedenceBinaryOperator op → Stops op stack
  noFunction : ∀ token rest, stack = token :: rest → token.type ≠ .function

/-- The waiting operator goes to the output when the other arrives. -/
def Popped (op : BinaryOperatorType) (token : Token) : Prop :=
  (token.type = .unaryOperator ∨ token.type = .binaryOperator) ∧
    shouldPushStackToken token (ofBinary op) = .ok true

/-- What the conversion of a part of the level leaves: the beginning of its postfix form
    on the output, and the rest of it waiting. -/
def Converts (level : Level) (tokens : List Token) (e : Expression) : Prop :=
  ∀ output stack, Holds level stack →
    ∃ emitted waiting, convert ⟨output, stack⟩ tokens = .ok ⟨output ++ emitted, waiting ++ stack⟩ ∧
      emitted ++ waiting = e.postorder ∧ ∀ token ∈ waiting, Waits level token

/-- Of two binary operators the one on the stack goes first if it binds tighter, or as
    tightly and the other associates to the left. -/
theorem shouldPushStackToken_binary (op' op : BinaryOperatorType) :
    shouldPushStackToken (ofBinary op') (ofBinary op) =
      .ok (decide (getPrecedenceBinaryOperator op < getPrecedenceBinaryOperator op' ∨
        (getPrecedenceBinaryOperator op' = getPrecedenceBinaryOperator op ∧
          associativityOf op = .left))) := by
  cases op' <;> cases op <;> rfl

/-- A negation takes nothing from the stack. -/
theorem shouldPushStackToken_negation (stackToken : Token) :
    shouldPushStackToken stackToken ofNegation = .ok false := by
  have htype : ofNegation.type ≠ .binaryOperator := by decide
  rw [shouldPushStackToken, if_neg (fun h => htype h.2), if_neg (fun h => htype h.2)]

theorem popped_negation (op : BinaryOperatorType) : Popped op ofNegation :=
  ⟨Or.inl rfl, rfl⟩

theorem popped_binary {op' op : BinaryOperatorType}
    (h : getPrecedenceBinaryOperator op < getPrecedenceBinaryOperator op' ∨
      (getPrecedenceBinaryOperator op' = getPrecedenceBinaryOperator op ∧
        associativityOf op = .left)) :
    Popped op (ofBinary op') := by
  refine ⟨Or.inr rfl, ?_⟩
  rw [shouldPushStackToken_binary, decide_eq_true h]

/-- What waits after a part goes to the output when an operator arrives that binds less
    tightly than the part, or as tightly and associates to the left. -/
theorem Waits.popped {level : Level} {token : Token} {op : BinaryOperatorType}
    (h : Waits level token)
    (hop : getPrecedenceBinaryOperator op < level.precedence ∨
      (getPrecedenceBinaryOperator op = level.precedence ∧ associativityOf op = .left)) :
    Popped op token := by
  rcases h with rfl | ⟨op', rfl, hle⟩
  · exact popped_negation op
  · apply popped_binary
    rcases hop with hlt | ⟨heq, hleft⟩
    · exact Or.inl (by omega)
    · by_cases hsame : getPrecedenceBinaryOperator op' = getPrecedenceBinaryOperator op
      · exact Or.inr ⟨hsame, hleft⟩
      · exact Or.inl (by omega)

theorem Waits.mono {level level' : Level} {token : Token} (h : Waits level token)
    (hle : level'.precedence ≤ level.precedence) : Waits level' token := by
  rcases h with rfl | ⟨op, rfl, hop⟩
  · exact Or.inl rfl
  · exact Or.inr ⟨op, rfl, Nat.le_trans hle hop⟩

/-- A closing parenthesis is not among what waits, nor is an opening one. -/
theorem Waits.type_ne {level : Level} {token : Token} (h : Waits level token) :
    token.type ≠ .leftParentheses := by
  rcases h with rfl | ⟨op, rfl, -⟩
  · decide
  · exact (by decide : TokenType.binaryOperator ≠ .leftParentheses)

theorem Holds.mono {level level' : Level} {stack : List Token} (h : Holds level stack)
    (hle : level.precedence ≤ level'.precedence) : Holds level' stack :=
  ⟨fun op hop => h.stops op (Nat.le_trans hle hop), h.noFunction⟩

theorem holds_nil (level : Level) : Holds level [] :=
  ⟨fun _ _ => trivial, fun _ _ h => nomatch h⟩

theorem holds_openParenthesis (level : Level) (stack : List Token) :
    Holds level (openParenthesis :: stack) := by
  refine ⟨fun op _ => ⟨by decide, fun h => absurd h (by decide)⟩, fun token rest h => ?_⟩
  rw [List.cons.injEq] at h
  rw [← h.1]
  decide

/-- A negation holds in front of a factor: the factor has no operator of its own. -/
theorem holds_negation (stack : List Token) : Holds .factor (ofNegation :: stack) := by
  refine ⟨fun op hop => ?_, fun token rest h => ?_⟩
  · exfalso
    cases op <;> exact absurd hop (by decide)
  · rw [List.cons.injEq] at h
    rw [← h.1]
    decide

/-- An operator holds in front of its second operand. -/
theorem holds_binary {op : BinaryOperatorType} {level : Level} (stack : List Token)
    (h : ∀ op', level.precedence ≤ getPrecedenceBinaryOperator op' →
      getPrecedenceBinaryOperator op < getPrecedenceBinaryOperator op' ∨
        (op = .exponent ∧ op' = .exponent)) :
    Holds level (ofBinary op :: stack) := by
  refine ⟨fun op' hop' => ⟨(by decide : TokenType.binaryOperator ≠ .unaryOperator), fun _ => ?_⟩,
    fun token rest htoken => ?_⟩
  · rcases h op' hop' with hlt | ⟨rfl, rfl⟩
    · rw [shouldPushStackToken_binary, decide_eq_false (by omega)]
    · rfl
  · rw [List.cons.injEq] at htoken
    rw [← htoken.1]
    exact (by decide : TokenType.binaryOperator ≠ .function)

/-- An operator that arrives sends what waits to the output, down to what holds. -/
theorem popOperators_waiting {op : BinaryOperatorType} {waiting stack : List Token}
    (hwaiting : ∀ token ∈ waiting, Popped op token) (hstack : Stops op stack)
    (output : List Token) :
    popOperators (ofBinary op) output (waiting ++ stack) = .ok ⟨output ++ waiting, stack⟩ := by
  induction waiting generalizing output with
  | nil =>
      rw [List.nil_append, List.append_nil]
      cases stack with
      | nil => rfl
      | cons token rest =>
          by_cases hbinary : token.type = .binaryOperator
          · rw [popOperators, if_pos (Or.inr hbinary), hstack.2 hbinary]
          · rw [popOperators, if_neg (fun h => h.elim hstack.1 hbinary)]
  | cons token rest ih =>
      rw [List.forall_mem_cons] at hwaiting
      rw [List.cons_append, popOperators, if_pos hwaiting.1.1, hwaiting.1.2]
      simp only []
      rw [ih hwaiting.2, List.append_assoc, List.singleton_append]

/-- A negation that arrives sends nothing to the output. -/
theorem popOperators_negation (output stack : List Token) :
    popOperators ofNegation output stack = .ok ⟨output, stack⟩ := by
  cases stack with
  | nil => rfl
  | cons token rest =>
      rw [popOperators, shouldPushStackToken_negation]
      split <;> rfl

/-- A parenthesis that is closed sends what waits to the output, down to the one that
    was opened. -/
theorem popParentheses_waiting {waiting : List Token} (stack output : List Token)
    (h : ∀ token ∈ waiting, token.type ≠ .leftParentheses) :
    popParentheses output (waiting ++ openParenthesis :: stack) =
      .ok ⟨output ++ waiting, stack⟩ := by
  induction waiting generalizing output with
  | nil =>
      rw [List.append_nil]
      rfl
  | cons token rest ih =>
      rw [List.forall_mem_cons] at h
      rw [List.cons_append, popParentheses, if_neg h.1, ih _ h.2, List.append_assoc,
        List.singleton_append]

namespace Converts

variable {level : Level} {tokens first second : List Token} {e left right : Expression}

theorem operand (text : List UInt8) : Converts .factor [ofOperand text] (.operand text) :=
  fun _ _ _ => ⟨[ofOperand text], [], rfl, rfl, fun _ h => absurd h List.not_mem_nil⟩

/-- A part that binds tightly is one that binds less tightly. -/
theorem mono {level' : Level} (h : Converts level tokens e)
    (hle : level'.precedence ≤ level.precedence) : Converts level' tokens e := by
  intro output stack hstack
  rcases h output stack (hstack.mono hle) with ⟨emitted, waiting, hconvert, hpostorder, hwaits⟩
  exact ⟨emitted, waiting, hconvert, hpostorder, fun token hmem => (hwaits token hmem).mono hle⟩

/-- All of a part is on the output once its parenthesis is closed, and a function in
    front of the parenthesis follows it. -/
theorem close (h : Converts .sum tokens e) (output stack : List Token) :
    convert ⟨output, stack⟩ (openParenthesis :: tokens ++ [closeParenthesis]) =
      .ok (popFunction ⟨output ++ e.postorder, stack⟩) := by
  rcases h output (openParenthesis :: stack) (holds_openParenthesis .sum stack) with
    ⟨emitted, waiting, hconvert, hpostorder, hwaits⟩
  have hopen : convertToken ⟨output, stack⟩ openParenthesis =
      .ok ⟨output, openParenthesis :: stack⟩ := rfl
  have hclose : convertToken ⟨output ++ emitted, waiting ++ openParenthesis :: stack⟩
      closeParenthesis = .ok (popFunction ⟨output ++ e.postorder, stack⟩) := by
    have hpop := popParentheses_waiting stack (output ++ emitted)
      fun token hmem => (hwaits token hmem).type_ne
    rw [List.append_assoc, hpostorder] at hpop
    have htoken : convertToken ⟨output ++ emitted, waiting ++ openParenthesis :: stack⟩
        closeParenthesis = (popParentheses (output ++ emitted)
          (waiting ++ openParenthesis :: stack)).map popFunction := rfl
    rw [htoken, hpop, map_ok]
  rw [List.cons_append, convert_cons, hopen, ok_bind, convert_append, hconvert, ok_bind,
    convert_cons, hclose]
  rfl

theorem parenthesised (h : Converts .sum tokens e) :
    Converts .factor (openParenthesis :: tokens ++ [closeParenthesis]) e := by
  intro output stack hstack
  refine ⟨e.postorder, [], ?_, List.append_nil _, fun _ h => absurd h List.not_mem_nil⟩
  rw [h.close output stack]
  -- What is below the parenthesis is not a function of it.
  cases stack with
  | nil => rfl
  | cons token rest =>
      rw [popFunction_cons, if_neg (hstack.noFunction token rest rfl)]
      rfl

theorem function (fn : FunctionType) (h : Converts .sum tokens e) :
    Converts .factor (ofFunction fn :: openParenthesis :: tokens ++ [closeParenthesis])
      (.function fn e) := by
  intro output stack _
  refine ⟨e.postorder ++ [ofFunction fn], [], ?_, List.append_nil _,
    fun _ h => absurd h List.not_mem_nil⟩
  have hfunction : convertToken ⟨output, stack⟩ (ofFunction fn) =
      .ok ⟨output, ofFunction fn :: stack⟩ := rfl
  have htype : (ofFunction fn).type = .function := rfl
  rw [List.cons_append, convert_cons, hfunction, ok_bind, h.close output (ofFunction fn :: stack),
    popFunction_cons, if_pos htype, List.append_assoc]
  rfl

theorem negation (h : Converts .factor tokens e) :
    Converts .factor (ofNegation :: tokens) (.negation e) := by
  intro output stack _
  rcases h output (ofNegation :: stack) (holds_negation stack) with
    ⟨emitted, waiting, hconvert, hpostorder, hwaits⟩
  refine ⟨emitted, waiting ++ [ofNegation], ?_, ?_, ?_⟩
  · have hpush : convertToken ⟨output, stack⟩ ofNegation = .ok ⟨output, ofNegation :: stack⟩ := by
      have htoken : convertToken ⟨output, stack⟩ ofNegation =
          (popOperators ofNegation output stack).map fun c' =>
            { c' with stack := ofNegation :: c'.stack } := rfl
      rw [htoken, popOperators_negation, map_ok]
    rw [convert_cons, hpush, ok_bind, hconvert, List.append_assoc, List.singleton_append]
  · rw [← List.append_assoc, hpostorder]
    rfl
  · intro token hmem
    rcases List.mem_append.mp hmem with hmem | hmem
    · exact hwaits token hmem
    · exact Or.inl (List.mem_singleton.mp hmem)

/-- An operator between two parts. The first part binds tightly enough for the operator
    to take all of it, and the operator holds in front of the second. -/
theorem binary {op : BinaryOperatorType} {levelLeft levelRight : Level}
    (hlevel : getPrecedenceBinaryOperator op = level.precedence)
    (hleft : level.precedence < levelLeft.precedence ∨
      (levelLeft = level ∧ associativityOf op = .left))
    (hright : ∀ op', levelRight.precedence ≤ getPrecedenceBinaryOperator op' →
      getPrecedenceBinaryOperator op < getPrecedenceBinaryOperator op' ∨
        (op = .exponent ∧ op' = .exponent))
    (hle : level.precedence ≤ levelRight.precedence)
    (hfirst : Converts levelLeft first left) (hsecond : Converts levelRight second right) :
    Converts level (first ++ ofBinary op :: second) (.binary op left right) := by
  intro output stack hstack
  have hleftLe : level.precedence ≤ levelLeft.precedence := by
    rcases hleft with hlt | ⟨rfl, -⟩
    · exact Nat.le_of_lt hlt
    · exact Nat.le_refl _
  rcases hfirst output stack (hstack.mono hleftLe) with
    ⟨emitted, waiting, hconvert, hpostorder, hwaits⟩
  have hpopped : ∀ token ∈ waiting, Popped op token := by
    intro token hmem
    refine (hwaits token hmem).popped ?_
    rcases hleft with hlt | ⟨rfl, hassociativity⟩
    · exact Or.inl (by omega)
    · exact Or.inr ⟨hlevel, hassociativity⟩
  -- The operator sends the first operand to the output and waits for the second.
  have hpush : convertToken ⟨output ++ emitted, waiting ++ stack⟩ (ofBinary op) =
      .ok ⟨output ++ left.postorder, ofBinary op :: stack⟩ := by
    have htoken : convertToken ⟨output ++ emitted, waiting ++ stack⟩ (ofBinary op) =
        (popOperators (ofBinary op) (output ++ emitted) (waiting ++ stack)).map fun c' =>
          { c' with stack := ofBinary op :: c'.stack } := rfl
    rw [htoken, popOperators_waiting hpopped (hstack.stops op (by omega)), map_ok,
      List.append_assoc, hpostorder]
  rcases hsecond (output ++ left.postorder) (ofBinary op :: stack) (holds_binary stack hright) with
    ⟨emitted', waiting', hconvert', hpostorder', hwaits'⟩
  refine ⟨left.postorder ++ emitted', waiting' ++ [ofBinary op], ?_, ?_, ?_⟩
  · rw [convert_append, hconvert, ok_bind, convert_cons, hpush, ok_bind, hconvert',
      List.append_assoc, List.append_assoc, List.singleton_append]
  · rw [Expression.postorder, ← hpostorder']
    simp only [List.append_assoc]
  · intro token hmem
    rcases List.mem_append.mp hmem with hmem | hmem
    · exact (hwaits' token hmem).mono hle
    · exact Or.inr ⟨op, List.mem_singleton.mp hmem, by omega⟩

/-- An operator of the level that associates to the left, in front of a part of the next
    level. -/
theorem chain {op : BinaryOperatorType} {next : Level}
    (hlevel : getPrecedenceBinaryOperator op = level.precedence)
    (hleft : associativityOf op = .left) (hnext : next.precedence = level.precedence + 1)
    (hfirst : Converts level first left) (hsecond : Converts next second right) :
    Converts level (first ++ ofBinary op :: second) (.binary op left right) := by
  refine binary hlevel (Or.inr ⟨rfl, hleft⟩) (fun op' hop' => Or.inl ?_) ?_ hfirst hsecond
  · omega
  · omega

end Converts

/-- What the conversion of a part of an expression leaves, by induction on how the
    grammar derives the part. -/
theorem Infix.converts {level : Level} {tokens : List Token} {e : Expression}
    (h : Infix level tokens e) : Converts level tokens e := by
  induction h with
  | operand text => exact Converts.operand text
  | parenthesised _ ih => exact ih.parenthesised
  | function fn _ ih => exact ih.function fn
  | negation _ ih => exact ih.negation
  | factor _ ih => exact ih.mono (by decide)
  | power _ _ ihleft ihright =>
      -- Powers associate to the right, so another power on the left is not taken over.
      refine Converts.binary rfl (Or.inl (by decide)) (fun op' hop' => ?_) (by decide) ihleft
        ihright
      cases op' with
      | exponent => exact Or.inr ⟨rfl, rfl⟩
      | _ => exact absurd hop' (by decide)
  | ofPower _ ih => exact ih.mono (by decide)
  | product hop _ _ ihleft ihright =>
      rcases hop with rfl | rfl
      · exact Converts.chain rfl rfl rfl ihleft ihright
      · exact Converts.chain rfl rfl rfl ihleft ihright
  | ofProduct _ ih => exact ih.mono (by decide)
  | sum hop _ _ ihleft ihright =>
      rcases hop with rfl | rfl
      · exact Converts.chain rfl rfl rfl ihleft ihright
      · exact Converts.chain rfl rfl rfl ihleft ihright

/-- The postfix form of an expression puts its tree on top of the others. -/
theorem buildNodes_postorder (e : Expression) (s : List TreeNode) :
    buildNodes s e.postorder = .ok (e.tree :: s) := by
  induction e generalizing s with
  | operand text => rfl
  | negation e ih =>
      rw [Expression.postorder, buildNodes_append, ih, ok_bind]
      rfl
  | function fn e ih =>
      rw [Expression.postorder, buildNodes_append, ih, ok_bind]
      rfl
  | binary op left right ihleft ihright =>
      rw [Expression.postorder, buildNodes_append, buildNodes_append, ihleft, ok_bind, ihright,
        ok_bind]
      rfl

/-- The tokens of an expression are put into its postfix form. -/
theorem Infix.infixToPostfix_eq {tokens : List Token} {e : Expression}
    (h : Infix .sum tokens e) : infixToPostfix tokens = some e.postorder := by
  rcases h.converts [] [] (holds_nil .sum) with ⟨emitted, waiting, hconvert, hpostorder, -⟩
  rw [infixToPostfix, hconvert]
  simp only [List.nil_append, List.append_nil, hpostorder]

/-- Of every token sequence of the grammar the calculator makes a postfix sequence that
    is not empty, and of that the syntax tree of the expression. -/
theorem buildTree_infixToPostfix (tokens : List Token) (e : Expression)
    (h : Infix .sum tokens e) :
    ∃ output, infixToPostfix tokens = some output ∧ output ≠ [] ∧
      buildTree output = .ok e.tree := by
  refine ⟨e.postorder, h.infixToPostfix_eq, e.postorder_ne_nil, ?_⟩
  rw [buildTree, buildNodes_postorder, ok_bind]

/-- `-2 ^ 3 ^ sin(4 - 5 * 6)`: the negation binds tighter than the power, and the power
    associates to the right. -/
theorem buildTree_infixToPostfix_power :
    ∃ output, infixToPostfix ([ofNegation, ofOperand [50], ofBinary .exponent, ofOperand [51],
        ofBinary .exponent, ofFunction .sine, openParenthesis, ofOperand [52], ofBinary .subtract,
        ofOperand [53], ofBinary .multiply, ofOperand [54], closeParenthesis]) = some output ∧
      output ≠ [] ∧
      buildTree output = .ok (Expression.binary .exponent (.negation (.operand [50]))
        (.binary .exponent (.operand [51]) (.function .sine (.binary .subtract (.operand [52])
          (.binary .multiply (.operand [53]) (.operand [54])))))).tree := by
  have hproduct : Infix .product [ofOperand [53], ofBinary .multiply, ofOperand [54]]
      (.binary .multiply (.operand [53]) (.operand [54])) :=
    Infix.product (Or.inl rfl) (.ofPower (.factor (.operand [53]))) (.factor (.operand [54]))
  have hsum := Infix.sum (Or.inr rfl) (.ofProduct (.ofPower (.factor (.operand [52])))) hproduct
  have hpower := Infix.power (.operand [51]) (.factor (.function .sine hsum))
  exact buildTree_infixToPostfix _ _
    (.ofProduct (.ofPower (.power (.negation (.operand [50])) hpower)))

end Calculator

end CodingChallenges
