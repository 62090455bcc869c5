import CodingChallenges.Calculator.Tokenizer
import Mathlib.Algebra.Ring.Int.Defs

/-!
# Evaluation

How the calculator computes the value of an expression: the member functions of `Tree`
and `evaluate` in `calculator.cpp`.

The arithmetic of `double` is a parameter. What is modelled is what is evaluated in which
order, and where it ends with an exception instead: `value()` of an optional without a
value and `std::get` of another alternative throw. Of all exceptions `evaluate` catches
only the `std::length_error` of the constructor of `Tree`.

## Main definitions

* `Doubles`: The arithmetic of `double`.
* `evaluateNode`: The value of a tree.
* `evaluate`: The value of a token sequence.
* `TreeNode.postorder`, `TreeNode.leaves`, `Built`: What is known of a tree that was built.

## Theorems

* `buildTree_built`: A tree that was built has the tokens it was built from.
* `evaluateNode_ok`, `no_parentheses_of_evaluateNode`: Which trees have a value.
* `Built.leaves_operand`: What the leaves of a tree are.
-/

namespace CodingChallenges

namespace Calculator

open Token

/-- The arithmetic of `double`, and `std::from_chars` into a variable that is zero. -/
structure Doubles (D : Type) where
  zero : D
  piValue : D
  oneHundredEighty : D
  fromChars : List UInt8 → D
  add : D → D → D
  subtract : D → D → D
  multiply : D → D → D
  divide : D → D → D
  pow : D → D → D
  negate : D → D
  sin : D → D
  cos : D → D
  tan : D → D
  log : D → D
  exp : D → D

/-- Whole numbers in place of `double`, for expressions without functions. -/
def wholeNumbers : Doubles Int where
  zero := 0
  piValue := 3
  oneHundredEighty := 180
  fromChars text := text.foldl (fun n c => 10 * n + (c.toNat - 48)) 0
  add := (· + ·)
  subtract := (· - ·)
  multiply := (· * ·)
  divide := (· / ·)
  pow value1 value2 := value1 ^ value2.toNat
  negate := (-·)
  sin := id
  cos := id
  tan := id
  log := id
  exp := id

/-- The exceptions that nothing catches. -/
inductive Exception where
  | badOptionalAccess
  | badVariantAccess
deriving DecidableEq, Repr

section Evaluation

variable {D : Type} (d : Doubles D)

/-- The functions of an angle take degrees. -/
def toRadians (degrees : D) : D :=
  d.divide (d.multiply d.piValue degrees) d.oneHundredEighty

/-- `evaluate_binary_operator`, on the values of both operands. -/
def evaluateBinaryOperator (value1 value2 : D) : BinaryOperatorType → D
  | .add => d.add value1 value2
  | .subtract => d.subtract value1 value2
  | .multiply => d.multiply value1 value2
  | .divide => d.divide value1 value2
  | .exponent => d.pow value1 value2

/-- `evaluate_unary_operator`. -/
def evaluateUnaryOperator (value : D) : UnaryOperatorType → D
  | .negate => d.negate value

/-- `evaluate_function`. Only angles are converted. -/
def evaluateFunction (value : D) : FunctionType → D
  | .sine => d.sin (toRadians d value)
  | .cosine => d.cos (toRadians d value)
  | .tangent => d.tan (toRadians d value)
  | .logarithm => d.log value
  | .exponentiation => d.exp value

/-- `m_value.value()` -/
def valueOf (token : Token) : Except Exception Value :=
  match token.value with
  | some value => .ok value
  | none => .error .badOptionalAccess

/-- `std::get` of each alternative. -/
def textOf : Value → Except Exception (List UInt8)
  | .text text => .ok text
  | _ => .error .badVariantAccess

/-- `std::get` of the binary operator. -/
def binaryOperatorOf : Value → Except Exception BinaryOperatorType
  | .binaryOperator op => .ok op
  | _ => .error .badVariantAccess

/-- `std::get` of the unary operator. -/
def unaryOperatorOf : Value → Except Exception UnaryOperatorType
  | .unaryOperator op => .ok op
  | _ => .error .badVariantAccess

/-- `std::get` of the function. -/
def functionOf : Value → Except Exception FunctionType
  | .function fn => .ok fn
  | _ => .error .badVariantAccess

/-- The value of a tree. A node without children is taken for an operand, whatever its
    type. -/
def evaluateNode : TreeNode → Except Exception D
  | .null => .ok d.zero
  | .node token .null .null =>
    valueOf token >>= textOf >>= fun text => .ok (d.fromChars text)
  | .node token left right =>
    match token.type with
    | .binaryOperator => do
      let operand1 ← evaluateNode left
      let operand2 ← evaluateNode right
      let op ← valueOf token >>= binaryOperatorOf
      return evaluateBinaryOperator d operand1 operand2 op
    | .unaryOperator => do
      let operand ← evaluateNode left
      let op ← valueOf token >>= unaryOperatorOf
      return evaluateUnaryOperator d operand op
    | .function => do
      let operand ← evaluateNode left
      let fn ← valueOf token >>= functionOf
      return evaluateFunction d operand fn
    | .operand | .leftParentheses | .rightParentheses => .ok d.zero

/-- The member function without a parameter. -/
def evaluateTree : TreeNode → Except Exception (Option D)
  | .null => .ok none
  | root => (evaluateNode d root).map some

/-- `evaluate`: there is no value without a tree, and an operator without its operand throws. -/
def evaluate (tokens : List Token) : Except Exception (Option D) :=
  match infixToPostfix tokens with
  | none => .error .badVariantAccess
  | some postfixTokenSequence =>
    if 0 < tokens.length ∧ postfixTokenSequence = [] then .ok none
    else match buildTree postfixTokenSequence with
      | .ok root => evaluateTree d root
      | .error _ => .ok none

end Evaluation

namespace TreeNode

/-- The tokens of a tree, each behind those of its children. -/
def postorder : TreeNode → List Token
  | null => []
  | node token left right => left.postorder ++ right.postorder ++ [token]

/-- The tokens of the nodes without children. -/
def leaves : TreeNode → List Token
  | null => []
  | node token null null => [token]
  | node _ left right => left.leaves ++ right.leaves

end TreeNode

/-- The trees that can be built: the children of a node are as many as its type says. -/
inductive Built : TreeNode → Prop
  | leaf {token : Token} :
      token.type = .operand ∨ token.type = .leftParentheses ∨ token.type = .rightParentheses →
      Built (.node token .null .null)
  | unary {token : Token} {operand : TreeNode} :
      token.type = .unaryOperator ∨ token.type = .function → Built operand →
      Built (.node token operand .null)
  | binary {token : Token} {left right : TreeNode} :
      token.type = .binaryOperator → Built left → Built right → Built (.node token left right)

theorem Built.ne_null {tree : TreeNode} (h : Built tree) : tree ≠ .null := by
  cases h <;> exact TreeNode.noConfusion

/-- The tokens of a stack of trees, the last one first. -/
def stackTokens : List TreeNode → List Token
  | [] => []
  | tree :: s => stackTokens s ++ tree.postorder

/-- A token that is put on the stack is the last of all tokens there. -/
theorem buildNode_built {s s' : List TreeNode} {token : Token} (hs : ∀ tree ∈ s, Built tree)
    (h : buildNode s token = .ok s') :
    (∀ tree ∈ s', Built tree) ∧ stackTokens s' = stackTokens s ++ [token] := by
  have hleaf : token.type = .operand ∨ token.type = .leftParentheses ∨
      token.type = .rightParentheses → s' = .node token .null .null :: s →
      (∀ tree ∈ s', Built tree) ∧ stackTokens s' = stackTokens s ++ [token] := by
    rintro htype rfl
    exact ⟨List.forall_mem_cons.mpr ⟨.leaf htype, hs⟩, rfl⟩
  have hunary : ∀ operand rest, token.type = .unaryOperator ∨ token.type = .function →
      s = operand :: rest → s' = .node token operand .null :: rest →
      (∀ tree ∈ s', Built tree) ∧ stackTokens s' = stackTokens s ++ [token] := by
    rintro operand rest htype rfl rfl
    rw [List.forall_mem_cons] at hs
    refine ⟨List.forall_mem_cons.mpr ⟨.unary htype hs.1, hs.2⟩, ?_⟩
    simp only [stackTokens, TreeNode.postorder, List.append_nil, List.append_assoc]
  -- In each case the trees that are taken are the ones whose tokens come last.
  unfold buildNode at h
  split at h
  case h_1 htype =>
    split at h
    · cases h
      rw [List.forall_mem_cons, List.forall_mem_cons] at hs
      refine ⟨List.forall_mem_cons.mpr ⟨.binary htype hs.2.1 hs.1, hs.2.2⟩, ?_⟩
      simp only [stackTokens, TreeNode.postorder, List.append_assoc]
    · cases h
  case h_2 htype =>
    split at h
    · cases h
      exact hunary _ _ (Or.inl htype) rfl rfl
    · cases h
  case h_3 htype =>
    split at h
    · cases h
      exact hunary _ _ (Or.inr htype) rfl rfl
    · cases h
  case h_4 htype => exact hleaf (Or.inl htype) (Except.ok.inj h).symm
  case h_5 htype => exact hleaf (Or.inr (Or.inl htype)) (Except.ok.inj h).symm
  case h_6 htype => exact hleaf (Or.inr (Or.inr htype)) (Except.ok.inj h).symm

theorem buildNodes_built {tokens : List Token} {s s' : List TreeNode}
    (hs : ∀ tree ∈ s, Built tree) (h : buildNodes s tokens = .ok s') :
    (∀ tree ∈ s', Built tree) ∧ stackTokens s' = stackTokens s ++ tokens := by
  induction tokens generalizing s with
  | nil =>
      cases h
      exact ⟨hs, (List.append_nil _).symm⟩
  | cons token tokens ih =>
      rcases bind_eq_ok.mp h with ⟨s'', hnode, hnodes⟩
      rcases buildNode_built hs hnode with ⟨hs'', htokens⟩
      rcases ih hs'' hnodes with ⟨hbuilt, hall⟩
      rw [htokens, List.append_assoc, List.singleton_append] at hall
      exact ⟨hbuilt, hall⟩

/-- A tree that was built has the tokens it was built from. -/
theorem buildTree_built {tokens : List Token} {root : TreeNode} (h : buildTree tokens = .ok root) :
    Built root ∧ root.postorder = tokens := by
  rcases bind_eq_ok.mp h with ⟨s, hnodes, hroot⟩
  rcases buildNodes_built (s := []) (by simp only [List.not_mem_nil, IsEmpty.forall_iff,
      implies_true]) hnodes with ⟨hbuilt, htokens⟩
  split at hroot
  · cases hroot
    exact ⟨hbuilt _ List.mem_cons_self, htokens⟩
  · cases hroot

namespace Lexed

variable {token : Token}

theorem eq_operand (h : Lexed token) (htype : token.type = .operand) :
    ∃ text, token = ofOperand text := by
  cases h with
  | operand text => exact ⟨text, rfl⟩
  | _ => cases htype

theorem eq_negation (h : Lexed token) (htype : token.type = .unaryOperator) :
    token = ofNegation := by
  cases h with
  | negation => rfl
  | _ => cases htype

theorem eq_function (h : Lexed token) (htype : token.type = .function) :
    ∃ fn, token = ofFunction fn := by
  cases h with
  | function fn => exact ⟨fn, rfl⟩
  | _ => cases htype

theorem eq_binary (h : Lexed token) (htype : token.type = .binaryOperator) :
    ∃ op, token = ofBinary op := by
  cases h with
  | binary op => exact ⟨op, rfl⟩
  | _ => cases htype

/-- A parenthesis has no value. -/
theorem value_parenthesis (h : Lexed token)
    (htype : token.type = .leftParentheses ∨ token.type = .rightParentheses) :
    token.value = none := by
  cases h with
  | openParenthesis => rfl
  | closeParenthesis => rfl
  | _ => rcases htype with htype | htype <;> cases htype

end Lexed

section Evaluation

variable {D : Type} (d : Doubles D) {operand left right : TreeNode}

theorem evaluateNode_negation (h : operand ≠ .null) :
    evaluateNode d (.node ofNegation operand .null) =
      evaluateNode d operand >>= fun v => .ok (evaluateUnaryOperator d v .negate) := by
  cases operand with
  | null => exact absurd rfl h
  | node token l r => rfl

theorem evaluateNode_function (fn : FunctionType) (h : operand ≠ .null) :
    evaluateNode d (.node (ofFunction fn) operand .null) =
      evaluateNode d operand >>= fun v => .ok (evaluateFunction d v fn) := by
  cases operand with
  | null => exact absurd rfl h
  | node token l r => rfl

theorem evaluateNode_binary (op : BinaryOperatorType) (h : left ≠ .null) :
    evaluateNode d (.node (ofBinary op) left right) =
      evaluateNode d left >>= fun v1 => evaluateNode d right >>= fun v2 =>
        .ok (evaluateBinaryOperator d v1 v2 op) := by
  cases left with
  | null => exact absurd rfl h
  | node token l r => rfl

theorem evaluateTree_built {root : TreeNode} (h : Built root) :
    evaluateTree d root = (evaluateNode d root).map some := by
  cases root with
  | null => exact absurd rfl h.ne_null
  | node token left right => rfl

/-- Without parentheses in it a tree has a value. -/
theorem evaluateNode_ok {tree : TreeNode} (h : Built tree)
    (hlexed : ∀ token ∈ tree.postorder, Lexed token ∧
      token.type ≠ .leftParentheses ∧ token.type ≠ .rightParentheses) :
    ∃ value, evaluateNode d tree = .ok value := by
  induction h with
  | @leaf token htype =>
      have htoken := hlexed token List.mem_cons_self
      -- A leaf is an operand or a parenthesis, and these are excluded.
      have hoperand := htype.resolve_right fun h => h.elim htoken.2.1 htoken.2.2
      rcases htoken.1.eq_operand hoperand with ⟨text, rfl⟩
      exact ⟨d.fromChars text, rfl⟩
  | @unary token operand htype hoperand ih =>
      simp only [TreeNode.postorder, List.append_nil, List.forall_mem_append,
        List.forall_mem_singleton] at hlexed
      rcases ih hlexed.1 with ⟨value, hvalue⟩
      rcases htype with htype | htype
      · rw [hlexed.2.1.eq_negation htype, evaluateNode_negation d hoperand.ne_null, hvalue]
        exact ⟨_, rfl⟩
      · rcases hlexed.2.1.eq_function htype with ⟨fn, rfl⟩
        rw [evaluateNode_function d fn hoperand.ne_null, hvalue]
        exact ⟨_, rfl⟩
  | @binary token left right htype hleft _ ihleft ihright =>
      simp only [TreeNode.postorder, List.forall_mem_append, List.forall_mem_singleton] at hlexed
      rcases ihleft hlexed.1.1 with ⟨value1, hvalue1⟩
      rcases ihright hlexed.1.2 with ⟨value2, hvalue2⟩
      rcases hlexed.2.1.eq_binary htype with ⟨op, rfl⟩
      rw [evaluateNode_binary d op hleft.ne_null, hvalue1, ok_bind, hvalue2]
      exact ⟨_, rfl⟩

/-- Only trees without parentheses have a value. -/
theorem no_parentheses_of_evaluateNode {tree : TreeNode} {value : D} (h : Built tree)
    (hlexed : ∀ token ∈ tree.postorder, Lexed token) (hvalue : evaluateNode d tree = .ok value) :
    ∀ token ∈ tree.postorder, token.type ≠ .leftParentheses ∧
      token.type ≠ .rightParentheses := by
  induction h generalizing value with
  | @leaf token htype =>
      simp only [TreeNode.postorder, List.nil_append, List.forall_mem_singleton] at hlexed ⊢
      rcases htype with htype | htype
      · rw [htype]
        decide
      · -- The leaf is a parenthesis: its value is asked for, and there is none.
        rw [evaluateNode, valueOf, hlexed.value_parenthesis htype] at hvalue
        cases hvalue
  | @unary token operand htype hoperand ih =>
      simp only [TreeNode.postorder, List.append_nil, List.forall_mem_append,
        List.forall_mem_singleton] at hlexed ⊢
      rcases htype with htype | htype
      · rw [hlexed.2.eq_negation htype, evaluateNode_negation d hoperand.ne_null] at hvalue
        rcases bind_eq_ok.mp hvalue with ⟨v, hv, -⟩
        exact ⟨ih hlexed.1 hv, by rw [htype]; decide⟩
      · rcases hlexed.2.eq_function htype with ⟨fn, rfl⟩
        rw [evaluateNode_function d fn hoperand.ne_null] at hvalue
        rcases bind_eq_ok.mp hvalue with ⟨v, hv, -⟩
        exact ⟨ih hlexed.1 hv, by rw [htype]; decide⟩
  | @binary token left right htype hleft _ ihleft ihright =>
      simp only [TreeNode.postorder, List.forall_mem_append, List.forall_mem_singleton]
        at hlexed ⊢
      rcases hlexed.2.eq_binary htype with ⟨op, rfl⟩
      rw [evaluateNode_binary d op hleft.ne_null] at hvalue
      rcases bind_eq_ok.mp hvalue with ⟨v1, hv1, hvalue⟩
      rcases bind_eq_ok.mp hvalue with ⟨v2, hv2, -⟩
      exact ⟨⟨ihleft hlexed.1.1 hv1, ihright hlexed.1.2 hv2⟩, by rw [htype]; decide⟩

end Evaluation

/-- A leaf is an operand if there are no parentheses in the tree. -/
theorem Built.leaves_operand {tree : TreeNode} (h : Built tree)
    (hlexed : ∀ token ∈ tree.postorder, Lexed token ∧
      token.type ≠ .leftParentheses ∧ token.type ≠ .rightParentheses) :
    ∀ token ∈ tree.leaves, ∃ text, token = ofOperand text := by
  induction h with
  | @leaf token htype =>
      have htoken := hlexed token List.mem_cons_self
      intro token' hmem
      rw [List.mem_singleton.mp hmem]
      exact htoken.1.eq_operand (htype.resolve_right fun h => h.elim htoken.2.1 htoken.2.2)
  | @unary token operand _ hoperand ih =>
      simp only [TreeNode.postorder, List.append_nil, List.forall_mem_append] at hlexed
      -- That the child is a node makes the second equation of `leaves` the one that applies.
      cases operand with
      | null => exact absurd rfl hoperand.ne_null
      | node token' l r =>
          rw [TreeNode.leaves, TreeNode.leaves, List.append_nil]
          · exact ih hlexed.1
          · exact fun h _ => nomatch h
  | @binary token left right _ hleft _ ihleft ihright =>
      simp only [TreeNode.postorder, List.forall_mem_append] at hlexed
      rw [TreeNode.leaves, List.forall_mem_append]
      · exact ⟨ihleft hlexed.1.1, ihright hlexed.1.2⟩
      · exact fun h _ => absurd h hleft.ne_null

end Calculator

end CodingChallenges
