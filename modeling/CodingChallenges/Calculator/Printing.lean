import CodingChallenges.Calculator.Spelling

/-!
# Writing Expressions Down

Every expression can be written down so that the calculator finds its value.

Parentheses are put around a part only where it does not bind as tightly as its place asks
for, and around a sign behind another one, which the tokenizer would take for an operator.

## Main definitions

* `Expression.tokens`: The tokens of an expression at a place.
* `Expression.text`: The text of an expression.
* `Expression.Literals`: All operands are literals that are read whole.

## Theorems

* `infix_tokens`: The tokens are those of the expression.
* `evaluate_text`: The calculator finds the value.
-/

namespace CodingChallenges

namespace Calculator

open Token

/-- The level of an operator, and those of its operands. -/
def levelOf : BinaryOperatorType → Level
  | .add => .sum
  | .subtract => .sum
  | .multiply => .product
  | .divide => .product
  | .exponent => .power

/-- What may stand on the left without parentheses. -/
def leftLevel : BinaryOperatorType → Level
  | .add => .sum
  | .subtract => .sum
  | .multiply => .product
  | .divide => .product
  | .exponent => .factor

/-- What may stand on the right without parentheses. -/
def rightLevel : BinaryOperatorType → Level
  | .add => .product
  | .subtract => .product
  | .multiply => .power
  | .divide => .power
  | .exponent => .power

/-- The tokens between parentheses. -/
def parenthesised (tokens : List Token) : List Token :=
  openParenthesis :: tokens ++ [closeParenthesis]

namespace Expression

/-- The expression begins with a sign. -/
def isNegation : Expression → Bool
  | negation _ => true
  | _ => false

/-- The tokens of an expression at a place of some level. -/
def tokens : Level → Expression → List Token
  | _, operand text => [ofOperand text]
  | _, negation e =>
    ofNegation :: if e.isNegation then parenthesised (e.tokens .sum) else e.tokens .factor
  | _, function fn e => ofFunction fn :: parenthesised (e.tokens .sum)
  | level, binary op left right =>
    let chain := left.tokens (leftLevel op) ++ ofBinary op :: right.tokens (rightLevel op)
    if level.precedence ≤ (levelOf op).precedence then chain else parenthesised chain

end Expression

theorem Infix.lower {level level' : Level} {tokens : List Token} {e : Expression}
    (h : Infix level tokens e) (hle : level'.precedence ≤ level.precedence) :
    Infix level' tokens e := by
  cases level <;> cases level' <;> first
    | exact h
    | exact absurd hle (by decide)
    | exact .factor h
    | exact .ofPower h
    | exact .ofProduct h
    | exact .ofPower (.factor h)
    | exact .ofProduct (.ofPower h)
    | exact .ofProduct (.ofPower (.factor h))

theorem infix_chain (op : BinaryOperatorType) {first second : List Token}
    {left right : Expression} (hleft : Infix (leftLevel op) first left)
    (hright : Infix (rightLevel op) second right) :
    Infix (levelOf op) (first ++ ofBinary op :: second) (.binary op left right) := by
  cases op with
  | add => exact .sum (Or.inl rfl) hleft hright
  | subtract => exact .sum (Or.inr rfl) hleft hright
  | multiply => exact .product (Or.inl rfl) hleft hright
  | divide => exact .product (Or.inr rfl) hleft hright
  | exponent => exact .power hleft hright

/-- The tokens are those of the expression. -/
theorem infix_tokens (level : Level) (e : Expression) : Infix level (e.tokens level) e := by
  have hfactor : ∀ {tokens e}, Infix .factor tokens e → ∀ level, Infix level tokens e := by
    intro tokens e h level
    exact h.lower (by cases level <;> decide)
  induction e generalizing level with
  | operand text => exact hfactor (.operand text) level
  | negation e ih =>
      rw [Expression.tokens]
      refine hfactor (.negation ?_) level
      split_ifs
      · exact .parenthesised (ih .sum)
      · exact ih .factor
  | function fn e ih => exact hfactor (.function fn (ih .sum)) level
  | binary op left right ihleft ihright =>
      have hchain := infix_chain op (ihleft (leftLevel op)) (ihright (rightLevel op))
      rw [Expression.tokens]
      split_ifs with hle
      · exact hchain.lower hle
      · exact hfactor (.parenthesised (hchain.lower (by cases op <;> decide))) level

section Signs

variable {tokens first second : List Token}

theorem signsApart_parenthesised (h : SignsApart tokens) : SignsApart (parenthesised tokens) := by
  unfold SignsApart at h ⊢
  rw [parenthesised, List.cons_append, List.isChain_cons, List.isChain_append]
  refine ⟨fun token _ hboth => ?_, h, List.isChain_singleton _, fun a _ b hb hboth => ?_⟩
  · cases hboth.1
  · cases hb
    cases hboth.2

theorem signsApart_cons {token : Token} (h : SignsApart tokens)
    (hhead : token.type = .unaryOperator → tokens.head?.map Token.type ≠ some .unaryOperator) :
    SignsApart (token :: tokens) := by
  unfold SignsApart at h ⊢
  rw [List.isChain_cons]
  refine ⟨fun next hnext hboth => hhead hboth.1 ?_, h⟩
  rw [Option.mem_def.mp hnext, Option.map_some, hboth.2]

theorem signsApart_chain (op : BinaryOperatorType) (hfirst : SignsApart first)
    (hsecond : SignsApart second) : SignsApart (first ++ ofBinary op :: second) := by
  have hbehind : SignsApart (ofBinary op :: second) :=
    signsApart_cons hsecond fun htype => by cases htype
  unfold SignsApart at hfirst hbehind ⊢
  rw [List.isChain_append]
  refine ⟨hfirst, hbehind, fun a _ b hb hboth => ?_⟩
  cases hb
  cases hboth.2

/-- A factor begins with a sign only if it is a negation. -/
theorem head_factor {e : Expression} (h : e.isNegation = false) :
    (e.tokens .factor).head?.map Token.type ≠ some .unaryOperator := by
  cases e with
  | operand text => exact fun htype => by cases htype
  | negation e => cases h
  | function fn e => exact fun htype => by cases htype
  | binary op left right =>
      rw [Expression.tokens]
      split_ifs with hle
      · exact absurd hle (by cases op <;> decide)
      · exact fun htype => by cases htype

theorem signsApart_tokens (level : Level) (e : Expression) : SignsApart (e.tokens level) := by
  induction e generalizing level with
  | operand text => exact List.isChain_singleton _
  | negation e ih =>
      rw [Expression.tokens]
      split_ifs with hnegation
      · exact signsApart_cons (signsApart_parenthesised (ih .sum)) fun _ htype => by cases htype
      · exact signsApart_cons (ih .factor) fun _ =>
          head_factor (Bool.eq_false_iff.mpr hnegation)
  | function fn e ih =>
      exact signsApart_cons (signsApart_parenthesised (ih .sum)) fun htype => by cases htype
  | binary op left right ihleft ihright =>
      have hchain := signsApart_chain op (ihleft (leftLevel op)) (ihright (rightLevel op))
      rw [Expression.tokens]
      split_ifs
      · exact hchain
      · exact signsApart_parenthesised hchain

end Signs

section Texts

/-- A token as it is written. -/
def lexemeOf (token : Token) : List UInt8 :=
  match token.type, token.value with
  | .operand, some (.text text) => text
  | .binaryOperator, some (.binaryOperator op) => [symbolOf op]
  | .unaryOperator, _ => [45]
  | .function, some (.function fn) => nameOf fn
  | .leftParentheses, _ => [40]
  | .rightParentheses, _ => [41]
  | _, _ => []

namespace Expression

/-- The text of an expression. -/
def text (e : Expression) : List UInt8 :=
  (e.tokens .sum).flatMap lexemeOf

/-- All operands are literals that are read whole. -/
def Literals : Expression → Prop
  | operand text => ∃ l : Literal, l.Read ∧ l.text = text
  | negation e => e.Literals
  | function _ e => e.Literals
  | binary _ left right => left.Literals ∧ right.Literals

end Expression

theorem written_parenthesised {tokens : List Token}
    (h : ∀ token ∈ tokens, Written token (lexemeOf token)) :
    ∀ token ∈ parenthesised tokens, Written token (lexemeOf token) := by
  intro token htoken
  simp only [parenthesised, List.cons_append, List.mem_cons, List.mem_append,
    List.not_mem_nil, or_false] at htoken
  rcases htoken with rfl | htoken | rfl
  · exact .openParenthesis
  · exact h token htoken
  · exact .closeParenthesis

theorem written_tokens (level : Level) {e : Expression} (h : e.Literals) :
    ∀ token ∈ e.tokens level, Written token (lexemeOf token) := by
  induction e generalizing level with
  | operand text =>
      rcases h with ⟨l, hread, rfl⟩
      intro token htoken
      rw [List.mem_singleton.mp htoken]
      exact .operand l hread
  | negation e ih =>
      rw [Expression.tokens, List.forall_mem_cons]
      refine ⟨.negation, ?_⟩
      split_ifs
      · exact written_parenthesised (ih .sum h)
      · exact ih .factor h
  | function fn e ih =>
      rw [Expression.tokens, List.forall_mem_cons]
      exact ⟨.function fn, written_parenthesised (ih .sum h)⟩
  | binary op left right ihleft ihright =>
      have hchain : ∀ token ∈ left.tokens (leftLevel op) ++
          ofBinary op :: right.tokens (rightLevel op), Written token (lexemeOf token) := by
        rw [List.forall_mem_append, List.forall_mem_cons]
        exact ⟨ihleft _ h.1, .binary op, ihright _ h.2⟩
      rw [Expression.tokens]
      split_ifs
      · exact hchain
      · exact written_parenthesised hchain

/-- Tokens that are written one after the other. -/
theorem spelled_flatMap {tokens : List Token}
    (h : ∀ token ∈ tokens, Written token (lexemeOf token)) :
    Spelled tokens (tokens.flatMap lexemeOf) := by
  induction tokens with
  | nil => exact .nil fun _ hc => absurd hc List.not_mem_nil
  | cons token tokens ih =>
      rw [List.forall_mem_cons] at h
      exact .cons (fun _ hc => absurd hc List.not_mem_nil) h.1 (ih h.2)

/-- Every expression of literals can be written down so that the calculator finds its value. -/
theorem evaluate_text {D : Type} (d : Doubles D) {e : Expression} (h : e.Literals) :
    evaluate d (tokenize e.text) = .ok (some (e.value d)) := by
  have hgrammar := infix_tokens .sum e
  have hfits : fits .operand (e.tokens .sum) = true := by
    have happend := hgrammar.fits_append []
    rwa [List.append_nil] at happend
  have hfirst : (e.tokens .sum).head?.map Token.type = some .unaryOperator →
      Outside isSpace e.text := by
    intro htype
    cases htokens : e.tokens .sum with
    | nil =>
        rw [htokens] at htype
        cases htype
    | cons token tokens =>
        rw [htokens, List.head?_cons, Option.map_some, Option.some.injEq] at htype
        have hlexeme : lexemeOf token = [45] := by
          rw [lexemeOf, htype]
        rw [Expression.text, htokens, List.flatMap_cons, hlexeme, List.singleton_append]
        exact outside_cons.mpr (by decide)
  have hspelled : Spelled (e.tokens .sum) e.text := spelled_flatMap (written_tokens .sum h)
  rw [tokenize_spelled hspelled hfits (signsApart_tokens .sum e) hfirst, evaluate_infix d hgrammar]

/-- `-(-2)*(3+4)` -/
theorem evaluate_text_product :
    evaluate wholeNumbers (tokenize (Expression.binary .multiply
      (.negation (.negation (.operand [50])))
      (.binary .add (.operand [51]) (.operand [52]))).text) = .ok (some 14) := by
  have hread : ∀ d : UInt8, 49 ≤ d → d ≤ 57 → (Expression.operand [d]).Literals :=
    fun d hlow hhigh =>
      ⟨⟨[d], none, none, .digits hlow hhigh (List.forall_mem_nil _), by simp only [Option.mem_def,
          reduceCtorEq, ne_eq, IsEmpty.forall_iff, implies_true], by simp only
          [Option.mem_def, reduceCtorEq, IsEmpty.forall_iff, implies_true]⟩,
        fun _ => rfl, rfl⟩
  exact evaluate_text wholeNumbers ⟨hread 50 (by decide) (by decide),
    hread 51 (by decide) (by decide), hread 52 (by decide) (by decide)⟩

end Texts

end Calculator

end CodingChallenges
