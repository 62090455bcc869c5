import CodingChallenges.Calculator.Parentheses

/-!
# Malformed Expressions

Which of the token sequences that have a value are expressions of the grammar.

Postfix order does not tell where an operand stood. The conversion puts operands on the
output as they come, and the constructor of `Tree` counts them when it meets an operator, so
a sequence with as many operands as its operators want has a value whether or not the
operators stand between them: `2 3 +` has one.

What the calculator does notice are parentheses without a partner, and with all of them
closed the grammar asks for nothing but that every token fits the one before it. To find
a derivation for such a sequence one reads it from the left. A factor begins where an
operand may, what stands behind it is an operator or closes a parenthesis, and a chain
of factors with operators between them is a sum.

## Main definitions

* `Expected`, `Expected.allows`, `expectedAfter`: What may stand behind a token.
* `fits`: Every token fits the one before it.

## Theorems

* `Infix.fits_append`, `Infix.depth_append`: The tokens of an expression fit each other,
  and its parentheses are closed.
* `Infix.sum_append`: A sum goes on with an operator and a factor.
* `exists_factor`, `exists_sum`: What can be read from the left.
* `evaluate_infix_iff`: The sequences with a value that are expressions.
-/

namespace CodingChallenges

namespace Calculator

open Token

/-- What may stand at a place of an expression, as far as the token before it tells. -/
inductive Expected where
  /-- An operand, or what an operand begins with. -/
  | operand
  /-- An operator between two operands, or the end of a part. -/
  | operator
  /-- The parenthesis behind a function. -/
  | parenthesis
deriving DecidableEq, Repr

/-- Which tokens may come next. -/
def Expected.allows : Expected → TokenType → Bool
  | .operand, .operand | .operand, .function | .operand, .unaryOperator
  | .operand, .leftParentheses => true
  | .operator, .binaryOperator | .operator, .rightParentheses => true
  | .parenthesis, .leftParentheses => true
  | _, _ => false

/-- What a token asks of the next one. -/
def expectedAfter : TokenType → Expected
  | .operand | .rightParentheses => .operator
  | .function => .parenthesis
  | .unaryOperator | .binaryOperator | .leftParentheses => .operand

/-- Every token fits the one before it, and an operand is complete at the end. -/
def fits (expected : Expected) : List Token → Bool
  | [] => expected == .operator
  | token :: tokens => expected.allows token.type && fits (expectedAfter token.type) tokens

theorem fits_cons (expected : Expected) (token : Token) (tokens : List Token) :
    fits expected (token :: tokens) =
      (expected.allows token.type && fits (expectedAfter token.type) tokens) :=
  rfl

/-- Behind an expression an operator is expected, if an operand was before it. -/
theorem Infix.fits_append {level : Level} {tokens : List Token} {e : Expression}
    (h : Infix level tokens e) (rest : List Token) :
    fits .operand (tokens ++ rest) = fits .operator rest := by
  have hparenthesised : ∀ tokens rest,
      (∀ rest, fits .operand (tokens ++ rest) = fits .operator rest) →
      fits .operand (tokens ++ [closeParenthesis] ++ rest) = fits .operator rest := by
    intro tokens rest ih
    rw [List.append_assoc, ih]
    rfl
  have hbinary : ∀ op first second rest,
      (∀ rest, fits .operand (first ++ rest) = fits .operator rest) →
      (∀ rest, fits .operand (second ++ rest) = fits .operator rest) →
      fits .operand (first ++ ofBinary op :: second ++ rest) = fits .operator rest := by
    intro op first second rest ihfirst ihsecond
    rw [List.append_assoc, ihfirst, List.cons_append, ← ihsecond rest]
    rfl
  induction h generalizing rest with
  | operand text => rfl
  | parenthesised _ ih => exact hparenthesised _ _ ih
  | function fn _ ih => exact hparenthesised _ _ ih
  | negation _ ih => exact ih rest
  | factor _ ih | ofPower _ ih | ofProduct _ ih => exact ih rest
  | power _ _ ihleft ihright => exact hbinary _ _ _ _ ihleft ihright
  | product _ _ _ ihleft ihright => exact hbinary _ _ _ _ ihleft ihright
  | sum _ _ _ ihleft ihright => exact hbinary _ _ _ _ ihleft ihright

/-- The parentheses of an expression are closed. -/
theorem Infix.depth_append {level : Level} {tokens : List Token} {e : Expression}
    (h : Infix level tokens e) (n : Nat) (rest : List Token) :
    depth n (tokens ++ rest) = depth n rest := by
  have hparenthesised : ∀ n tokens rest, (∀ n rest, depth n (tokens ++ rest) = depth n rest) →
      depth (n + 1) (tokens ++ [closeParenthesis] ++ rest) = depth n rest := by
    intro n tokens rest ih
    rw [List.append_assoc, ih]
    rfl
  have hbinary : ∀ op n first second rest, (∀ n rest, depth n (first ++ rest) = depth n rest) →
      (∀ n rest, depth n (second ++ rest) = depth n rest) →
      depth n (first ++ ofBinary op :: second ++ rest) = depth n rest := by
    intro op n first second rest ihfirst ihsecond
    rw [List.append_assoc, ihfirst, List.cons_append, ← ihsecond n rest]
    rfl
  induction h generalizing n rest with
  | operand text => rfl
  | parenthesised _ ih => exact hparenthesised _ _ _ ih
  | function fn _ ih => exact hparenthesised _ _ _ ih
  | negation _ ih => exact ih n rest
  | factor _ ih | ofPower _ ih | ofProduct _ ih => exact ih n rest
  | power _ _ ihleft ihright => exact hbinary _ _ _ _ _ ihleft ihright
  | product _ _ _ ihleft ihright => exact hbinary _ _ _ _ _ ihleft ihright
  | sum _ _ _ ihleft ihright => exact hbinary _ _ _ _ _ ihleft ihright

namespace Infix

variable {tokens second : List Token} {e right : Expression}

/-- A power goes on with another. -/
theorem power_append (h : Infix .power tokens e) (hsecond : Infix .factor second right) :
    ∃ e', Infix .power (tokens ++ ofBinary .exponent :: second) e' := by
  generalize hlevel : Level.power = level at h
  induction h with
  | factor h => exact ⟨_, .power h (.factor hsecond)⟩
  | power hfirst _ _ ih =>
      rcases ih rfl with ⟨e', he'⟩
      have hpower := Infix.power hfirst he'
      rw [← List.cons_append, ← List.append_assoc] at hpower
      exact ⟨_, hpower⟩
  | _ => cases hlevel

/-- So does a product, and with other factors too. -/
theorem product_append {op : BinaryOperatorType} (hop : op ≠ .add ∧ op ≠ .subtract)
    (h : Infix .product tokens e) (hsecond : Infix .factor second right) :
    ∃ e', Infix .product (tokens ++ ofBinary op :: second) e' := by
  by_cases hexponent : op = .exponent
  · -- The exponent belongs to the last factor and not to the whole product.
    cases h with
    | ofPower h =>
        rw [hexponent]
        rcases h.power_append hsecond with ⟨e', he'⟩
        exact ⟨e', .ofPower he'⟩
    | product hop' hfirst hlast =>
        rw [hexponent, List.append_assoc]
        rcases hlast.power_append hsecond with ⟨e', he'⟩
        exact ⟨_, .product hop' hfirst he'⟩
  · have hlevel : op = .multiply ∨ op = .divide := by
      cases op with
      | multiply => exact Or.inl rfl
      | divide => exact Or.inr rfl
      | add => exact absurd rfl hop.1
      | subtract => exact absurd rfl hop.2
      | exponent => exact absurd rfl hexponent
    exact ⟨_, .product hlevel h (.factor hsecond)⟩

/-- A sum goes on with any operator and a factor. -/
theorem sum_append (op : BinaryOperatorType) (h : Infix .sum tokens e)
    (hsecond : Infix .factor second right) :
    ∃ e', Infix .sum (tokens ++ ofBinary op :: second) e' := by
  by_cases hsum : op = .add ∨ op = .subtract
  · exact ⟨_, .sum hsum h (.ofPower (.factor hsecond))⟩
  · -- An operator that binds closer than the sum belongs to its last term.
    rw [not_or] at hsum
    cases h with
    | ofProduct h =>
        rcases h.product_append hsum hsecond with ⟨e', he'⟩
        exact ⟨e', .ofProduct he'⟩
    | sum hop' hfirst hlast =>
        rw [List.append_assoc]
        rcases hlast.product_append hsum hsecond with ⟨e', he'⟩
        exact ⟨_, .sum hop' hfirst he'⟩

end Infix

/-- A sequence with all its parentheses closed, `n` of them opened before it, in which every
    token fits the one before it. -/
structure Readable (expected : Expected) (n : Nat) (tokens : List Token) : Prop where
  lexed : ∀ token ∈ tokens, Lexed token
  fits : fits expected tokens = true
  depth : depth n tokens = some 0

/-- Behind an expression the rest is readable. -/
theorem Readable.behind {n : Nat} {level : Level} {first rest : List Token} {e : Expression}
    (h : Readable .operand n (first ++ rest)) (hfirst : Infix level first e) :
    Readable .operator n rest := by
  refine ⟨(List.forall_mem_append.mp h.lexed).2, ?_, ?_⟩
  · rw [← hfirst.fits_append rest]
    exact h.fits
  · rw [← hfirst.depth_append n rest]
    exact h.depth

theorem Readable.tail {expected : Expected} {n m : Nat} {token : Token} {tokens : List Token}
    (h : Readable expected n (token :: tokens)) (hopen : openAfter n token = some m) :
    Readable (expectedAfter token.type) m tokens := by
  have hfits := h.fits
  have hdepth := h.depth
  rw [fits_cons, Bool.and_eq_true] at hfits
  rw [depth_cons, hopen] at hdepth
  exact ⟨(List.forall_mem_cons.mp h.lexed).2, hfits.2, hdepth⟩

theorem Readable.allows {expected : Expected} {n : Nat} {token : Token} {tokens : List Token}
    (h : Readable expected n (token :: tokens)) : expected.allows token.type = true := by
  have hfits := h.fits
  rw [fits_cons, Bool.and_eq_true] at hfits
  exact hfits.1

/-- A factor can be read. -/
def StartsFactor (tokens : List Token) : Prop :=
  ∃ first rest e, tokens = first ++ rest ∧ Infix .factor first e

/-- A sum can be read up to the end or to the parenthesis that ends its part. -/
def StartsSum (n : Nat) (tokens : List Token) : Prop :=
  ∃ first rest e, tokens = first ++ rest ∧ Infix .sum first e ∧
    (rest = [] ∧ n = 0 ∨
      ∃ m rest', rest = closeParenthesis :: rest' ∧ n = m + 1 ∧ Readable .operator m rest')

/-- A sum goes on as far as it can, if factors can be read behind it. -/
theorem startsSum_of_sum (bound : Nat) {n : Nat} {first rest : List Token} {e : Expression}
    (hfactor : ∀ tokens, tokens.length < bound → Readable .operand n tokens → StartsFactor tokens)
    (hfirst : Infix .sum first e) (hrest : Readable .operator n rest)
    (hlength : rest.length ≤ bound) : StartsSum n (first ++ rest) := by
  induction hn : rest.length using Nat.strongRecOn generalizing first rest e with
  | _ k ih =>
      cases rest with
      | nil =>
          have hdepth := hrest.depth
          exact ⟨first, [], e, rfl, hfirst, Or.inl ⟨rfl, Option.some.inj hdepth⟩⟩
      | cons token rest =>
          have hallows := hrest.allows
          cases (List.forall_mem_cons.mp hrest.lexed).1 with
          | binary op =>
              -- An operator: a factor follows, and the sum with it is longer.
              have htail : Readable .operand n rest := hrest.tail rfl
              rw [List.length_cons] at hlength hn
              rcases hfactor rest (by omega) htail with ⟨second, rest', e', rfl, hsecond⟩
              rcases hfirst.sum_append op hsecond with ⟨e'', hsum⟩
              have hbehind := htail.behind hsecond
              have hlt : rest'.length < k := by
                rw [List.length_append] at hn
                omega
              have hstarts := ih rest'.length hlt hsum hbehind (by omega) rfl
              rw [List.append_assoc] at hstarts
              exact hstarts
          | closeParenthesis =>
              -- The sum ends here, and the parenthesis was opened before it.
              refine ⟨first, closeParenthesis :: rest, e, rfl, hfirst, Or.inr ?_⟩
              cases n with
              | zero =>
                  have hdepth := hrest.depth
                  cases hdepth
              | succ m => exact ⟨m, rest, rfl, rfl, hrest.tail rfl⟩
          | _ => cases hallows

/-- Where an operand is expected a factor can be read. -/
theorem startsFactor {n : Nat} {tokens : List Token} (h : Readable .operand n tokens) :
    StartsFactor tokens := by
  induction hn : tokens.length using Nat.strongRecOn generalizing n tokens with
  | _ k ih =>
      -- What stands in a parenthesis is shorter, so a sum can be read there.
      have hsum : ∀ inner, inner.length < k → Readable .operand (n + 1) inner →
          ∃ first rest e, inner = first ++ closeParenthesis :: rest ∧ Infix .sum first e := by
        intro inner hlt hinner
        rcases ih inner.length hlt hinner rfl with ⟨first, rest, e, rfl, hfirst⟩
        rw [List.length_append] at hlt
        have hstarts := startsSum_of_sum rest.length
          (fun tokens hlt' htokens => ih tokens.length (by omega) htokens rfl)
          (.ofProduct (.ofPower (.factor hfirst))) (hinner.behind hfirst) (Nat.le_refl _)
        rcases hstarts with
          ⟨first', rest', e', hsplit, hfirst', ⟨-, hzero⟩ | ⟨m, rest'', rfl, -, -⟩⟩
        · exact absurd hzero (Nat.succ_ne_zero n)
        · exact ⟨first', rest'', e', hsplit, hfirst'⟩
      cases tokens with
      | nil => cases h.fits
      | cons token tokens =>
          rw [List.length_cons] at hn
          have hallows := h.allows
          cases (List.forall_mem_cons.mp h.lexed).1 with
          | operand text => exact ⟨[ofOperand text], tokens, _, rfl, .operand text⟩
          | negation =>
              rcases ih tokens.length (by omega) (h.tail rfl) rfl with ⟨first, rest, e, rfl, hfirst⟩
              exact ⟨ofNegation :: first, rest, _, rfl, .negation hfirst⟩
          | openParenthesis =>
              rcases hsum tokens (by omega) (h.tail rfl) with ⟨first, rest, e, rfl, hfirst⟩
              refine ⟨openParenthesis :: first ++ [closeParenthesis], rest, _, ?_,
                .parenthesised hfirst⟩
              simp only [List.cons_append, List.append_assoc, List.nil_append]
          | function fn =>
              have htail : Readable .parenthesis n tokens := h.tail rfl
              cases tokens with
              | nil => cases htail.fits
              | cons token tokens =>
                  rw [List.length_cons] at hn
                  have hallows := htail.allows
                  cases (List.forall_mem_cons.mp htail.lexed).1 with
                  | openParenthesis =>
                      rcases hsum tokens (by omega) (htail.tail rfl) with
                        ⟨first, rest, e, rfl, hfirst⟩
                      refine ⟨ofFunction fn :: openParenthesis :: first ++ [closeParenthesis],
                        rest, _, ?_, .function fn hfirst⟩
                      simp only [List.cons_append, List.append_assoc, List.nil_append]
                  | _ => cases hallows
          | _ => cases hallows

/-- A sequence with all its parentheses closed in which every token fits the one before it
    is an expression. -/
theorem exists_infix {tokens : List Token} (h : Readable .operand 0 tokens) :
    ∃ e, Infix .sum tokens e := by
  rcases startsFactor h with ⟨first, rest, e, rfl, hfirst⟩
  have hstarts := startsSum_of_sum rest.length
    (fun tokens _ htokens => startsFactor htokens)
    (.ofProduct (.ofPower (.factor hfirst))) (h.behind hfirst) (Nat.le_refl _)
  rcases hstarts with ⟨first', rest', e', hsplit, hfirst', ⟨rfl, -⟩ | ⟨m, rest'', -, hzero, -⟩⟩
  · rw [hsplit, List.append_nil]
    exact ⟨e', hfirst'⟩
  · exact absurd hzero.symm (Nat.succ_ne_zero m)

/-- A sequence that has a value closes its parentheses. -/
theorem depth_of_evaluate {D : Type} (d : Doubles D) {tokens : List Token} {value : D}
    (htokens : ∀ token ∈ tokens, Lexed token) (h : evaluate d tokens = .ok (some value)) :
    depth 0 tokens = some 0 := by
  cases hcase : depth 0 tokens with
  | none =>
      have hne : 0 < tokens.length := by
        cases tokens with
        | nil => cases hcase
        | cons token tokens => exact Nat.succ_pos _
      rw [evaluate, infixToPostfix_unmatched htokens hcase] at h
      simp only [hne, and_self, if_true] at h
      cases h
  | some n =>
      rcases infixToPostfix_matched htokens hcase with ⟨output, houtput, hlexed, hcount⟩
      rw [evaluate, houtput] at h
      simp only at h
      split at h
      · cases h
      cases hbuild : buildTree output with
      | error e =>
          rw [hbuild] at h
          cases h
      | ok root =>
          rcases buildTree_built hbuild with ⟨hbuilt, hpostorder⟩
          rw [hbuild] at h
          simp only [evaluateTree_built d hbuilt] at h
          rcases map_eq_ok.mp h with ⟨value', hvalue, -⟩
          -- The value shows that no parenthesis is in the tree, so none was left open.
          rw [← hpostorder] at hlexed hcount
          have hnone := no_parentheses_of_evaluateNode d hbuilt
            (fun token hmem => (hlexed token hmem).1) hvalue
          rw [openCount_eq_zero fun token hmem => (hnone token hmem).1] at hcount
          rw [hcount]

/-- A token sequence that has a value is an expression exactly if every token fits the one
    before it. -/
theorem evaluate_infix_iff {D : Type} (d : Doubles D) (input : List UInt8) {value : D}
    (h : evaluate d (tokenize input) = .ok (some value)) :
    (∃ e, Infix .sum (tokenize input) e) ↔ fits .operand (tokenize input) = true := by
  constructor
  · rintro ⟨e, he⟩
    have hfits := he.fits_append []
    rw [List.append_nil] at hfits
    rw [hfits]
    rfl
  · intro hfits
    exact exists_infix ⟨tokenize_lexed input, hfits, depth_of_evaluate d (tokenize_lexed input) h⟩

/-- `1+2` -/
theorem evaluate_infix_iff_sum :
    (∃ e, Infix .sum (tokenize [49, 43, 50]) e) ↔
      fits .operand (tokenize [49, 43, 50]) = true :=
  have htokens : tokenize [49, 43, 50] = [ofOperand [49], ofBinary .add, ofOperand [50]] := by
    decide +kernel
  evaluate_infix_iff wholeNumbers [49, 43, 50]
    (by rw [htokens]; rfl : evaluate wholeNumbers (tokenize [49, 43, 50]) = .ok (some 3))

/-- `1 2+` has the value of `1+2`. -/
theorem not_infix_of_evaluate :
    ¬∀ (D : Type) (d : Doubles D) (input : List UInt8) (value : D),
      evaluate d (tokenize input) = .ok (some value) → ∃ e, Infix .sum (tokenize input) e := by
  intro h
  have htokens : tokenize [49, 32, 50, 43] = [ofOperand [49], ofOperand [50], ofBinary .add] := by
    decide +kernel
  rcases h Int wholeNumbers [49, 32, 50, 43] 3 (by rw [htokens]; rfl) with ⟨e, he⟩
  have hfits := he.fits_append []
  rw [htokens] at hfits
  cases hfits

end Calculator

end CodingChallenges
