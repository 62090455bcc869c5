import CodingChallenges.Calculator.Evaluate

/-!
# Parentheses

What becomes of the parentheses of an expression, and which expressions end the calculator
with an exception.

While the tokens are put in postfix order the opening parentheses that are not closed
yet wait on the stack, and their number tells whether the next closing one has a
partner. At the end of the tokens all that waits goes to the output, parentheses too. The
constructor of `Tree` makes a leaf of one, and the value of a leaf is asked for its
text, which a parenthesis does not have.

## Main definitions

* `openAfter`, `depth`: How many parentheses are open behind the tokens.
* `Sound`: What the output and the stack look like during the conversion.
* `Safe`: A token sequence that does not end the calculator.

## Theorems

* `convertToken_sound`: What one token does.
* `convert_depth`: What a token sequence does.
* `no_crash_iff`: Which expressions are safe.
-/

namespace CodingChallenges

namespace Calculator

open Token

/-- How many parentheses are open behind a token, if that many were before it. There is no
    such number if one is closed that was not open. -/
def openAfter (n : Nat) (token : Token) : Option Nat :=
  match token.type with
  | .leftParentheses => some (n + 1)
  | .rightParentheses =>
    match n with
    | 0 => none
    | n + 1 => some n
  | _ => some n

/-- How many parentheses are open behind the tokens, unless one is closed too often. -/
def depth (n : Nat) (tokens : List Token) : Option Nat :=
  tokens.foldlM openAfter n

/-- How many parentheses wait. -/
def openCount (stack : List Token) : Nat :=
  stack.countP fun token => token.type == .leftParentheses

/-- A token without parentheses. -/
def Plain (token : Token) : Prop :=
  Lexed token ∧ token.type ≠ .leftParentheses ∧ token.type ≠ .rightParentheses

/-- There are no parentheses on the output, and on the stack only opening ones. -/
structure Sound (c : Conversion) : Prop where
  output : ∀ token ∈ c.output, Plain token
  stack : ∀ token ∈ c.stack, Lexed token ∧ token.type ≠ .rightParentheses

/-- Of the tokens of the tokenizer the operators have the value they should have. -/
theorem shouldPushStackToken_lexed {stackToken token : Token} (hstack : Lexed stackToken)
    (htoken : Lexed token) : ∃ should, shouldPushStackToken stackToken token = .ok should := by
  unfold shouldPushStackToken
  split
  case isTrue => exact ⟨true, rfl⟩
  split
  case isTrue hbinary =>
    rcases hstack.eq_binary hbinary.1 with ⟨op', rfl⟩
    rcases htoken.eq_binary hbinary.2 with ⟨op, rfl⟩
    exact ⟨_, rfl⟩
  case isFalse => exact ⟨false, rfl⟩

/-- An operator takes some of the operators that wait. -/
theorem popOperators_lexed {token : Token} (htoken : Lexed token) {stack : List Token}
    (hstack : ∀ stackToken ∈ stack, Lexed stackToken) (output : List Token) :
    ∃ emitted rest, stack = emitted ++ rest ∧
      popOperators token output stack = .ok ⟨output ++ emitted, rest⟩ ∧
      ∀ stackToken ∈ emitted, stackToken.type = .unaryOperator ∨
        stackToken.type = .binaryOperator := by
  induction stack generalizing output with
  | nil => exact ⟨[], [], rfl, by rw [popOperators, List.append_nil], nofun⟩
  | cons stackToken s ih =>
      rw [List.forall_mem_cons] at hstack
      by_cases htype : stackToken.type = .unaryOperator ∨ stackToken.type = .binaryOperator
      · rcases shouldPushStackToken_lexed hstack.1 htoken with ⟨should, hshould⟩
        rw [popOperators, if_pos htype, hshould]
        cases should with
        -- The first operator that stays ends the loop, whatever lies under it.
        | false => exact ⟨[], stackToken :: s, rfl, by rw [List.append_nil], nofun⟩
        | true =>
            rcases ih hstack.2 (output ++ [stackToken]) with ⟨emitted, rest, rfl, hpop, htypes⟩
            refine ⟨stackToken :: emitted, rest, rfl, ?_, List.forall_mem_cons.mpr ⟨htype, htypes⟩⟩
            simp only [hpop, List.append_assoc, List.singleton_append]
      · rw [popOperators, if_neg htype]
        exact ⟨[], stackToken :: s, rfl, by rw [List.append_nil], nofun⟩

/-- A parenthesis that is closed takes what waits down to the one that was opened. -/
theorem popParentheses_open {stack : List Token} (output : List Token)
    (h : openCount stack ≠ 0) :
    ∃ emitted token rest, stack = emitted ++ token :: rest ∧ token.type = .leftParentheses ∧
      (∀ stackToken ∈ emitted, stackToken.type ≠ .leftParentheses) ∧
      popParentheses output stack = .ok ⟨output ++ emitted, rest⟩ := by
  induction stack generalizing output with
  | nil => exact absurd rfl h
  | cons stackToken s ih =>
      by_cases htype : stackToken.type = .leftParentheses
      · refine ⟨[], stackToken, s, rfl, htype, nofun, ?_⟩
        rw [popParentheses, if_pos htype, List.append_nil]
      · have hcount : openCount s ≠ 0 := by
          rwa [openCount, List.countP_cons_of_neg (by simpa only [beq_iff_eq] using htype)] at h
        rcases ih (output ++ [stackToken]) hcount with
          ⟨emitted, token, rest, rfl, htoken, hemitted, hpop⟩
        refine ⟨stackToken :: emitted, token, rest, rfl, htoken,
          List.forall_mem_cons.mpr ⟨htype, hemitted⟩, ?_⟩
        rw [popParentheses, if_neg htype, hpop, List.append_assoc, List.singleton_append]

/-- Without an open one it is an error. -/
theorem popParentheses_closed {stack : List Token} (output : List Token)
    (h : openCount stack = 0) : popParentheses output stack = .error .emptyResult := by
  induction stack generalizing output with
  | nil => rfl
  | cons stackToken s ih =>
      have htype : stackToken.type ≠ .leftParentheses := by
        intro htype
        rw [openCount, List.countP_cons_of_pos (by simpa only [beq_iff_eq] using htype)] at h
        exact absurd h (Nat.succ_ne_zero _)
      rw [openCount, List.countP_cons_of_neg (by simpa only [beq_iff_eq, ne_eq] using htype)] at h
      rw [popParentheses, if_neg htype, ih _ h]

theorem openCount_append (first second : List Token) :
    openCount (first ++ second) = openCount first + openCount second :=
  List.countP_append

theorem openCount_cons_of_ne {token : Token} (stack : List Token)
    (h : token.type ≠ .leftParentheses) : openCount (token :: stack) = openCount stack :=
  List.countP_cons_of_neg (by simpa only [beq_iff_eq, ne_eq] using h)

theorem openCount_eq_zero {stack : List Token}
    (h : ∀ token ∈ stack, token.type ≠ .leftParentheses) : openCount stack = 0 := by
  rw [openCount, List.countP_eq_zero]
  simpa only [beq_iff_eq, ne_eq] using h

theorem depth_cons (n : Nat) (token : Token) (tokens : List Token) :
    depth n (token :: tokens) = openAfter n token >>= fun m => depth m tokens :=
  rfl

theorem openAfter_plain (n : Nat) {token : Token} (h : Plain token) :
    openAfter n token = some n := by
  unfold openAfter
  split
  case h_1 htype => exact absurd htype h.2.1
  case h_2 htype => exact absurd htype h.2.2
  case h_3 => rfl

namespace Sound

variable {c : Conversion} {token : Token}

/-- A token that does not close a parenthesis is put on the stack. -/
theorem push {output stack : List Token} (h : Sound ⟨output, stack⟩) (htoken : Lexed token)
    (htype : token.type ≠ .rightParentheses) : Sound ⟨output, token :: stack⟩ :=
  ⟨h.output, List.forall_mem_cons.mpr ⟨⟨htoken, htype⟩, h.stack⟩⟩

/-- What is taken from the stack goes to the output, without parentheses. -/
theorem pop {output emitted rest : List Token} (h : Sound ⟨output, emitted ++ rest⟩)
    (hemitted : ∀ token ∈ emitted, token.type ≠ .leftParentheses) :
    Sound ⟨output ++ emitted, rest⟩ := by
  have hstack := List.forall_mem_append.mp h.stack
  refine ⟨List.forall_mem_append.mpr ⟨h.output, fun token hmem => ?_⟩, hstack.2⟩
  exact ⟨(hstack.1 token hmem).1, hemitted token hmem, (hstack.1 token hmem).2⟩

/-- The function in front of a parenthesis is not a parenthesis. -/
theorem popFunction (h : Sound c) :
    Sound (popFunction c) ∧ openCount (popFunction c).stack = openCount c.stack := by
  rcases c with ⟨output, stack⟩
  cases stack with
  | nil => exact ⟨h, rfl⟩
  | cons token rest =>
      rw [popFunction_cons]
      by_cases htype : token.type = .function
      · have hne : token.type ≠ .leftParentheses := by
          rw [htype]
          decide
        rw [if_pos htype]
        have hsplit : Sound ⟨output, [token] ++ rest⟩ := h
        refine ⟨hsplit.pop (List.forall_mem_singleton.mpr hne), ?_⟩
        exact (openCount_cons_of_ne rest hne).symm
      · rw [if_neg htype]
        exact ⟨h, rfl⟩

end Sound

/-- An operator leaves the parentheses where they are. -/
theorem convertToken_operator {c : Conversion} {token : Token} (h : Sound c)
    (htoken : Lexed token) (htype : token.type = .unaryOperator ∨ token.type = .binaryOperator) :
    ∃ c', convertToken c token = .ok c' ∧ Sound c' ∧ openCount c'.stack = openCount c.stack := by
  rcases popOperators_lexed htoken (fun t ht => (h.stack t ht).1) c.output with
    ⟨emitted, rest, hsplit, hpop, htypes⟩
  have hemitted : ∀ t ∈ emitted, t.type ≠ .leftParentheses := by
    intro t ht
    rcases htypes t ht with h | h <;> rw [h] <;> decide
  have hstep : convertToken c token = .ok ⟨c.output ++ emitted, token :: rest⟩ := by
    rw [convertToken]
    rcases htype with htype | htype <;> simp only [htype, hpop, map_ok]
  have hne : token.type ≠ .leftParentheses ∧ token.type ≠ .rightParentheses := by
    rcases htype with h | h <;> rw [h] <;> decide
  have hsound : Sound ⟨c.output ++ emitted, rest⟩ := by
    apply Sound.pop _ hemitted
    rw [← hsplit]
    exact h
  refine ⟨_, hstep, hsound.push htoken hne.2, ?_⟩
  rw [openCount_cons_of_ne rest hne.1, hsplit, openCount_append, openCount_eq_zero hemitted,
    Nat.zero_add]

/-- What one token does: without a parenthesis that it could close it is an error, and
    otherwise the number of those that wait is what it should be. -/
theorem convertToken_sound {c : Conversion} {token : Token} (h : Sound c) (htoken : Lexed token) :
    match openAfter (openCount c.stack) token with
    | none => convertToken c token = .error .emptyResult
    | some n => ∃ c', convertToken c token = .ok c' ∧ Sound c' ∧ openCount c'.stack = n := by
  cases htoken with
  | operand text =>
      have hplain : Plain (ofOperand text) := ⟨.operand text, nofun, nofun⟩
      rw [openAfter_plain _ hplain]
      refine ⟨_, rfl, ⟨?_, h.stack⟩, rfl⟩
      exact List.forall_mem_append.mpr ⟨h.output, List.forall_mem_singleton.mpr hplain⟩
  | negation =>
      rw [openAfter_plain _ ⟨.negation, nofun, nofun⟩]
      exact convertToken_operator h .negation (Or.inl rfl)
  | binary op =>
      rw [openAfter_plain _ ⟨.binary op, nofun, nofun⟩]
      exact convertToken_operator h (.binary op) (Or.inr rfl)
  | function fn =>
      rw [openAfter_plain _ ⟨.function fn, nofun, nofun⟩]
      exact ⟨_, rfl, h.push (.function fn) nofun, openCount_cons_of_ne _ nofun⟩
  | openParenthesis =>
      exact ⟨_, rfl, h.push .openParenthesis nofun, List.countP_cons_of_pos rfl⟩
  | closeParenthesis =>
      have hstep : convertToken c closeParenthesis =
          (popParentheses c.output c.stack).map popFunction := rfl
      rw [hstep]
      cases hcount : openCount c.stack with
      | zero =>
          -- The loop runs down to the bottom of the stack, which is the missing `(`.
          rw [popParentheses_closed _ hcount]
          rfl
      | succ n =>
          -- Above the partner lies no other parenthesis, so only one of them goes.
          have hne : openCount c.stack ≠ 0 := by
            rw [hcount]
            exact Nat.succ_ne_zero n
          rcases popParentheses_open c.output hne with
            ⟨emitted, token, rest, hsplit, htype, hemitted, hpop⟩
          have hsound : Sound ⟨c.output ++ emitted, token :: rest⟩ := by
            apply Sound.pop _ hemitted
            rw [← hsplit]
            exact h
          have hrest : Sound ⟨c.output ++ emitted, rest⟩ :=
            ⟨hsound.output, fun t ht => hsound.stack t (List.mem_cons_of_mem _ ht)⟩
          rcases hrest.popFunction with ⟨hfunction, hopen⟩
          refine ⟨_, by rw [hpop]; rfl, hfunction, ?_⟩
          have hcons : openCount (token :: rest) = openCount rest + 1 :=
            List.countP_cons_of_pos (by simpa only [beq_iff_eq] using htype)
          rw [hsplit, openCount_append, openCount_eq_zero hemitted, hcons] at hcount
          rw [hopen]
          simp only
          omega

/-- What a token sequence does. -/
theorem convert_depth {c : Conversion} {tokens : List Token} (h : Sound c)
    (htokens : ∀ token ∈ tokens, Lexed token) :
    match depth (openCount c.stack) tokens with
    | none => convert c tokens = .error .emptyResult
    | some n => ∃ c', convert c tokens = .ok c' ∧ Sound c' ∧ openCount c'.stack = n := by
  induction tokens generalizing c with
  | nil => exact ⟨c, rfl, h, rfl⟩
  | cons token tokens ih =>
      rw [List.forall_mem_cons] at htokens
      have hstep := convertToken_sound h htokens.1
      rw [depth_cons, convert_cons]
      cases hdepth : openAfter (openCount c.stack) token with
      | none =>
          rw [hdepth] at hstep
          simp only at hstep
          rw [hstep]
          rfl
      | some n =>
          rw [hdepth] at hstep
          rcases hstep with ⟨c', hconvert, hsound, hcount⟩
          have hrest := ih hsound htokens.2
          rw [hcount] at hrest
          rw [hconvert, ok_bind]
          exact hrest

theorem sound_nil : Sound ⟨[], []⟩ :=
  ⟨fun _ h => absurd h List.not_mem_nil, fun _ h => absurd h List.not_mem_nil⟩

/-- A parenthesis without a partner leaves no tokens. -/
theorem infixToPostfix_unmatched {tokens : List Token} (htokens : ∀ token ∈ tokens, Lexed token)
    (h : depth 0 tokens = none) : infixToPostfix tokens = some [] := by
  have hrun := convert_depth sound_nil htokens
  have hzero : openCount [] = 0 := rfl
  rw [hzero, h] at hrun
  simp only at hrun
  rw [infixToPostfix, hrun]

/-- The parentheses that are open at the end are all those in the output. -/
theorem infixToPostfix_matched {tokens : List Token} {n : Nat}
    (htokens : ∀ token ∈ tokens, Lexed token) (h : depth 0 tokens = some n) :
    ∃ output, infixToPostfix tokens = some output ∧
      (∀ token ∈ output, Lexed token ∧ token.type ≠ .rightParentheses) ∧ openCount output = n := by
  have hrun := convert_depth sound_nil htokens
  have hzero : openCount [] = 0 := rfl
  rw [hzero, h] at hrun
  rcases hrun with ⟨c, hconvert, hsound, hcount⟩
  -- What waits at the end goes to the output as it is, open parentheses with it.
  refine ⟨c.output ++ c.stack, ?_, ?_, ?_⟩
  · rw [infixToPostfix, hconvert]
  · exact List.forall_mem_append.mpr
      ⟨fun token hmem => ⟨(hsound.output token hmem).1, (hsound.output token hmem).2.2⟩,
        hsound.stack⟩
  · rw [openCount_append, openCount_eq_zero fun token hmem => (hsound.output token hmem).2.1,
      hcount, Nat.zero_add]

/-- There are no parentheses in the output if all are closed. -/
theorem infixToPostfix_closed {tokens : List Token} (htokens : ∀ token ∈ tokens, Lexed token)
    (h : depth 0 tokens = some 0) :
    ∃ output, infixToPostfix tokens = some output ∧ ∀ token ∈ output, Plain token := by
  rcases infixToPostfix_matched htokens h with ⟨output, houtput, hlexed, hcount⟩
  refine ⟨output, houtput, fun token hmem => ?_⟩
  rw [openCount, List.countP_eq_zero] at hcount
  have htype := hcount token hmem
  rw [beq_iff_eq] at htype
  exact ⟨(hlexed token hmem).1, htype, (hlexed token hmem).2⟩

/-- A tree without parentheses has a value, and a sequence of which there is no tree has
    none, without an exception. -/
theorem evaluate_closed {D : Type} (d : Doubles D) {tokens output : List Token}
    (houtput : infixToPostfix tokens = some output) (hplain : ∀ token ∈ output, Plain token) :
    ∃ result, evaluate d tokens = .ok result := by
  rw [evaluate, houtput]
  simp only
  split
  · exact ⟨none, rfl⟩
  cases hbuild : buildTree output with
  | error e => exact ⟨none, rfl⟩
  | ok root =>
      rcases buildTree_built hbuild with ⟨hbuilt, htokens⟩
      rw [← htokens] at hplain
      rcases evaluateNode_ok d hbuilt hplain with ⟨value, hvalue⟩
      refine ⟨some value, ?_⟩
      simp only [evaluateTree_built d hbuilt, hvalue, map_ok]

/-- A token sequence that does not end the calculator: no parenthesis comes to the output,
    every leaf of a tree is an operand with a value, and no exception escapes. -/
structure Safe {D : Type} (d : Doubles D) (tokens : List Token) : Prop where
  noParentheses : ∀ output, infixToPostfix tokens = some output →
    ∀ token ∈ output, token.type ≠ .leftParentheses ∧ token.type ≠ .rightParentheses
  leavesHaveValues : ∀ output tree, infixToPostfix tokens = some output →
    buildTree output = .ok tree → ∀ token ∈ tree.leaves,
      token.type = .operand ∧ token.value ≠ none
  noException : ∃ result, evaluate d tokens = .ok result

/-- An expression is safe exactly if it does not close all but some of its parentheses: they
    are all closed, or one is closed that was not open. -/
theorem no_crash_iff {D : Type} (d : Doubles D) (input : List UInt8) :
    Safe d (tokenize input) ↔ ∀ n, depth 0 (tokenize input) ≠ some (n + 1) := by
  have htokens := tokenize_lexed input
  constructor
  · intro hsafe n hdepth
    -- A parenthesis that is not closed is left among the operators and comes out with them.
    rcases infixToPostfix_matched htokens hdepth with ⟨output, houtput, -, hcount⟩
    have hzero := openCount_eq_zero fun token hmem =>
      (hsafe.noParentheses output houtput token hmem).1
    omega
  · intro hdepth
    cases hcase : depth 0 (tokenize input) with
    | none =>
        -- Where one is closed that was not open, there is no output at all.
        have houtput := infixToPostfix_unmatched htokens hcase
        refine ⟨fun output h => ?_, fun output tree h hbuild => ?_,
          evaluate_closed d houtput fun _ hmem => absurd hmem List.not_mem_nil⟩
        · rw [houtput, Option.some.injEq] at h
          rw [← h]
          exact fun _ hmem => absurd hmem List.not_mem_nil
        · rw [houtput, Option.some.injEq] at h
          rw [← h] at hbuild
          cases hbuild
    | some n =>
        cases n with
        | succ n => exact absurd hcase (hdepth n)
        | zero =>
            rcases infixToPostfix_closed htokens hcase with ⟨output, houtput, hplain⟩
            refine ⟨fun output' h => ?_, fun output' tree h hbuild => ?_,
              evaluate_closed d houtput hplain⟩
            · rw [houtput, Option.some.injEq] at h
              rw [← h]
              exact fun token hmem => (hplain token hmem).2
            · rw [houtput, Option.some.injEq] at h
              -- The leaves of the tree are tokens of the output.
              rcases buildTree_built hbuild with ⟨hbuilt, hpostorder⟩
              rw [h, ← hpostorder] at hplain
              intro token hmem
              rcases hbuilt.leaves_operand hplain token hmem with ⟨text, rfl⟩
              exact ⟨rfl, Option.some_ne_none _⟩

/-- `(` is a tree with one leaf, which has no text. -/
theorem not_safe :
    ¬∀ (D : Type) (d : Doubles D) (input : List UInt8), Safe d (tokenize input) := by
  intro h
  have htokens : tokenize [40] = [openParenthesis] := by decide +kernel
  rcases (h Int wholeNumbers [40]).noException with ⟨result, hresult⟩
  rw [htokens] at hresult
  cases hresult

end Calculator

end CodingChallenges
