import CodingChallenges.Calculator.Literals
import Mathlib.Logic.Relation

/-!
# Whitespace Between Tokens

What becomes of the tokens of an expression when whitespace is inserted into it.

Whitespace may go wherever the loop of `tokenize` stands between two rounds: in front of
the first token, between two tokens, behind the last. A round goes by what it reads and
by the byte behind it, and behind a token whitespace ends a number no later than what
stood there before. So the loop makes the same rounds on the expression with the
whitespace, with one exception: it takes a sign for one in front of an operand if the
sign is the first byte, and behind whitespace it is not.

A sign that is the first byte and a minus becomes an operator between two operands
when whitespace is put in front of it. A plus does so too, unless another plus follows it
that was such an operator before and is left out now.

## Main definitions

* `Round`, `Stands`: The rounds of the loop, and where it stands between them.
* `Layout`: Whitespace that is inserted at such places.
* `startsWithSign`: The expressions whose first byte is a sign that whitespace changes.

## Theorems

* `readToken_lexeme`: What a round reads does not depend on what stands elsewhere.
* `tokenizeRest_layout`: The loop makes the same rounds on both expressions.
* `tokenize_layout_iff`: When the tokens are the same.
-/

namespace CodingChallenges

namespace Calculator

open Token

/-- A round of the loop: from an index and the tokens so far to the next. -/
def Round (input : List UInt8) (s s' : Nat × List Token) : Prop :=
  ∃ h : s.1 < input.length, ∃ moved,
    readToken input s.1 s.2 input[s.1] = some (s'.2, moved) ∧ s'.1 = s.1 + moved + 1

/-- The loop comes to the index with the tokens. -/
def Stands (input : List UInt8) (index : Nat) (tokens : List Token) : Prop :=
  Relation.ReflTransGen (Round input) (0, []) (index, tokens)

/-- Whitespace that is inserted into an expression where the loop stands between two
    rounds. The gap at an index goes in front of the byte there. -/
structure Layout (input : List UInt8) where
  gap : Nat → List UInt8
  isSpace_gap : ∀ index, ∀ c ∈ gap index, isSpace c = true
  stands : ∀ index, gap index ≠ [] → ∃ tokens, Stands input index tokens

/-- What is left of an expression from an index on, with gaps. -/
def insertGaps (gap : Nat → List UInt8) (index : Nat) : List UInt8 → List UInt8
  | [] => gap index
  | c :: v => gap index ++ c :: insertGaps gap (index + 1) v

/-- The expression with the whitespace. -/
def Layout.text {input : List UInt8} (layout : Layout input) : List UInt8 :=
  insertGaps layout.gap 0 input

/-- The expression begins with a minus, or with a plus that is not followed by another. -/
def startsWithSign : List UInt8 → Bool
  | 45 :: _ => true
  | 43 :: v => (v.dropWhile isSpace).head? != some 43
  | _ => false

/-- The loop on a text behind what it has read. -/
def tokenizeRest (before v : List UInt8) (tokens : List Token) : Option (List Token) :=
  tokenizeFrom (before ++ v) before.length tokens

theorem tokenizeRest_nil (before : List UInt8) (tokens : List Token) :
    tokenizeRest before [] tokens = some tokens := by
  rw [tokenizeRest, List.append_nil, tokenizeFrom_done _ (Nat.le_refl _)]

theorem getElem_length_append (before v : List UInt8) (c : UInt8)
    (h : before.length < (before ++ c :: v).length) : (before ++ c :: v)[before.length] = c := by
  rw [List.getElem_append_right (Nat.le_refl _)]
  simp only [Nat.sub_self, List.getElem_cons_zero]

theorem length_lt_append_cons (before v : List UInt8) (c : UInt8) :
    before.length < (before ++ c :: v).length := by
  rw [List.length_append, List.length_cons]
  omega

/-- A round goes on behind what it has read. -/
theorem tokenizeRest_read {before v lexeme w : List UInt8} {c : UInt8} {tokens tokens' : List Token}
    {moved : Nat}
    (h : readToken (before ++ c :: v) before.length tokens c = some (tokens', moved))
    (hsplit : c :: v = lexeme ++ w) (hlength : lexeme.length = moved + 1) :
    tokenizeRest before (c :: v) tokens = tokenizeRest (before ++ lexeme) w tokens' := by
  have hlt := length_lt_append_cons before v c
  have hget := getElem_length_append before v c hlt
  rw [tokenizeRest, tokenizeFrom_read hlt (by rw [hget]; exact h), tokenizeRest, hsplit,
    List.append_assoc, List.length_append, hlength]
  rfl

theorem tokenizeRest_error {before v : List UInt8} {c : UInt8} {tokens : List Token}
    (h : readToken (before ++ c :: v) before.length tokens c = none) :
    tokenizeRest before (c :: v) tokens = none := by
  have hlt := length_lt_append_cons before v c
  have hget := getElem_length_append before v c hlt
  rw [tokenizeRest, tokenizeFrom_error hlt (by rw [hget]; exact h)]

theorem readToken_space (input : List UInt8) (index : Nat) (tokens : List Token) {c : UInt8}
    (hc : isSpace c = true) : readToken input index tokens c = some (tokens, 0) := by
  unfold readToken
  rw [if_pos hc]

/-- Whitespace is passed over. -/
theorem tokenizeRest_spaces {spaces : List UInt8} (before v : List UInt8) (tokens : List Token)
    (h : ∀ c ∈ spaces, isSpace c = true) :
    tokenizeRest before (spaces ++ v) tokens = tokenizeRest (before ++ spaces) v tokens := by
  induction spaces generalizing before with
  | nil => rw [List.append_nil, List.nil_append]
  | cons c spaces ih =>
      rw [List.forall_mem_cons] at h
      have hread := readToken_space (before ++ c :: (spaces ++ v)) before.length tokens h.1
      have hsplit : c :: (spaces ++ v) = [c] ++ (spaces ++ v) := rfl
      rw [List.cons_append, tokenizeRest_read hread hsplit rfl, ih _ h.2, List.append_assoc,
        List.singleton_append]

theorem isUnary_congr {before before' : List UInt8} (tokens : List Token)
    (h : before = [] ↔ before' = []) :
    isUnary before'.length tokens = isUnary before.length tokens := by
  have hzero : (before'.length == 0) = (before.length == 0) := by
    rw [Bool.eq_iff_iff, beq_iff_eq, beq_iff_eq, List.length_eq_zero_iff, List.length_eq_zero_iff,
      h]
  rw [isUnary, isUnary, hzero]

/-- What a round has read and what follows it: wherever the same is read with something
    behind it that ends the same numbers, the round ends in the same way. For a sign
    the index must be 0 in both places or in none. -/
def Reads (before text : List UInt8) (c : UInt8) (tokens tokens' : List Token) (moved : Nat) :
    Prop :=
  ∃ lexeme w, text = lexeme ++ w ∧ lexeme.length = moved + 1 ∧ ∀ before' w',
    (c = 43 ∨ c = 45 → (before = [] ↔ before' = [])) → (∀ l : Literal, l.Stops w → l.Stops w') →
    readToken (before' ++ (lexeme ++ w')) before'.length tokens c = some (tokens', moved)

/-- A function is read from its name. -/
theorem reads_function {before v target : List UInt8} {c : UInt8} {tokens tokens' : List Token}
    {fn : FunctionType} {moved : Nat} (htarget : target.length = 3)
    (hread : ∀ input index,
      readToken input index tokens c = readFunction input index tokens target fn)
    (h : readFunction (before ++ c :: v) before.length tokens target fn = some (tokens', moved)) :
    Reads before (c :: v) c tokens tokens' moved := by
  rcases readFunction_eq_some h with ⟨hcheck, rfl, rfl⟩
  rw [checkSubtring, substr, List.drop_left, beq_iff_eq] at hcheck
  refine ⟨target, (c :: v).drop target.length, ?_, htarget, fun before' w' _ _ => ?_⟩
  · have hsplit := List.take_append_drop target.length (c :: v)
    rw [hcheck] at hsplit
    exact hsplit.symm
  · rw [hread, readFunction, checkSubtring, substr, List.drop_left, List.take_left,
      beq_self_eq_true, if_pos rfl]

/-- A number is read up to the same byte if what stands behind it ends it. -/
theorem reads_number {before v : List UInt8} {c : UInt8} {tokens tokens' : List Token}
    {moved : Nat} (hc : isDigit c = true)
    (h : readToken (before ++ c :: v) before.length tokens c = some (tokens', moved)) :
    Reads before (c :: v) c tokens tokens' moved := by
  rcases exists_literal hc v with ⟨l, w, hsplit, hread, hstops⟩
  have hsubstr : ∀ before' w', substr (before' ++ (l.text ++ w')) before'.length l.text.length =
      l.text := by
    intro before' w'
    rw [substr, List.drop_left, List.take_left]
  rw [readToken_digit _ _ _ hc, hsplit, parseNumber_literal before l hread hstops,
    hsubstr, Option.some.injEq, Prod.mk.injEq] at h
  have hpos : 0 < l.text.length := by
    rcases head_literal l with ⟨d, ds, htext, -⟩
    rw [htext]
    exact Nat.succ_pos _
  refine ⟨l.text, w, hsplit, by omega, fun before' w' _ hw => ?_⟩
  rw [readToken_digit _ _ _ hc, parseNumber_literal before' l hread (hw l hstops), hsubstr, h.1,
    h.2]

/-- A byte that is a token, or whitespace, is read alone. -/
theorem reads_single {before v : List UInt8} {c : UInt8} {tokens tokens' : List Token}
    (hread : ∀ before' w', (c = 43 ∨ c = 45 → (before = [] ↔ before' = [])) →
      readToken (before' ++ (c :: w')) before'.length tokens c = some (tokens', 0)) :
    Reads before (c :: v) c tokens tokens' 0 :=
  ⟨[c], v, rfl, rfl, fun before' w' hsign _ => hread before' w' hsign⟩

/-- A sign is told from an operator by the index and the tokens. -/
theorem reads_sign {before v : List UInt8} {c : UInt8} {tokens tokens' unary binary : List Token}
    {moved : Nat} (hc : c = 43 ∨ c = 45)
    (hread : ∀ input index, readToken input index tokens c =
      if isUnary index tokens then some (unary, 0) else some (binary, 0))
    (h : readToken (before ++ c :: v) before.length tokens c = some (tokens', moved)) :
    Reads before (c :: v) c tokens tokens' moved := by
  rw [hread] at h
  have hmoved : moved = 0 := by
    split at h <;> cases h <;> rfl
  rw [hmoved] at h ⊢
  refine reads_single fun before' w' hsign => ?_
  rw [hread, isUnary_congr tokens (hsign hc), h]

/-- What a round reads does not depend on what stands elsewhere. -/
theorem readToken_reads {before v : List UInt8} {c : UInt8} {tokens tokens' : List Token}
    {moved : Nat}
    (h : readToken (before ++ c :: v) before.length tokens c = some (tokens', moved)) :
    Reads before (c :: v) c tokens tokens' moved := by
  by_cases hc : isDigit c = true
  · exact reads_number hc h
  have hround := h
  unfold readToken at hround
  split at hround
  case isTrue hspace =>
    cases hround
    exact reads_single fun _ _ _ => readToken_space _ _ _ hspace
  split at hround
  case h_3 => exact reads_sign (Or.inl rfl) (fun _ _ => rfl) h
  case h_4 => exact reads_sign (Or.inr rfl) (fun _ _ => rfl) h
  case h_8 | h_9 | h_10 | h_11 | h_12 => exact reads_function rfl (fun _ _ => rfl) hround
  case h_13 => cases hround
  all_goals
    cases hround
    exact reads_single fun _ _ _ => rfl

theorem Round.unique {input : List UInt8} {s a b : Nat × List Token} (ha : Round input s a)
    (hb : Round input s b) : a = b := by
  rcases ha with ⟨_, moved, hread, hindex⟩
  rcases hb with ⟨_, moved', hread', hindex'⟩
  rw [hread, Option.some.injEq, Prod.mk.injEq] at hread'
  rw [hread'.2, ← hindex'] at hindex
  exact Prod.ext hindex hread'.1

theorem rounds_le {input : List UInt8} {s s' : Nat × List Token}
    (h : Relation.ReflTransGen (Round input) s s') : s.1 ≤ s'.1 := by
  induction h with
  | refl => exact Nat.le_refl _
  | tail _ hround ih =>
      rcases hround with ⟨_, moved, -, hindex⟩
      omega

/-- Within what a round reads the loop does not stand. -/
theorem Stands.outside {input : List UInt8} {index i : Nat} {tokens tokens' : List Token}
    {next : Nat × List Token} (h : Stands input index tokens)
    (hround : Round input (index, tokens) next) (hi : Stands input i tokens') :
    i ≤ index ∨ next.1 ≤ i := by
  have hunique : Relator.RightUnique (Round input) := fun _ _ _ => Round.unique
  -- Both places are reached from the start, so one of them is reached from the other.
  rcases Relation.ReflTransGen.total_of_right_unique hunique hi h with hbefore | hbehind
  · have hle := rounds_le hbefore
    exact Or.inl hle
  · rcases Relation.ReflTransGen.cases_head hbehind with heq | ⟨s, hs, hrest⟩
    · cases heq
      exact Or.inl (Nat.le_refl _)
    · rw [hs.unique hround] at hrest
      have hle := rounds_le hrest
      exact Or.inr hle

theorem insertGaps_cons (gap : Nat → List UInt8) (index : Nat) (c : UInt8) (v : List UInt8) :
    insertGaps gap index (c :: v) = gap index ++ c :: insertGaps gap (index + 1) v :=
  rfl

theorem insertGaps_append {gap : Nat → List UInt8} {index : Nat} {u : List UInt8}
    (w : List UInt8) (h : ∀ i, index ≤ i → i < index + u.length → gap i = []) :
    insertGaps gap index (u ++ w) = u ++ insertGaps gap (index + u.length) w := by
  induction u generalizing index with
  | nil => rfl
  | cons c u ih =>
      rw [List.length_cons] at h
      have hfirst := h index (Nat.le_refl _) (by omega)
      rw [List.cons_append, insertGaps_cons, hfirst, List.nil_append,
        ih fun i hi hlt => h i (by omega) (by omega), List.length_cons, Nat.add_assoc,
        Nat.add_comm 1]
      rfl

namespace Layout

variable {input : List UInt8} (layout : Layout input)

/-- There are no gaps in what a round reads. -/
theorem insertGaps_lexeme {before v lexeme w : List UInt8} {c : UInt8}
    {tokens tokens' : List Token} {moved : Nat} (hinput : input = before ++ c :: v)
    (hstands : Stands input before.length tokens)
    (hread : readToken (before ++ c :: v) before.length tokens c = some (tokens', moved))
    (hsplit : c :: v = lexeme ++ w) (hlength : lexeme.length = moved + 1) :
    Stands input (before ++ lexeme).length tokens' ∧
      insertGaps layout.gap before.length (c :: v) =
        layout.gap before.length ++
          (lexeme ++ insertGaps layout.gap (before ++ lexeme).length w) := by
  have hround : Round input (before.length, tokens) ((before ++ lexeme).length, tokens') := by
    have hlt := length_lt_append_cons before v c
    have hget := getElem_length_append before v c hlt
    subst hinput
    refine ⟨hlt, moved, ?_, ?_⟩
    · simp only [hget]
      exact hread
    · rw [List.length_append, hlength]
      rfl
  refine ⟨hstands.tail hround, ?_⟩
  cases lexeme with
  | nil => cases hlength
  | cons c' lexeme =>
      rw [List.cons_append, List.cons.injEq] at hsplit
      -- Only in front of the first byte of the lexeme does the loop stand.
      have hgaps : ∀ i, before.length + 1 ≤ i → i < before.length + 1 + lexeme.length →
          layout.gap i = [] := by
        intro i hle hlt
        by_contra hne
        rcases layout.stands i hne with ⟨ti, hi⟩
        have houtside := hstands.outside hround hi
        simp only [List.length_append, List.length_cons] at houtside
        omega
      rw [insertGaps_cons, hsplit.2, insertGaps_append w hgaps, hsplit.1, List.length_append,
        List.length_cons, Nat.add_assoc, Nat.add_comm 1]
      rfl

/-- Whitespace ends every number. -/
theorem stops_space {l : Literal} {s : UInt8} (v : List UInt8) (hs : isSpace s = true) :
    l.Stops (s :: v) := by
  have hdigit : isDigit s = false := by
    by_contra hd
    rw [Bool.not_eq_false, isDigit_iff] at hd
    rw [isSpace] at hs
    grind
  refine ⟨fun _ => outside_cons.mpr hdigit, fun _ d v' h => ?_, fun _ _ x v' h => ?_⟩
  · cases h
    exact absurd hs (by decide)
  · rw [ExponentPart.text, List.cons_append, List.cons.injEq] at h
    rw [h.1] at hs
    rcases x.mark_eq with hmark | hmark <;> rw [hmark] at hs <;> exact absurd hs (by decide)

/-- What ends a number in the expression ends it with the gaps too, if the expression is
    accepted. -/
theorem stops_insertGaps {before w : List UInt8} {tokens result : List Token} {l : Literal}
    (hinput : input = before ++ w) (hstands : Stands input before.length tokens)
    (haccepted : tokenizeRest before w tokens = some result) (hstops : l.Stops w) :
    l.Stops (insertGaps layout.gap before.length w) := by
  cases hgap : layout.gap before.length with
  | cons s gap =>
      have hs := layout.isSpace_gap before.length s (by rw [hgap]; exact List.mem_cons_self)
      cases w <;> rw [insertGaps, hgap] <;> exact stops_space _ hs
  | nil =>
      cases w with
      | nil =>
          rw [insertGaps, hgap]
          exact hstops
      | cons c v =>
          cases hround : readToken (before ++ c :: v) before.length tokens c with
          | none =>
              rw [tokenizeRest_error hround] at haccepted
              cases haccepted
          | some round =>
              rcases readToken_reads hround with ⟨lexeme, rest, hsplit, hlength, -⟩
              have htext := (layout.insertGaps_lexeme hinput hstands hround hsplit hlength).2
              rw [hgap, List.nil_append] at htext
              rcases lexeme with _ | ⟨c', lexeme⟩
              · cases hlength
              rw [List.cons_append, List.cons.injEq] at hsplit
              rw [htext, List.cons_append, ← hsplit.1]
              refine ⟨fun h => outside_cons.mpr (outside_cons.mp (hstops.outside h)),
                fun _ d v' h => ?_, fun _ _ x v' h => ?_⟩
              · -- A dot does not begin a token.
                rw [List.cons.injEq] at h
                rw [h.1] at hround
                cases hround
              · -- Nor does the mark, unless it begins the name of a function.
                have hmark := (List.cons.inj h).1
                rcases x.mark_eq with hmark' | hmark'
                · rw [hmark, hmark'] at hround
                  rcases readFunction_eq_some hround with ⟨hcheck, -, hmoved⟩
                  rw [checkSubtring, substr, List.drop_left, beq_iff_eq] at hcheck
                  have hname : lexeme = [120, 112] := by
                    have htwo : lexeme.length = 2 := by
                      rw [List.length_cons, hmoved] at hlength
                      omega
                    have htake := (List.cons.inj hcheck).2
                    rw [hsplit.2] at htake
                    exact (List.take_left' htwo).symm.trans htake
                  rw [hname] at h
                  exact x.second_ne v' (by rw [← h]; rfl)
                · rw [hmark, hmark'] at hround
                  cases hround

/-- The loop makes the same rounds on the expression with the gaps, as long as a sign does
    not become the first byte, nor ceases to be it. -/
theorem tokenizeRest_insertGaps {before before' v : List UInt8} {tokens result : List Token}
    (hinput : input = before ++ v) (hstands : Stands input before.length tokens)
    (haccepted : tokenizeRest before v tokens = some result)
    (hsign : ∀ c w, v = c :: w → c = 43 ∨ c = 45 →
      (before = [] ↔ before' ++ layout.gap before.length = [])) :
    tokenizeRest before' (insertGaps layout.gap before.length v) tokens = some result := by
  induction hn : v.length using Nat.strongRecOn generalizing before before' v tokens with
  | _ n ih =>
      have hspaces := layout.isSpace_gap before.length
      cases v with
      | nil =>
          -- The gap behind the last token is passed over like the others.
          rw [tokenizeRest_nil] at haccepted
          have hgap := tokenizeRest_spaces before' [] tokens hspaces
          rw [List.append_nil, tokenizeRest_nil] at hgap
          rw [insertGaps, hgap, haccepted]
      | cons c v =>
          cases hround : readToken (before ++ c :: v) before.length tokens c with
          | none =>
              rw [tokenizeRest_error hround] at haccepted
              cases haccepted
          | some round =>
              rcases readToken_reads hround with ⟨lexeme, w, hsplit, hlength, hreads⟩
              rcases layout.insertGaps_lexeme hinput hstands hround hsplit hlength with
                ⟨hstands', htext⟩
              rw [tokenizeRest_read hround hsplit hlength] at haccepted
              have hinput' : input = before ++ lexeme ++ w := by
                rw [hinput, hsplit, List.append_assoc]
              have hagain := hreads (before' ++ layout.gap before.length)
                (insertGaps layout.gap (before ++ lexeme).length w) (hsign c v rfl)
                fun l => layout.stops_insertGaps hinput' hstands' haccepted
              have hlexeme : lexeme ≠ [] := by
                rintro rfl
                cases hlength
              have hlt : w.length < n := by
                have hlengths := congrArg List.length hsplit
                rw [List.length_append] at hlengths
                omega
              rcases lexeme with _ | ⟨c', lexeme⟩
              · exact absurd rfl hlexeme
              have hc := (List.cons.inj hsplit).1
              rw [htext, tokenizeRest_spaces before' _ tokens hspaces]
              rw [hc] at hagain
              rw [List.cons_append] at hagain ⊢
              rw [tokenizeRest_read hagain (List.cons_append ..).symm hlength]
              refine ih w.length hlt hinput' hstands' haccepted (fun _ _ _ _ => ?_) rfl
              simp only [List.append_eq_nil_iff, reduceCtorEq, and_false, List.append_assoc,
                List.length_append, List.length_cons, List.cons_append]

end Layout

/-- The loop only adds tokens. -/
theorem tokenizeFrom_extends (input : List UInt8) (index : Nat) (tokens : List Token)
    {result : List Token} (h : tokenizeFrom input index tokens = some result) :
    tokens <+: result := by
  induction index, tokens using tokenizeFrom.induct input with
  | case1 index tokens hlt tokens' moved hread ih =>
      rw [tokenizeFrom_read hlt hread] at h
      rcases readToken_lexed hread with rfl | ⟨token, rfl, -⟩
      · exact ih h
      · exact (List.prefix_append tokens [token]).trans (ih h)
  | case2 index tokens hlt hread =>
      rw [tokenizeFrom_error hlt hread] at h
      cases h
  | case3 index tokens hdone =>
      rw [tokenizeFrom_done tokens (Nat.not_lt.mp hdone), Option.some.injEq] at h
      exact h ▸ List.prefix_rfl

/-- Token lists with different first tokens are different. -/
theorem getD_ne {x : Option (List Token)} {tokens : List Token} {a b : Token}
    (ha : [a] <+: tokens) (hb : ∀ result, x = some result → [b] <+: result) (hne : a ≠ b) :
    x.getD [] ≠ tokens := by
  rcases ha with ⟨rest, rfl⟩
  cases x with
  | none => exact (List.cons_ne_nil _ _).symm
  | some result =>
      rcases hb result rfl with ⟨rest', rfl⟩
      intro h
      exact hne (List.cons.inj h).1.symm

/-- What a round adds is a plus only for a plus. -/
theorem readToken_ne_add {input : List UInt8} {index moved : Nat} {tokens tokens' : List Token}
    {c : UInt8} (h : readToken input index tokens c = some (tokens', moved)) (hc : c ≠ 43)
    (hspace : isSpace c = false) :
    ∃ token, tokens' = tokens ++ [token] ∧ token ≠ ofBinary .add := by
  have hfunction : ∀ target fn, readFunction input index tokens target fn = some (tokens', moved) →
      ∃ token, tokens' = tokens ++ [token] ∧ token ≠ ofBinary .add := by
    intro target fn h
    exact ⟨ofFunction fn, (readFunction_eq_some h).2.1, nofun⟩
  unfold readToken at h
  rw [hspace] at h
  simp only [Bool.false_eq_true, if_false] at h
  split at h
  case h_3 => exact absurd rfl hc
  case h_4 =>
    split at h
    · cases h
      exact ⟨_, rfl, by decide⟩
    · cases h
      exact ⟨_, rfl, by decide⟩
  case h_8 | h_9 | h_10 | h_11 | h_12 => exact hfunction _ _ h
  case h_13 =>
    split at h
    · cases h
      exact ⟨_, rfl, nofun⟩
    · cases h
  all_goals
    cases h
    exact ⟨_, rfl, by decide⟩

namespace Layout

variable {input : List UInt8} (layout : Layout input)

/-- Whitespace of the expression is passed over together with the gaps in it. -/
theorem tokenizeRest_spaces {spaces : List UInt8} (before' : List UInt8) (index : Nat)
    (u : List UInt8) (tokens : List Token) (h : ∀ c ∈ spaces, isSpace c = true) :
    ∃ before'', before' <+: before'' ∧
      tokenizeRest before' (insertGaps layout.gap index (spaces ++ u)) tokens =
        tokenizeRest before'' (insertGaps layout.gap (index + spaces.length) u) tokens := by
  induction spaces generalizing before' index with
  | nil => exact ⟨before', List.prefix_rfl, rfl⟩
  | cons c spaces ih =>
      rw [List.forall_mem_cons] at h
      rcases ih (before' ++ layout.gap index ++ [c]) (index + 1) h.2 with ⟨before'', hprefix, heq⟩
      refine ⟨before'', ?_, ?_⟩
      · rw [List.append_assoc] at hprefix
        exact (List.prefix_append before' _).trans hprefix
      · have hspace : ∀ c' ∈ [c], isSpace c' = true := List.forall_mem_singleton.mpr h.1
        rw [List.cons_append, insertGaps_cons,
          Calculator.tokenizeRest_spaces before' _ tokens (layout.isSpace_gap index),
          ← List.singleton_append,
          Calculator.tokenizeRest_spaces (before' ++ layout.gap index) _ tokens hspace, heq,
          List.length_cons, Nat.add_assoc, Nat.add_comm 1]

/-- In front of a sign that is the first byte, whitespace makes it an operator. -/
theorem tokenizeFrom_text_sign {c : UInt8} {v : List UInt8} {token : Token}
    (hinput : input = c :: v) (hgap : layout.gap 0 ≠ [])
    (hread : ∀ before w, before ≠ [] →
      readToken (before ++ c :: w) before.length [] c = some ([token], 0)) :
    tokenizeFrom layout.text 0 [] =
      tokenizeRest (layout.gap 0 ++ [c]) (insertGaps layout.gap 1 v) [token] := by
  have htext : layout.text = layout.gap 0 ++ c :: insertGaps layout.gap 1 v := by
    subst hinput
    rfl
  have hspaces := Calculator.tokenizeRest_spaces [] (c :: insertGaps layout.gap 1 v) []
    (layout.isSpace_gap 0)
  have hsplit : c :: insertGaps layout.gap 1 v = [c] ++ insertGaps layout.gap 1 v := rfl
  rw [List.nil_append, tokenizeRest_read (hread _ _ hgap) hsplit rfl] at hspaces
  rw [htext, ← hspaces]
  rfl

end Layout

theorem Stands.spaces {input before spaces u : List UInt8} {tokens : List Token}
    (hinput : input = before ++ (spaces ++ u)) (h : Stands input before.length tokens)
    (hspaces : ∀ c ∈ spaces, isSpace c = true) :
    Stands input (before ++ spaces).length tokens := by
  induction spaces generalizing before with
  | nil => rwa [List.append_nil]
  | cons c spaces ih =>
      rw [List.forall_mem_cons] at hspaces
      have hlt := length_lt_append_cons before (spaces ++ u) c
      have hget := getElem_length_append before (spaces ++ u) c hlt
      have hnext : Stands input (before ++ [c]).length tokens := by
        subst hinput
        refine h.tail ⟨hlt, 0, ?_, ?_⟩
        · exact readToken_space _ _ _ (by rw [← hspaces.1]; exact congrArg isSpace hget)
        · rw [List.length_append]
          rfl
      have hinput' : input = before ++ [c] ++ (spaces ++ u) := by
        rw [hinput]
        simp only [List.cons_append, List.append_assoc, List.nil_append]
      have hrest := ih hinput' hnext hspaces.2
      rwa [List.append_assoc] at hrest

/-- Behind a plus that is the first byte the loop stands as at the beginning. -/
theorem plus_first {input spaces u : List UInt8} (hinput : input = 43 :: (spaces ++ u))
    (hspaces : ∀ c ∈ spaces, isSpace c = true) :
    Stands input (43 :: spaces).length [] ∧
      tokenizeFrom input 0 [] = tokenizeRest (43 :: spaces) u [] := by
  have hread : readToken ([] ++ 43 :: (spaces ++ u)) ([] : List UInt8).length [] 43 =
      some ([], 0) := rfl
  have hstands : Stands input [(43 : UInt8)].length [] := by
    subst hinput
    exact Relation.ReflTransGen.single ⟨Nat.succ_pos _, 0, hread, rfl⟩
  have hsplit : 43 :: (spaces ++ u) = [43] ++ (spaces ++ u) := rfl
  have hrest := tokenizeRest_read hread hsplit rfl
  rw [List.nil_append, tokenizeRest_spaces [43] u [] hspaces] at hrest
  refine ⟨hstands.spaces hinput hspaces, ?_⟩
  rw [hinput]
  exact hrest

/-- A sign behind other bytes and without a token before it is an operator. -/
theorem readToken_plus (before w : List UInt8) (h : before ≠ []) :
    readToken (before ++ 43 :: w) before.length [] 43 = some ([ofBinary .add], 0) := by
  cases before with
  | nil => exact absurd rfl h
  | cons c before => rfl

theorem readToken_minus (before w : List UInt8) (h : before ≠ []) :
    readToken (before ++ 45 :: w) before.length [] 45 = some ([ofBinary .subtract], 0) := by
  cases before with
  | nil => exact absurd rfl h
  | cons c before => rfl

namespace Layout

variable {input : List UInt8} (layout : Layout input)

/-- Two pluses are one operator, whether whitespace stands in front of them or not. -/
theorem text_plus_plus {spaces u : List UInt8} {tokens : List Token}
    (hinput : input = 43 :: (spaces ++ 43 :: u)) (hspaces : ∀ c ∈ spaces, isSpace c = true)
    (hgap : layout.gap 0 ≠ []) (haccepted : tokenizeFrom input 0 [] = some tokens) :
    tokenizeFrom layout.text 0 [] = some tokens := by
  rcases plus_first hinput hspaces with ⟨hstands, hfirst⟩
  have hplus := readToken_plus (43 :: spaces) u (List.cons_ne_nil _ _)
  have hsplit : 43 :: u = [43] ++ u := rfl
  have hinput' : input = (43 :: spaces) ++ 43 :: u := hinput
  have hstands' := (layout.insertGaps_lexeme hinput' hstands hplus hsplit rfl).1
  rw [hfirst, tokenizeRest_read hplus hsplit rfl] at haccepted
  -- In the other text the first of them is the operator and the second is left out.
  rcases layout.tokenizeRest_spaces (layout.gap 0 ++ [43]) 1 (43 :: u) [ofBinary .add] hspaces with
    ⟨before, hprefix, heq⟩
  have hne : before ++ layout.gap (1 + spaces.length) ≠ [] := by
    rintro hnil
    rw [(List.append_eq_nil_iff.mp hnil).1] at hprefix
    have hle := hprefix.length_le
    rw [List.length_append, List.length_singleton] at hle
    exact absurd hle (by simp only [List.length_nil, Nat.le_zero_eq, Nat.add_eq_zero_iff,
        List.length_eq_zero_iff, Nat.succ_ne_self, and_false, not_false_eq_true])
  have hsecond : ∀ b w, readToken (b ++ 43 :: w) b.length [ofBinary .add] 43 =
      some ([ofBinary .add], 0) := by
    intro b w
    exact if_pos (Bool.or_true _)
  rw [layout.tokenizeFrom_text_sign hinput hgap readToken_plus, heq, insertGaps_cons,
    Calculator.tokenizeRest_spaces before _ _ (layout.isSpace_gap _),
    tokenizeRest_read (hsecond _ _) (List.singleton_append ..).symm rfl]
  have hindex : 1 + spaces.length + 1 = (43 :: spaces ++ [43]).length := by
    simp only [List.length_append, List.length_cons, List.length_nil]
    omega
  rw [hindex]
  refine layout.tokenizeRest_insertGaps (by rw [hinput']; simp only [List.cons_append,
      List.append_assoc, List.nil_append]) hstands' haccepted
    fun _ _ _ _ => ?_
  simp only [List.cons_append, reduceCtorEq, List.append_assoc, List.length_cons,
    List.length_append, List.length_nil, Nat.zero_add, List.nil_append, List.append_eq_nil_iff,
    and_false]

/-- Nothing changes if nothing is put in front of a sign that is the first byte. -/
theorem text_of_not_sign {tokens : List Token} (haccepted : tokenizeFrom input 0 [] = some tokens)
    (h : ∀ c w, input = c :: w → c = 43 ∨ c = 45 → layout.gap 0 = []) :
    tokenizeFrom layout.text 0 [] = some tokens := by
  have hstands : Stands input ([] : List UInt8).length [] := .refl
  change tokenizeRest [] (insertGaps layout.gap ([] : List UInt8).length input) [] = some tokens
  refine layout.tokenizeRest_insertGaps rfl hstands haccepted fun c w hinput hc => ?_
  simp only [List.length_nil, h c w hinput hc, List.append_nil]

/-- Whitespace in front of a minus that is the first byte makes it an operator. -/
theorem tokenize_text_minus {v : List UInt8} {tokens : List Token} (hinput : input = 45 :: v)
    (hgap : layout.gap 0 ≠ []) (haccepted : tokenizeFrom input 0 [] = some tokens) :
    tokenize layout.text ≠ tokens := by
  have hread : readToken ([] ++ 45 :: v) ([] : List UInt8).length [] 45 =
      some ([ofNegation], 0) := rfl
  have hfirst := tokenizeRest_read hread (List.singleton_append ..).symm rfl
  rw [hinput] at haccepted
  refine getD_ne (tokenizeFrom_extends _ _ _ (hfirst.symm.trans haccepted)) (fun result h => ?_)
    (by decide : ofNegation ≠ ofBinary .subtract)
  rw [layout.tokenizeFrom_text_sign hinput hgap readToken_minus] at h
  exact tokenizeFrom_extends _ _ _ h

/-- Whitespace in front of a plus that is the first byte makes it an operator, where it was
    left out before. -/
theorem tokenize_text_plus {spaces u : List UInt8} {tokens : List Token}
    (hinput : input = 43 :: (spaces ++ u)) (hspaces : ∀ c ∈ spaces, isSpace c = true)
    (hu : Outside isSpace u) (hnext : u.head? ≠ some 43) (hgap : layout.gap 0 ≠ [])
    (haccepted : tokenizeFrom input 0 [] = some tokens) : tokenize layout.text ≠ tokens := by
  rw [(plus_first hinput hspaces).2] at haccepted
  have htext := layout.tokenizeFrom_text_sign hinput hgap readToken_plus
  cases u with
  -- With nothing behind it the plus is all there is, and now it is a token.
  | nil =>
      rcases layout.tokenizeRest_spaces (layout.gap 0 ++ [43]) 1 [] [ofBinary .add] hspaces with
        ⟨before, -, heq⟩
      have hend := Calculator.tokenizeRest_spaces before [] [ofBinary .add]
        (layout.isSpace_gap (1 + spaces.length))
      rw [List.append_nil, tokenizeRest_nil] at hend
      rw [tokenizeRest_nil, Option.some.injEq] at haccepted
      rw [tokenize, htext, heq, insertGaps, hend, ← haccepted]
      exact List.cons_ne_nil _ _
  | cons c u =>
      have hspace : isSpace c = false := outside_cons.mp hu
      have hc : c ≠ 43 := fun h => hnext (congrArg some h)
      cases hround : readToken (43 :: spaces ++ c :: u) (43 :: spaces).length [] c with
      | none =>
          rw [tokenizeRest_error hround] at haccepted
          cases haccepted
      | some round =>
          rcases readToken_reads hround with ⟨lexeme, w, hsplit, hlength, -⟩
          -- The tokens begin with a plus now, and did not before.
          rcases readToken_ne_add hround hc hspace with ⟨token, htoken, hne⟩
          rw [tokenizeRest_read hround hsplit hlength, htoken] at haccepted
          refine getD_ne (tokenizeFrom_extends _ _ _ haccepted) (fun result h => ?_) hne
          rw [htext] at h
          exact tokenizeFrom_extends _ _ _ h

end Layout

/-- The tokens are the same after whitespace is inserted exactly if nothing is put in front
    of the first byte, or it is not a sign that this changes. -/
theorem tokenize_layout_iff (input : List UInt8) (layout : Layout input) {tokens : List Token}
    (haccepted : tokenizeFrom input 0 [] = some tokens) :
    tokenize layout.text = tokenize input ↔
      layout.gap 0 = [] ∨ startsWithSign input = false := by
  have htokens : tokenize input = tokens := by
    rw [tokenize, haccepted, Option.getD_some]
  have hsame : tokenizeFrom layout.text 0 [] = some tokens → tokenize layout.text = tokens := by
    intro h
    rw [tokenize, h, Option.getD_some]
  rw [htokens]
  by_cases hgap : layout.gap 0 = []
  · have htext := layout.text_of_not_sign haccepted fun _ _ _ _ => hgap
    exact ⟨fun _ => Or.inl hgap, fun _ => hsame htext⟩
  -- A gap at the front matters only to a sign, which is read as one of two operators there.
  by_cases hminus : ∃ v, input = 45 :: v
  · rcases hminus with ⟨v, hinput⟩
    have hne := layout.tokenize_text_minus hinput hgap haccepted
    have hsign : startsWithSign input = true := by
      rw [hinput]
      rfl
    simp only [hne, hgap, hsign, Bool.true_eq_false, or_self]
  by_cases hplus : ∃ v, input = 43 :: v
  · rcases hplus with ⟨v, hinput⟩
    rcases exists_run isSpace v with ⟨spaces, u, rfl, hspaces, hu⟩
    have hsign : startsWithSign input = (u.head? != some 43) := by
      rw [hinput, startsWithSign, dropWhile_run hspaces hu]
    -- Two pluses are one operator either way.
    by_cases hnext : u.head? = some 43
    · rcases List.head?_eq_some_iff.mp hnext with ⟨u', rfl⟩
      have htext := layout.text_plus_plus hinput hspaces hgap haccepted
      simp only [hsame htext, hsign, List.head?_cons, bne_self_eq_false, or_true]
    · have hne := layout.tokenize_text_plus hinput hspaces hu hnext hgap haccepted
      simp only [hne, hgap, hsign, bne_eq_false_iff_eq, hnext, or_self]
  · have htext := layout.text_of_not_sign haccepted fun c w hinput hc => by
      rcases hc with rfl | rfl
      · exact absurd ⟨w, hinput⟩ hplus
      · exact absurd ⟨w, hinput⟩ hminus
    have hsign : startsWithSign input = false := by
      unfold startsWithSign
      split
      · exact absurd ⟨_, rfl⟩ hminus
      · exact absurd ⟨_, rfl⟩ hplus
      · rfl
    simp only [hsame htext, hsign, or_true]

/-- `-1` with a blank in front of it -/
def blankInFront : Layout [45, 49] where
  gap index := if index = 0 then [32] else []
  isSpace_gap := by
    intro index c hc
    by_cases hzero : index = 0
    · rw [if_pos hzero, List.mem_singleton] at hc
      rw [hc]
      rfl
    · rw [if_neg hzero] at hc
      cases hc
  stands := by
    intro index hne
    by_cases hzero : index = 0
    · rw [hzero]
      exact ⟨[], .refl⟩
    · exact absurd (if_neg hzero) hne

theorem tokenize_layout_iff_minus :
    tokenize blankInFront.text = tokenize [45, 49] ↔
      blankInFront.gap 0 = [] ∨ startsWithSign [45, 49] = false :=
  tokenize_layout_iff [45, 49] blankInFront
    (by decide +kernel : tokenizeFrom [45, 49] 0 [] = some [ofNegation, ofOperand [49]])

/-- `-1` is the negation of a number, ` -1` is a difference without a first operand. -/
theorem not_tokenize_layout :
    ¬∀ (input : List UInt8) (layout : Layout input) (tokens : List Token),
      tokenizeFrom input 0 [] = some tokens → tokenize layout.text = tokenize input := by
  intro h
  have hne : tokenize blankInFront.text ≠ tokenize [45, 49] := by decide +kernel
  exact hne (h [45, 49] blankInFront [ofNegation, ofOperand [49]] (by decide +kernel))

end Calculator

end CodingChallenges
