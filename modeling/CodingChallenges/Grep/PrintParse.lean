import CodingChallenges.Grep.Printer

/-!
# Parsing Undoes Printing

The parser reads the spelling of a tree as that tree, with nothing left.

Each parser is shown to read the spelling of what it is for with any text behind
it that cannot belong to it: behind an item no quantifier may begin, behind a
backreference no digit, and behind a sub-expression there is its end. What comes
next in a printed pattern always qualifies, as the first bytes of all items are
known (`headAvoids_item`). The recursion is on the tree, and the bound on the
nesting that the parser works with is the length of the spelling, of which each
group takes at least its parentheses.

## Theorems

* `headAvoids_item`, `noDigitHead_items`: What printed items begin with.
* `parseExpression_spelling`: The recursion over the tree.
* `parseRegex_spelling`: Parsing undoes printing.
-/

namespace CodingChallenges

namespace Grep

/-- What every item begins with. -/
def itemAvoids : List Char :=
  ['^', ']', ')', '|', '*', '+', '?', '{', '}']

section Heads

theorem anchor_spelling (type : AnchorType) :
    ∃ a text, type.spelling = a :: text ∧ (a = byte '$' ∨ a = byte '\\') := by
  cases type <;> exact ⟨_, _, rfl, by decide⟩

theorem headAvoids_item {item : SubExpressionItem} (h : item.Printable) (rest : List Byte) :
    HeadAvoids itemAvoids (item.spelling ++ rest) := by
  rcases item with m | ⟨nonCapturingModifier, _ | expression, quantifier⟩ | anchor | number
  · simp only [SubExpressionItem.spelling, Match.spelling, List.append_assoc]
    exact (headAvoids_matchItem h.1 _).mono (by decide)
  · exact absurd h id
  · exact HeadAvoids.cons (by decide)
  · rcases anchor_spelling anchor.type with ⟨a, text, hcons, ha⟩
    simp only [SubExpressionItem.spelling, hcons, List.cons_append]
    rcases ha with rfl | rfl
    · exact HeadAvoids.cons (by decide)
    · exact HeadAvoids.cons (by decide)
  · exact HeadAvoids.cons (by decide)

theorem item_spelling_ne_nil {item : SubExpressionItem} (h : item.Printable) :
    item.spelling ≠ [] := by
  rcases item with m | ⟨nonCapturingModifier, _ | expression, quantifier⟩ | anchor | number
  · exact List.append_ne_nil_of_left_ne_nil (matchItem_spelling_ne_nil h.1) _
  · exact absurd h id
  · exact List.cons_ne_nil _ _
  · rcases anchor_spelling anchor.type with ⟨a, text, hcons, -⟩
    simp only [SubExpressionItem.spelling, hcons, ne_eq, reduceCtorEq, not_false_eq_true]
  · exact List.cons_ne_nil _ _

theorem headAvoids_subExpression {subExpression : SubExpression} (h : subExpression.Printable)
    (rest : List Byte) :
    HeadAvoids itemAvoids (subExpression.spelling ++ rest) ∧ subExpression.spelling ≠ [] := by
  rcases subExpression with ⟨_ | ⟨item, items⟩⟩
  · exact absurd rfl h.1
  · simp only [SubExpression.spelling, SubExpression.spellingOfItems, List.append_assoc]
    exact ⟨headAvoids_item h.2.1 _,
      List.append_ne_nil_of_left_ne_nil (item_spelling_ne_nil h.2.1) _⟩

theorem headAvoids_expression {expression : Expression} (h : expression.Printable)
    (rest : List Byte) :
    HeadAvoids itemAvoids (expression.spelling ++ rest) ∧ expression.spelling ≠ [] := by
  rcases expression with ⟨_ | ⟨alternative, alternatives⟩⟩
  · exact absurd rfl h.1
  · have hfirst := headAvoids_subExpression h.2.1
      (Expression.spellingOfAlternatives alternatives ++ rest)
    simp only [Expression.spelling, List.append_assoc]
    exact ⟨hfirst.1, List.append_ne_nil_of_left_ne_nil hfirst.2 _⟩

/-- Where a sub-expression ends, no quantifier begins and no number goes on. -/
theorem heads_of_ends {rest : List Byte} (h : endsSubExpression rest = true) :
    HeadAvoids quantifierStarts rest ∧ NoDigitHead rest := by
  cases rest with
  | nil => exact ⟨headAvoids_nil, fun c hc => by cases hc⟩
  | cons a rest =>
      simp only [endsSubExpression, List.isEmpty_cons, List.head?_cons, Bool.false_or,
        Bool.or_eq_true, beq_iff_eq, Option.some.injEq] at h
      rcases h with rfl | rfl
      · exact ⟨HeadAvoids.cons (by decide), noDigitHead_cons (by decide)⟩
      · exact ⟨HeadAvoids.cons (by decide), noDigitHead_cons (by decide)⟩

/-- Behind an item come other items, or the end of the sub-expression. -/
theorem headAvoids_items {items : List SubExpressionItem} (h : SubExpression.PrintableItems items)
    {rest : List Byte} (hrest : endsSubExpression rest = true) :
    HeadAvoids quantifierStarts (SubExpression.spellingOfItems items ++ rest) := by
  cases items with
  | nil => exact (heads_of_ends hrest).1
  | cons item items =>
      simp only [SubExpression.spellingOfItems, List.append_assoc]
      exact (headAvoids_item h.1 _).mono (by decide)

/-- A character that is no digit is not encoded with the byte of one in front. -/
theorem noDigitHead_charSpelling {chars : List Char} {x : Nat} (h : ScalarOtherThan chars x)
    (hdigit : ¬ (codePoint '0' ≤ x ∧ x ≤ codePoint '9')) (rest : List Byte) :
    NoDigitHead (charSpelling x ++ rest) := by
  rcases (utf8Form_charSpelling h).first with ⟨a, w, hw, ha⟩
  rw [hw, List.cons_append]
  refine noDigitHead_cons ?_
  rw [Bool.eq_false_iff, Ne, isDecimalDigit_iff_toNat]
  intro hrange
  rcases ha with hsame | hlarge
  · rw [hsame] at hrange
    exact hdigit hrange
  · have hbound : (0xC0 : UInt8).toNat ≤ a.toNat := UInt8.le_iff_toNat_le.mp hlarge
    have hvalue : (0xC0 : UInt8).toNat = 192 := rfl
    omega

/-- Behind a backreference no digit comes. -/
theorem noDigitHead_items {number : Nat} {items : List SubExpressionItem}
    (hnext : (SubExpressionItem.backreference number).MayPrecede items)
    (h : SubExpression.PrintableItems items) {rest : List Byte}
    (hrest : endsSubExpression rest = true) :
    NoDigitHead (SubExpression.spellingOfItems items ++ rest) := by
  rcases items with _ | ⟨item, items⟩
  · exact (heads_of_ends hrest).2
  · simp only [SubExpression.spellingOfItems, List.append_assoc]
    rcases item with ⟨item, quantifier⟩ | ⟨nonCapturingModifier, _ | expression, quantifier⟩ |
      anchor | number
    · simp only [SubExpressionItem.spelling, Match.spelling, List.append_assoc]
      rcases item with _ | (g | c | c) | c
      · exact noDigitHead_cons (by decide)
      · exact noDigitHead_cons (by decide)
      · exact noDigitHead_cons (by decide)
      · exact noDigitHead_cons (by decide)
      · -- The one item that could begin with a digit.
        have hprintable := h.1.1
        exact noDigitHead_charSpelling hprintable hnext _
    · exact absurd h.1 id
    · exact noDigitHead_cons (by decide)
    · rcases anchor_spelling anchor.type with ⟨a, text, hcons, ha⟩
      simp only [SubExpressionItem.spelling, hcons, List.cons_append]
      rcases ha with rfl | rfl
      · exact noDigitHead_cons (by decide)
      · exact noDigitHead_cons (by decide)
    · exact noDigitHead_cons (by decide)

/-- Every item takes a byte. -/
theorem length_le_spellingOfItems : ∀ items : List SubExpressionItem,
    SubExpression.PrintableItems items →
      items.length ≤ (SubExpression.spellingOfItems items).length
  | [], _ => Nat.zero_le _
  | item :: items, h => by
      have hpos := List.length_pos_iff.mpr (item_spelling_ne_nil h.1)
      have hrest := length_le_spellingOfItems items h.2.2
      rw [SubExpression.spellingOfItems, List.length_append, List.length_cons]
      omega

/-- Every alternative takes its bar. -/
theorem length_le_spellingOfAlternatives (alternatives : List SubExpression) :
    alternatives.length ≤ (Expression.spellingOfAlternatives alternatives).length := by
  induction alternatives with
  | nil => exact Nat.zero_le _
  | cons alternative alternatives ih =>
      rw [Expression.spellingOfAlternatives, List.length_cons, List.length_cons,
        List.length_append]
      omega

theorem endsSubExpression_item {item : SubExpressionItem} (h : item.Printable)
    (rest : List Byte) : endsSubExpression (item.spelling ++ rest) = false := by
  have havoids := headAvoids_item h rest
  have hne := List.append_ne_nil_of_left_ne_nil (item_spelling_ne_nil h) rest
  simp only [endsSubExpression, Bool.or_eq_false_iff, List.isEmpty_eq_false_iff,
    beq_eq_false_iff_ne]
  exact ⟨⟨hne, havoids '|' (by decide)⟩, havoids ')' (by decide)⟩

/-- The alternatives behind one, and what ends them all, end it. -/
theorem endsSubExpression_alternatives {alternatives : List SubExpression} {rest : List Byte}
    (hrest : endsSubExpression rest = true) :
    endsSubExpression (Expression.spellingOfAlternatives alternatives ++ rest) = true := by
  cases alternatives with
  | nil => exact hrest
  | cons alternative alternatives =>
      simp only [Expression.spellingOfAlternatives, List.cons_append, endsSubExpression,
        List.isEmpty_cons, List.head?_cons, beq_self_eq_true, Bool.or_true, Bool.true_or]

end Heads

mutual

/-- An expression is read back up to what ends it. -/
theorem parseExpression_spelling : ∀ (expression : Expression) (depth : Nat) (rest : List Byte),
    expression.Printable → expression.spelling.length < depth → endsSubExpression rest = true →
    rest.head? ≠ some (byte '|') →
      parseExpression depth (expression.spelling ++ rest) = .ok ⟨expression, rest⟩
  | .mk [], _, _, h, _, _, _ => absurd rfl h.1
  | .mk (_ :: _), 0, _, _, hdepth, _, _ => absurd hdepth (Nat.not_lt_zero _)
  | .mk (first :: others), depth + 1, rest, h, hdepth, hends, hbar => by
      simp only [Expression.spelling, List.length_append] at hdepth
      -- Each part is shorter than the whole, so the depth is enough for it.
      have hfirst := parseSubExpression_spelling first depth
        (Expression.spellingOfAlternatives others ++ rest) h.2.1 (by omega)
        (endsSubExpression_alternatives hends)
      have hrounds := length_le_spellingOfAlternatives others
      have hothers := parseAlternatives_spelling others depth
        (Expression.spellingOfAlternatives others ++ rest).length rest h.2.2 (by omega)
        (by rw [List.length_append]; omega) hends hbar
      have hne := (headAvoids_subExpression h.2.1 []).2
      simp only [Expression.spelling, List.append_assoc]
      unfold parseExpression
      rw [if_neg (List.append_ne_nil_of_left_ne_nil hne _), hfirst, ok_bind]
      simp only
      rw [hothers, ok_bind]
      rfl

theorem parseAlternatives_spelling : ∀ (alternatives : List SubExpression) (depth rounds : Nat)
    (rest : List Byte), Expression.PrintableAlternatives alternatives →
    (Expression.spellingOfAlternatives alternatives).length ≤ depth →
    alternatives.length ≤ rounds → endsSubExpression rest = true →
    rest.head? ≠ some (byte '|') →
      parseAlternatives (parseExpression depth) rounds
        (Expression.spellingOfAlternatives alternatives ++ rest) = .ok ⟨alternatives, rest⟩
  | [], depth, rounds, rest, _, _, _, _, hbar => by
      cases rounds with
      | zero => exact if_neg hbar
      | succ rounds => exact if_neg hbar
  | _ :: _, _, 0, _, _, _, hrounds, _, _ => absurd hrounds (Nat.not_succ_le_zero _)
  | alternative :: others, depth, rounds + 1, rest, h, hdepth, hrounds, hends, hbar => by
      simp only [Expression.spellingOfAlternatives, List.length_cons, List.length_append]
        at hdepth
      have hfirst := parseSubExpression_spelling alternative depth
        (Expression.spellingOfAlternatives others ++ rest) h.1 (by omega)
        (endsSubExpression_alternatives hends)
      have hothers := parseAlternatives_spelling others depth rounds rest h.2 (by omega)
        (Nat.le_of_succ_le_succ hrounds) hends hbar
      simp only [Expression.spellingOfAlternatives, List.cons_append, List.append_assoc]
      unfold parseAlternatives
      simp only [List.head?_cons, if_true, List.tail_cons]
      rw [hfirst, ok_bind]
      simp only
      rw [hothers, ok_bind]
      rfl

theorem parseSubExpression_spelling : ∀ (subExpression : SubExpression) (depth : Nat)
    (rest : List Byte), subExpression.Printable → subExpression.spelling.length ≤ depth →
    endsSubExpression rest = true →
      parseSubExpression (parseExpression depth) (subExpression.spelling ++ rest)
        = .ok ⟨subExpression, rest⟩
  | .mk [], _, _, h, _, _ => absurd rfl h.1
  | .mk (item :: items), depth, rest, h, hdepth, hends => by
      simp only [SubExpression.spelling, SubExpression.spellingOfItems, List.length_append]
        at hdepth
      have hitem := parseSubExpressionItem_spelling item items depth rest h.2.1 h.2.2.1 h.2.2.2
        (by omega) hends
      have hrounds := length_le_spellingOfItems items h.2.2.2
      have hitems := parseSubExpressionItems_spelling items depth
        (SubExpression.spellingOfItems items ++ rest).length rest h.2.2.2 (by omega)
        (by rw [List.length_append]; omega) hends
      have hne := item_spelling_ne_nil h.2.1
      simp only [SubExpression.spelling, SubExpression.spellingOfItems, List.append_assoc]
      unfold parseSubExpression
      rw [if_neg (List.append_ne_nil_of_left_ne_nil hne _), hitem, ok_bind]
      simp only
      rw [hitems, ok_bind]
      rfl

theorem parseSubExpressionItems_spelling : ∀ (items : List SubExpressionItem)
    (depth rounds : Nat) (rest : List Byte), SubExpression.PrintableItems items →
    (SubExpression.spellingOfItems items).length ≤ depth → items.length ≤ rounds →
    endsSubExpression rest = true →
      parseSubExpressionItems (parseExpression depth) rounds
        (SubExpression.spellingOfItems items ++ rest) = .ok ⟨items, rest⟩
  | [], depth, rounds, rest, _, _, _, hends => by
      cases rounds with
      | zero => exact if_pos hends
      | succ rounds => exact if_pos hends
  | _ :: _, _, 0, _, _, _, hrounds, _ => absurd hrounds (Nat.not_succ_le_zero _)
  | item :: items, depth, rounds + 1, rest, h, hdepth, hrounds, hends => by
      simp only [SubExpression.spellingOfItems, List.length_append] at hdepth
      have hitem := parseSubExpressionItem_spelling item items depth rest h.1 h.2.1 h.2.2
        (by omega) hends
      have hitems := parseSubExpressionItems_spelling items depth rounds rest h.2.2 (by omega)
        (Nat.le_of_succ_le_succ hrounds) hends
      -- The loop goes on, since no item begins with a bar or a parenthesis.
      have hgoes := endsSubExpression_item h.1 (SubExpression.spellingOfItems items ++ rest)
      simp only [SubExpression.spellingOfItems, List.append_assoc]
      unfold parseSubExpressionItems
      rw [hgoes]
      simp only [Bool.false_eq_true, if_false]
      rw [hitem, ok_bind]
      simp only
      rw [hitems, ok_bind]
      rfl

/-- An item is read back with the items behind it left alone. -/
theorem parseSubExpressionItem_spelling : ∀ (item : SubExpressionItem)
    (items : List SubExpressionItem) (depth : Nat) (rest : List Byte), item.Printable →
    item.MayPrecede items → SubExpression.PrintableItems items →
    item.spelling.length ≤ depth → endsSubExpression rest = true →
      parseSubExpressionItem (parseExpression depth)
        (item.spelling ++ (SubExpression.spellingOfItems items ++ rest))
          = .ok ⟨item, SubExpression.spellingOfItems items ++ rest⟩
  | .singleMatch _, _, _, _, h, _, hitems, _, hends =>
      parseSubExpressionItem_match h (headAvoids_items hitems hends)
  | .anchor a, _, _, _, _, _, _, _, _ => parseSubExpressionItem_anchor a
  | .backreference _, _, _, _, h, hnext, hitems, _, hends =>
      parseSubExpressionItem_backreference h (noDigitHead_items hnext hitems hends)
  | .group g, items, depth, rest, h, _, hitems, hdepth, hends => by
      have hgroup := parseGroup_spelling g depth (SubExpression.spellingOfItems items ++ rest) h
        hdepth (headAvoids_items hitems hends)
      rcases g with ⟨nonCapturingModifier, _ | expression, quantifier⟩
      · exact absurd h id
      · have hother : ¬ (byte '(' = byte '|' ∨ byte '(' = byte ')') := by decide
        simp only [SubExpressionItem.spelling, Group.spelling, List.cons_append] at hgroup ⊢
        unfold parseSubExpressionItem
        simp only [hother, if_false, if_true]
        rw [hgroup, ok_bind]
        rfl

theorem parseGroup_spelling : ∀ (group : Group) (depth : Nat) (rest : List Byte),
    group.Printable → group.spelling.length ≤ depth → HeadAvoids quantifierStarts rest →
      parseGroup (parseExpression depth) (group.spelling ++ rest) = .ok ⟨group, rest⟩
  | .mk _ none _, _, _, h, _, _ => absurd h id
  | .mk nonCapturingModifier (some expression) quantifier, depth, rest, h, hdepth, hrest => by
      simp only [Group.spelling, List.length_cons, List.length_append] at hdepth
      have hinner := parseExpression_spelling expression depth
        (byte ')' :: (quantifierSpelling quantifier ++ rest)) h.1 (by omega) rfl
        (fun heq => absurd (Option.some.inj heq) (by decide))
      -- What is behind the closing parenthesis is read as the quantifier.
      have hquantifier : (match parseQuantifier (quantifierSpelling quantifier ++ rest) with
          | .error _ => (pure ⟨.mk nonCapturingModifier (some expression) none,
              quantifierSpelling quantifier ++ rest⟩ : Except ParseFailure (ParseValue Group))
          | .ok ⟨quantifier, rest⟩ =>
            pure ⟨.mk nonCapturingModifier (some expression) (some quantifier), rest⟩)
          = .ok ⟨.mk nonCapturingModifier (some expression) quantifier, rest⟩ := by
        cases quantifier with
        | none =>
            rcases parseQuantifier_error hrest with ⟨e, herror⟩
            simp only [quantifierSpelling, List.nil_append, herror]
            rfl
        | some quantifier =>
            simp only [quantifierSpelling, parseQuantifier_spelling h.2 hrest]
            rfl
      -- A capturing group does not begin with the mark of the other kind.
      have hmark : [byte '?', byte ':'].isPrefixOf (expression.spelling ++
          byte ')' :: (quantifierSpelling quantifier ++ rest)) = false := by
        rcases headAvoids_expression h.1 (byte ')' :: (quantifierSpelling quantifier ++ rest)) with
          ⟨havoids, hne⟩
        rcases List.exists_cons_of_ne_nil hne with ⟨a, text, hcons⟩
        rw [hcons, List.cons_append] at havoids ⊢
        have hfirst : (byte '?' == a) = false :=
          beq_false_of_ne (Ne.symm (havoids.ne (by decide)))
        rw [List.isPrefixOf, hfirst, Bool.false_and]
      cases nonCapturingModifier with
      | true =>
          simp only [Group.spelling, if_true, List.cons_append, List.append_assoc,
            List.nil_append]
          unfold parseGroup
          simp only [ne_eq, not_true_eq_false, if_false]
          have hbegins : [byte '?', byte ':'].isPrefixOf (byte '?' :: byte ':' ::
              (expression.spelling ++ byte ')' :: (quantifierSpelling quantifier ++ rest)))
                = true := rfl
          rw [hbegins]
          simp only [if_true, List.drop_succ_cons, List.drop_zero]
          rw [hinner, ok_bind]
          simp only [List.head?_cons, not_true_eq_false, if_false, List.tail_cons]
          exact hquantifier
      | false =>
          simp only [Group.spelling, Bool.false_eq_true, if_false, List.cons_append,
            List.append_assoc, List.nil_append]
          unfold parseGroup
          simp only [ne_eq, not_true_eq_false, if_false]
          rw [hmark]
          simp only [Bool.false_eq_true, if_false]
          rw [hinner, ok_bind]
          simp only [List.head?_cons, not_true_eq_false, if_false, List.tail_cons]
          exact hquantifier

end

/-- Parsing undoes printing: the spelling of every tree that can be spelled is
    parsed as that tree, with nothing left. -/
theorem parseRegex_spelling (regex : Regex) (h : regex.Printable) :
    parseRegex regex.spelling = .ok ⟨regex, []⟩ := by
  rcases regex with ⟨startOfStringAnchor, expression⟩
  have hprintable : expression.Printable := h
  have hread := parseExpression_spelling expression (expression.spelling.length + 1) []
    hprintable (Nat.lt_succ_self _) rfl (fun heq => by cases heq)
  rw [List.append_nil] at hread
  rcases headAvoids_expression hprintable [] with ⟨havoids, hne⟩
  rw [List.append_nil] at havoids
  cases startOfStringAnchor with
  | true =>
      simp only [Regex.spelling, if_true, List.cons_append, List.nil_append]
      unfold parseRegex
      rw [if_neg (List.cons_ne_nil _ _)]
      simp only [List.head?_cons, beq_self_eq_true, if_true, List.tail_cons]
      rw [hread, ok_bind]
      rfl
  | false =>
      -- No expression begins with the anchor of the start.
      have hcaret : (expression.spelling.head? == some (byte '^')) = false :=
        beq_eq_false_iff_ne.mpr (havoids '^' (by decide))
      simp only [Regex.spelling, Bool.false_eq_true, if_false, List.nil_append]
      unfold parseRegex
      rw [if_neg hne]
      simp only [hcaret, Bool.false_eq_true, if_false]
      rw [hread, ok_bind]
      rfl

/-- The tree of `^(a|[^x-z]{1,2})\1$`. -/
def mixedRegex : Regex :=
  { startOfStringAnchor := true
    expression := .mk [.mk [
      .group (.mk false (some (.mk [
        .mk [.singleMatch { matchItem := .character (codePoint 'a') }],
        .mk [.singleMatch {
          matchItem := .characterClass (.characterGroup {
            negativeModifier := true
            characterGroupItems :=
              [.characterRange { start := codePoint 'x', endChar := some (codePoint 'z') }] })
          quantifier := some {
            type := .range
            rangeQuantifier := some { lowerBound := 1, upperBound := some 2 } } }]])) none),
      .backreference 1,
      .anchor { type := .endOfString }]] }

theorem parseRegex_spelling_mixed : parseRegex mixedRegex.spelling = .ok ⟨mixedRegex, []⟩ := by
  refine parseRegex_spelling mixedRegex ?_
  simp only [mixedRegex, Regex.Printable, Expression.Printable, Expression.PrintableAlternatives,
    SubExpression.Printable, SubExpression.PrintableItems, SubExpressionItem.Printable,
    SubExpressionItem.MayPrecede, Group.Printable, Match.Printable, MatchItem.Printable,
    PrintableQuantifier, Quantifier.Printable, RangeQuantifier.Printable, sizeTypeBound,
    List.forall_mem_singleton, CharacterGroupItem.Printable, CharacterRange.Printable,
    Option.mem_def, Option.some.injEq, forall_eq', exists_eq_left', ne_eq, List.cons_ne_self,
    reduceCtorEq, not_false_eq_true, and_true, true_and]
  decide

end Grep

end CodingChallenges
