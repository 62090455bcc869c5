import CodingChallenges.Library.Utf8
import CodingChallenges.Grep.Grammar

/-!
# Soundness of the Parser

Whatever the parser accepts is a spelling of the tree it returns.

`Sound` is the one statement made about every parser: what it took off the
front of the pattern is not empty and spells the value it returned, so nothing
is lost or read twice. It holds of a parser that tries alternatives as soon as
it holds of each of them, and of the parsers of trees if it holds of the parser
of expressions they are given.

That a parser takes at least one byte is also why the bounds are never hit. A
loop has as many rounds left as there are bytes, and each round takes one; a
nested group has lost its parenthesis.

## Main definitions

* `Sound`: What was taken off the pattern spells the value.
* `Fueled`: The parser does not hit a bound on short patterns.

## Theorems

* `parseChar_of_form`, `parseChar_form`: The parser decodes UTF-8, and what it decodes is a
  form.
* `parseQuantifier_sound`, `parseChar_sound`, `parseMatch_sound`, and so on:
  Leaves.
* `parseExpression_sound`: Trees.
* `parseExpression_fueled`: The bounds are never hit.
* `parseRegex_sound`: The parser is sound and terminates.
-/

namespace CodingChallenges

namespace Grep

/-- What a parser took off the front of the pattern is not empty and spells the
    value it returned. -/
def Sound {ε α : Type} (parse : List Byte → Except ε (ParseValue α))
    (spells : α → List Byte → Prop) : Prop :=
  ∀ regex value rest, parse regex = .ok ⟨value, rest⟩ →
    ∃ w, regex = w ++ rest ∧ w ≠ [] ∧ spells value w

theorem Sound.length_lt {ε α : Type} {parse : List Byte → Except ε (ParseValue α)}
    {spells : α → List Byte → Prop} (h : Sound parse spells) {regex rest : List Byte} {value : α}
    (hparse : parse regex = .ok ⟨value, rest⟩) : rest.length < regex.length := by
  rcases h regex value rest hparse with ⟨w, rfl, hw, -⟩
  have hpos := List.length_pos_iff.mpr hw
  rw [List.length_append]
  omega

theorem toTree_eq_ok {α : Type} {result : Except ParseError (ParseValue α)} {v : ParseValue α} :
    toTree result = .ok v ↔ result = .ok v := by
  cases result with
  | error e => exact iff_of_false (fun h => by cases h) (fun h => by cases h)
  | ok w => exact ⟨fun h => by cases h; rfl, fun h => by cases h; rfl⟩

/-- A parser of leaves in the place of one of trees. -/
theorem Sound.toTree {α : Type} {parse : List Byte → Except ParseError (ParseValue α)}
    {spells : α → List Byte → Prop} (h : Sound parse spells) :
    Sound (fun regex => toTree (parse regex)) spells := by
  intro regex value rest hparse
  cases hresult : parse regex with
  | error e =>
      simp only [hresult] at hparse
      cases hparse
  | ok result =>
      simp only [hresult] at hparse
      cases hparse
      exact h regex value rest hresult

theorem eq_cons_of_head? {c : Byte} {regex : List Byte} (h : regex.head? = some c) :
    regex = c :: regex.tail := by
  rcases List.head?_eq_some_iff.mp h with ⟨rest, rfl⟩
  rfl

section Leaves

theorem parseNumber_sound : Sound parseNumber SpellsNumber := by
  intro regex number rest h
  unfold parseNumber at h
  split at h
  · next number' rest' hchars =>
      cases h
      rcases fromChars_eq_some hchars with ⟨digits, rfl, hne, hdigits, hvalue, -⟩
      exact ⟨digits, rfl, hne, hne, hdigits, hvalue⟩
  · cases h

theorem parseRangeQuantifier_sound : Sound parseRangeQuantifier SpellsRangeQuantifier := by
  intro regex range rest h
  unfold parseRangeQuantifier at h
  split at h
  · cases h
  · next hhead =>
      have hregex := eq_cons_of_head? (not_not.mp hhead)
      rcases bind_eq_ok.mp h with ⟨⟨lower, afterLower⟩, hlower, h⟩
      rcases parseNumber_sound _ _ _ hlower with ⟨u, htail, -, hu⟩
      rw [htail] at hregex
      simp only at h
      split at h
      · cases h
      · next c afterFirst =>
          split at h
          · next hc =>
              -- The form with one number.
              cases h
              refine ⟨byte '{' :: u ++ [byte '}'], ?_, List.cons_ne_nil _ _, .exactly hu⟩
              rw [hregex, hc]
              simp only [List.cons_append, List.append_assoc, List.nil_append]
          · split at h
            · next hc =>
                split at h
                · cases h
                · next d afterComma =>
                    split at h
                    · next hd =>
                        -- The form with a comma and one number.
                        cases h
                        refine ⟨byte '{' :: u ++ [byte ',', byte '}'], ?_, List.cons_ne_nil _ _,
                          .atLeast hu⟩
                        rw [hregex, hc, hd]
                        simp only [List.cons_append, List.append_assoc, List.nil_append]
                    · rcases bind_eq_ok.mp h with ⟨⟨upper, afterUpper⟩, hupper, h⟩
                      rcases parseNumber_sound _ _ _ hupper with ⟨v, hrest, -, hv⟩
                      simp only at h
                      split at h
                      · cases h
                      · next hle =>
                          split at h
                          · cases h
                          · next hclose =>
                              -- The form with two numbers.
                              cases h
                              have hlast := eq_cons_of_head? (not_not.mp hclose)
                              refine ⟨byte '{' :: u ++ byte ',' :: v ++ [byte '}'], ?_,
                                List.cons_ne_nil _ _, .between hu hv (by omega)⟩
                              rw [hregex, hc, hrest]
                              simp only [List.cons_append, List.append_assoc, List.nil_append]
                              rw [← hlast]
            · cases h

/-- The optional question mark is taken with the quantifier. -/
theorem parseLazyModifier_eq {regex rest : List Byte} {lazyModifier : Bool}
    (h : parseLazyModifier regex = (lazyModifier, rest)) :
    regex = lazySuffix lazyModifier ++ rest := by
  unfold parseLazyModifier at h
  split at h
  · next hhead =>
      cases h
      exact eq_cons_of_head? hhead
  · cases h
    rfl

theorem parseQuantifier_sound : Sound parseQuantifier SpellsQuantifier := by
  intro regex quantifier rest h
  unfold parseQuantifier at h
  split at h
  · cases h
  · next c afterFirst =>
      rcases hlazy : parseLazyModifier afterFirst with ⟨lazyModifier, afterLazy⟩
      have hafter := parseLazyModifier_eq hlazy
      rw [hlazy] at h
      split at h
      · next hc =>
          cases h
          refine ⟨byte '*' :: lazySuffix lazyModifier, ?_, List.cons_ne_nil _ _, .zeroOrMore _⟩
          rw [hc, hafter, List.cons_append]
      · split at h
        · next hc =>
            cases h
            refine ⟨byte '+' :: lazySuffix lazyModifier, ?_, List.cons_ne_nil _ _, .oneOrMore _⟩
            rw [hc, hafter, List.cons_append]
        · split at h
          · next hc =>
              cases h
              refine ⟨byte '?' :: lazySuffix lazyModifier, ?_, List.cons_ne_nil _ _,
                .zeroOrOne _⟩
              rw [hc, hafter, List.cons_append]
          · split at h
            · rcases bind_eq_ok.mp h with ⟨⟨range, afterRange⟩, hrange, h⟩
              rcases parseRangeQuantifier_sound _ _ _ hrange with ⟨w, hregex, hw, hspells⟩
              rcases hlazy' : parseLazyModifier afterRange with ⟨lazyModifier', afterLazy'⟩
              simp only [hlazy'] at h
              cases h
              refine ⟨w ++ lazySuffix lazyModifier', ?_, List.append_ne_nil_of_left_ne_nil hw _,
                .range hspells _⟩
              rw [hregex, List.append_assoc, ← parseLazyModifier_eq hlazy']
            · cases h

theorem isContinuation_of_tail {b : Byte} (h : Utf8Tail b) : isContinuation b = true := by
  unfold isContinuation
  rw [Bool.and_eq_true, decide_eq_true_eq, decide_eq_true_eq]
  exact h

theorem utf8Tail_of_isContinuation {c : Byte} (h : isContinuation c = true) : Utf8Tail c := by
  unfold isContinuation at h
  rw [Bool.and_eq_true, decide_eq_true_eq, decide_eq_true_eq] at h
  exact h

/-- A byte from `low` on is not in the range of a shorter form. -/
theorem not_le_of_above {a low high : Byte} (hlow : low ≤ a) (h : high < low) : ¬ a ≤ high :=
  UInt8.not_le.mpr (UInt8.lt_of_lt_of_le h hlow)

theorem firstByte_range {a low high : Byte} (hlow : low ≤ a) (hhigh : a ≤ high) :
    (low ≤ a && a ≤ high) = true := by
  rw [Bool.and_eq_true, decide_eq_true_eq, decide_eq_true_eq]
  exact ⟨hlow, hhigh⟩

theorem firstByte_not_range {a low high next : Byte} (hlow : next ≤ a) (h : high < next) :
    ¬ (low ≤ a && a ≤ high) = true := by
  rw [Bool.and_eq_true, decide_eq_true_eq, decide_eq_true_eq]
  exact fun hrange => not_le_of_above hlow h hrange.2

/-- The parser decodes UTF-8. -/
theorem parseChar_of_form {w : List Byte} {x : Nat} (h : Utf8Form w x) (rest : List Byte) :
    parseChar (w ++ rest) = .ok ⟨x, rest⟩ := by
  cases h with
  | @one a ha =>
      simp only [List.cons_append, List.nil_append, parseChar]
      rw [if_pos ha]
      rfl
  | @two a b hlow hhigh hb =>
      simp only [List.cons_append, List.nil_append, parseChar]
      rw [if_neg (not_le_of_above hlow (by decide)), if_pos (firstByte_range hlow hhigh),
        if_pos (isContinuation_of_tail hb)]
      rfl
  | @three a b c hlow hhigh hb hc =>
      simp only [List.cons_append, List.nil_append, parseChar, isContinuation_of_tail hb,
        isContinuation_of_tail hc, Bool.and_true]
      rw [if_neg (not_le_of_above hlow (by decide)), if_neg (firstByte_not_range hlow (by decide)),
        if_pos (firstByte_range hlow hhigh)]
      rfl
  | @four a b c d hlow hhigh hb hc hd =>
      simp only [List.cons_append, List.nil_append, parseChar, isContinuation_of_tail hb,
        isContinuation_of_tail hc, isContinuation_of_tail hd, Bool.and_true]
      rw [if_neg (not_le_of_above hlow (by decide)), if_neg (firstByte_not_range hlow (by decide)),
        if_neg (firstByte_not_range hlow (by decide)), if_pos (firstByte_range hlow hhigh)]
      rfl

/-- What the parser takes as one code point is a form. -/
theorem parseChar_form {regex rest : List Byte} {x : Nat}
    (h : parseChar regex = .ok ⟨x, rest⟩) : ∃ w, regex = w ++ rest ∧ Utf8Form w x := by
  unfold parseChar at h
  split at h
  · cases h
  · next c afterFirst =>
      split at h
      · next hc =>
          cases h
          exact ⟨[c], rfl, .one hc⟩
      · split at h
        · next hc =>
            rw [Bool.and_eq_true, decide_eq_true_eq, decide_eq_true_eq] at hc
            split at h
            · next c₁ rest' =>
                split at h
                · next h₁ =>
                    cases h
                    exact ⟨[c, c₁], rfl, .two hc.1 hc.2 (utf8Tail_of_isContinuation h₁)⟩
                · cases h
            · cases h
        · split at h
          · next hc =>
              rw [Bool.and_eq_true, decide_eq_true_eq, decide_eq_true_eq] at hc
              split at h
              · next c₁ c₂ rest' =>
                  split at h
                  · next htails =>
                      cases h
                      rcases Bool.and_eq_true_iff.mp htails with ⟨h₁, h₂⟩
                      exact ⟨[c, c₁, c₂], rfl, .three hc.1 hc.2 (utf8Tail_of_isContinuation h₁)
                        (utf8Tail_of_isContinuation h₂)⟩
                  · cases h
              · cases h
          · split at h
            · next hc =>
                rw [Bool.and_eq_true, decide_eq_true_eq, decide_eq_true_eq] at hc
                split at h
                · next c₁ c₂ c₃ rest' =>
                    split at h
                    · next htails =>
                        cases h
                        rcases Bool.and_eq_true_iff.mp htails with ⟨htails, h₃⟩
                        rcases Bool.and_eq_true_iff.mp htails with ⟨h₁, h₂⟩
                        exact ⟨[c, c₁, c₂, c₃], rfl, .four hc.1 hc.2
                          (utf8Tail_of_isContinuation h₁) (utf8Tail_of_isContinuation h₂)
                          (utf8Tail_of_isContinuation h₃)⟩
                    · cases h
                · cases h
            · cases h

/-- Decoding does not look behind the code point it decodes. -/
theorem parseChar_sound : Sound parseChar SpellsChar := by
  intro regex c rest h
  rcases parseChar_form h with ⟨w, hregex, hw⟩
  have hne : w ≠ [] := by
    rcases hw.first with ⟨a, tail, rfl, -⟩
    exact List.cons_ne_nil a tail
  have halone := parseChar_of_form hw []
  rw [List.append_nil] at halone
  exact ⟨w, hregex, hne, halone⟩

theorem parseUnicodeCategory_sound :
    Sound parseCharacterClassFromUnicodeCategory SpellsUnicodeCategory := by
  intro regex category rest h
  unfold parseCharacterClassFromUnicodeCategory at h
  split at h
  · cases h
  · split at h
    · cases h
    · next hprefixed =>
        rcases List.isPrefixOf_iff_prefix.mp (not_not.mp hprefixed) with ⟨afterOpening, hregex⟩
        rcases bind_eq_ok.mp h with ⟨⟨name, afterName⟩, hname, h⟩
        simp only at h
        split at h
        · cases h
        · next hclose =>
            cases h
            unfold parseUnicodeCategoryName at hname
            split at hname
            · cases hname
            · next hne =>
                rcases bind_eq_ok.mp hname with ⟨⟨letters, afterLetters⟩, hletters, hname⟩
                cases hname
                unfold parseLetters at hletters
                split at hletters
                · cases hletters
                · next hletter =>
                    cases hletters
                    have hdrop : regex.drop 3 = afterOpening := by
                      rw [← hregex]
                      rfl
                    rw [hdrop] at hne hletter hclose ⊢
                    refine ⟨[byte '\\', byte 'p', byte '{'] ++ afterOpening.takeWhile isLetter ++
                      [byte '}'], ?_, List.cons_ne_nil _ _, ?_, fun l hl => ?_, rfl⟩
                    · rw [← hregex, List.append_assoc, List.append_assoc, List.singleton_append,
                        ← eq_cons_of_head? (not_not.mp hclose), List.takeWhile_append_dropWhile]
                    · exact fun hnil => hletter ⟨hne, hnil⟩
                    · exact List.mem_takeWhile_imp hl

theorem characterClassType_eq_some {c : Byte} {type : CharacterClassType}
    (h : characterClassType c = some type) : c = type.letter := by
  unfold characterClassType at h
  repeat' split at h
  all_goals cases h <;> assumption

theorem parseCharacterClass_sound : Sound parseCharacterClass SpellsCharacterClass := by
  intro regex characterClass rest h
  unfold parseCharacterClass at h
  split at h
  · cases h
  · next c afterFirst =>
      split at h
      · cases h
      · next hc =>
          split at h
          · cases h
          · next d rest' =>
              split at h
              · next type htype =>
                  cases h
                  refine ⟨[c, d], rfl, List.cons_ne_nil _ _, ?_⟩
                  rw [SpellsCharacterClass, not_not.mp hc, characterClassType_eq_some htype]
              · cases h

theorem parseCharacterRange_sound : Sound parseCharacterRange SpellsCharacterRange := by
  intro regex range rest h
  unfold parseCharacterRange at h
  split at h
  · cases h
  · split at h
    · cases h
    · rcases bind_eq_ok.mp h with ⟨⟨start, afterStart⟩, hstart, h⟩
      rcases parseChar_sound _ _ _ hstart with ⟨u, hregex, hne, hu⟩
      simp only at h
      split at h
      · next hdash =>
          rcases bind_eq_ok.mp h with ⟨⟨last, afterLast⟩, hlast, h⟩
          rcases parseChar_sound _ _ _ hlast with ⟨v, htail, -, hv⟩
          simp only at h
          split at h
          · cases h
          · next hle =>
              cases h
              refine ⟨u ++ byte '-' :: v, ?_, List.append_ne_nil_of_left_ne_nil hne _,
                .between hu hv (by omega)⟩
              rw [hregex, eq_cons_of_head? hdash, htail]
              simp only [List.cons_append, List.append_assoc]
      · cases h
        exact ⟨u, hregex, hne, .single hu⟩

theorem parseCharacterGroupItem_sound :
    Sound parseCharacterGroupItem SpellsCharacterGroupItem := by
  intro regex item rest h
  unfold parseCharacterGroupItem at h
  split at h
  · cases h
  · split at h
    · next c rest' hclass =>
        cases h
        exact parseCharacterClass_sound _ _ _ hclass
    · split at h
      · next c rest' hcategory =>
          cases h
          exact parseUnicodeCategory_sound _ _ _ hcategory
      · split at h
        · next r rest' hrange =>
            cases h
            exact parseCharacterRange_sound _ _ _ hrange
        · split at h
          · next c rest' hchar =>
              cases h
              exact parseChar_sound _ _ _ hchar
          · cases h

/-- The loop over the items of a bracket group. -/
theorem parseCharacterGroupItems_sound (rounds : Nat) (regex : List Byte) :
    ∃ w, regex = w ++ (parseCharacterGroupItems rounds regex).2 ∧
      SpellsCharacterGroupItems (parseCharacterGroupItems rounds regex).1 w := by
  induction rounds generalizing regex with
  | zero => exact ⟨[], rfl, rfl⟩
  | succ rounds ih =>
      unfold parseCharacterGroupItems
      split
      · exact ⟨[], rfl, rfl⟩
      · split
        · exact ⟨[], rfl, rfl⟩
        · next item rest hitem =>
            rcases parseCharacterGroupItem_sound _ _ _ hitem with ⟨u, hregex, -, hu⟩
            rcases ih rest with ⟨v, hrest, hv⟩
            refine ⟨u ++ v, ?_, u, v, rfl, hu, hv⟩
            simp only
            rw [hregex, List.append_assoc, ← hrest]

theorem parseCharacterGroup_sound : Sound parseCharacterGroup SpellsCharacterGroup := by
  intro regex group rest h
  unfold parseCharacterGroup at h
  split at h
  · cases h
  · next c afterOpening =>
      split at h
      · cases h
      · next hc =>
          split at h
          · cases h
          · have hcaret : afterOpening =
                (if (afterOpening.head? == some (byte '^')) = true then [byte '^'] else []) ++
                  (if (afterOpening.head? == some (byte '^')) = true then afterOpening.tail
                    else afterOpening) := by
              split
              · next hhead => exact eq_cons_of_head? (beq_iff_eq.mp hhead)
              · rfl
            simp only at h
            generalize (if (afterOpening.head? == some (byte '^')) = true then afterOpening.tail
              else afterOpening) = inner at h hcaret
            rcases parseCharacterGroupItems_sound inner.length inner with ⟨u, hinner, hu⟩
            split at h
            · cases h
            · next hclose =>
                cases h
                have hlast := eq_cons_of_head? (not_not.mp hclose)
                refine ⟨byte '[' :: (if (afterOpening.head? == some (byte '^')) = true
                  then [byte '^'] else []) ++ u ++ [byte ']'], ?_, List.cons_ne_nil _ _, u, rfl, hu⟩
                rw [List.append_assoc, List.append_assoc, List.singleton_append, ← hlast, ← hinner,
                  List.cons_append, ← hcaret, not_not.mp hc]

/-- The parser of a set of characters takes what one of its alternatives takes. -/
theorem parseMatchCharacterClass_cases {regex rest : List Byte} {c : MatchCharacterClass}
    (h : parseMatchCharacterClass regex = .ok ⟨c, rest⟩) :
    (∃ g, c = .characterGroup g ∧ parseCharacterGroup regex = .ok ⟨g, rest⟩) ∨
      (∃ e, c = .characterClass e ∧ parseCharacterClass regex = .ok ⟨e, rest⟩) ∨
      ∃ u, c = .unicodeCategory u ∧
        parseCharacterClassFromUnicodeCategory regex = .ok ⟨u, rest⟩ := by
  unfold parseMatchCharacterClass at h
  split at h
  · cases h
  · split at h
    · next g rest' hgroup =>
        cases h
        exact Or.inl ⟨g, rfl, hgroup⟩
    · split at h
      · next e rest' hescape =>
          cases h
          exact Or.inr (Or.inl ⟨e, rfl, hescape⟩)
      · split at h
        · next u rest' hcategory =>
            cases h
            exact Or.inr (Or.inr ⟨u, rfl, hcategory⟩)
        · cases h

theorem parseMatchItem_sound : Sound parseMatchItem SpellsMatchItem := by
  intro regex item rest h
  unfold parseMatchItem at h
  split at h
  · cases h
  · next c afterFirst =>
      split at h
      · next hc =>
          cases h
          exact ⟨[c], rfl, List.cons_ne_nil _ _, congrArg (· :: []) hc⟩
      · split at h
        · next characterClass rest' hclass =>
            cases h
            rcases parseMatchCharacterClass_cases hclass with
              ⟨g, rfl, hgroup⟩ | ⟨e, rfl, hescape⟩ | ⟨u, rfl, hcategory⟩
            · exact parseCharacterGroup_sound _ _ _ hgroup
            · exact parseCharacterClass_sound _ _ _ hescape
            · exact parseUnicodeCategory_sound _ _ _ hcategory
        · split at h
          · next character rest' hchar =>
              cases h
              unfold parseMatchCharacter at hchar
              split at hchar
              · cases hchar
              · exact parseChar_sound _ _ _ hchar
          · cases h

/-- A quantifier that does not parse stays in the pattern. -/
theorem parseMatch_sound : Sound parseMatch SpellsMatch := by
  intro regex m rest h
  unfold parseMatch at h
  split at h
  · cases h
  · rcases bind_eq_ok.mp h with ⟨⟨item, afterItem⟩, hitem, h⟩
    rcases parseMatchItem_sound _ _ _ hitem with ⟨u, hregex, hne, hu⟩
    simp only at h
    split at h
    · cases h
      exact ⟨u, hregex, hne, u, [], (List.append_nil u).symm, hu, rfl⟩
    · split at h
      · cases h
        exact ⟨u, hregex, hne, u, [], (List.append_nil u).symm, hu, rfl⟩
      · next quantifier afterQuantifier hquantifier =>
          cases h
          rcases parseQuantifier_sound _ _ _ hquantifier with ⟨v, hrest, -, hv⟩
          refine ⟨u ++ v, ?_, List.append_ne_nil_of_left_ne_nil hne v, u, v, rfl, hu, hv⟩
          rw [hregex, hrest, List.append_assoc]

theorem anchorType_eq_some {c : Byte} {type : AnchorType} (h : anchorType c = some type) :
    SpellsAnchor { type } [byte '\\', c] := by
  unfold anchorType at h
  repeat' split at h
  all_goals cases h <;> exact congrArg (fun d => [byte '\\', d]) (by assumption)

theorem parseAnchor_sound : Sound parseAnchor SpellsAnchor := by
  intro regex anchor rest h
  unfold parseAnchor at h
  split at h
  · cases h
  · next c afterFirst =>
      split at h
      · next hc =>
          cases h
          exact ⟨[c], rfl, List.cons_ne_nil _ _, congrArg (· :: []) hc⟩
      · split at h
        · cases h
        · next hc =>
            split at h
            · cases h
            · next d rest' =>
                split at h
                · next type htype =>
                    cases h
                    refine ⟨[c, d], rfl, List.cons_ne_nil _ _, ?_⟩
                    rw [not_not.mp hc]
                    exact anchorType_eq_some htype
                · cases h

theorem parseBackreference_sound : Sound parseBackreference SpellsBackreference := by
  intro regex number rest h
  unfold parseBackreference at h
  split at h
  · cases h
  · next c afterFirst =>
      split at h
      · cases h
      · next hc =>
          split at h
          · cases h
          · next result hnumber =>
              cases h
              rcases parseNumber_sound _ _ _ hnumber with ⟨u, rfl, -, hu⟩
              exact ⟨c :: u, rfl, List.cons_ne_nil _ _, u, congrArg (· :: u) (not_not.mp hc), hu⟩

end Leaves

section Trees

variable {parseExpression : List Byte → Except ParseFailure (ParseValue Expression)}
  (hexpression : Sound parseExpression Expression.Spells)
include hexpression

theorem parseGroup_sound : Sound (parseGroup parseExpression) Group.Spells := by
  intro regex group rest h
  unfold parseGroup at h
  split at h
  · cases h
  · next c afterFirst =>
      split at h
      · cases h
      · next hc =>
          -- The modifier belongs to the opening, and what is parsed begins behind it.
          have hopening : c :: afterFirst =
              groupOpening ([byte '?', byte ':'].isPrefixOf afterFirst) ++
                (if [byte '?', byte ':'].isPrefixOf afterFirst = true then afterFirst.drop 2
                  else afterFirst) := by
            rw [not_not.mp hc]
            unfold groupOpening
            split
            · next hprefixed =>
                rcases List.isPrefixOf_iff_prefix.mp hprefixed with ⟨inner, rfl⟩
                rfl
            · rfl
          simp only at h
          generalize [byte '?', byte ':'].isPrefixOf afterFirst = nonCapturingModifier
            at h hopening
          generalize (if nonCapturingModifier = true then afterFirst.drop 2 else afterFirst) = inner
            at h hopening
          -- What the parser of expressions takes lies between the parentheses.
          rcases bind_eq_ok.mp h with ⟨⟨expression, afterExpression⟩, hparse, h⟩
          rcases hexpression _ _ _ hparse with ⟨u, hinner, -, hu⟩
          simp only at h
          split at h
          · cases h
          · next hclose =>
              have hafter := eq_cons_of_head? (not_not.mp hclose)
              -- That a byte was taken is clear from the opening alone.
              have hne : groupOpening nonCapturingModifier ≠ [] := by
                cases nonCapturingModifier <;> exact List.cons_ne_nil _ _
              split at h
              · cases h
                refine ⟨groupOpening nonCapturingModifier ++ u ++ [byte ')'], ?_, ?_, u, [], rfl,
                  hu, rfl⟩
                · rw [hopening, hinner, List.append_assoc, List.append_assoc, List.singleton_append,
                    ← hafter]
                · exact List.append_ne_nil_of_left_ne_nil
                    (List.append_ne_nil_of_left_ne_nil hne _) _
              · next quantifier afterQuantifier hquantifier =>
                  cases h
                  rcases parseQuantifier_sound _ _ _ hquantifier with ⟨v, hrest, -, hv⟩
                  refine ⟨groupOpening nonCapturingModifier ++ u ++ byte ')' :: v, ?_, ?_, u, v,
                    rfl, hu, hv⟩
                  · rw [hopening, hinner, hafter, hrest]
                    simp only [List.append_assoc, List.cons_append]
                  · exact List.append_ne_nil_of_left_ne_nil
                      (List.append_ne_nil_of_left_ne_nil hne _) _

theorem parseSubExpressionItem_sound :
    Sound (parseSubExpressionItem parseExpression) SubExpressionItem.Spells := by
  intro regex item rest h
  unfold parseSubExpressionItem at h
  split at h
  · cases h
  · split at h
    · cases h
    · split at h
      · rcases bind_eq_ok.mp h with ⟨⟨group, afterGroup⟩, hgroup, h⟩
        cases h
        exact parseGroup_sound hexpression _ _ _ hgroup
      · split at h
        · split at h
          · next anchor rest' hanchor =>
              cases h
              exact parseAnchor_sound _ _ _ hanchor
          · split at h
            · next number rest' hnumber =>
                cases h
                exact parseBackreference_sound _ _ _ hnumber
            · split at h
              · next m rest' hmatch =>
                  cases h
                  exact parseMatch_sound _ _ _ hmatch
              · cases h
        · split at h
          · rcases bind_eq_ok.mp h with ⟨⟨anchor, afterAnchor⟩, hanchor, h⟩
            cases h
            exact parseAnchor_sound.toTree _ _ _ hanchor
          · rcases bind_eq_ok.mp h with ⟨⟨m, afterMatch⟩, hmatch, h⟩
            cases h
            exact parseMatch_sound.toTree _ _ _ hmatch

/-- Where the loop over the items leaves off: at the end of the pattern, at a
    bar, or at a closing parenthesis. -/
theorem parseSubExpressionItems_sound (rounds : Nat) {regex rest : List Byte}
    {items : List SubExpressionItem}
    (h : parseSubExpressionItems parseExpression rounds regex = .ok ⟨items, rest⟩) :
    (∃ w, regex = w ++ rest ∧ SubExpression.SpellsMoreItems items w) ∧
      endsSubExpression rest = true := by
  induction rounds generalizing regex rest items with
  | zero =>
      unfold parseSubExpressionItems at h
      split at h
      · next hends =>
          cases h
          exact ⟨⟨[], rfl, rfl⟩, hends⟩
      · cases h
  | succ rounds ih =>
      unfold parseSubExpressionItems at h
      split at h
      · next hends =>
          cases h
          exact ⟨⟨[], rfl, rfl⟩, hends⟩
      · rcases bind_eq_ok.mp h with ⟨⟨item, afterItem⟩, hitem, h⟩
        rcases bind_eq_ok.mp h with ⟨⟨more, afterMore⟩, hmore, h⟩
        cases h
        rcases parseSubExpressionItem_sound hexpression _ _ _ hitem with ⟨u, hregex, -, hu⟩
        rcases ih hmore with ⟨⟨v, hrest, hv⟩, hends⟩
        refine ⟨⟨u ++ v, ?_, u, v, rfl, hu, hv⟩, hends⟩
        rw [hregex, hrest, List.append_assoc]

theorem parseSubExpression_sound :
    Sound (parseSubExpression parseExpression) SubExpression.Spells := by
  intro regex subExpression rest h
  unfold parseSubExpression at h
  split at h
  · cases h
  · rcases bind_eq_ok.mp h with ⟨⟨item, afterItem⟩, hitem, h⟩
    rcases bind_eq_ok.mp h with ⟨⟨items, afterItems⟩, hitems, h⟩
    cases h
    rcases parseSubExpressionItem_sound hexpression _ _ _ hitem with ⟨u, hregex, hne, hu⟩
    rcases (parseSubExpressionItems_sound hexpression _ hitems).1 with ⟨v, hrest, hv⟩
    refine ⟨u ++ v, ?_, List.append_ne_nil_of_left_ne_nil hne v, u, v, rfl, hu, hv⟩
    rw [hregex, hrest, List.append_assoc]

/-- A sub-expression ends where its last item does. -/
theorem parseSubExpression_ends {regex rest : List Byte} {subExpression : SubExpression}
    (h : parseSubExpression parseExpression regex = .ok ⟨subExpression, rest⟩) :
    endsSubExpression rest = true := by
  unfold parseSubExpression at h
  split at h
  · cases h
  · rcases bind_eq_ok.mp h with ⟨⟨item, afterItem⟩, -, h⟩
    rcases bind_eq_ok.mp h with ⟨⟨items, afterItems⟩, hitems, h⟩
    cases h
    exact (parseSubExpressionItems_sound hexpression _ hitems).2

/-- The loop over the alternatives leaves off at the end of the pattern or at a
    closing parenthesis, if it starts where a sub-expression ended. -/
theorem parseAlternatives_sound (rounds : Nat) {regex rest : List Byte}
    {alternatives : List SubExpression} (hends : endsSubExpression regex = true)
    (h : parseAlternatives parseExpression rounds regex = .ok ⟨alternatives, rest⟩) :
    (∃ w, regex = w ++ rest ∧ Expression.SpellsMoreAlternatives alternatives w) ∧
      (rest = [] ∨ rest.head? = some (byte ')')) := by
  have hstop : ∀ r : List Byte, endsSubExpression r = true → ¬ r.head? = some (byte '|') →
      r = [] ∨ r.head? = some (byte ')') := by
    intro r hr hbar
    unfold endsSubExpression at hr
    simp only [Bool.or_eq_true, List.isEmpty_iff, beq_iff_eq] at hr
    rcases hr with (hr | hr) | hr
    · exact Or.inl hr
    · exact absurd hr hbar
    · exact Or.inr hr
  induction rounds generalizing regex rest alternatives with
  | zero =>
      unfold parseAlternatives at h
      split at h
      · cases h
      · next hbar =>
          cases h
          exact ⟨⟨[], rfl, rfl⟩, hstop _ hends hbar⟩
  | succ rounds ih =>
      unfold parseAlternatives at h
      split at h
      · next hbar =>
          rcases bind_eq_ok.mp h with ⟨⟨alternative, afterFirst⟩, hfirst, h⟩
          rcases bind_eq_ok.mp h with ⟨⟨more, afterMore⟩, hmore, h⟩
          cases h
          rcases parseSubExpression_sound hexpression _ _ _ hfirst with ⟨u, htail, -, hu⟩
          rcases ih (parseSubExpression_ends hexpression hfirst) hmore with ⟨⟨v, hrest, hv⟩, hlast⟩
          refine ⟨⟨byte '|' :: u ++ v, ?_, u, v, rfl, hu, hv⟩, hlast⟩
          rw [eq_cons_of_head? hbar, htail, hrest]
          simp only [List.cons_append, List.append_assoc]
      · next hbar =>
          cases h
          exact ⟨⟨[], rfl, rfl⟩, hstop _ hends hbar⟩

end Trees

/-- An expression is sound whatever the bound on its nesting. -/
theorem parseExpression_sound (depth : Nat) :
    Sound (parseExpression depth) Expression.Spells := by
  induction depth with
  | zero =>
      intro regex expression rest h
      cases h
  | succ depth ih =>
      intro regex expression rest h
      unfold parseExpression at h
      split at h
      · cases h
      · rcases bind_eq_ok.mp h with ⟨⟨alternative, afterFirst⟩, hfirst, h⟩
        rcases bind_eq_ok.mp h with ⟨⟨alternatives, afterMore⟩, hmore, h⟩
        cases h
        rcases parseSubExpression_sound ih _ _ _ hfirst with ⟨u, hregex, hne, hu⟩
        rcases (parseAlternatives_sound ih _ (parseSubExpression_ends ih hfirst) hmore).1 with
          ⟨v, hrest, hv⟩
        refine ⟨u ++ v, ?_, List.append_ne_nil_of_left_ne_nil hne v, u, v, rfl, hu, hv⟩
        rw [hregex, hrest, List.append_assoc]

/-- An expression ends at the end of the pattern or at a closing parenthesis. -/
theorem parseExpression_ends {depth : Nat} {regex rest : List Byte} {expression : Expression}
    (h : parseExpression depth regex = .ok ⟨expression, rest⟩) :
    rest = [] ∨ rest.head? = some (byte ')') := by
  cases depth with
  | zero => cases h
  | succ depth =>
      unfold parseExpression at h
      split at h
      · cases h
      · rcases bind_eq_ok.mp h with ⟨⟨alternative, afterFirst⟩, hfirst, h⟩
        rcases bind_eq_ok.mp h with ⟨⟨alternatives, afterMore⟩, hmore, h⟩
        cases h
        exact (parseAlternatives_sound (parseExpression_sound depth) _
          (parseSubExpression_ends (parseExpression_sound depth) hfirst) hmore).2

/-- The parser does not hit a bound on patterns shorter than `n`. -/
def Fueled {α : Type} (n : Nat) (parse : List Byte → Except ParseFailure (ParseValue α)) : Prop :=
  ∀ regex, regex.length < n → parse regex ≠ .error .outOfFuel

theorem toTree_ne_outOfFuel {α : Type} (result : Except ParseError (ParseValue α)) :
    toTree result ≠ .error .outOfFuel := by
  intro h
  cases result with
  | error e => cases h
  | ok value => cases h

section Fuel

variable {parseExpression : List Byte → Except ParseFailure (ParseValue Expression)} {n : Nat}
  (hexpression : Sound parseExpression Expression.Spells) (hfuel : Fueled n parseExpression)

/-- The expression in a group is shorter than the group. -/
theorem parseGroup_fueled (hfuel : Fueled n parseExpression) :
    Fueled (n + 1) (parseGroup parseExpression) := by
  intro regex hlt h
  unfold parseGroup at h
  split at h
  · cases h
  · next c afterFirst =>
      rw [List.length_cons] at hlt
      split at h
      · cases h
      · rcases bind_eq_error.mp h with h | ⟨⟨expression, afterExpression⟩, -, h⟩
        · refine hfuel _ ?_ h
          split
          · rw [List.length_drop]
            omega
          · omega
        · simp only at h
          split at h
          · cases h
          · split at h <;> cases h

theorem parseSubExpressionItem_fueled (hfuel : Fueled n parseExpression) :
    Fueled (n + 1) (parseSubExpressionItem parseExpression) := by
  intro regex hlt h
  unfold parseSubExpressionItem at h
  split at h
  · cases h
  · split at h
    · cases h
    · split at h
      · rcases bind_eq_error.mp h with h | ⟨_, -, h⟩
        · exact parseGroup_fueled hfuel _ hlt h
        · cases h
      · split at h
        · split at h
          · cases h
          · split at h
            · cases h
            · split at h <;> cases h
        · split at h
          · rcases bind_eq_error.mp h with h | ⟨_, -, h⟩
            · exact toTree_ne_outOfFuel _ h
            · cases h
          · rcases bind_eq_error.mp h with h | ⟨_, -, h⟩
            · exact toTree_ne_outOfFuel _ h
            · cases h

include hexpression hfuel

/-- Each round takes a byte at least, so there are enough of them. -/
theorem parseSubExpressionItems_fueled (rounds : Nat) (regex : List Byte)
    (hrounds : regex.length ≤ rounds) (hlt : regex.length < n + 1) :
    parseSubExpressionItems parseExpression rounds regex ≠ .error .outOfFuel := by
  induction rounds generalizing regex with
  | zero =>
      have hnil := List.length_eq_zero_iff.mp (Nat.le_zero.mp hrounds)
      subst hnil
      intro h
      cases h
  | succ rounds ih =>
      intro h
      unfold parseSubExpressionItems at h
      split at h
      · cases h
      · rcases bind_eq_error.mp h with h | ⟨⟨item, rest⟩, hitem, h⟩
        · exact parseSubExpressionItem_fueled hfuel _ hlt h
        · have hless := (parseSubExpressionItem_sound hexpression).length_lt hitem
          rcases bind_eq_error.mp h with h | ⟨_, -, h⟩
          · exact ih rest (by omega) (by omega) h
          · cases h

theorem parseSubExpression_fueled : Fueled (n + 1) (parseSubExpression parseExpression) := by
  intro regex hlt h
  unfold parseSubExpression at h
  split at h
  · cases h
  · rcases bind_eq_error.mp h with h | ⟨⟨item, rest⟩, hitem, h⟩
    · exact parseSubExpressionItem_fueled hfuel _ hlt h
    · have hless := (parseSubExpressionItem_sound hexpression).length_lt hitem
      rcases bind_eq_error.mp h with h | ⟨_, -, h⟩
      · exact parseSubExpressionItems_fueled hexpression hfuel _ rest (Nat.le_refl _) (by omega) h
      · cases h

theorem parseAlternatives_fueled (rounds : Nat) (regex : List Byte)
    (hrounds : regex.length ≤ rounds) (hlt : regex.length < n + 1) :
    parseAlternatives parseExpression rounds regex ≠ .error .outOfFuel := by
  induction rounds generalizing regex with
  | zero =>
      have hnil := List.length_eq_zero_iff.mp (Nat.le_zero.mp hrounds)
      subst hnil
      intro h
      cases h
  | succ rounds ih =>
      intro h
      unfold parseAlternatives at h
      split at h
      · have htail : regex.tail.length ≤ regex.length := by
          rw [List.length_tail]
          omega
        rcases bind_eq_error.mp h with h | ⟨⟨alternative, rest⟩, hfirst, h⟩
        · exact parseSubExpression_fueled hexpression hfuel _ (by omega) h
        · have hless := (parseSubExpression_sound hexpression).length_lt hfirst
          rcases bind_eq_error.mp h with h | ⟨_, -, h⟩
          · exact ih rest (by omega) (by omega) h
          · cases h
      · cases h

end Fuel

/-- A bound on the nesting that exceeds the length of the pattern is never
    hit. -/
theorem parseExpression_fueled (depth : Nat) : Fueled depth (parseExpression depth) := by
  induction depth with
  | zero => exact fun regex hlt => absurd hlt (Nat.not_lt_zero _)
  | succ depth ih =>
      have hsound := parseExpression_sound depth
      intro regex hlt h
      unfold parseExpression at h
      split at h
      · cases h
      · rcases bind_eq_error.mp h with h | ⟨⟨alternative, rest⟩, hfirst, h⟩
        · exact parseSubExpression_fueled hsound ih _ hlt h
        · have hless := (parseSubExpression_sound hsound).length_lt hfirst
          rcases bind_eq_error.mp h with h | ⟨_, -, h⟩
          · exact parseAlternatives_fueled hsound ih _ rest (Nat.le_refl _) (by omega) h
          · cases h

/-- The loop over the items of a bracket group needs no more rounds than there
    are bytes. -/
theorem parseCharacterGroupItems_eq {rounds : Nat} {regex : List Byte}
    (h : regex.length ≤ rounds) :
    parseCharacterGroupItems rounds regex = parseCharacterGroupItems regex.length regex := by
  -- The comparison is with one round more, so that both sides unfold together.
  have hmore : ∀ rounds (regex : List Byte), regex.length ≤ rounds →
      parseCharacterGroupItems (rounds + 1) regex = parseCharacterGroupItems rounds regex := by
    intro rounds
    induction rounds with
    | zero =>
        intro regex hlen
        have hnil := List.length_eq_zero_iff.mp (Nat.le_zero.mp hlen)
        subst hnil
        rfl
    | succ rounds ih =>
        intro regex hlen
        rw [parseCharacterGroupItems, parseCharacterGroupItems]
        split
        · rfl
        · split
          · rfl
          · next item rest hitem =>
              have hless := parseCharacterGroupItem_sound.length_lt hitem
              rw [ih rest (by omega)]
  induction rounds with
  | zero =>
      have hnil := List.length_eq_zero_iff.mp (Nat.le_zero.mp h)
      rw [hnil]
      rfl
  | succ rounds ih =>
      rcases Nat.lt_or_eq_of_le h with hlt | heq
      · rw [hmore rounds regex (by omega)]
        exact ih (by omega)
      · rw [← heq]

/-- What the parser of patterns consumed, without its claim on the rest. -/
theorem parseRegex_spells {p rest : List Byte} {regex : Regex}
    (h : parseRegex p = .ok ⟨regex, rest⟩) :
    (∃ consumed, p = consumed ++ rest ∧ regex.Spells consumed) ∧
      (rest = [] ∨ rest.head? = some (byte ')')) := by
  unfold parseRegex at h
  split at h
  · cases h
  · have hcaret : p = (if (p.head? == some (byte '^')) = true then [byte '^'] else []) ++
        (if (p.head? == some (byte '^')) = true then p.tail else p) := by
      split
      · next hhead => exact eq_cons_of_head? (beq_iff_eq.mp hhead)
      · rfl
    simp only at h
    generalize (if (p.head? == some (byte '^')) = true then p.tail else p) = inner at h hcaret
    rcases bind_eq_ok.mp h with ⟨⟨expression, afterExpression⟩, hparse, h⟩
    cases h
    rcases parseExpression_sound _ _ _ _ hparse with ⟨u, hinner, -, hu⟩
    refine ⟨⟨_, ?_, u, rfl, hu⟩, parseExpression_ends hparse⟩
    rw [List.append_assoc, ← hinner]
    exact hcaret

/-- The trees the parser returns are well formed. -/
theorem parseRegex_ordered {p rest : List Byte} {regex : Regex}
    (h : parseRegex p = .ok ⟨regex, rest⟩) :
    regex.expression.NonEmpty ∧ regex.expression.Forall ordered := by
  rcases (parseRegex_spells h).1 with ⟨consumed, -, u, -, hu⟩
  exact ⟨hu.nonEmpty, hu.ordered⟩

/-- The parser is sound, for every byte string: it terminates, none of its
    bounds being hit; and what it consumed is a spelling of the tree it
    returned, which has no empty alternative or sub-expression and whose ranges
    are in order, the rest being empty or starting with a closing
    parenthesis. -/
theorem parseRegex_sound (p : List Byte) :
    parseRegex p ≠ .error .outOfFuel ∧
    (∀ regex rounds, regex.length ≤ rounds →
      parseCharacterGroupItems rounds regex = parseCharacterGroupItems regex.length regex) ∧
    ∀ regex rest, parseRegex p = .ok ⟨regex, rest⟩ →
      (∃ consumed, p = consumed ++ rest ∧ regex.Spells consumed) ∧
      regex.expression.NonEmpty ∧ regex.expression.Forall ordered ∧
      (rest = [] ∨ rest.head? = some (byte ')')) := by
  refine ⟨fun h => ?_, fun regex rounds hle => parseCharacterGroupItems_eq hle,
    fun regex rest h => ?_⟩
  · unfold parseRegex at h
    split at h
    · cases h
    · rcases bind_eq_error.mp h with h | ⟨_, -, h⟩
      · exact parseExpression_fueled _ _ (Nat.lt_succ_self _) h
      · cases h
  · rcases parseRegex_spells h with ⟨hspells, hrest⟩
    rcases parseRegex_ordered h with ⟨hnonEmpty, hordered⟩
    exact ⟨hspells, hnonEmpty, hordered, hrest⟩

end Grep

end CodingChallenges
